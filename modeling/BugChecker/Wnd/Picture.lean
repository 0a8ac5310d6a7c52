import BugChecker.Wnd.Redraw

/-!
# The picture on the screen

The front buffer is right about every character that is not a zero in it. The
only characters whose look depends on more than the back buffer are those where
the cursor comes or goes, and every place that moves the cursor puts a zero at
both of them.
-/

namespace BugChecker.Wnd.Display

open Painting

variable {s s' : Display} {font : Nat → UInt32}

/-- The cursor that is shown, if it is shown, is the cursor. -/
def CursorOk (s : Display) : Prop :=
  0 ≤ s.cursorDisplayX → 0 ≤ s.cursorDisplayY →
    s.cursorDisplayX = s.cursorX ∧ s.cursorDisplayY = s.cursorY

/-- What the front buffer says has been drawn, and with the cursor where it is. -/
structure Tracked (font : Nat → UInt32) (s : Display) : Prop where
  cursor : s.CursorOk
  clean : Drawable s.size → ∀ c ∈ s.cells, Clean s.slot (s.tile font) 0 (s.frontBuffer, s.pixels) c

/-- The back buffer has a character everywhere in the window. -/
def Filled (s : Display) : Prop := ∀ c ∈ s.cells, s.backBuffer (s.slot c) ≠ 0

-- ---------------------------------------------------------------------------
-- The back buffer
-- ---------------------------------------------------------------------------

theorem toUInt16_ne_zero (c : TextCell) : c.toUInt16 ≠ 0 := by
  intro h
  have hchr : c.chr.toUInt16 = 0 := by
    rw [TextCell.toUInt16, UInt16.or_eq_zero_iff] at h
    exact h.1
  refine c.chr_ne_zero (UInt8.toNat_inj.mp ?_)
  rw [← UInt8.toNat_toUInt16, hchr]
  rfl

theorem shiftLeft_add_ne_zero (clr : UInt8) {chr : UInt16} (h : chr.toNat % 256 ≠ 0) :
    (clr.toUInt16 <<< 8) + chr ≠ 0 := by
  intro heq
  have hsum := congrArg UInt16.toNat heq
  rw [UInt16.toNat_add, UInt16.toNat_shiftLeft, Nat.shiftLeft_eq] at hsum
  simp at hsum
  omega

theorem frameCell_ne_zero (d : Contents) (x y : UInt32) : s.frameCell d x y ≠ 0 := by
  have hblank : (d.nrmClr.toUInt16 <<< 8) + 0x20 ≠ 0 := shiftLeft_add_ne_zero _ (by decide)
  have hlow : ((d.nrmClr.toUInt16 <<< 8) + 0x20) &&& 0xFF = 0x20 := by
    apply UInt16.toNat_inj.mp
    rw [UInt16.toNat_and, UInt16.toNat_add, UInt16.toNat_shiftLeft, Nat.shiftLeft_eq,
      show (0xFF : UInt16).toNat = 2 ^ 8 - 1 from rfl, Nat.and_two_pow_sub_one_eq_mod]
    simp
  have hhlp : (d.hlpClr.toUInt16 <<< 8) + 0x20 ≠ 0 := shiftLeft_add_ne_zero _ (by decide)
  have hhrz : (d.hrzClr.toUInt16 <<< 8) + 0xC4 ≠ 0 := shiftLeft_add_ne_zero _ (by decide)
  simp only [frameCell]
  split_ifs <;> simp_all

theorem Filled.write {cells : List (Nat × TextCell)} (h : s.Filled) (hw : s.write cells = some s') :
    s'.Filled := by
  rw [Display.write, Option.ite_none_right_eq_some] at hw
  obtain rfl := Option.some.inj hw.2
  intro c hc
  rcases paint_cases s.backBuffer (cells.map fun c => (c.1, c.2.toUInt16)) (s.slot c) with
    ⟨w, hw, -, hpaint⟩ | ⟨-, hpaint⟩
  · obtain ⟨t, -, rfl⟩ := List.mem_map.mp hw
    exact hpaint.trans_ne (toUInt16_ne_zero t.2)
  · exact hpaint.trans_ne (h c hc)

theorem drawFrame_filled (s : Display) (d : Contents) : (s.drawFrame d).Filled := by
  intro c hc
  rcases paint_cases s.backBuffer
    (s.cells.map fun c => (s.slot c, s.frameCell d (.ofNat c.1) (.ofNat c.2))) (s.slot c) with
    ⟨w, hw, -, hpaint⟩ | ⟨hne, -⟩
  · obtain ⟨c', -, rfl⟩ := List.mem_map.mp hw
    exact hpaint.trans_ne (frameCell_ne_zero d _ _)
  · exact absurd rfl (hne _ (List.mem_map_of_mem hc))

theorem drawAllEnd_filled {d : Contents} (h : s.drawAllEnd d = some s') : s'.Filled := by
  rw [drawAllEnd, Option.ite_none_right_eq_some] at h
  exact (s.drawFrame_filled d).write h.2

theorem write_eq {cells : List (Nat × TextCell)} (h : s.write cells = some s') :
    ∃ back, s' = { s with backBuffer := back } := by
  rw [Display.write, Option.ite_none_right_eq_some] at h
  exact ⟨_, (Option.some.inj h.2).symm⟩

theorem drawAllEnd_eq {d : Contents} (h : s.drawAllEnd d = some s') :
    ∃ back, s' = { s with backBuffer := back } := by
  rw [drawAllEnd, Option.ite_none_right_eq_some] at h
  obtain ⟨back, hback⟩ := write_eq h.2
  exact ⟨back, hback⟩

theorem Tracked.withBack (h : s.Tracked font) (back : Nat → UInt16) :
    Tracked font { s with backBuffer := back } := ⟨h.cursor, h.clean⟩

-- ---------------------------------------------------------------------------
-- The cursor
-- ---------------------------------------------------------------------------

theorem nonneg_of_toUInt32 {n : Nat} {z : Int32} (hn : n < 2 ^ 31)
    (h : UInt32.ofNat n = z.toUInt32) :
    0 ≤ z := by
  have hnat : z.toBitVec.toNat = n := by
    change z.toUInt32.toNat = n
    rw [← h, ofNat_toNat (by omega)]
  rw [Int32.le_iff_toInt_le]
  change (0 : Int) ≤ z.toBitVec.toInt
  rw [BitVec.toInt_eq_toNat_of_lt (by omega)]
  omega

theorem slot_of_hasCursor (hd : Drawable s.size) (hok : s.CursorOk) {c : Nat × Nat}
    (hc : c ∈ s.cells)
    (h : s.hasCursor c = true) : s.slot c = s.cursorIndex := by
  obtain ⟨hy, hx⟩ := mem_cells.mp hc
  have hfitsX := hd.placed.fitsX
  have hfitsY := hd.placed.fitsY
  have hwidth := hd.stride
  have hheight := s.size.fb.fbHeight.toNat_lt
  have hstride := s.size.fb.fbStride.toNat_lt
  rw [hasCursor, Bool.and_eq_true, decide_eq_true_iff, decide_eq_true_iff] at h
  obtain ⟨hcx, hcy⟩ := h
  obtain ⟨heqX, heqY⟩ := hok (nonneg_of_toUInt32 (by omega) hcx) (nonneg_of_toUInt32 (by omega) hcy)
  have hbytes := hd.bytes
  have hmul : s.size.wndHeight.toNat * s.size.wndWidth.toNat ≤
      s.size.fb.fbHeight.toNat * s.size.fb.fbWidth.toNat := Nat.mul_le_mul (by omega) (by omega)
  have hcells : (c.2 + 1) * s.size.wndWidth.toNat ≤
      s.size.wndHeight.toNat * s.size.wndWidth.toNat :=
    Nat.mul_le_mul_right _ hy
  rw [Nat.add_mul, Nat.one_mul] at hcells
  rw [Nat.mul_comm s.size.fb.fbHeight.toNat] at hmul
  rw [slot, cursorIndex, ← heqX, ← heqY, ← hcx, ← hcy, UInt32.toNat_add, UInt32.toNat_mul,
    ofNat_toNat (by omega), ofNat_toNat (by omega), Nat.mod_eq_of_lt (by omega),
    Nat.mod_eq_of_lt (by omega)]

theorem Tracked.moved (h : s.Tracked font) (hcursor : s'.CursorOk) (hsize : s'.size = s.size)
    (hpixels : s'.pixels = s.pixels)
    (hfront : s'.frontBuffer = Function.update
      (Function.update s.frontBuffer s.cursorIndex 0) s'.cursorIndex 0) :
    s'.Tracked font := by
  refine ⟨hcursor, fun hd c hc hne => ?_⟩
  have hcells : s'.cells = s.cells := by rw [cells, cells, hsize]
  have hslot : s'.slot c = s.slot c := by rw [slot, slot, hsize]
  have hc' : c ∈ s.cells := hcells ▸ hc
  have hd' : Drawable s.size := hsize ▸ hd
  have hnew : s'.slot c ≠ s'.cursorIndex := by
    intro heq
    apply hne
    change s'.frontBuffer (s'.slot c) = 0
    rw [hfront, heq, Function.update_self]
  have hold : s.slot c ≠ s.cursorIndex := by
    intro heq
    apply hne
    change s'.frontBuffer (s'.slot c) = 0
    rw [hfront, Function.update_of_ne hnew, hslot, heq, Function.update_self]
  have hsame : s'.frontBuffer (s'.slot c) = s.frontBuffer (s.slot c) := by
    rw [hfront, Function.update_of_ne hnew, hslot, Function.update_of_ne hold]
  -- the cursor is at neither of its places, so the character looks as it did
  have hoff' : s'.hasCursor c = false := by
    by_contra hon
    exact hnew (slot_of_hasCursor hd hcursor hc (by simpa using hon))
  have hoff : s.hasCursor c = false := by
    by_contra hon
    exact hold (slot_of_hasCursor hd' h.cursor hc' (by simpa using hon))
  have htile : ∀ cell, s'.tile font c cell = s.tile font c cell := by
    intro cell
    rw [tile, tile, hoff, hoff', hsize]
  change Holds s'.pixels (s'.tile font c (s'.frontBuffer (s'.slot c)))
  rw [hpixels, htile, hsame]
  apply h.clean hd' c hc'
  change s.frontBuffer (s.slot c) ≠ 0
  rw [← hsame]
  exact hne

theorem eraseCursor_eq (h : s.eraseCursor = some s') :
    s' = { s with frontBuffer := Function.update s.frontBuffer s.cursorIndex 0 } := by
  rw [eraseCursor, Option.ite_none_right_eq_some] at h
  exact (Option.some.inj h.2).symm

theorem nonneg_of_ite {p : Prop} [Decidable p] {z new : Int32}
    (h : 0 ≤ if p ∧ z ≥ 0 then new else z) : 0 ≤ z := by
  split at h
  · next hz => exact hz.2
  · exact h

theorem moveCursor_cursor (h : s.CursorOk) (newX newY : Int32) :
    (s.moveCursor newX newY).CursorOk := by
  intro hx hy
  have hx' : s.cursorDisplayX ≥ 0 := nonneg_of_ite (p := True) (by simpa [moveCursor] using hx)
  have hy' : s.cursorDisplayY ≥ 0 := nonneg_of_ite hy
  obtain ⟨-, heqY⟩ := h hx' hy'
  by_cases hnew : newY ≥ 0
  · simp [moveCursor, hx', hy', hnew]
  · simp [moveCursor, hx', hnew, heqY]

theorem Tracked.changeCursorX (h : s.Tracked font) {newX newY : Int32}
    (hmove : s.changeCursorX newX newY = some s') :
    s'.Tracked font ∧ s'.size = s.size ∧ s'.backBuffer = s.backBuffer := by
  obtain ⟨t, herase, hmove⟩ := Option.bind_eq_some_iff.mp hmove
  obtain rfl := eraseCursor_eq herase
  obtain rfl := eraseCursor_eq hmove
  exact ⟨h.moved (moveCursor_cursor h.cursor newX newY) rfl rfl rfl, rfl, rfl⟩

-- ---------------------------------------------------------------------------
-- The operations
-- ---------------------------------------------------------------------------

theorem Filled.congr (h : s.Filled) (hsize : s'.size = s.size)
    (hback : s'.backBuffer = s.backBuffer) :
    s'.Filled := by
  unfold Filled cells slot at *
  rw [hsize, hback]
  exact h

theorem drawAllFinal_filled (h : s.Filled) : (s.drawAllFinal font).Filled := by
  unfold drawAllFinal
  split
  · exact h
  · exact h

theorem Tracked.drawAllFinal (h : s.Tracked font) (hf : s.Filled) :
    (s.drawAllFinal font).Tracked font := by
  unfold Display.drawAllFinal
  split
  · refine ⟨h.cursor, fun hd c hc _ => ?_⟩
    have hshown :=
      refresh_shown (tiling hd) hf (fun _ hc => hc) (fun c hc => .inr ⟨hc, h.clean hd c hc⟩) c hc
    exact hshown.1 ▸ hshown.2
  · exact h

theorem not_nonneg : ¬(0 : Int32) ≤ -1 := by decide

theorem checkDivLineYs_cursor (h : s.CursorOk) (codeCursorY : Option Int32) :
    (s.checkDivLineYs codeCursorY).CursorOk := by
  cases codeCursorY with
  | none => exact h
  | some y =>
    intro hx
    exact absurd hx not_nonneg

theorem drawAllStart_tracked (font : Nat → UInt32) (h : s.CursorOk) (found : Found) :
    (s.drawAllStart found).Tracked font := by
  refine ⟨?_, fun _ c _ hne => absurd rfl hne⟩
  apply checkDivLineYs_cursor (s := { s with size := _ })
  exact h

theorem Tracked.switchBetweenLogCode (h : s.Tracked font) {shows : Option Found}
    (hswitch : s.switchBetweenLogCode shows = some s') : s'.Tracked font := by
  have hmove : ∀ t : Display, t.Tracked font → t.switchBetweenLogCode none = some s' →
      s'.Tracked font := by
    intro t ht hmove
    unfold Display.switchBetweenLogCode at hmove
    cases hfocus : t.focus with
    | log =>
      simp only [hfocus] at hmove
      obtain ⟨u, hu, rfl⟩ := Option.map_eq_some_iff.mp hmove
      have hu' : u.Tracked font := by
        refine (Tracked.changeCursorX ?_ hu).1
        exact ⟨ht.cursor, ht.clean⟩
      exact ⟨hu'.cursor, hu'.clean⟩
    | code =>
      simp only [hfocus] at hmove
      obtain ⟨u, hu, rfl⟩ := Option.map_eq_some_iff.mp hmove
      have hu' : u.Tracked font := by
        refine (Tracked.changeCursorX ?_ hu).1
        exact ⟨ht.cursor, ht.clean⟩
      exact ⟨hu'.cursor, hu'.clean⟩
  cases shows with
  | none => exact hmove s h hswitch
  | some found => exact hmove _ (drawAllStart_tracked font h.cursor found) hswitch

theorem showCursor_cursor (s : Display) (state : Bool) : (s.showCursor state).CursorOk := by
  cases state with
  | true => exact fun _ _ => ⟨rfl, rfl⟩
  | false =>
    intro hx
    exact absurd hx not_nonneg

theorem blink_cases {state : Bool} (h : s.blink font state = some s') :
    s' = s ∨ s' = Display.drawAllFinal { s.showCursor state with
      frontBuffer := Function.update s.frontBuffer s.cursorIndex 0 } font := by
  unfold blink at h
  split at h
  · dsimp only at h
    split at h
    · obtain ⟨t, ht, rfl⟩ := Option.map_eq_some_iff.mp h
      exact .inr (congrArg (drawAllFinal · font) (eraseCursor_eq ht))
    · exact .inl (Option.some.inj h).symm
  · exact .inl (Option.some.inj h).symm

theorem Tracked.showCursor (h : s.Tracked font) (state : Bool) :
    Tracked font { s.showCursor state with
      frontBuffer := Function.update s.frontBuffer s.cursorIndex 0 } := by
  refine h.moved (showCursor_cursor s state) rfl rfl ?_
  exact (Function.update_idem ..).symm

-- ---------------------------------------------------------------------------
-- Runs
-- ---------------------------------------------------------------------------

theorem drawInterface_ok (h : s.CursorOk) {i : Interface}
    (hstep : s.drawInterface font i = some s') :
    s'.Tracked font ∧ s'.Filled := by
  obtain ⟨t, hend, rfl⟩ := Option.map_eq_some_iff.mp hstep
  have hfirst := drawAllStart_tracked font
    (s := { s with pixels := i.pixels, size := ⟨s.size.fb, i.wndWidth, i.wndHeight⟩ }) h i.first
  have hfilled := drawAllEnd_filled hend
  obtain ⟨back, rfl⟩ := drawAllEnd_eq hend
  have ht := (drawAllStart_tracked font hfirst.cursor i.second).withBack back
  exact ⟨ht.drawAllFinal hfilled, drawAllFinal_filled hfilled⟩

theorem step_ok (h : s.Tracked font) (hf : s.Filled) {op : DisplayOp}
    (hstep : s.step font op = some s') :
    s'.Tracked font ∧ s'.Filled := by
  cases op with
  | drawInterface i => exact drawInterface_ok h.cursor hstep
  | esc shows contents =>
    obtain ⟨t, hswitch, hstep⟩ := Option.bind_eq_some_iff.mp hstep
    obtain ⟨u, hend, rfl⟩ := Option.map_eq_some_iff.mp hstep
    have hfilled := drawAllEnd_filled hend
    obtain ⟨back, rfl⟩ := drawAllEnd_eq hend
    exact ⟨((h.switchBetweenLogCode hswitch).withBack back).drawAllFinal hfilled,
      drawAllFinal_filled hfilled⟩
  | drawAllEnd contents =>
    have hfilled := drawAllEnd_filled hstep
    obtain ⟨back, rfl⟩ := drawAllEnd_eq hstep
    exact ⟨h.withBack back, hfilled⟩
  | drawAllFinal =>
    obtain rfl := Option.some.inj hstep
    exact ⟨h.drawAllFinal hf, drawAllFinal_filled hf⟩
  | write cells =>
    have hfilled := hf.write hstep
    obtain ⟨back, rfl⟩ := write_eq hstep
    exact ⟨h.withBack back, hfilled⟩
  | changeCursorX newX newY =>
    obtain ⟨ht, hsize, hback⟩ := h.changeCursorX hstep
    exact ⟨ht, hf.congr hsize hback⟩
  | blink state =>
    rcases blink_cases hstep with rfl | rfl
    · exact ⟨h, hf⟩
    · exact ⟨(h.showCursor state).drawAllFinal hf, drawAllFinal_filled hf⟩

theorem run_ok (h : s.Tracked font) (hf : s.Filled) {ops : List DisplayOp}
    (hrun : s.run font ops = some s') : s'.Tracked font ∧ s'.Filled := by
  induction ops generalizing s with
  | nil =>
    obtain rfl := Option.some.inj hrun
    exact ⟨h, hf⟩
  | cons op ops ih =>
    obtain ⟨t, hstep, hrun⟩ := Option.bind_eq_some_iff.mp hrun
    obtain ⟨ht, hft⟩ := step_ok h hf hstep
    exact ih ht hft hrun

theorem start_run_ok {size : VideoSize} {pixels : Nat → UInt32} {i : Interface}
    {ops : List DisplayOp}
    (hrun : (start size pixels).run font (.drawInterface i :: ops) = some s) :
      s.Tracked font ∧ s.Filled := by
  obtain ⟨t, hstep, hrun⟩ := Option.bind_eq_some_iff.mp hrun
  have hstart : (start size pixels).CursorOk := fun hx => absurd hx not_nonneg
  obtain ⟨ht, hf⟩ := drawInterface_ok hstart hstep
  exact run_ok ht hf hrun

/-- Whatever was done since the first break, drawing what has changed gives what drawing everything
would give. -/
theorem run_drawAllFinal_redrawn {size : VideoSize} {pixels : Nat → UInt32} {i : Interface}
    {ops : List DisplayOp} (hrun : (start size pixels).run font (.drawInterface i :: ops) = some s)
    (hd : Drawable s.size) : (s.drawAllFinal font).pixels = s.redrawn font := by
  obtain ⟨h, hf⟩ := start_run_ok hrun
  rw [drawAllFinal, if_pos hd.check]
  exact refresh_eq_redraw (tiling hd) hf (h.clean hd)

/-- An interface of 80 by 25 characters on a screen of 1024 by 768, with the prompt. -/
def promptInterface : Interface where
  pixels _ := 0
  wndWidth := 80
  wndHeight := 25
  first := ⟨(0, 0), none⟩
  second := ⟨(0, 0), none⟩
  contents := ⟨0x07, 0x30, 0x02, [7, 13, 17], [(22 * 80 + 1, ⟨0x3A, 0x07, by decide⟩)]⟩

def typing : List DisplayOp :=
  [.blink true, .changeCursorX 3 (-1), .write [(22 * 80 + 2, ⟨0x47, 0x07, by decide⟩)]]

def promptSize : VideoSize := ⟨Wnd.screen 4096, 80, 25⟩

theorem drawable_promptSize : Drawable promptSize :=
  ⟨by decide, by decide, by decide, by decide, by decide, by decide, by decide⟩

theorem typing_run :
    ((start promptSize fun _ => 0).run (fun _ => 0) (.drawInterface promptInterface :: typing)).map
    (·.size) = some promptSize := by
  rfl

theorem run_drawAllFinal_redrawn_typing :
    ∃ s, (start promptSize fun _ => 0).run (fun _ => 0) (.drawInterface promptInterface :: typing) =
      some s ∧
      (s.drawAllFinal fun _ => 0).pixels = s.redrawn fun _ => 0 := by
  obtain ⟨s, hs, hsize⟩ := Option.map_eq_some_iff.mp typing_run
  exact ⟨s, hs, run_drawAllFinal_redrawn hs (hsize ▸ drawable_promptSize)⟩

theorem drawAllFinal_shown (h : s.Tracked font) (hf : s.Filled)
    (hd : Drawable s.size) {c : Nat × Nat}
    (hc : c ∈ s.cells) :
      Holds (s.drawAllFinal font).pixels (s.tile font c (s.backBuffer (s.slot c))) := by
  rw [Display.drawAllFinal, if_pos hd.check]
  exact (refresh_shown (tiling hd) hf (fun _ hc => hc)
    (fun c hc => .inr ⟨hc, h.clean hd c hc⟩) c hc).2

/-- Every pixel of the window is that of a character of the back buffer, with the cursor where it
is. -/
theorem run_drawAllFinal_picture {size : VideoSize} {pixels : Nat → UInt32} {i : Interface}
    {ops : List DisplayOp} (hrun : (start size pixels).run font (.drawInterface i :: ops) = some s)
    (hd : Drawable s.size) {px py : Nat} (hpx : px < 9 * s.size.wndWidth.toNat)
    (hpy : py < 16 * s.size.wndHeight.toNat) :
    (s.drawAllFinal font).pixels (s.pixelOffset px py) = s.picture font px py := by
  obtain ⟨h, hf⟩ := start_run_ok hrun
  have hc : (px / 9, py / 16) ∈ s.cells :=
    mem_cells.mpr ⟨by dsimp only; omega, by dsimp only; omega⟩
  have hholds := drawAllFinal_shown h hf hd hc _
    ((mem_tile hd hc _).mpr ⟨py % 16, by omega, px % 9, by omega, rfl⟩)
  dsimp only at hholds
  rw [Nat.div_add_mod, Nat.div_add_mod, Glyph.foreColor_eq, Glyph.backColor_eq] at hholds
  rw [hholds, picture]
  split <;> rfl

/-- The last pixel of the window. -/
theorem run_drawAllFinal_picture_typing :
    ∃ s, (start promptSize fun _ => 0).run (fun _ => 0) (.drawInterface promptInterface :: typing) =
      some s ∧
      (s.drawAllFinal fun _ => 0).pixels (s.pixelOffset 719 399) =
      s.picture (fun _ => 0) 719 399 := by
  obtain ⟨s, hs, hsize⟩ := Option.map_eq_some_iff.mp typing_run
  refine ⟨s, hs, run_drawAllFinal_picture hs (hsize ▸ drawable_promptSize) ?_ ?_⟩
  · rw [hsize]
    decide
  · rw [hsize]
    decide

end BugChecker.Wnd.Display
