import BugChecker.Lib.Runs
import BugChecker.Wnd.Focus

/-!
# The cursor stays in the text

`CheckDivLineYs` changes nothing when it finds the layout that it left, so that
every step of the keyboard loop either keeps the cursor where it was, or puts it
to the beginning for the new layout. The script window keeps a place of the
plain text editor that it is, and the input line one of its text.
-/

namespace BugChecker.Wnd

namespace Layout

variable {l l' : Layout}

theorem shrink_spec (fits : Nat → Bool) (hm : fits m = true) (hle : m ≤ n) (hpos : 0 < m) :
    m ≤ shrink fits n ∧ shrink fits n ≤ n ∧ fits (shrink fits n) = true := by
  induction n with
  | zero => omega
  | succ n ih =>
    unfold shrink
    split
    · next hfits => exact ⟨hle, Nat.le_refl _, hfits⟩
    · next hfits =>
      have hne : m ≠ n + 1 := fun heq => hfits (heq ▸ hm)
      obtain ⟨hge, hle', hfits'⟩ := ih (by omega)
      exact ⟨hge, by omega, hfits'⟩

theorem checkWndWidthHeight_iff (fb : FrameBuffer) (hw : w ≤ 160) (hh : h ≤ 160) :
    checkWndWidthHeight fb (.ofNat w) (.ofNat h) = true ↔
      fb.fbWidth * fb.fbHeight * 4 ≤ fb.fbMapSize ∧ w * h ≤ 16384 ∧ w * h * 576 ≤ 4194304 ∧
        w * 9 ≤ fb.fbWidth.toNat ∧ h * 16 ≤ fb.fbHeight.toNat := by
  have hsize : w * h ≤ 160 * 160 := Nat.mul_le_mul hw hh
  have hlt : ∀ n ≤ 160, (UInt32.ofNat n).toNat = n := by
    intro n hn
    refine UInt32.toNat_ofNat_of_lt' (Nat.lt_of_le_of_lt hn (by decide))
  have h9 : glyphWidth.toNat = 9 := rfl
  have h16 : glyphHeight.toNat = 16 := rfl
  have h4 : ((32 / 8 : UInt32)).toNat = 4 := rfl
  have hchr : (UInt32.ofNat w * UInt32.ofNat h).toNat = w * h := by
    rw [UInt32.toNat_mul, hlt w hw, hlt h hh, Nat.mod_eq_of_lt (by omega)]
  have hpx : (UInt32.ofNat w * UInt32.ofNat h * glyphWidth * glyphHeight * (32 / 8)).toNat =
      w * h * 576 := by
    simp only [UInt32.toNat_mul, hlt w hw, hlt h hh, h9, h16, h4]
    omega
  have hwpx : (UInt32.ofNat w * glyphWidth).toNat = w * 9 := by
    rw [UInt32.toNat_mul, hlt w hw, h9, Nat.mod_eq_of_lt (by omega)]
  have hhpx : (UInt32.ofNat h * glyphHeight).toNat = h * 16 := by
    rw [UInt32.toNat_mul, hlt h hh, h16, Nat.mod_eq_of_lt (by omega)]
  have hdim : textBuffersDim.toNat = 16384 := rfl
  have hbuf : restoreBufferSize.toNat = 4194304 := rfl
  simp only [checkWndWidthHeight, Bool.and_eq_true, Bool.not_eq_true', decide_eq_false_iff_not,
    gt_iff_lt, UInt32.lt_iff_toNat_lt, UInt32.le_iff_toNat_le, hchr, hpx, hwpx, hhpx, hdim, hbuf,
    Nat.not_lt, and_assoc]

theorem checkWndWidthHeight_mono (fb : FrameBuffer) (hw : w' ≤ w) (hw160 : w ≤ 160) (hh : h' ≤ h)
    (hh160 : h ≤ 160) (hfits : checkWndWidthHeight fb (.ofNat w) (.ofNat h) = true) :
    checkWndWidthHeight fb (.ofNat w') (.ofNat h') = true := by
  rw [checkWndWidthHeight_iff fb hw160 hh160] at hfits
  obtain ⟨hmap, hchr, hpx, hwidth, hheight⟩ := hfits
  have hmul : w' * h' ≤ w * h := Nat.mul_le_mul hw hh
  rw [checkWndWidthHeight_iff fb (by omega) (by omega)]
  exact ⟨hmap, Nat.le_trans hmul hchr, Nat.le_trans (Nat.mul_le_mul_right _ hmul) hpx,
    Nat.le_trans (Nat.mul_le_mul_right _ hw) hwidth,
    Nat.le_trans (Nat.mul_le_mul_right _ hh) hheight⟩

theorem lineBefore_withHeights (py : DivVar) (pys : List DivVar) (back back' : Int)
    (h : pys.map l.get = pys.map l'.get) :
    lineBefore py (l.withHeights back pys) = lineBefore py (l'.withHeights back' pys) := by
  induction pys generalizing back back' with
  | nil => rfl
  | cons q pys ih =>
    cases pys with
    | nil => rfl
    | cons q' pys =>
      obtain ⟨hq, htl⟩ := List.cons.inj h
      have hrest := ih (l.get q) (l'.get q) htl
      simp only [withHeights, lineBefore] at hrest ⊢
      rw [hrest, hq]

theorem lineBefore_of_not_mem (pys : List DivVar) (back : Int) (hpy : py ∉ pys) :
    lineBefore py (l.withHeights back pys) = none := by
  induction pys generalizing back with
  | nil => rfl
  | cons q pys ih =>
    cases pys with
    | nil => rfl
    | cons q' pys =>
      have hrest := ih (l.get q) fun hmem => hpy (List.mem_cons_of_mem _ hmem)
      have hne : q' ≠ py := by
        rintro rfl
        exact hpy (List.mem_cons_of_mem _ List.mem_cons_self)
      simp only [withHeights, lineBefore, if_neg hne] at hrest ⊢
      exact hrest

theorem lineBefore_hidden (h : l.codeLogDivLineY < 0) :
    lineBefore .codeLog l.getVisibleDivLines = none := by
  refine lineBefore_of_not_mem l.visibleVars 0 fun hmem => ?_
  rw [mem_visibleVars] at hmem
  have hnonneg : 0 ≤ l.get .codeLog := by simpa [visible] using hmem
  exact absurd h (Int.not_lt.mpr hnonneg)

theorem reset_congr (hvars : l.visibleVars = l'.visibleVars) (hseen : l.seen = l'.seen) :
    Cursors.reset l = Cursors.reset l' := by
  obtain ⟨-, hseen⟩ := Prod.mk.inj hseen
  obtain ⟨hheight, hlines⟩ := Prod.mk.inj hseen
  have hbefore : lineBefore .codeLog l.getVisibleDivLines =
      lineBefore .codeLog l'.getVisibleDivLines := by
    unfold lines at hlines
    unfold getVisibleDivLines
    rw [hvars] at hlines ⊢
    exact lineBefore_withHeights .codeLog l'.visibleVars 0 0 hlines
  unfold Cursors.reset
  rw [hbefore, hheight]

theorem toggle_visible (hpy : py = .regsDisasm ∨ py = .disasmCode ∨ py = .codeLog)
    (hne : l.get py ≠ 0)
    (q : DivVar) : (l.toggle py).visible q = if q = py then !l.visible q else l.visible q := by
  unfold visible toggle
  have hlast : py ≠ .last := by
    rintro rfl
    simp at hpy
  rw [get_set l py q _ (by rcases hpy with rfl | rfl | rfl <;> simp)]
  split
  · next hq =>
    subst hq
    by_cases hnonneg : l.get q ≥ 0
    · simp [hlast, hnonneg]
      omega
    · simp [hlast, hnonneg]
      omega
  · rfl

theorem toggle_seen (hpy : py = .regsDisasm ∨ py = .disasmCode ∨ py = .codeLog) (hne : l.get py ≠ 0)
    (hvars : l'.visibleVars = (l.toggle py).visibleVars) : l.seen ≠ l'.seen := by
  intro heq
  have hlength : l.visibleVars.length = (l.toggle py).visibleVars.length := by
    obtain ⟨-, heq⟩ := Prod.mk.inj heq
    obtain ⟨-, heq⟩ := Prod.mk.inj heq
    have hlen := congrArg List.length heq
    simpa only [lines, List.length_map, hvars] using hlen
  unfold visibleVars at hlength
  simp only [List.filter, toggle_visible hpy hne] at hlength
  generalize l.visible .first = a, l.visible .regsDisasm = b, l.visible .disasmCode = c,
    l.visible .codeLog = d, l.visible .last = e at hlength
  rcases hpy with rfl | rfl | rfl <;> revert hlength <;> revert a b c d e <;> decide

theorem get_of_seen (hvars : l'.visibleVars = l.visibleVars) (hseen : l.seen = l'.seen)
    (hpy : py ∈ l.visibleVars) : l'.get py = l.get py := by
  obtain ⟨-, hseen⟩ := Prod.mk.inj hseen
  obtain ⟨-, hlines⟩ := Prod.mk.inj hseen
  unfold lines at hlines
  rw [hvars] at hlines
  exact (List.map_inj_left.mp hlines py hpy).symm

theorem codeArea_congr (hvars : l'.visibleVars = l.visibleVars) (hseen : l.seen = l'.seen) :
    l'.codeArea = l.codeArea := by
  have hwidth : l.wndWidth = l'.wndWidth := (Prod.mk.inj hseen).1
  have hget : ∀ py, py ≠ .last → (l'.get py < 0 ↔ l.get py < 0) ∧
      (0 ≤ l.get py → l'.get py = l.get py) := by
    intro py hlast
    have hmem : py ∈ l'.visibleVars ↔ py ∈ l.visibleVars := by rw [hvars]
    rw [mem_visibleVars, mem_visibleVars] at hmem
    simp only [visible, hlast, decide_false, Bool.false_or, decide_eq_true_eq] at hmem
    refine ⟨by omega, fun hnonneg => get_of_seen hvars hseen ?_⟩
    rw [mem_visibleVars]
    simp [visible, hnonneg]
  obtain ⟨hr, hr'⟩ := hget .regsDisasm (by decide)
  obtain ⟨hd, hd'⟩ := hget .disasmCode (by decide)
  obtain ⟨hc, hc'⟩ := hget .codeLog (by decide)
  simp only [get] at hr hr' hd hd' hc hc'
  unfold codeArea
  simp only [hr, hd, hc, hwidth]
  split
  · rfl
  · next hcode =>
    rw [hc' (by omega)]
    split
    · split
      · rfl
      · next hregs => rw [hr' (by omega)]
    · next hdisasm => rw [hd' (by omega)]

theorem lineBefore_mem (h : lineBefore py v = some y) : ∃ d ∈ v, d.y = y := by
  induction v with
  | nil => cases h
  | cons d ds ih =>
    cases ds with
    | nil => cases h
    | cons next ds =>
      unfold lineBefore at h
      split at h
      · exact ⟨d, List.mem_cons_self, Option.some.inj h⟩
      · obtain ⟨x, hx, hy⟩ := ih h
        exact ⟨x, List.mem_cons_of_mem _ hx, hy⟩

theorem visibleVars_congr (h : ∀ py, l'.visible py = l.visible py) :
    l'.visibleVars = l.visibleVars := by
  unfold visibleVars
  rw [funext h]

theorem withSize_visibleVars (hfits : l.Fits) (hpy : py = .disasmCode ∨ py = .codeLog)
    (hget : 0 ≤ l.get py) (newValue : Nat) :
      (l.withSize py newValue).visibleVars = l.visibleVars := by
  unfold withSize
  split
  · next prev hprev =>
    obtain ⟨d, hd, rfl⟩ := lineBefore_mem hprev
    have hnonneg : 0 ≤ d.y := by
      rw [withHeights_y hd]
      refine hfits.get_nonneg ?_
      rw [← getVisibleDivLines_py]
      exact List.mem_map_of_mem hd
    refine visibleVars_congr fun q => ?_
    unfold visible
    rw [get_set l py q _ (by rcases hpy with rfl | rfl <;> simp)]
    split
    · next hq =>
      subst hq
      have hnew : 0 ≤ d.y + newValue + 1 := by omega
      simp [hget, hnew]
    · rfl
  · rfl

theorem withRegs_visibleVars (b : Bool) (l : Layout) :
    (l.withRegs b (l.regsDisasmDivLineY < 0)).visibleVars = l.visibleVars := by
  refine visibleVars_congr fun q => ?_
  unfold visible
  cases q with
  | regsDisasm =>
    have hiff : (l.withRegs b (l.regsDisasmDivLineY < 0)).get .regsDisasm ≥ 0 ↔
        l.get .regsDisasm ≥ 0 := by
      simp only [get, withRegs, decide_eq_true_eq]
      split <;> omega
    rw [decide_eq_decide.mpr hiff]
  | _ => rfl

theorem get_ne_zero (hgaps : Gaps l.getVisibleDivLines) (hpy : py = .disasmCode ∨ py = .codeLog) :
    l.get py ≠ 0 := by
  intro hzero
  unfold getVisibleDivLines visibleVars visible Gaps at hgaps
  rcases hpy with rfl | rfl <;>
    by_cases hr : l.regsDisasmDivLineY ≥ 0 <;> by_cases hd : l.disasmCodeDivLineY ≥ 0 <;>
    by_cases hc : l.codeLogDivLineY ≥ 0 <;> simp only [get] at hzero <;>
    simp [hr, hd, hc, List.filter, get, withHeights, Gap, DivLine.canBeMoved] at hgaps <;> omega

end Layout

namespace Ui

variable {s s' s'' : Ui} {fb : FrameBuffer} {l : Layout} {b : Bool}

-- ---------------------------------------------------------------------------
-- The layout at the keyboard
-- ---------------------------------------------------------------------------

/-- Sizes that the commands accept, on a screen that has room for them. -/
structure Dims (fb : FrameBuffer) (w h : Nat) : Prop where
  width_ge : 80 ≤ w
  width_le : w ≤ 160
  height_ge : 25 ≤ h
  height_le : h ≤ 160
  fits : checkWndWidthHeight fb (.ofNat w) (.ofNat h) = true

/-- The registers have their rows. -/
structure Sized (fb : FrameBuffer) (regs32 : Bool) (l : Layout) : Prop where
  dims : Dims fb l.wndWidth l.wndHeight
  regs : l.regsDisasmDivLineY.natAbs = Layout.regsRows l.wndWidth regs32 + 1

theorem Sized.roomy (h : Sized fb b l) : l.Roomy := by
  have hrows := (Layout.regsRows_bounds h.dims.width_ge h.dims.width_le b).2
  have hregs := h.regs
  exact ⟨h.dims.height_ge, by omega⟩

/-- The layout that `CheckDivLineYs` left. -/
structure Seen (s : Ui) : Prop where
  roomy : s.layout.Roomy
  gaps : Layout.Gaps s.layout.getVisibleDivLines
  prev : s.prev = s.layout.seen

theorem Seen.check_eq_self (h : s.Seen) : s.checkDivLineYs none = s := by
  unfold checkDivLineYs
  dsimp only
  rw [Layout.arrange_of_gaps h.roomy.fits h.gaps, if_neg (not_not.mpr h.prev), ← h.prev]

theorem checkDivLineYs_layout (s : Ui) (keep : Option DivVar) :
    (s.checkDivLineYs keep).layout = s.layout.arrange keep :=
  rfl

theorem checkDivLineYs_regs32 (s : Ui) (keep : Option DivVar) :
    (s.checkDivLineYs keep).regs32 = s.regs32 :=
  rfl

/-- Texts and focus are the same, and the TABs may be forgotten. -/
structure SameText (s s' : Ui) : Prop where
  focus : s'.focus = s.focus
  regs32 : s'.regs32 = s.regs32
  contents : s'.contents = s.contents
  posX : s'.posX = s.posX
  posY : s'.posY = s.posY
  text : s'.text = s.text
  offset : s'.offset = s.offset
  historyPos : s'.historyPos = s.historyPos
  tabs : s'.tabData = s.tabData ∨ s'.tabData.text = []

theorem SameText.trans (h : SameText s s') (h' : SameText s' s'') : SameText s s'' where
  focus := h'.focus.trans h.focus
  regs32 := h'.regs32.trans h.regs32
  contents := h'.contents.trans h.contents
  posX := h'.posX.trans h.posX
  posY := h'.posY.trans h.posY
  text := h'.text.trans h.text
  offset := h'.offset.trans h.offset
  historyPos := h'.historyPos.trans h.historyPos
  tabs := by
    rcases h'.tabs with htabs | htabs
    · rw [htabs]
      exact h.tabs
    · exact .inr htabs

/-- The cursor stays with the layout, and is reset for another one. -/
structure Tracks (s s' : Ui) : Prop where
  seen : s'.Seen
  texts : SameText s s'
  visibleVars : s.layout.seen = s'.layout.seen → s'.layout.visibleVars = s.layout.visibleVars
  cursors : s'.cursors = if s.layout.seen ≠ s'.layout.seen then .reset s'.layout else s.cursors

theorem tracks_check (h : s.Seen) (hroomy : l.Roomy) (keep : Option DivVar)
    (hvars : s.layout.seen = (l.arrange keep).seen → l.visibleVars = s.layout.visibleVars) :
    Tracks s ({ s with layout := l }.checkDivLineYs keep) where
  seen := by
    have harr := Layout.arrange_spec hroomy.fits keep
    refine ⟨⟨?_, ?_⟩, harr.gaps, rfl⟩
    · exact harr.wndHeight ▸ hroomy.wndHeight_ge
    · exact harr.regs ▸ hroomy.regs_le
  texts := ⟨rfl, rfl, rfl, rfl, rfl, rfl, rfl, rfl, .inl rfl⟩
  visibleVars := fun heq => (Layout.arrange_spec hroomy.fits keep).visibleVars.trans (hvars heq)
  cursors := by
    unfold checkDivLineYs
    rw [← h.prev]

theorem Seen.tracks (h : s.Seen) : Tracks s s where
  seen := h
  texts := ⟨rfl, rfl, rfl, rfl, rfl, rfl, rfl, rfl, .inl rfl⟩
  visibleVars := fun _ => rfl
  cursors := by rw [if_neg (not_not.mpr rfl)]

theorem Tracks.trans (h : Tracks s s') (h' : Tracks s' s'')
    (hvars : s'.layout.visibleVars = s''.layout.visibleVars)
    (hseen : s.layout.seen ≠ s'.layout.seen → s.layout.seen ≠ s''.layout.seen) : Tracks s s'' where
  seen := h'.seen
  texts := h.texts.trans h'.texts
  visibleVars := fun heq => by
    have heq' : s.layout.seen = s'.layout.seen := by
      by_contra hne
      exact hseen hne heq
    rw [← hvars, h.visibleVars heq']
  cursors := by
    rw [h'.cursors, h.cursors]
    by_cases heq : s.layout.seen = s'.layout.seen
    · rw [if_neg (not_not.mpr heq), heq]
    · rw [if_pos heq, if_pos (hseen heq)]
      split
      · rfl
      · next heq' => exact Layout.reset_congr hvars (not_not.mp heq')

theorem Tracks.drawAllEnd (h : Tracks s s') : Tracks s s'.drawAllEnd where
  seen := ⟨h.seen.roomy, h.seen.gaps, h.seen.prev⟩
  texts := h.texts.trans ⟨rfl, rfl, rfl, rfl, rfl, rfl, rfl, rfl, .inr rfl⟩
  visibleVars := h.visibleVars
  cursors := h.cursors

/-- The state of the layout at the keyboard. -/
structure Settled (fb : FrameBuffer) (s : Ui) : Prop where
  seen : s.Seen
  sized : Sized fb s.regs32 s.layout

theorem Sized.arrange (h : Sized fb b l) (keep : Option DivVar) : Sized fb b (l.arrange keep) := by
  obtain ⟨hwidth, hheight, hregs, -⟩ := Layout.arrange_spec h.roomy.fits keep
  constructor
  · rw [hwidth, hheight]
    exact h.dims
  · rw [hregs, hwidth]
    exact h.regs

theorem Sized.set (h : Sized fb b l) (hpy : py = .disasmCode ∨ py = .codeLog) (y : Int) :
    Sized fb b (l.set py y) := by
  rcases hpy with rfl | rfl <;> exact ⟨h.dims, h.regs⟩

theorem Settled.check (h : Settled fb s) (hl : Sized fb s.regs32 l) (keep : Option DivVar)
    (hvars : s.layout.seen = (l.arrange keep).seen → l.visibleVars = s.layout.visibleVars) :
    Settled fb ({ s with layout := l }.checkDivLineYs keep) ∧
      Tracks s ({ s with layout := l }.checkDivLineYs keep) := by
  have htracks := tracks_check h.seen hl.roomy keep hvars
  exact ⟨⟨htracks.seen, hl.arrange keep⟩, htracks⟩

theorem drawInterface_layout (s : Ui) :
    s.drawInterface.layout = s.layout.drawInterface s.regs32 := rfl

theorem Seen.drawInterface (h : s.Seen) (hdims : Dims fb s.layout.wndWidth s.layout.wndHeight) :
    Settled fb s.drawInterface ∧ Tracks s s.drawInterface ∧
      s.drawInterface.layout.visibleVars = s.layout.visibleVars ∧
      s.drawInterface.layout.wndWidth = s.layout.wndWidth ∧
      s.drawInterface.layout.wndHeight = s.layout.wndHeight := by
  have heq : s.drawInterface = ({ s with
      layout := s.layout.withRegs s.regs32 (s.layout.regsDisasmDivLineY < 0) }.checkDivLineYs
        none).drawAllEnd := by
    unfold Ui.drawInterface drawAllStart
    rw [h.check_eq_self]
  have hnew : Sized fb s.regs32 (s.layout.withRegs s.regs32 (s.layout.regsDisasmDivLineY < 0)) := by
    refine ⟨hdims, ?_⟩
    unfold Layout.withRegs
    dsimp only
    split <;> omega
  have htracks := tracks_check h hnew.roomy none fun _ =>
    Layout.withRegs_visibleVars s.regs32 s.layout
  have harr := Layout.arrange_spec hnew.roomy.fits none
  rw [heq]
  exact ⟨⟨htracks.drawAllEnd.seen, hnew.arrange none⟩, htracks.drawAllEnd,
    harr.visibleVars.trans (Layout.withRegs_visibleVars s.regs32 s.layout),
    harr.wndWidth, harr.wndHeight⟩

theorem Settled.drawInterface (h : Settled fb s) :
    Settled fb s.drawInterface ∧ Tracks s s.drawInterface ∧ s.drawInterface.layout = s.layout := by
  obtain ⟨hsettled, htracks, -⟩ := h.seen.drawInterface h.sized.dims
  refine ⟨hsettled, htracks, ?_⟩
  have hregs := h.sized.regs
  have hsame : s.layout.withRegs s.regs32 (s.layout.regsDisasmDivLineY < 0) = s.layout := by
    unfold Layout.withRegs
    have hy : (if decide (s.layout.regsDisasmDivLineY < 0) = true then (-1 : Int) else 1) *
        (Layout.regsRows s.layout.wndWidth s.regs32 + 1 : Nat) = s.layout.regsDisasmDivLineY := by
      simp only [decide_eq_true_eq]
      split <;> omega
    rw [hy]
  rw [drawInterface_layout]
  unfold Layout.drawInterface
  rw [Layout.arrange_of_gaps h.seen.roomy.fits h.seen.gaps, hsame,
    Layout.arrange_of_gaps h.seen.roomy.fits h.seen.gaps]

theorem Settled.thenDraw (h : Settled fb s') (htracks : Tracks s s') :
    Settled fb s'.drawInterface ∧ Tracks s s'.drawInterface ∧
    s'.drawInterface.layout = s'.layout := by
  obtain ⟨hsettled, htracks', hlayout⟩ := h.drawInterface
  refine ⟨hsettled, htracks.trans htracks' (by rw [hlayout]) fun hne => ?_, hlayout⟩
  rwa [hlayout]

-- ---------------------------------------------------------------------------
-- Commands
-- ---------------------------------------------------------------------------

theorem Settled.toggle (h : Settled fb s)
    (hpy : py = .regsDisasm ∨ py = .disasmCode ∨ py = .codeLog) :
    Settled fb ({ s with layout := s.layout.toggle py }.checkDivLineYs none) ∧
      Tracks s ({ s with layout := s.layout.toggle py }.checkDivLineYs none) ∧
      ({ s with layout := s.layout.toggle py }.checkDivLineYs none).layout.visibleVars =
        (s.layout.toggle py).visibleVars ∧
      s.layout.get py ≠ 0 := by
  have hregs := h.sized.regs
  have hsized : Sized fb s.regs32 (s.layout.toggle py) := by
    unfold Layout.toggle
    rcases hpy with rfl | hpy
    · refine ⟨h.sized.dims, ?_⟩
      simp only [Layout.set, Layout.get, Int.natAbs_neg]
      exact hregs
    · exact h.sized.set hpy _
  have hne : s.layout.get py ≠ 0 := by
    rcases hpy with rfl | hpy
    · simp only [Layout.get]
      omega
    · exact Layout.get_ne_zero h.seen.gaps hpy
  have hvars := (Layout.arrange_spec hsized.roomy.fits none).visibleVars
  obtain ⟨hsettled, htracks⟩ := h.check hsized none fun heq =>
    absurd heq (Layout.toggle_seen hpy hne hvars)
  exact ⟨hsettled, htracks, hvars, hne⟩

theorem Settled.executeWR (h : Settled fb s) : Settled fb s.executeWR ∧ Tracks s s.executeWR := by
  obtain ⟨hsettled, htracks, -⟩ := h.toggle (.inl rfl)
  obtain ⟨hsettled', htracks', -⟩ := hsettled.thenDraw htracks
  exact ⟨hsettled', htracks'⟩

theorem Settled.withSize (h : Settled fb s) (hpy : py = .disasmCode ∨ py = .codeLog)
    (hget : 0 ≤ s.layout.get py) (newValue : Nat) :
    Settled fb ({ s with layout := s.layout.withSize py newValue }.checkDivLineYs (some py)) ∧
      Tracks s ({ s with layout := s.layout.withSize py newValue }.checkDivLineYs (some py)) ∧
      ({ s with layout := s.layout.withSize py newValue }.checkDivLineYs
        (some py)).layout.visibleVars =
        s.layout.visibleVars := by
  have hvars := Layout.withSize_visibleVars h.seen.roomy.fits hpy hget newValue
  have hsized : Sized fb s.regs32 (s.layout.withSize py newValue) := by
    unfold Layout.withSize
    split
    · exact h.sized.set hpy _
    · exact h.sized
  obtain ⟨hsettled, htracks⟩ := h.check hsized (some py) fun _ => hvars
  exact ⟨hsettled, htracks,
    (Layout.arrange_spec hsized.roomy.fits (some py)).visibleVars.trans hvars⟩

theorem Settled.executeSize (h : Settled fb s) (hpy : py = .disasmCode ∨ py = .codeLog)
    (size : Option Nat) :
    Settled fb (s.executeSize py size) ∧ Tracks s (s.executeSize py size) := by
  unfold Ui.executeSize
  cases size with
  | none =>
    obtain ⟨hsettled, htracks, -⟩ := h.toggle (.inr hpy)
    obtain ⟨hsettled', htracks', -⟩ := hsettled.thenDraw htracks
    exact ⟨hsettled', htracks'⟩
  | some newValue =>
    dsimp only
    split
    · exact ⟨h, h.seen.tracks⟩
    · split
      · next hhidden =>
        -- the window is shown first, and then gets its size
        obtain ⟨hsettled, htracks, hvars, hne⟩ := h.toggle (.inr hpy)
        generalize { s with layout := s.layout.toggle py }.checkDivLineYs none = shown at *
        have hget : 0 ≤ shown.layout.get py := by
          refine hsettled.seen.roomy.fits.get_nonneg ?_
          rw [hvars, Layout.mem_visibleVars, Layout.toggle_visible (.inr hpy) hne, if_pos rfl]
          have hlast : py ≠ .last := by
            rintro rfl
            simp at hpy
          simp [Layout.visible, hlast, hhidden]
        obtain ⟨hsettled', htracks', hvars'⟩ := hsettled.withSize hpy hget newValue
        have hall := htracks.trans htracks' hvars'.symm fun _ =>
          Layout.toggle_seen (.inr hpy) hne (hvars'.trans hvars)
        obtain ⟨hsettled'', htracks'', -⟩ := hsettled'.thenDraw hall
        exact ⟨hsettled'', htracks''⟩
      · next hshown =>
        obtain ⟨hsettled, htracks, -⟩ := h.withSize hpy (Int.not_lt.mp hshown) newValue
        obtain ⟨hsettled', htracks', -⟩ := hsettled.thenDraw htracks
        exact ⟨hsettled', htracks'⟩

theorem dims_withDim (h : Sized fb b l) (isWidth : Bool)
    (hge : (if isWidth then 80 else 25) ≤ newValue) (hle : newValue ≤ 160) :
    Dims fb (l.withDim fb isWidth newValue).wndWidth (l.withDim fb isWidth newValue).wndHeight := by
  obtain ⟨hwidth, hwidth', hheight, hheight', hfits⟩ := h.dims
  unfold Layout.withDim
  cases isWidth with
  | true =>
    have hmin : checkWndWidthHeight fb (.ofNat (min newValue l.wndWidth)) (.ofNat l.wndHeight) =
        true :=
      Layout.checkWndWidthHeight_mono fb (Nat.min_le_right _ _) hwidth'
        (Nat.le_refl _) hheight' hfits
    obtain ⟨hge', hle', hfits'⟩ := Layout.shrink_spec
      (fun n => checkWndWidthHeight fb (.ofNat n) (.ofNat l.wndHeight)) hmin
      (Nat.min_le_left newValue l.wndWidth) (by simp at hge; omega)
    simp only [if_true] at hge ⊢
    exact ⟨by omega, by omega, hheight, hheight', hfits'⟩
  | false =>
    have hmin : checkWndWidthHeight fb (.ofNat l.wndWidth) (.ofNat (min newValue l.wndHeight)) =
        true :=
      Layout.checkWndWidthHeight_mono fb (Nat.le_refl _) hwidth'
        (Nat.min_le_right _ _) hheight' hfits
    obtain ⟨hge', hle', hfits'⟩ := Layout.shrink_spec
      (fun n => checkWndWidthHeight fb (.ofNat l.wndWidth) (.ofNat n)) hmin
      (Nat.min_le_left newValue l.wndHeight) (by simp at hge; omega)
    simp only [Bool.false_eq_true, if_false] at hge ⊢
    exact ⟨hwidth, hwidth', by omega, by omega, hfits'⟩

theorem withDim_regs (fb : FrameBuffer) (isWidth : Bool) (newValue : Nat) (l : Layout) :
    (l.withDim fb isWidth newValue).regsDisasmDivLineY = l.regsDisasmDivLineY ∧
      (l.withDim fb isWidth newValue).visibleVars = l.visibleVars := by
  unfold Layout.withDim
  cases isWidth with
  | true => exact ⟨rfl, Layout.visibleVars_congr fun py => by cases py <;> rfl⟩
  | false => exact ⟨rfl, Layout.visibleVars_congr fun py => by cases py <;> rfl⟩

theorem withDim_eq_self (hwidth : l.wndWidth = (l.withDim fb isWidth newValue).wndWidth)
    (hheight : l.wndHeight = (l.withDim fb isWidth newValue).wndHeight) :
    l.withDim fb isWidth newValue = l := by
  unfold Layout.withDim at *
  cases isWidth with
  | true =>
    simp only [if_true] at hwidth ⊢
    rw [← hwidth]
  | false =>
    simp only [Bool.false_eq_true, if_false] at hheight ⊢
    rw [← hheight]

theorem Settled.executeDim (h : Settled fb s) (isWidth : Bool) (dim : Option Nat) :
    Settled fb (s.executeDim fb isWidth dim) ∧ Tracks s (s.executeDim fb isWidth dim) := by
  unfold Ui.executeDim
  cases dim with
  | none => exact ⟨h, h.seen.tracks⟩
  | some newValue =>
    dsimp only
    by_cases hrange : newValue < (if isWidth then 80 else 25) ∨ newValue > 160
    · rw [if_pos hrange]
      exact ⟨h, h.seen.tracks⟩
    · rw [if_neg hrange]
      rw [not_or, Nat.not_lt, Nat.not_lt] at hrange
      have hdims := dims_withDim h.sized isWidth hrange.1 hrange.2
      obtain ⟨hregs, hvars⟩ := withDim_regs fb isWidth newValue s.layout
      have hroomy : (s.layout.withDim fb isWidth newValue).Roomy :=
        ⟨hdims.height_ge, hregs ▸ h.seen.roomy.regs_le⟩
      have harr := Layout.arrange_spec hroomy.fits none
      have htracks := tracks_check h.seen hroomy none fun _ => hvars
      rw [← harr.wndWidth, ← harr.wndHeight] at hdims
      obtain ⟨hsettled, htracks', hvars', hwidth, hheight⟩ := htracks.seen.drawInterface hdims
      refine ⟨hsettled, htracks.trans htracks' hvars'.symm fun hne heq => hne ?_⟩
      -- the same size again is the same layout
      obtain ⟨hw, hrest⟩ := Prod.mk.inj heq
      obtain ⟨hh, -⟩ := Prod.mk.inj hrest
      have hsame : s.layout.withDim fb isWidth newValue = s.layout :=
        withDim_eq_self (hw.trans (hwidth.trans harr.wndWidth))
          (hh.trans (hheight.trans harr.wndHeight))
      change s.layout.seen = ((s.layout.withDim fb isWidth newValue).arrange none).seen
      rw [hsame, Layout.arrange_of_gaps h.seen.roomy.fits h.seen.gaps]

-- ---------------------------------------------------------------------------
-- Texts
-- ---------------------------------------------------------------------------

/-- The places of the two windows: the cursor, or what is saved. -/
def logX (s : Ui) : Int :=
  match s.focus with
  | .log => s.cursors.cursorX
  | .code => s.cursors.logCursorX

def logY (s : Ui) : Int :=
  match s.focus with
  | .log => s.cursors.cursorY
  | .code => s.cursors.logCursorY

def codeX (s : Ui) : Int :=
  match s.focus with
  | .log => s.cursors.codeCursorX
  | .code => s.cursors.cursorX

def codeY (s : Ui) : Int :=
  match s.focus with
  | .log => s.cursors.codeCursorY
  | .code => s.cursors.cursorY

/-- Both places are in the text, and the script window shows a plain text editor. -/
structure InText (s : Ui) : Prop where
  input : InputLine.Ok ⟨s.text, s.offset, s.logX, s.historyPos, s.tabData⟩
  inputRow : s.logY = (s.layout.wndHeight : Int) - 3
  script : ∃ (scr : Screen) (e : TextEditor Char), scr.toArea = s.layout.codeArea ∧
    Refines scr ⟨s.contents, s.posX, s.posY, s.codeX, s.codeY⟩ e

theorem InText.logOk (h : s.InText) : s.LogOk s.logX s.logY := by
  obtain ⟨hge, hle⟩ := h.input.cursor
  exact ⟨h.inputRow, by dsimp only at hge; omega, hle⟩

theorem InText.codeOk (h : s.InText) : s.CodeOk s.codeX s.codeY := by
  obtain ⟨scr, e, harea, href⟩ := h.script
  have hid := href.currentLineId
  unfold CodeWnd.currentLineId at hid
  have hcol := href.col.eq
  have hle := href.col_le
  unfold TextEditor.line at hle
  rw [← href.lineAt_eq, lineAt_plain] at hle
  dsimp only at hid hcol hle
  rw [← hid] at hle
  refine ⟨?_, ?_, ?_⟩
  · rw [← harea]
    exact href.row.ge
  · rw [← harea]
    exact href.row.le
  · rw [← harea, hcol]
    exact_mod_cast hle

theorem InText.consistent (h : s.InText) : s.Consistent := by
  have hlog := h.logOk
  have hcode := h.codeOk
  unfold Consistent
  unfold logX logY at hlog
  unfold codeX codeY at hcode
  cases hfocus : s.focus <;> rw [hfocus] at hlog hcode <;> dsimp only at hlog hcode ⊢
  · exact ⟨hlog, hcode⟩
  · exact ⟨hcode, hlog⟩

theorem refines_corner (h : Refines scr w e) (scr' : Screen)
    (hcorner : w.posX ≤ (uncolored (lineAt w.contents w.posY)).length) :
    Refines scr' ⟨w.contents, w.posX, w.posY, 2, scr'.destY0⟩ ⟨e.lines, w.posY, w.posX⟩ := by
  have hrow := h.row.eq
  have hge := h.row.ge
  have hlt := h.row_lt
  have hrows := scr'.destY1_ge
  have hwidth := scr'.wndWidth_ge
  dsimp only at hrow hge
  have hposY : w.posY ≤ e.row := by omega
  refine ⟨h.tagged, ?_, fun hne => ?_, ?_, ?_, ?_⟩
  · dsimp only
    by_cases hzero : e.row = 0
    · rw [← h.lines, show w.posY = e.row by omega]
    · rw [pad_of_lt (by rw [length_plain]; have := hlt hzero; omega), h.plain_eq (hlt hzero)]
  · dsimp only at hne ⊢
    have hlength := hlt (by omega)
    omega
  · constructor <;> dsimp only <;> omega
  · constructor <;> dsimp only <;> omega
  · change w.posX ≤ (e.lineAt w.posY).length
    rw [← h.lineAt_eq, lineAt_plain]
    exact hcorner

theorem InText.tracks (h : s.InText) (hcode : 0 ≤ s.layout.codeLogDivLineY)
    (hsettled : Settled fb s')
    (htracks : Tracks s s')
    (hharmless : s'.layout.seen = s.layout.seen ∨
      s.focus = .log ∧ 0 ≤ s'.layout.codeLogDivLineY ∧ s.CornerInText) :
    s'.InText ∧ 0 ≤ s'.layout.codeLogDivLineY := by
  obtain ⟨scr, e, harea, href⟩ := h.script
  obtain ⟨hfocus, -, hcontents, hposX, hposY, htext, hoffset, hhistory, htabs⟩ := htracks.texts
  have htabs' : ∀ x, InputLine.Ok ⟨s.text, s.offset, x, s.historyPos, s.tabData⟩ →
      InputLine.Ok ⟨s'.text, s'.offset, x, s'.historyPos, s'.tabData⟩ := by
    intro x hok
    rw [htext, hoffset, hhistory]
    refine ⟨hok.cursor, fun hne => ?_⟩
    rcases htabs with htabs | htabs
    · dsimp only at hne ⊢
      rw [htabs] at hne ⊢
      exact hok.tabs hne
    · exact absurd htabs hne
  by_cases heq : s.layout.seen = s'.layout.seen
  · -- nothing is seen, and the cursor stays
    have hcursors : s'.cursors = s.cursors := by rw [htracks.cursors, if_neg (not_not.mpr heq)]
    have hvars := htracks.visibleVars heq
    have hshown : 0 ≤ s'.layout.codeLogDivLineY := by
      have hmem : .codeLog ∈ s'.layout.visibleVars := by
        rw [hvars, Layout.mem_visibleVars]
        simp [Layout.visible, Layout.get, hcode]
      exact htracks.seen.roomy.fits.get_nonneg hmem
    have hheight : s'.layout.wndHeight = s.layout.wndHeight :=
      (Prod.mk.inj (Prod.mk.inj heq).2).1.symm
    have hx : s'.logX = s.logX := by unfold logX; rw [hfocus, hcursors]
    have hy : s'.logY = s.logY := by unfold logY; rw [hfocus, hcursors]
    have hcx : s'.codeX = s.codeX := by unfold codeX; rw [hfocus, hcursors]
    have hcy : s'.codeY = s.codeY := by unfold codeY; rw [hfocus, hcursors]
    refine ⟨⟨?_, ?_, scr, e, ?_, ?_⟩, hshown⟩
    · rw [hx]
      exact htabs' _ h.input
    · rw [hy, hheight]
      exact h.inputRow
    · rw [Layout.codeArea_congr hvars heq]
      exact harea
    · rw [hcontents, hposX, hposY, hcx, hcy]
      exact href
  · -- the cursor is reset, with the focus on the input line
    obtain ⟨hlog, hshown, hcorner⟩ := hharmless.resolve_left (Ne.symm heq)
    have hcursors : s'.cursors = .reset s'.layout := by rw [htracks.cursors, if_pos heq]
    have hfocus' := hfocus.trans hlog
    obtain ⟨hbefore, hrows, -⟩ := Layout.codeArea_spec htracks.seen.gaps hshown
    have hwidth : s'.layout.codeArea.wndWidth = s'.layout.wndWidth := by
      unfold Layout.codeArea
      rw [if_neg (Int.not_lt.mpr hshown)]
    let scr' : Screen :=
      { toArea := s'.layout.codeArea
        wndWidth_ge := hwidth ▸ hsettled.sized.dims.width_ge
        destY1_ge := hrows }
    have hx : s'.logX = 2 := by unfold logX; rw [hfocus', hcursors]; rfl
    have hy : s'.logY = (s'.layout.wndHeight : Int) - 3 :=
      by unfold logY; rw [hfocus', hcursors]; rfl
    have hcx : s'.codeX = 2 := by unfold codeX; rw [hfocus', hcursors]; rfl
    have hcy : s'.codeY = scr'.destY0 := by
      unfold codeY
      rw [hfocus', hcursors]
      simp [Cursors.reset, hbefore, scr']
    refine ⟨⟨?_, hy, scr', ⟨e.lines, s.posY, s.posX⟩, rfl, ?_⟩, hshown⟩
    · obtain ⟨⟨hge, hle⟩, htabs⟩ := h.input
      rw [hx]
      refine htabs' 2 ⟨⟨Int.le_refl 2, ?_⟩, htabs⟩
      dsimp only at hge hle ⊢
      omega
    · rw [hcontents, hposX, hposY, hcx, hcy]
      exact refines_corner href scr' hcorner

-- ---------------------------------------------------------------------------
-- Steps
-- ---------------------------------------------------------------------------

/-- What holds whenever the keyboard is read. -/
structure AtKeyboard (fb : FrameBuffer) (s : Ui) : Prop where
  settled : Settled fb s
  inText : s.InText
  code : 0 ≤ s.layout.codeLogDivLineY

theorem AtKeyboard.tracks (h : AtKeyboard fb s) (hsettled : Settled fb s') (htracks : Tracks s s')
    (hharmless : s'.layout.seen = s.layout.seen ∨
      s.focus = .log ∧ 0 ≤ s'.layout.codeLogDivLineY ∧ s.CornerInText) : AtKeyboard fb s' := by
  obtain ⟨hinText, hcode⟩ := h.inText.tracks h.code hsettled htracks hharmless
  exact ⟨hsettled, hinText, hcode⟩

theorem recolored_spec {contents : List (List Char)} (clrs : Colors) (ys : List Nat)
    (htagged : AllTagged contents) (hys : ∀ y ∈ ys, y < contents.length) :
    AllTagged (ys.foldl (syntaxColorAt clrs) contents) ∧
      plain (ys.foldl (syntaxColorAt clrs) contents) = plain contents := by
  induction ys generalizing contents with
  | nil => exact ⟨htagged, rfl⟩
  | cons y ys ih =>
    obtain ⟨htagged', hplain⟩ := syntaxColorAt_spec clrs htagged y
    rw [pad_of_lt (by rw [length_plain]; exact hys y List.mem_cons_self)] at hplain
    have hlength : (syntaxColorAt clrs contents y).length = contents.length := by
      rw [← length_plain, hplain, length_plain]
    obtain ⟨htagged'', hplain'⟩ := ih htagged' fun z hz => by
      rw [hlength]
      exact hys z (List.mem_cons_of_mem _ hz)
    exact ⟨htagged'', hplain'.trans hplain⟩

theorem refines_recolored (h : Refines scr w e) (clrs : Colors) :
    Refines scr { w with
      contents := (List.range w.contents.length).foldl (syntaxColorAt clrs) w.contents } e := by
  obtain ⟨htagged, hplain⟩ := recolored_spec clrs (List.range w.contents.length) h.tagged
    fun y hy => List.mem_range.mp hy
  refine ⟨htagged, ?_, fun hne => ?_, h.row, h.col, h.col_le⟩
  · rw [hplain]
    exact h.lines
  · rw [← length_plain, hplain, length_plain]
    exact h.row_lt hne

theorem AtKeyboard.executeCOLOR (h : AtKeyboard fb s) (clrs : Colors) :
    AtKeyboard fb (s.executeCOLOR clrs) := by
  obtain ⟨scr, e, harea, href⟩ := h.inText.script
  have hnew : AtKeyboard fb { s with
      clrs := clrs
      contents := (List.range s.contents.length).foldl (syntaxColorAt clrs) s.contents } :=
    ⟨⟨⟨h.settled.seen.roomy, h.settled.seen.gaps, h.settled.seen.prev⟩, h.settled.sized⟩,
      ⟨h.inText.input, h.inText.inputRow, scr, e, harea, refines_recolored href clrs⟩, h.code⟩
  obtain ⟨hsettled, htracks, hlayout⟩ := hnew.settled.drawInterface
  exact hnew.tracks hsettled htracks (.inl (congrArg Layout.seen hlayout))

theorem Settled.processCmd (h : Settled fb s) (cmd : Command) :
    Settled fb (s.processCmd fb cmd) ∧ Tracks s (s.processCmd fb cmd) ∨
      (s.processCmd fb cmd).layout = s.layout := by
  cases cmd with
  | wr => exact .inl h.executeWR
  | wd size => exact .inl (h.executeSize (.inl rfl) size)
  | ws size => exact .inl (h.executeSize (.inr rfl) size)
  | width columns => exact .inl (h.executeDim true columns)
  | lines rows => exact .inl (h.executeDim false rows)
  | color clrs =>
    have hnew : Settled fb { s with
        clrs := clrs
        contents := (List.range s.contents.length).foldl (syntaxColorAt clrs) s.contents } :=
      ⟨⟨h.seen.roomy, h.seen.gaps, h.seen.prev⟩, h.sized⟩
    exact .inr hnew.drawInterface.2.2
  | other => exact .inr rfl

theorem AtKeyboard.processCmd (h : AtKeyboard fb s) (cmd : Command)
    (hharmless : (s.processCmd fb cmd).layout.seen = s.layout.seen ∨
      s.focus = .log ∧ 0 ≤ (s.processCmd fb cmd).layout.codeLogDivLineY ∧ s.CornerInText) :
    AtKeyboard fb (s.processCmd fb cmd) := by
  cases cmd with
  | wr =>
    obtain ⟨hsettled, htracks⟩ := h.settled.executeWR
    exact h.tracks hsettled htracks hharmless
  | wd size =>
    obtain ⟨hsettled, htracks⟩ := h.settled.executeSize (.inl rfl) size
    exact h.tracks hsettled htracks hharmless
  | ws size =>
    obtain ⟨hsettled, htracks⟩ := h.settled.executeSize (.inr rfl) size
    exact h.tracks hsettled htracks hharmless
  | width columns =>
    obtain ⟨hsettled, htracks⟩ := h.settled.executeDim true columns
    exact h.tracks hsettled htracks hharmless
  | lines rows =>
    obtain ⟨hsettled, htracks⟩ := h.settled.executeDim false rows
    exact h.tracks hsettled htracks hharmless
  | color clrs => exact h.executeCOLOR clrs
  | other => exact h

theorem executeSize_layout (s : Ui) (py : DivVar) (size : Option Nat) :
    (s.executeSize py size).layout = s.layout.afterSize s.regs32 py size := by
  unfold Ui.executeSize Layout.afterSize
  cases size with
  | none =>
    dsimp only
    rw [drawInterface_layout, checkDivLineYs_layout, checkDivLineYs_regs32]
  | some newValue =>
    dsimp only
    by_cases hrange : newValue < 3 ∨ newValue > 160
    · rw [if_pos hrange, if_pos hrange]
    · rw [if_neg hrange, if_neg hrange, drawInterface_layout, checkDivLineYs_layout,
        checkDivLineYs_regs32]
      by_cases hhidden : s.layout.get py < 0
      · simp only [if_pos hhidden, checkDivLineYs_layout, checkDivLineYs_regs32]
      · simp only [if_neg hhidden]

theorem executeDim_layout (fb : FrameBuffer) (s : Ui) (isWidth : Bool) (dim : Option Nat) :
    (s.executeDim fb isWidth dim).layout = s.layout.afterDim fb s.regs32 isWidth dim := by
  unfold Ui.executeDim Layout.afterDim
  cases dim with
  | none => rfl
  | some newValue =>
    dsimp only
    by_cases hrange : newValue < (if isWidth then 80 else 25) ∨ newValue > 160
    · rw [if_pos hrange, if_pos hrange]
    · rw [if_neg hrange, if_neg hrange, drawInterface_layout, checkDivLineYs_layout,
        checkDivLineYs_regs32]

theorem processCmd_layout (fb : FrameBuffer) (s : Ui) (cmd : Command) :
    (s.processCmd fb cmd).layout = s.layout.afterCmd fb s.regs32 cmd := by
  cases cmd with
  | wr => rfl
  | wd size => exact executeSize_layout s .disasmCode size
  | ws size => exact executeSize_layout s .codeLog size
  | width columns => exact executeDim_layout fb s true columns
  | lines rows => exact executeDim_layout fb s false rows
  | color clrs => rfl
  | other => rfl

theorem AtKeyboard.switch (h : AtKeyboard fb s) :
    AtKeyboard fb s.switchBetweenLogCode.drawAllEnd := by
  obtain ⟨scr, e, harea, href⟩ := h.inText.script
  have hsettled := h.settled
  have hheight := hsettled.sized.dims.height_ge
  have hge := href.row.ge
  have hinput := h.inText.input
  have hrow := h.inText.inputRow
  unfold switchBetweenLogCode
  rw [if_neg (Int.not_lt.mpr h.code)]
  dsimp only
  cases hfocus : s.focus with
  | log =>
    simp only [logX, logY, codeX, codeY, hfocus] at hinput hrow href hge
    dsimp only
    refine ⟨⟨⟨hsettled.seen.roomy, hsettled.seen.gaps, hsettled.seen.prev⟩, hsettled.sized⟩,
      ⟨⟨hinput.cursor, fun hne => absurd rfl hne⟩, hrow, scr, e, harea, ?_⟩, h.code⟩
    simp only [codeX, codeY, changeCursor, drawAllEnd]
    rw [if_pos (by omega)]
    exact href
  | code =>
    simp only [logX, logY, codeX, codeY, hfocus] at hinput hrow href hge
    dsimp only
    have hchanged : (if s.cursors.logCursorY ≥ 0 then s.cursors.logCursorY else s.cursors.cursorY) =
        (s.layout.wndHeight : Int) - 3 := by
      rw [if_pos (by omega)]
      exact hrow
    refine ⟨⟨⟨hsettled.seen.roomy, hsettled.seen.gaps, hsettled.seen.prev⟩, hsettled.sized⟩,
      ⟨⟨hinput.cursor, fun hne => absurd rfl hne⟩, hchanged, scr, e, harea, href⟩, h.code⟩

theorem AtKeyboard.drawAllEnd (h : AtKeyboard fb s) : AtKeyboard fb s.drawAllEnd :=
  h.tracks ⟨⟨h.settled.seen.roomy, h.settled.seen.gaps, h.settled.seen.prev⟩, h.settled.sized⟩
    h.settled.seen.tracks.drawAllEnd (.inl rfl)

theorem ok_input (key : Key) (hwidth : 4 ≤ width) (h : InputLine.Ok line) :
    InputLine.Ok (key.input width line) := by
  cases key with
  | esc => exact h
  | enter cmd => exact InputLine.ok_enter line
  | tab modifierKeyState complete => exact h.tab hwidth modifierKeyState complete
  | up log => exact h.up hwidth log
  | down log => exact h.down hwidth log
  | char c printable => exact h.addChar width c
  | backSpace => exact h.backSpace
  | del => exact h.del
  | left => exact h.left
  | right => exact h.right width
  | home => exact InputLine.ok_home line
  | toEnd => exact InputLine.ok_toEnd line hwidth
  | pgUp => exact h
  | pgDn => exact h
  | other redraw => exact h

theorem AtKeyboard.input (h : AtKeyboard fb s) (hlog : s.focus = .log) (key : Key) :
    AtKeyboard fb (s.withInputLine (key.input s.layout.wndWidth s.inputLine)) := by
  obtain ⟨scr, e, harea, href⟩ := h.inText.script
  have hinput := h.inText.input
  have hrow := h.inText.inputRow
  have hsettled := h.settled
  have hwidth := hsettled.sized.dims.width_ge
  simp only [logX, logY, codeX, codeY, hlog] at hinput hrow href
  have hnew : InputLine.Ok (key.input s.layout.wndWidth s.inputLine) :=
    ok_input key (by omega) hinput
  refine ⟨⟨⟨hsettled.seen.roomy, hsettled.seen.gaps, hsettled.seen.prev⟩, hsettled.sized⟩,
    ⟨?_, ?_, scr, e, harea, ?_⟩, h.code⟩
  · simp only [logX, withInputLine, hlog]
    exact hnew
  · simp only [logY, withInputLine, hlog]
    exact hrow
  · simp only [codeX, codeY, withInputLine, hlog]
    exact href

theorem AtKeyboard.script (h : AtKeyboard fb s) (hcode : s.focus = .code) (op : Op) :
    AtKeyboard fb (s.withCodeWnd (s.codeWnd.apply s.clrs s.layout.codeArea op)) := by
  obtain ⟨scr, e, harea, href⟩ := h.inText.script
  have hinput := h.inText.input
  have hrow := h.inText.inputRow
  have hsettled := h.settled
  simp only [logX, logY, codeX, codeY, hcode] at hinput hrow href
  obtain ⟨e', hnew⟩ : ∃ e', Refines scr (s.codeWnd.apply s.clrs scr op) e' :=
    ⟨_, href.apply s.clrs op⟩
  rw [harea] at hnew
  refine ⟨⟨⟨hsettled.seen.roomy, hsettled.seen.gaps, hsettled.seen.prev⟩, hsettled.sized⟩,
    ⟨?_, ?_, scr, e', harea, ?_⟩, h.code⟩
  · simp only [logX, withCodeWnd, hcode]
    exact hinput
  · simp only [logY, withCodeWnd, hcode]
    exact hrow
  · simp only [codeX, codeY, withCodeWnd, hcode]
    exact hnew

theorem step_layout (fb : FrameBuffer) (s : Ui) (ev : Event) :
    (s.step fb ev).layout = s.layoutAfter fb ev := by
  cases ev with
  | breakIn regs32 => exact drawInterface_layout _
  | key key =>
    unfold step pressed layoutAfter
    cases key with
    | esc =>
      dsimp only
      unfold switchBetweenLogCode
      split <;> dsimp only <;> cases s.focus <;> rfl
    | other redraw => cases redraw <;> rfl
    | enter cmd =>
      cases s.focus with
      | code => cases cmd <;> rfl
      | log =>
        cases cmd with
        | none => rfl
        | some cmd => exact processCmd_layout fb _ cmd
    | _ => cases s.focus <;> rfl

theorem AtKeyboard.step (h : AtKeyboard fb s) (hharmless : s.Harmless fb ev) :
    AtKeyboard fb (s.step fb ev) := by
  unfold Harmless at hharmless
  rw [← step_layout] at hharmless
  cases ev with
  | breakIn regs32 =>
    -- the registers may be others, but nothing else is before the interface is drawn
    have hseen : Seen { s with regs32 := regs32 } :=
      ⟨h.settled.seen.roomy, h.settled.seen.gaps, h.settled.seen.prev⟩
    obtain ⟨hsettled, htracks, -⟩ := hseen.drawInterface h.settled.sized.dims
    have hinText : InText { s with regs32 := regs32 } :=
      ⟨h.inText.input, h.inText.inputRow, h.inText.script⟩
    obtain ⟨hinText', hcode⟩ := hinText.tracks h.code hsettled htracks hharmless
    exact ⟨hsettled, hinText', hcode⟩
  | key key =>
    cases key with
    | esc => exact h.switch
    | other redraw =>
      cases redraw with
      | false => exact h
      | true => exact h.drawAllEnd
    | enter cmd =>
      cases hfocus : s.focus with
      | code =>
        unfold Ui.step pressed
        rw [hfocus]
        exact h.script hfocus .enter
      | log =>
        have hinput := h.input hfocus (.enter cmd)
        unfold Ui.step pressed at hharmless ⊢
        rw [hfocus] at hharmless ⊢
        cases cmd with
        | none => exact hinput
        | some cmd =>
          refine hinput.processCmd cmd ?_
          rcases hharmless with hsame | ⟨-, hcode, hcorner⟩
          · exact .inl hsame
          · exact .inr ⟨hfocus, hcode, hcorner⟩
    | _ =>
      unfold Ui.step pressed
      cases hfocus : s.focus with
      | code => exact h.script hfocus _
      | log => exact h.input hfocus _

-- ---------------------------------------------------------------------------
-- A step that is not harmless
-- ---------------------------------------------------------------------------

theorem codeArea_above (h : Settled fb s) :
    (s.layout.codeArea.destY1 : Int) < (s.layout.wndHeight : Int) - 3 := by
  have hheight := h.sized.dims.height_ge
  by_cases hcode : s.layout.codeLogDivLineY < 0
  · unfold Layout.codeArea
    rw [if_pos hcode]
    dsimp only
    omega
  · obtain ⟨-, -, hdest⟩ := Layout.codeArea_spec h.seen.gaps (Int.not_lt.mp hcode)
    omega

theorem AtKeyboard.tracks_of_seen (h : AtKeyboard fb s)
    (hseen : (s.step fb ev).layout.seen ≠ s.layout.seen) :
    Settled fb (s.step fb ev) ∧ ∃ s', Tracks s' (s.step fb ev) ∧ s'.layout = s.layout ∧
      s'.focus = s.focus ∧ s'.contents = s.contents ∧ s'.posX = s.posX ∧ s'.posY = s.posY := by
  have hlayout := step_layout fb s ev
  cases ev with
  | breakIn regs32 =>
    have hbefore : Seen { s with regs32 := regs32 } :=
      ⟨h.settled.seen.roomy, h.settled.seen.gaps, h.settled.seen.prev⟩
    obtain ⟨hsettled, htracks, -⟩ := hbefore.drawInterface h.settled.sized.dims
    exact ⟨hsettled, _, htracks, rfl, rfl, rfl, rfl, rfl⟩
  | key key =>
    cases key with
    | esc =>
      rw [layoutAfter, if_neg (Int.not_lt.mpr h.code)] at hlayout
      exact absurd (congrArg Layout.seen hlayout) hseen
    | enter cmd =>
      cases hfocus : s.focus with
      | code =>
        refine absurd (congrArg Layout.seen (hlayout.trans ?_)) hseen
        cases cmd <;> simp only [layoutAfter, hfocus]
      | log =>
        have hinput := h.input hfocus (.enter cmd)
        cases cmd with
        | none => exact absurd (congrArg Layout.seen hlayout) hseen
        | some cmd =>
          have hstep : s.step fb (.key (.enter (some cmd))) =
              (s.withInputLine (Key.input s.layout.wndWidth s.inputLine
                (.enter (some cmd)))).processCmd
                fb cmd := by
            unfold Ui.step pressed
            rw [hfocus]
          rw [hstep] at hseen ⊢
          obtain ⟨hsettled, htracks⟩ | heq := hinput.settled.processCmd cmd
          · exact ⟨hsettled, _, htracks, rfl, hfocus, rfl, rfl, rfl⟩
          · exact absurd (congrArg Layout.seen heq) hseen
    | _ => exact absurd (congrArg Layout.seen hlayout) hseen

theorem AtKeyboard.harmless_of_consistent (h : AtKeyboard fb s)
    (hconsistent : (s.step fb ev).Consistent) : s.Harmless fb ev := by
  unfold Harmless
  rw [← step_layout]
  by_cases hseen : (s.step fb ev).layout.seen = s.layout.seen
  · exact .inl hseen
  obtain ⟨hsettled, s', htracks, hlayout, hfocus, hcontents, hposX, hposY⟩ := h.tracks_of_seen hseen
  have hcursors : (s.step fb ev).cursors = .reset (s.step fb ev).layout := by
    rw [htracks.cursors, if_pos (fun heq => hseen (by rw [← heq, hlayout]))]
  have hfocus' := htracks.texts.focus.trans hfocus
  have habove := codeArea_above hsettled
  unfold Consistent at hconsistent
  rw [hfocus', hcursors] at hconsistent
  right
  cases hf : s.focus with
  | code =>
    rw [hf] at hconsistent
    have hle := hconsistent.1.le
    simp only [Cursors.reset] at hle
    omega
  | log =>
    rw [hf] at hconsistent
    obtain ⟨hge, -, hcol⟩ := hconsistent.2
    have hshown : 0 ≤ (s.step fb ev).layout.codeLogDivLineY := by
      by_contra hhidden
      have hnone := Layout.lineBefore_hidden (Int.not_le.mp hhidden)
      simp only [Cursors.reset, hnone, Layout.codeArea, if_pos (Int.not_le.mp hhidden)] at hge
      simp at hge
    obtain ⟨hbefore, -⟩ := Layout.codeArea_spec hsettled.seen.gaps hshown
    refine ⟨rfl, hshown, ?_⟩
    unfold CornerInText
    simp only [Cursors.reset, hbefore, Option.map_some, Option.getD_some, htracks.texts.contents,
      htracks.texts.posX, htracks.texts.posY, hcontents, hposX, hposY] at hcol
    have hid : ((s.posY : Int) + ((s.step fb ev).layout.codeArea.destY0 - 1 + 1 -
        (s.step fb ev).layout.codeArea.destY0)).toNat = s.posY := by omega
    rw [hid] at hcol
    omega

-- ---------------------------------------------------------------------------
-- Runs
-- ---------------------------------------------------------------------------

theorem AtKeyboard.along_iff (h : AtKeyboard fb s) (events : List Event) :
    Runs.Along (fun s ev => some (Ui.step fb s ev)) Consistent s events ↔
      Runs.Each (Ui.step fb) (Harmless fb) s events := by
  induction events generalizing s with
  | nil => exact iff_of_true (Runs.along_nil.mpr h.inText.consistent) trivial
  | cons ev events ih =>
    simp only [Runs.along_cons, Option.some.injEq, forall_eq', Runs.Each]
    constructor
    · rintro ⟨-, hrest⟩
      have hharmless := h.harmless_of_consistent (Runs.Along.head hrest)
      exact ⟨hharmless, (ih (h.step hharmless)).mp hrest⟩
    · rintro ⟨hharmless, hrest⟩
      exact ⟨h.inText.consistent, (ih (h.step hharmless)).mpr hrest⟩

/-- The first `CheckDivLineYs` finds the cursor where it puts it. -/
def initial (build : Build) (clrs : Colors) (regs32 : Bool) : Ui :=
  { defaults build clrs regs32 with prev := (defaults build clrs regs32).layout.seen }

theorem seen_initial (build : Build) (clrs : Colors) (regs32 : Bool) :
    Seen (initial build clrs regs32) := by
  have hregs : (initial build clrs regs32).layout.regsDisasmDivLineY ≤ 8 := by
    cases build
    · exact (by decide : (4 : Int) ≤ 8)
    · exact (by decide : (7 : Int) ≤ 8)
  have hroomy : (initial build clrs regs32).layout.Roomy := ⟨Nat.le_refl 25, hregs⟩
  have hsame : (initial build clrs regs32).layout.arrange none =
      (initial build clrs regs32).layout := by
    cases build <;> rfl
  refine ⟨hroomy, ?_, rfl⟩
  rw [← hsame]
  exact (Layout.arrange_spec hroomy.fits none).gaps

theorem start_eq (build : Build) (clrs : Colors) (regs32 : Bool) :
    start build clrs regs32 = (initial build clrs regs32).drawInterface := by
  cases build <;> rfl

theorem atKeyboard_start (build : Build) (clrs : Colors) (regs32 : Bool)
    (hfits : checkWndWidthHeight fb 80 25 = true) : AtKeyboard fb (start build clrs regs32) := by
  have hseen := seen_initial build clrs regs32
  have hdims : Dims fb (initial build clrs regs32).layout.wndWidth
      (initial build clrs regs32).layout.wndHeight := by
    refine ⟨?_, ?_, ?_, ?_, hfits⟩ <;> simp [initial, defaults]
  obtain ⟨hsettled, htracks, hvars, -⟩ := hseen.drawInterface hdims
  let scr : Screen := ⟨⟨80, 14, 16⟩, by decide, by decide⟩
  have hinText : InText (initial build clrs regs32) := by
    refine ⟨⟨⟨Int.le_refl 2, Int.le_refl 0⟩, fun hne => absurd rfl hne⟩, rfl, scr, .empty, ?_, ?_⟩
    · cases build <;> rfl
    · exact Refines.init scr
  have hshown : 0 ≤ (initial build clrs regs32).drawInterface.layout.codeLogDivLineY := by
    refine hsettled.seen.roomy.fits.get_nonneg (?_ : DivVar.codeLog ∈ _)
    rw [hvars, Layout.mem_visibleVars]
    rfl
  obtain ⟨hinText', hcode⟩ := hinText.tracks (show (0 : Int) ≤ 17 by decide) hsettled htracks
    (.inr ⟨rfl, hshown, Nat.zero_le _⟩)
  rw [start_eq]
  exact ⟨hsettled, hinText', hcode⟩

/-- The cursor and the saved place are in their texts in every state of a run, if and only if every
step is harmless. -/
theorem consistent_iff_harmless (hfits : checkWndWidthHeight fb 80 25 = true) (build : Build)
    (clrs : Colors) (regs32 : Bool) (events : List Event) :
    Runs.Along (fun s ev => some (Ui.step fb s ev)) Consistent (start build clrs regs32) events ↔
      Runs.Each (Ui.step fb) (Harmless fb) (start build clrs regs32) events :=
  (atKeyboard_start build clrs regs32 hfits).along_iff events

def exampleScreen : FrameBuffer := ⟨1024, 768, 4096, 1024 * 768 * 4⟩

theorem not_consistent_of_below (hfocus : s.focus = .code)
    (hbelow : s.layout.codeArea.destY1 < s.cursors.cursorY) : ¬ s.Consistent := by
  unfold Consistent
  rw [hfocus]
  rintro ⟨hcode, -⟩
  exact absurd hcode.le (Int.not_le.mpr hbelow)

/-- A break in a 32-bit process while the script has the focus. -/
theorem switched_breakIn_lost :
    checkWndWidthHeight exampleScreen 80 25 = true ∧
      ¬ (run exampleScreen (start .x64 ⟨0x07, 0x02⟩ false) [.key .esc, .breakIn true]).Consistent :=
  ⟨by decide, not_consistent_of_below (by decide +kernel) (by decide +kernel)⟩

/-- A break in a 32-bit process while the input line has it, and then the same process again. -/
theorem switched_breakIn_kept :
    checkWndWidthHeight exampleScreen 80 25 = true ∧
      Runs.Along (fun s ev => some (Ui.step exampleScreen s ev)) Consistent
        (start .x64 ⟨0x07, 0x02⟩ false) [.breakIn true, .key .esc, .breakIn true] := by
  refine ⟨by decide, (consistent_iff_harmless (by decide) .x64 ⟨0x07, 0x02⟩ false _).mpr ?_⟩
  exact ⟨.inr ⟨by decide, by decide, Nat.zero_le _⟩, .inl (by decide), .inl (by decide), trivial⟩

end Ui

end BugChecker.Wnd
