import BugChecker.Cmd.Tokenize
import BugChecker.Crt.Strtoxq
import BugChecker.Lib.Runs
import BugChecker.Wnd.Cursor

/-!
# The size of the window

`WIDTH` and `LINES` count the new number down until the window fits into the
screen, and `DrawAll_Start` takes over the screen of a virtual machine that was
resized. Both keep a window that is large enough as long as 80 columns by 25
rows fit. On another screen the counting ends below these, or never.
-/

namespace BugChecker.Wnd

-- ---------------------------------------------------------------------------
-- Counting down
-- ---------------------------------------------------------------------------

/-- `while (!fits(n)) n--`, for as many turns as `fuel` allows. -/
def shrinkDim (fits : UInt32 → Bool) : Nat → UInt32 → Option UInt32
  | 0, _ => none
  | fuel + 1, n => if fits n then some n else shrinkDim fits fuel (n - 1)

/-- After so many turns every number was tried, and the numbers repeat. -/
@[irreducible] def turns : Nat := 2 ^ 32

theorem fits_of_shrinkDim (h : shrinkDim fits fuel n = some m) : fits m = true := by
  induction fuel generalizing n with
  | zero => cases h
  | succ fuel ih =>
    rw [shrinkDim] at h
    split at h
    · next hfits =>
      obtain rfl := Option.some.inj h
      exact hfits
    · exact ih h

theorem shrinkDim_more (h : shrinkDim fits fuel n = some m) (hle : fuel ≤ fuel') :
    shrinkDim fits fuel' n = some m := by
  induction fuel generalizing n fuel' with
  | zero => cases h
  | succ fuel ih =>
    obtain ⟨fuel', rfl⟩ := Nat.exists_eq_add_of_lt hle
    rw [shrinkDim] at h ⊢
    split at h
    · next hfits => rw [if_pos hfits, h]
    · next hfits => rw [if_neg hfits, ih h (Nat.le_add_right _ _)]

theorem shrinkDim_bounds (hm : fits m = true) (hle : m ≤ n) (h : shrinkDim fits fuel n = some r) :
    m ≤ r ∧ r ≤ n := by
  induction fuel generalizing n with
  | zero => cases h
  | succ fuel ih =>
    rw [shrinkDim] at h
    split at h
    · obtain rfl := Option.some.inj h
      exact ⟨hle, UInt32.le_refl _⟩
    · next hfits =>
      have hne : m.toNat ≠ n.toNat := fun heq => hfits (UInt32.toNat_inj.mp heq ▸ hm)
      have hle := UInt32.le_iff_toNat_le.mp hle
      have hone : (1 : UInt32) ≤ n := UInt32.le_iff_toNat_le.mpr (by
        change 1 ≤ n.toNat
        omega)
      have hpred : (n - 1).toNat = n.toNat - 1 := UInt32.toNat_sub_of_le _ _ hone
      obtain ⟨hge, hle'⟩ := ih (UInt32.le_iff_toNat_le.mpr (by omega)) h
      rw [UInt32.le_iff_toNat_le, hpred] at hle'
      exact ⟨hge, UInt32.le_iff_toNat_le.mpr (Nat.le_trans hle' (Nat.sub_le _ _))⟩

theorem shrinkDim_eq_none (h : ∀ m, fits m = false) : shrinkDim fits fuel n = none := by
  induction fuel generalizing n with
  | zero => rfl
  | succ fuel ih => rw [shrinkDim, h, if_neg Bool.false_ne_true, ih]

theorem not_fits_of_shrinkDim (h : shrinkDim fits fuel n = none) (hlt : d < fuel) :
    fits (n - UInt32.ofNat d) = false := by
  induction fuel generalizing n d with
  | zero => omega
  | succ fuel ih =>
    rw [shrinkDim] at h
    split at h
    · cases h
    · next hfits =>
      cases d with
      | zero => simpa using hfits
      | succ d =>
        have hrest := ih h (Nat.lt_of_succ_lt_succ hlt)
        have hsub : n - 1 - UInt32.ofNat d = n - UInt32.ofNat (d + 1) := by
          rw [UInt32.ofNat_add]
          grind
        rwa [hsub] at hrest

theorem shrinkDim_turns_isSome (hm : fits m = true) : ∃ r, shrinkDim fits turns n = some r := by
  refine Option.ne_none_iff_exists'.mp fun hnone => ?_
  have hlt : (n - m).toNat < turns := by
    unfold turns
    exact (n - m).toNat_lt
  have hfits := not_fits_of_shrinkDim hnone hlt
  rw [UInt32.ofNat_toNat, show n - (n - m) = m by grind, hm] at hfits
  cases hfits

theorem shrinkDim_eq_shrink (hm : fits m = true) (hpos : 0 < m.toNat) (hle : m ≤ n)
    (h : shrinkDim fits fuel n = some r) :
    r.toNat = Layout.shrink (fun k => fits (.ofNat k)) n.toNat := by
  obtain ⟨hge, hrn⟩ := shrinkDim_bounds hm hle h
  rw [UInt32.le_iff_toNat_le] at hge hrn
  have hr : fits (.ofNat r.toNat) = true := by
    rw [UInt32.ofNat_toNat]
    exact fits_of_shrinkDim h
  obtain ⟨hrle, hle', hfits⟩ := Layout.shrink_spec (fun k => fits (.ofNat k)) hr hrn (by omega)
  generalize Layout.shrink (fun k => fits (.ofNat k)) n.toNat = k at *
  have hk : (UInt32.ofNat k).toNat = k :=
    UInt32.toNat_ofNat_of_lt' (Nat.lt_of_le_of_lt hle' n.toNat_lt)
  have hkr := (shrinkDim_bounds hfits (UInt32.le_iff_toNat_le.mpr (by omega)) h).1
  rw [UInt32.le_iff_toNat_le, hk] at hkr
  omega

-- ---------------------------------------------------------------------------
-- WIDTH, LINES and DrawAll_Start
-- ---------------------------------------------------------------------------

def FrameBuffer.resize (dim : UInt32 × UInt32) (fb : FrameBuffer) : FrameBuffer :=
  { fb with fbWidth := dim.1, fbHeight := dim.2, fbStride := dim.1 * 4 }

def FrameBuffer.HasRoom (fb : FrameBuffer) : Prop := checkWndWidthHeight fb 80 25 = true

instance (fb : FrameBuffer) : Decidable fb.HasRoom := inferInstanceAs (Decidable (_ = true))

structure VideoSize where
  fb : FrameBuffer
  wndWidth : UInt32
  wndHeight : UInt32
  deriving DecidableEq

namespace VideoSize

def minValue (isWidth : Bool) : UInt32 := if isWidth then 80 else 25

/-- The new value that the arguments ask for, or what is printed. -/
def newValue (isWidth : Bool) (s : VideoSize) : List (List Char) → Except String UInt32
  | [_] =>
    .error ("Current number of display " ++ (if isWidth then "columns" else "rows") ++ " is " ++
      toString (if isWidth then s.wndWidth else s.wndHeight).toNat ++ ".")
  | [_, v] =>
    let v := Cmd.trim v
    if v.all fun c => '0' ≤ c && c ≤ '9' then
      let newValue := UInt32.ofNat (Crt.strtoui64 v 10)
      if newValue < minValue isWidth then
        .error ("Argument must be greater than or equal to " ++
          toString (minValue isWidth).toNat ++ ".")
      else if newValue > 160 then .error "Argument must be less than or equal to 160."
      else .ok newValue
    else .error "Invalid argument."
  | _ => .error "Too many arguments."

def withDim (isWidth : Bool) (n : UInt32) (s : VideoSize) : VideoSize :=
  if isWidth then { s with wndWidth := n } else { s with wndHeight := n }

/-- Whether the window fits with another number of columns or rows. -/
def fits (isWidth : Bool) (s : VideoSize) (n : UInt32) : Bool :=
  checkWndWidthHeight (s.withDim isWidth n).fb (s.withDim isWidth n).wndWidth
    (s.withDim isWidth n).wndHeight

/-- `CommandImpl`. There is no result when its loop never ends. -/
def commandImpl (isWidth : Bool) (args : List (List Char)) (s : VideoSize) : Option VideoSize :=
  match s.newValue isWidth args with
  | .error _ => some s
  | .ok newValue =>
    (shrinkDim (s.fits isWidth) turns newValue).map (s.withDim isWidth)

/-- The beginning of `DrawAll_Start`. Without a virtual machine both dimensions are zero. -/
def drawAllStart (dim : UInt32 × UInt32) (s : VideoSize) : VideoSize :=
  if dim.1 ≠ 0 ∧ dim.2 ≠ 0 ∧ (dim.1 ≠ s.fb.fbWidth ∨ dim.2 ≠ s.fb.fbHeight) then
    if checkWndWidthHeight (s.fb.resize dim) s.wndWidth s.wndHeight then
      { s with fb := s.fb.resize dim }
    else ⟨s.fb.resize dim, 80, 25⟩
  else s

inductive Event
  | command (isWidth : Bool) (args : List (List Char))
  | drawAllStart (dim : UInt32 × UInt32)

def step (s : VideoSize) : Event → Option VideoSize
  | .command isWidth args => s.commandImpl isWidth args
  | .drawAllStart dim => some (s.drawAllStart dim)

/-- What `DriverEntry` leaves. -/
def start (fb : FrameBuffer) : VideoSize := ⟨fb, 80, 25⟩

/-- Each command whose argument is accepted ends, with a window that is large enough and fits. -/
def CommandsUsable (s : VideoSize) : Prop :=
  ∀ isWidth args newValue, s.newValue isWidth args = .ok newValue →
    ∃ s', s.commandImpl isWidth args = some s' ∧ 80 ≤ s'.wndWidth ∧ 25 ≤ s'.wndHeight ∧
      checkWndWidthHeight s'.fb s'.wndWidth s'.wndHeight = true

-- ---------------------------------------------------------------------------
-- Room for 80 columns by 25 rows
-- ---------------------------------------------------------------------------

variable {s s' : VideoSize} {fb : FrameBuffer}

/-- A window that is large enough, of numbers that are accepted, and fits. -/
def Sized (s : VideoSize) : Prop := Ui.Dims s.fb s.wndWidth.toNat s.wndHeight.toNat

theorem accepted_bounds (h : s.newValue isWidth args = .ok n) :
    (minValue isWidth).toNat ≤ n.toNat ∧ n.toNat ≤ 160 := by
  unfold newValue at h
  split at h
  · cases h
  · dsimp only at h
    split at h
    · split at h
      · cases h
      · next hmin =>
        split at h
        · cases h
        · next hmax =>
          obtain rfl := Except.ok.inj h
          exact ⟨UInt32.le_iff_toNat_le.mp (UInt32.not_lt.mp hmin),
            UInt32.le_iff_toNat_le.mp (UInt32.not_lt.mp hmax)⟩
    · cases h
  · cases h

theorem Sized.check (h : s.Sized) : checkWndWidthHeight s.fb s.wndWidth s.wndHeight = true := by
  have hfits := h.fits
  rwa [UInt32.ofNat_toNat, UInt32.ofNat_toNat] at hfits

theorem Sized.fits_minValue (h : s.Sized) (isWidth : Bool) :
    s.fits isWidth (minValue isWidth) = true := by
  cases isWidth with
  | true =>
    have := Layout.checkWndWidthHeight_mono s.fb h.width_ge h.width_le
        (Nat.le_refl _) h.height_le h.fits
    rwa [UInt32.ofNat_toNat] at this
  | false =>
    have := Layout.checkWndWidthHeight_mono s.fb
        (Nat.le_refl _) h.width_le h.height_ge h.height_le h.fits
    rwa [UInt32.ofNat_toNat] at this

theorem Sized.hasRoom (h : s.Sized) : s.fb.HasRoom :=
  Layout.checkWndWidthHeight_mono s.fb h.width_ge h.width_le h.height_ge h.height_le h.fits

theorem sized_of_hasRoom (h : fb.HasRoom) : Sized ⟨fb, 80, 25⟩ :=
  ⟨Nat.le_refl _, show 80 ≤ 160 by decide, Nat.le_refl _, show 25 ≤ 160 by decide, h⟩

theorem fits_zero (h : s.fits isWidth n = true) : s.fits isWidth 0 = true := by
  unfold fits checkWndWidthHeight withDim at *
  cases isWidth <;> simp_all

theorem Sized.withDim (h : s.Sized) (hge : (minValue isWidth).toNat ≤ n.toNat) (hle : n.toNat ≤ 160)
    (hfits : s.fits isWidth n = true) : (s.withDim isWidth n).Sized := by
  have hfits' : checkWndWidthHeight (s.withDim isWidth n).fb
      (.ofNat (s.withDim isWidth n).wndWidth.toNat)
      (.ofNat (s.withDim isWidth n).wndHeight.toNat) = true := by
    rwa [UInt32.ofNat_toNat, UInt32.ofNat_toNat]
  cases isWidth with
  | true => exact ⟨hge, hle, h.height_ge, h.height_le, hfits'⟩
  | false => exact ⟨h.width_ge, h.width_le, hge, hle, hfits'⟩

theorem withDim_fb (s : VideoSize) (isWidth : Bool) (n : UInt32) :
    (s.withDim isWidth n).fb = s.fb := by
  cases isWidth <;> rfl

theorem Sized.commandImpl (h : s.Sized) (isWidth : Bool) (args : List (List Char)) :
    ∃ s', s.commandImpl isWidth args = some s' ∧ s'.Sized ∧ s'.fb = s.fb := by
  unfold VideoSize.commandImpl
  split
  · exact ⟨s, rfl, h, rfl⟩
  · next newValue hn =>
    obtain ⟨hge, hle⟩ := accepted_bounds hn
    have hmin := h.fits_minValue isWidth
    obtain ⟨r, hr⟩ := shrinkDim_turns_isSome (n := newValue) hmin
    obtain ⟨hrge, hrle⟩ := shrinkDim_bounds hmin (UInt32.le_iff_toNat_le.mpr hge) hr
    rw [UInt32.le_iff_toNat_le] at hrge hrle
    refine ⟨s.withDim isWidth r, by rw [hr]; rfl, ?_, s.withDim_fb isWidth r⟩
    exact h.withDim hrge (Nat.le_trans hrle hle) (fits_of_shrinkDim hr)

theorem Sized.commandImpl_layout (h : s.Sized) (hn : s.newValue isWidth args = .ok n)
    (hs : s.commandImpl isWidth args = some s') {l : Layout}
      (hwidth : l.wndWidth = s.wndWidth.toNat)
    (hheight : l.wndHeight = s.wndHeight.toNat) :
    (l.withDim s.fb isWidth n.toNat).wndWidth = s'.wndWidth.toNat ∧
      (l.withDim s.fb isWidth n.toNat).wndHeight = s'.wndHeight.toNat := by
  obtain ⟨hge, -⟩ := accepted_bounds hn
  rw [VideoSize.commandImpl, hn] at hs
  obtain ⟨r, hr, rfl⟩ := Option.map_eq_some_iff.mp hs
  have heq := shrinkDim_eq_shrink (h.fits_minValue isWidth) (by cases isWidth <;> decide)
    (UInt32.le_iff_toNat_le.mpr hge) hr
  unfold Layout.withDim
  rw [hwidth, hheight, UInt32.ofNat_toNat, UInt32.ofNat_toNat]
  cases isWidth with
  | true => exact ⟨heq.symm, rfl⟩
  | false => exact ⟨rfl, heq.symm⟩

theorem Sized.commandsUsable (h : s.Sized) : s.CommandsUsable := by
  intro isWidth args newValue _
  obtain ⟨s', hs', hsized, -⟩ := h.commandImpl isWidth args
  exact ⟨s', hs', UInt32.le_iff_toNat_le.mpr hsized.width_ge,
    UInt32.le_iff_toNat_le.mpr hsized.height_ge, hsized.check⟩

theorem Sized.drawAllStart (h : s.Sized)
    (hroom : dim.1 ≠ 0 → dim.2 ≠ 0 → (s.fb.resize dim).HasRoom) : (s.drawAllStart dim).Sized := by
  unfold VideoSize.drawAllStart
  split
  · next hchanged =>
    split
    · next hfits =>
      refine ⟨h.width_ge, h.width_le, h.height_ge, h.height_le, ?_⟩
      rwa [UInt32.ofNat_toNat, UInt32.ofNat_toNat]
    · exact sized_of_hasRoom (hroom hchanged.1 hchanged.2.1)
  · exact h

theorem Sized.drawAllStart_fallback (h : s.Sized) (hw : dim.1 ≠ 0) (hh : dim.2 ≠ 0)
    (hroom : ¬ (s.fb.resize dim).HasRoom) : s.drawAllStart dim = ⟨s.fb.resize dim, 80, 25⟩ := by
  unfold VideoSize.drawAllStart
  have hchanged : dim.1 ≠ s.fb.fbWidth ∨ dim.2 ≠ s.fb.fbHeight := by
    by_contra hsame
    obtain ⟨hw', hh'⟩ := not_or.mp hsame
    have hold := h.hasRoom
    unfold FrameBuffer.HasRoom checkWndWidthHeight FrameBuffer.resize at *
    rw [not_not.mp hw', not_not.mp hh'] at hroom
    exact hroom hold
  have hfits : ¬ checkWndWidthHeight (s.fb.resize dim) s.wndWidth s.wndHeight = true := by
    intro hfits
    have hsized : Sized ⟨s.fb.resize dim, s.wndWidth, s.wndHeight⟩ :=
      ⟨h.width_ge, h.width_le, h.height_ge, h.height_le, by
        rwa [UInt32.ofNat_toNat, UInt32.ofNat_toNat]⟩
    exact hroom hsized.hasRoom
  rw [if_pos ⟨hw, hh, hchanged⟩, if_neg hfits]

theorem drawAllStart_resize (s : VideoSize) (dim dim' : UInt32 × UInt32) :
    (s.drawAllStart dim).fb.resize dim' = s.fb.resize dim' := by
  unfold VideoSize.drawAllStart
  split
  · split <;> rfl
  · rfl

theorem hasRoom_of_commandsUsable (h : CommandsUsable ⟨fb, 80, 25⟩) : fb.HasRoom := by
  have hvalue : newValue true ⟨fb, 80, 25⟩ [[], ['8', '0']] = .ok 80 := by
    simp only [newValue]
    decide
  obtain ⟨s', hs', hwidth, -, hfits⟩ := h true [[], ['8', '0']] 80 hvalue
  rw [VideoSize.commandImpl, hvalue] at hs'
  obtain ⟨r, hr, rfl⟩ := Option.map_eq_some_iff.mp hs'
  have hle := (shrinkDim_bounds (fits_zero (fits_of_shrinkDim hr)) UInt32.zero_le hr).2
  obtain rfl : r = 80 := UInt32.le_antisymm hle hwidth
  exact hfits

/-- The screens that are taken over have room. -/
def TakesOver (fb : FrameBuffer) (events : List Event) : Prop :=
  ∀ dim, .drawAllStart dim ∈ events → dim.1 ≠ 0 → dim.2 ≠ 0 → (fb.resize dim).HasRoom

theorem takesOver_command : TakesOver fb (.command isWidth args :: events) ↔
    TakesOver fb events := by
  simp [TakesOver]

theorem takesOver_drawAllStart : TakesOver fb (.drawAllStart dim :: events) ↔
    (dim.1 ≠ 0 → dim.2 ≠ 0 → (fb.resize dim).HasRoom) ∧ TakesOver fb events := by
  simp only [TakesOver, List.mem_cons, Event.drawAllStart.injEq, or_imp, forall_and, forall_eq]

theorem along_usable_iff (h : s.Sized) (events : List Event) :
    Runs.Along step CommandsUsable s events ↔ TakesOver s.fb events := by
  induction events generalizing s with
  | nil => exact iff_of_true (Runs.along_nil.mpr h.commandsUsable) fun _ hmem =>
      absurd hmem List.not_mem_nil
  | cons e events ih =>
    rw [Runs.along_cons, and_iff_right h.commandsUsable]
    cases e with
    | command isWidth args =>
      obtain ⟨t, ht, hsized, hfb⟩ := h.commandImpl isWidth args
      rw [takesOver_command, ← hfb, ← ih hsized]
      simp [step, ht]
    | drawAllStart dim =>
      have htakes : TakesOver (s.drawAllStart dim).fb events ↔ TakesOver s.fb events := by
        simp only [TakesOver, drawAllStart_resize]
      rw [takesOver_drawAllStart, ← htakes]
      simp only [step, Option.some.injEq, forall_eq']
      by_cases hroom : dim.1 ≠ 0 → dim.2 ≠ 0 → (s.fb.resize dim).HasRoom
      · rw [and_iff_right hroom, ih (h.drawAllStart hroom)]
      · -- the next command would show that there is no room
        refine iff_of_false (fun halong => ?_) fun hroom' => hroom hroom'.1
        simp only [Classical.not_imp] at hroom
        obtain ⟨hw, hh, hroom⟩ := hroom
        rw [h.drawAllStart_fallback hw hh hroom] at halong
        exact hroom (hasRoom_of_commandsUsable (halong [] List.nil_prefix _ rfl))

/-- From the start: the mapped screen decides too. -/
theorem commands_usable_iff (fb : FrameBuffer) (events : List Event) :
    Runs.Along step CommandsUsable (start fb) events ↔ fb.HasRoom ∧ TakesOver fb events := by
  by_cases hroom : fb.HasRoom
  · rw [and_iff_right hroom]
    exact along_usable_iff (sized_of_hasRoom hroom) events
  · refine iff_of_false (fun halong => ?_) fun h => hroom h.1
    exact hroom (hasRoom_of_commandsUsable (halong [] List.nil_prefix _ rfl))

def narrowed : VideoSize := ⟨(screen 4096).resize (640, 480), 80, 25⟩

theorem narrowed_fits (m : UInt32) : narrowed.fits false m = false := by
  have hwidth : (80 : UInt32) * glyphWidth > 640 := by decide
  simp [narrowed, fits, withDim, checkWndWidthHeight, FrameBuffer.resize, hwidth]

/-- On a screen that became too narrow `LINES 25` never ends, and `WIDTH 80` ends with 71 columns.
-/
theorem lines_after_resize :
    mapFrameBuffer 1024 768 0xE8000000 4096 = some (screen 4096) ∧
    List.foldlM step (start (screen 4096)) [.drawAllStart (640, 480)] = some narrowed ∧
    narrowed.newValue false ["lines".toList, "25".toList] = .ok 25 ∧
    (∀ fuel, shrinkDim (narrowed.fits false) fuel 25 = none) ∧
    (narrowed.commandImpl true ["width".toList, "80".toList]).map wndWidth = some 71 ∧
    ¬ Runs.Along step CommandsUsable (start (screen 4096)) [.drawAllStart (640, 480)] := by
  have hrun : List.foldlM step (start (screen 4096)) [.drawAllStart (640, 480)] =
      some narrowed := by
    decide
  have hvalue : narrowed.newValue false ["lines".toList, "25".toList] = .ok 25 := by
    simp only [newValue]
    decide
  refine ⟨by decide, hrun, hvalue, fun fuel => shrinkDim_eq_none narrowed_fits, ?_,
    fun halong => ?_⟩
  · have hwide : shrinkDim (narrowed.fits true) 10 80 = some 71 := by decide
    have hvalue' : narrowed.newValue true ["width".toList, "80".toList] = .ok 80 := by
      simp only [newValue]
      decide
    have hturns : 10 ≤ turns := by
      unfold turns
      decide
    rw [commandImpl, hvalue']
    simp only [shrinkDim_more hwide hturns]
    decide
  · obtain ⟨s', hs', -⟩ := halong _ List.prefix_rfl _ hrun _ _ _ hvalue
    rw [commandImpl, hvalue] at hs'
    simp only [shrinkDim_eq_none narrowed_fits] at hs'
    cases hs'

end VideoSize

end BugChecker.Wnd
