import BugChecker.Wnd.LogWnd

/-!
# The view of the log window

`posY` is the first line of the log that is shown. The lines change and so does
the height of the window, and `GoToEnd` is to show the last lines. It does so
only if there are enough of them to fill the window.
-/

namespace BugChecker.Wnd

namespace LogWnd

section
variable (w : LogWnd)

def clear : LogWnd := { w with contents := [], capacity := 0, allocSize := 0, posY := 0 }

def up : LogWnd := if w.posY > 0 then { w with posY := w.posY - 1 } else w

def maxPosY : Nat := w.contents.length - w.winDim.toNat

/-- `posY`, at most as large as it may be. -/
def clampPosY (posY : UInt32) : LogWnd :=
  let maxPosY := UInt32.ofNat w.maxPosY
  { w with posY := if posY > maxPosY then maxPosY else posY }

def down : LogWnd := w.clampPosY (w.posY + 1)

def pgUp : LogWnd := { w with posY := if w.posY > w.winDim then w.posY - w.winDim else 0 }

def pgDn : LogWnd := w.clampPosY (w.posY + w.winDim)

def home : LogWnd := { w with posY := 0 }

/-- The window as it is placed by `DrawAll_Start`, when the layout is another one. -/
def place (destY0 destY1 : UInt32) : LogWnd :=
  { w with destY0 := destY0, destY1 := destY1, goToEndPending := false }

end

/-- What happens to the window. -/
inductive Op where
  | addString (s : List UInt8) (doAppend : Bool)
  | clear
  | up
  | down
  | pgUp
  | pgDn
  | home
  | toEnd
  | layout (destY0 destY1 : UInt32)

section
variable (w : LogWnd)

/-- The window as it is when `GoToEnd` is called, for the operations that call it. -/
def atGoToEnd : Op → Option LogWnd
  | .addString s doAppend => some (w.addTrimmed s doAppend)
  | .toEnd => some w
  | .layout destY0 destY1 => some (w.place destY0 destY1)
  | _ => none

def apply (op : Op) : LogWnd :=
  match op with
  | .addString s doAppend => w.addString s doAppend
  | .clear => w.clear
  | .up => w.up
  | .down => w.down
  | .pgUp => w.pgUp
  | .pgDn => w.pgDn
  | .home => w.home
  | .toEnd => w.goToEnd
  | .layout destY0 destY1 => (w.place destY0 destY1).goToEnd

def LaidOut : Prop := ¬ (w.destY0 = 0 ∧ w.destY1 = 0)

/-- The view does not go past the end. -/
def InView : Prop := w.LaidOut → w.posY.toNat ≤ w.maxPosY

end

/-- The view after an operation: not past the end, and at it if the operation goes there. -/
def WellScrolled (w : LogWnd) (op : Op) : Prop :=
  InView (w.apply op) ∧
    ((w.atGoToEnd op).isSome → (w.apply op).LaidOut →
      (w.apply op).posY.toNat = (w.apply op).maxPosY)

/-- There are lines for all of the window when `GoToEnd` is called, or the view is at the start. -/
def EndInReach (w : LogWnd) (op : Op) : Prop :=
  ∀ v ∈ w.atGoToEnd op, v.LaidOut → v.winDim.toNat ≤ v.contents.length ∨ v.posY = 0

section
variable {w : LogWnd}

theorem apply_of_atGoToEnd (h : v ∈ w.atGoToEnd op) : w.apply op = v.goToEnd := by
  cases op with
  | addString | toEnd | layout =>
    cases h
    rfl
  | _ => cases h

theorem apply_sound (h : Sound w) (op : Op) : Sound (w.apply op) := by
  cases op with
  | addString s doAppend => exact addString_sound h s doAppend
  | clear => exact ⟨rfl, Nat.le_refl 0, fun hne => absurd rfl hne⟩
  | up =>
    simp only [apply, up]
    split
    · exact ⟨h.held, h.room, h.within⟩
    · exact h
  | down | pgUp | pgDn | home => exact ⟨h.held, h.room, h.within⟩
  | toEnd => exact goToEnd_sound h
  | layout destY0 destY1 => exact goToEnd_sound ⟨h.held, h.room, h.within⟩

theorem length_lt (h : Sound w) : w.contents.length < 2 ^ 32 := by
  by_cases hnil : w.contents = []
  · rw [hnil]
    decide
  · have hle := h.within hnil
    have hroom := h.room
    have hbuffer : w.capacity * 24 ≤ bufferSize w.capacity := by
      unfold bufferSize
      split
      · next hzero => rw [hzero]
      · exact (Nat.le_add_right _ _).trans (allocatedSize_bounds _).1
    rw [h.held, held] at hle
    simp only [logWindowContentsMaxSize] at hle
    omega

theorem toNat_maxPosY (h : Sound w) : (UInt32.ofNat w.maxPosY).toNat = w.maxPosY :=
  UInt32.toNat_ofNat_of_lt' ((Nat.sub_le _ _).trans_lt (length_lt h))

theorem clampPosY_inView (h : Sound w) (posY : UInt32) : InView (w.clampPosY posY) := by
  intro _
  show (if posY > UInt32.ofNat w.maxPosY then UInt32.ofNat w.maxPosY else posY).toNat ≤ w.maxPosY
  split
  · exact (toNat_maxPosY h).le
  · next hle =>
    rw [← toNat_maxPosY h]
    exact UInt32.le_iff_toNat_le.mp (UInt32.not_lt.mp hle)

theorem goToEnd_posY (h : Sound w) (hout : w.LaidOut) :
    w.goToEnd.posY.toNat =
      if w.winDim.toNat ≤ w.contents.length then w.maxPosY else w.posY.toNat := by
  rw [goToEnd, if_neg hout]
  split
  · exact toNat_maxPosY h
  · rfl

theorem goToEnd_maxPosY (w : LogWnd) : w.goToEnd.maxPosY = w.maxPosY := by
  obtain ⟨posY, pending, heq⟩ := goToEnd_eq w
  rw [heq]
  rfl

theorem goToEnd_laidOut (w : LogWnd) : w.goToEnd.LaidOut ↔ w.LaidOut := by
  obtain ⟨posY, pending, heq⟩ := goToEnd_eq w
  rw [heq]
  rfl

theorem atGoToEnd_sound (h : Sound w) (hv : v ∈ w.atGoToEnd op) : Sound v := by
  cases op with
  | addString s doAppend =>
    cases hv
    exact addTrimmed_sound h s doAppend
  | toEnd =>
    cases hv
    exact h
  | layout destY0 destY1 =>
    cases hv
    exact ⟨h.held, h.room, h.within⟩
  | _ => cases hv

theorem goToEnd_atEnd_iff (h : Sound w) (hout : w.LaidOut) :
    w.goToEnd.posY.toNat = w.goToEnd.maxPosY ↔ w.winDim.toNat ≤ w.contents.length ∨ w.posY = 0 := by
  rw [goToEnd_posY h hout, goToEnd_maxPosY]
  split
  · next hle => exact iff_of_true rfl (.inl hle)
  · next hlt =>
    have hmax : w.maxPosY = 0 := Nat.sub_eq_zero_of_le (Nat.le_of_not_le hlt)
    rw [hmax, or_iff_right hlt]
    exact UInt32.toNat_inj (b := 0)

theorem apply_inView (h : Sound w) (hview : InView w) (hnone : w.atGoToEnd op = none) :
    InView (w.apply op) := by
  cases op with
  | clear =>
    intro _
    exact Nat.zero_le _
  | up =>
    simp only [apply, up]
    split
    · next hpos =>
      intro hout
      have hone : 1 ≤ w.posY :=
        UInt32.le_iff_toNat_le.mpr (Nat.succ_le_of_lt (UInt32.lt_iff_toNat_lt.mp hpos))
      show (w.posY - 1).toNat ≤ w.maxPosY
      rw [UInt32.toNat_sub_of_le _ _ hone]
      exact (Nat.sub_le _ _).trans (hview hout)
    · exact hview
  | down => exact clampPosY_inView h _
  | pgUp =>
    intro hout
    show (if w.posY > w.winDim then w.posY - w.winDim else 0).toNat ≤ w.maxPosY
    split
    · next hgt =>
      rw [UInt32.toNat_sub_of_le _ _ (UInt32.le_of_lt hgt)]
      exact (Nat.sub_le _ _).trans (hview hout)
    · exact Nat.zero_le _
  | pgDn => exact clampPosY_inView h _
  | home =>
    intro _
    exact Nat.zero_le _
  | addString | toEnd | layout => cases hnone

theorem wellScrolled_of_endInReach (h : Sound w) (hview : InView w) (hreach : EndInReach w op) :
    WellScrolled w op := by
  cases hv : w.atGoToEnd op with
  | none =>
    refine ⟨apply_inView h hview hv, ?_⟩
    rw [hv]
    rintro ⟨⟩
  | some v =>
    have hend : (w.apply op).LaidOut → (w.apply op).posY.toNat = (w.apply op).maxPosY := by
      rw [apply_of_atGoToEnd hv]
      intro hout
      have hout := (goToEnd_laidOut v).mp hout
      exact (goToEnd_atEnd_iff (atGoToEnd_sound h hv) hout).mpr (hreach v hv hout)
    exact ⟨fun hout => (hend hout).le, fun _ => hend⟩

theorem endInReach_of_wellScrolled (h : Sound w) (hscrolled : WellScrolled w op) :
    EndInReach w op := by
  intro v hv hout
  have hend := hscrolled.2 (by rw [hv]; rfl)
  rw [apply_of_atGoToEnd hv] at hend
  exact (goToEnd_atEnd_iff (atGoToEnd_sound h hv) hout).mp (hend ((goToEnd_laidOut v).mpr hout))

-- ---------------------------------------------------------------------------
-- Runs
-- ---------------------------------------------------------------------------

def runOps (ops : List Op) : LogWnd := ops.foldl apply init

theorem runOps_take_succ (ops : List Op) (hi : i < ops.length) :
    runOps (ops.take (i + 1)) = (runOps (ops.take i)).apply ops[i] := by
  rw [← List.take_concat_get hi, List.concat_eq_append, runOps, List.foldl_append]
  rfl

theorem runOps_sound (ops : List Op) : Sound (runOps ops) := by
  induction ops using List.reverseRecOn with
  | nil => exact init_sound
  | append_singleton ops op ih =>
    rw [runOps, List.foldl_append]
    exact apply_sound ih op

theorem runOps_inView (ops : List Op)
    (h : ∀ i (hi : i < ops.length), EndInReach (runOps (ops.take i)) ops[i]) (hn : n ≤ ops.length) :
    InView (runOps (ops.take n)) := by
  induction n with
  | zero =>
    intro hout
    exact absurd ⟨rfl, rfl⟩ hout
  | succ n ih =>
    rw [runOps_take_succ ops hn]
    exact (wellScrolled_of_endInReach (runOps_sound _) (ih (Nat.le_of_lt hn)) (h n hn)).1

end

/-- In a run, the view is never past the end, and is there after each operation that goes there,
exactly if `GoToEnd` is never called with fewer lines than the window has while the view is not at
the start. -/
theorem log_view_iff (ops : List Op) :
    (∀ i (hi : i < ops.length), WellScrolled (runOps (ops.take i)) ops[i]) ↔
      ∀ i (hi : i < ops.length), EndInReach (runOps (ops.take i)) ops[i] := by
  constructor
  · intro h i hi
    exact endInReach_of_wellScrolled (runOps_sound _) (h i hi)
  · intro h i hi
    exact wellScrolled_of_endInReach (runOps_sound _)
      (runOps_inView ops h (Nat.le_of_lt hi)) (h i hi)

/-- Three lines in a window of two, which then gets a height of ten. -/
def tallerWindow : List Op :=
  [.layout 1 2, .addString [0x61] false, .addString [0x62] false, .addString [0x63] false,
    .layout 1 10]

theorem tallerWindow_past_end :
    (runOps tallerWindow).LaidOut ∧ (runOps tallerWindow).posY = 1 ∧
      (runOps tallerWindow).maxPosY = 0 ∧
      ¬ ∀ i (hi : i < tallerWindow.length),
        WellScrolled (runOps (tallerWindow.take i)) tallerWindow[i] := by
  have hpos : (runOps tallerWindow).posY = 1 := by decide +kernel
  have hmax : (runOps tallerWindow).maxPosY = 0 := by decide +kernel
  have hout : (runOps tallerWindow).LaidOut := by
    rintro ⟨hzero, -⟩
    exact absurd hzero (by decide +kernel)
  refine ⟨hout, hpos, hmax, fun hall => ?_⟩
  have hview := (hall 4 (by decide)).1 hout
  rw [show (runOps (tallerWindow.take 4)).apply tallerWindow[4] = runOps tallerWindow
    from rfl, hpos,
    hmax] at hview
  exact absurd hview (by decide)

end LogWnd

end BugChecker.Wnd
