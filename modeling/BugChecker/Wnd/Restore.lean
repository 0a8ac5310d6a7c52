import BugChecker.Wnd.FrameBuffer
import BugChecker.Lib.Runs

/-!
# Saving and restoring what is under the window

Only pixels are saved. Where they belong is worked out again when they are
restored, from the size of the screen and that of the window: `WIDTH` and
`LINES` restore before they change the window, a new size of the screen is
taken over at once.
-/

namespace BugChecker.Wnd

/-- The offsets of the pixels, in the order of the copy. -/
inductive Transfer where
  | save (offsets : List Nat)
  | restore (offsets : List Nat)

structure Video where
  fb : FrameBuffer
  wndWidth : UInt32
  wndHeight : UInt32
  /-- `VideoRestoreBufferState`. -/
  saved : Bool
  /-- `VideoRestoreBufferTimer` is running. -/
  timer : Bool
  /-- Every copy so far, the last one first. -/
  transfers : List Transfer

def Video.start (fb : FrameBuffer) : Video :=
  { fb := fb, wndWidth := 80, wndHeight := 25, saved := false, timer := false, transfers := [] }

def Video.offsets (v : Video) : List Nat := savedOffsets v.fb v.wndWidth v.wndHeight

def Video.savesOrRestores (v : Video) : Bool := Wnd.savesOrRestores v.fb v.wndWidth v.wndHeight

def saveOrRestoreFrameBuffer (direction : Bool) (v : Video) : Video :=
  if !checkWndWidthHeight v.fb v.wndWidth v.wndHeight then v
  else
    let v := { v with timer := false }
    if !v.savesOrRestores then v
    else if !direction then
      if v.saved then v else { v with saved := true, transfers := .save v.offsets :: v.transfers }
    else
      if !v.saved then v
      else { v with saved := false, transfers := .restore v.offsets :: v.transfers }

def Video.resized (v : Video) (dim : UInt32 × UInt32) : Bool :=
  dim.1 ≠ 0 && dim.2 ≠ 0 && (dim.1 ≠ v.fb.fbWidth || dim.2 ≠ v.fb.fbHeight)

def drawAllStart (dim : UInt32 × UInt32) (v : Video) : Video :=
  let v :=
    if v.resized dim then
      let v := { v with
        fb := { v.fb with fbWidth := dim.1, fbHeight := dim.2, fbStride := dim.1 * 4 } }
      if !checkWndWidthHeight v.fb v.wndWidth v.wndHeight then
        { v with wndWidth := 80, wndHeight := 25 }
      else v
    else v
  saveOrRestoreFrameBuffer false v

/-- `WIDTH` and `LINES` count down until the window fits. After `2 ^ 32` turns every number was
tried. -/
def countDown (fb : FrameBuffer) (isWidth : Bool) : Nat → UInt32 → UInt32 → Option (UInt32 × UInt32)
  | 0, _, _ => none
  | turns + 1, widthChr, heightChr =>
    if checkWndWidthHeight fb widthChr heightChr then some (widthChr, heightChr)
    else if isWidth then countDown fb isWidth turns (widthChr - 1) heightChr
    else countDown fb isWidth turns widthChr (heightChr - 1)

def setSize (isWidth : Bool) (newValue : UInt32) (v : Video) : Option Video :=
  let minValue : UInt32 := if isWidth then 80 else 25
  if newValue < minValue || newValue > 160 then some v
  else
    (countDown v.fb isWidth 0x100000000 (if isWidth then newValue else v.wndWidth)
      (if !isWidth then newValue else v.wndHeight)).map fun (widthChr, heightChr) =>
        { saveOrRestoreFrameBuffer true v with wndWidth := widthChr, wndHeight := heightChr }

inductive VideoInput where
  | drawAllStart (dim : UInt32 × UInt32)
  | setSize (isWidth : Bool) (newValue : UInt32)
  /-- The machine is resumed. -/
  | resume
  /-- KD polls for a packet, and the time is up or not. -/
  | checkForAnyPacket (timeOut : Bool)

def videoStep (v : Video) : VideoInput → Option Video
  | .drawAllStart dim => some (drawAllStart dim v)
  | .setSize isWidth newValue => setSize isWidth newValue v
  | .resume => some { v with timer := true }
  | .checkForAnyPacket timeOut =>
    some (if v.timer && timeOut then saveOrRestoreFrameBuffer true { v with timer := false } else v)

-- ---------------------------------------------------------------------------
-- Restored where saved
-- ---------------------------------------------------------------------------

/-- Saving and restoring take turns, and a restore is to where its save was from. -/
def Matched : List Transfer → Prop
  | [] => True
  | [.save _] => True
  | .save _ :: .restore offsets :: rest => Matched (.restore offsets :: rest)
  | .restore offsets :: .save offsets' :: rest => offsets = offsets' ∧
    Matched (.save offsets' :: rest)
  | .restore _ :: _ => False
  | .save _ :: .save _ :: _ => False

def lastSave : List Transfer → Option (List Nat)
  | .save offsets :: _ => some offsets
  | _ => none

theorem matched_save (h : Matched transfers) (hfree : lastSave transfers = none) :
    Matched (.save offsets :: transfers) := by
  cases transfers with
  | nil => trivial
  | cons t rest =>
    cases t with
    | save o => cases hfree
    | restore o => exact h

theorem matched_restore (h : Matched transfers) (hsave : lastSave transfers = some offsets) :
    Matched (.restore offsets :: transfers) := by
  cases transfers with
  | nil => cases hsave
  | cons t rest =>
    cases t with
    | save o =>
      obtain rfl := Option.some.inj hsave
      exact ⟨rfl, h⟩
    | restore o => cases hsave

structure Video.Ok (v : Video) : Prop where
  matched : Matched v.transfers
  free : v.saved = false → lastSave v.transfers = none
  saved : v.saved = true → lastSave v.transfers = some v.offsets ∧ v.savesOrRestores = true

theorem saveOrRestore_cases (direction : Bool) (v : Video) :
    (∃ timer, saveOrRestoreFrameBuffer direction v = { v with timer := timer }) ∨
    (direction = false ∧ v.saved = false ∧ v.savesOrRestores = true ∧
      saveOrRestoreFrameBuffer direction v =
        { v with timer := false, saved := true, transfers := .save v.offsets :: v.transfers }) ∨
    (direction = true ∧ v.saved = true ∧
      saveOrRestoreFrameBuffer direction v =
        { v with
          timer := false, saved := false, transfers := .restore v.offsets :: v.transfers }) := by
  unfold saveOrRestoreFrameBuffer
  split
  · exact Or.inl ⟨v.timer, rfl⟩
  · dsimp only
    split
    · exact Or.inl ⟨false, rfl⟩
    · next hs =>
      have hsaves : v.savesOrRestores = true := by simpa [Video.savesOrRestores] using hs
      cases direction with
      | false =>
        cases hsaved : v.saved with
        | true => exact Or.inl ⟨false, by simp⟩
        | false => exact Or.inr (Or.inl ⟨rfl, rfl, hsaves, by simp [Video.offsets]⟩)
      | true =>
        cases hsaved : v.saved with
        | false => exact Or.inl ⟨false, by simp⟩
        | true => exact Or.inr (Or.inr ⟨rfl, rfl, by simp [Video.offsets]⟩)

theorem saveOrRestore_ok (h : v.Ok) : (saveOrRestoreFrameBuffer direction v).Ok := by
  rcases saveOrRestore_cases direction v with ⟨timer, heq⟩ | ⟨-, hs, hsaves, heq⟩ | ⟨-, hs, heq⟩
  · rw [heq]
    exact ⟨h.matched, h.free, h.saved⟩
  · rw [heq]
    exact ⟨matched_save h.matched (h.free hs), nofun, fun _ => ⟨rfl, hsaves⟩⟩
  · rw [heq]
    exact ⟨matched_restore h.matched (h.saved hs).1, fun _ => rfl, nofun⟩

theorem restore_not_saved (h : v.Ok) : (saveOrRestoreFrameBuffer true v).saved = false := by
  cases hs : v.saved with
  | false =>
    rcases saveOrRestore_cases true v with ⟨timer, heq⟩ | ⟨hdir, -⟩ | ⟨-, hs', -⟩
    · rw [heq]
      exact hs
    · cases hdir
    · rw [hs] at hs'
      cases hs'
  | true =>
    have hsaves := (h.saved hs).2
    have hcheck : checkWndWidthHeight v.fb v.wndWidth v.wndHeight = true :=
      (Bool.and_eq_true_iff.mp hsaves).1
    simp only [saveOrRestoreFrameBuffer, hcheck, hs, Bool.not_true, Bool.false_eq_true, if_false]
    split
    · next hno => exact absurd hsaves (by simpa [Video.savesOrRestores] using hno)
    · rfl

/-- A new size of the screen is seen only while nothing is saved. -/
def ResizeSafe (v : Video) : VideoInput → Prop
  | .drawAllStart dim => v.saved = true → v.resized dim = false
  | _ => True

theorem videoStep_ok (h : v.Ok) (hsafe : ResizeSafe v i) (hs : videoStep v i = some v') :
    v'.Ok := by
  cases i with
  | drawAllStart dim =>
    obtain rfl := Option.some.inj hs
    refine saveOrRestore_ok ?_
    split
    · next hresized =>
      have hfree : v.saved = false := by
        cases hsaved : v.saved with
        | false => rfl
        | true =>
          rw [hsafe hsaved] at hresized
          cases hresized
      dsimp only
      split
      · exact ⟨h.matched, h.free, fun hsaved => by rw [hfree] at hsaved; cases hsaved⟩
      · exact ⟨h.matched, h.free, fun hsaved => by rw [hfree] at hsaved; cases hsaved⟩
    · exact h
  | setSize isWidth newValue =>
    simp only [videoStep, setSize] at hs
    generalize (if isWidth = true then (80 : UInt32) else 25) = minValue at hs
    split at hs
    · obtain rfl := Option.some.inj hs
      exact h
    · obtain ⟨⟨w, h'⟩, -, rfl⟩ := Option.map_eq_some_iff.mp hs
      have hok : (saveOrRestoreFrameBuffer true v).Ok := saveOrRestore_ok h
      have hfree := restore_not_saved h
      exact ⟨hok.matched, hok.free, fun hsaved => by
        rw [show _ = true from hsaved] at hfree
        cases hfree⟩
  | resume =>
    obtain rfl := Option.some.inj hs
    exact ⟨h.matched, h.free, h.saved⟩
  | checkForAnyPacket timeOut =>
    obtain rfl := Option.some.inj hs
    split
    · exact saveOrRestore_ok ⟨h.matched, h.free, h.saved⟩
    · exact h

theorem start_ok (fb : FrameBuffer) : (Video.start fb).Ok := ⟨trivial, fun _ => rfl, nofun⟩

theorem restored_where_saved (fb : FrameBuffer) (v : Video)
    (h : Runs.Reachable videoStep ResizeSafe (Video.start fb) v) : Matched v.transfers := by
  have hok : v.Ok := h.invariant (start_ok fb) fun _ _ _ => videoStep_ok
  exact hok.matched

instance (v : Video) : (i : VideoInput) → Decidable (ResizeSafe v i)
  | .drawAllStart dim => inferInstanceAs (Decidable (v.saved = true → v.resized dim = false))
  | .setSize .. => isTrue trivial
  | .resume => isTrue trivial
  | .checkForAnyPacket _ => isTrue trivial

/-- A break, a wider window, and the time is up after the machine was resumed. -/
def widerInputs : List VideoInput :=
  [.drawAllStart (1024, 768), .setSize true 100, .drawAllStart (1024, 768), .resume,
    .checkForAnyPacket true]

theorem widerInputs_matched : ∃ v,
    Runs.run videoStep ResizeSafe (Video.start (screen 4096)) widerInputs =
    some v ∧ v.transfers.length = 4 ∧ Matched v.transfers := by
  obtain ⟨v, hrun, hlen⟩ : ∃ v, Runs.run videoStep ResizeSafe
      (Video.start (screen 4096)) widerInputs =
      some v ∧ v.transfers.length = 4 := ⟨_, rfl, rfl⟩
  exact ⟨v, hrun, hlen, restored_where_saved _ v (Runs.reachable_of_run .init hrun)⟩

-- ---------------------------------------------------------------------------
-- A screen that is resized while pixels are saved
-- ---------------------------------------------------------------------------

def resizedInputs : List VideoInput :=
  [.drawAllStart (1024, 768), .drawAllStart (800, 600), .resume, .checkForAnyPacket true]

theorem head?_savedOffsets (hw : 0 < (w * glyphWidth).toNat) (hh : 0 < (h * glyphHeight).toNat) :
    (savedOffsets fb w h).head? = some (lineStart fb w h 0) := by
  obtain ⟨m, hm⟩ := Nat.exists_eq_succ_of_ne_zero (Nat.ne_of_gt hw)
  obtain ⟨n, hn⟩ := Nat.exists_eq_succ_of_ne_zero (Nat.ne_of_gt hh)
  rw [savedOffsets, hm, hn, List.range_succ_eq_map, List.range_succ_eq_map, List.flatMap_cons]
  rfl

theorem resizedInputs_mismatched : ∃ v, Runs.run videoStep (fun _ _ => True)
    (Video.start (screen 4096)) resizedInputs = some v ∧ ¬ Matched v.transfers := by
  refine ⟨_, rfl, ?_⟩
  rintro ⟨heq, -⟩
  have hhead := congrArg List.head? heq
  rw [Video.offsets, Video.offsets, head?_savedOffsets (by decide) (by decide),
    head?_savedOffsets (by decide) (by decide)] at hhead
  revert hhead
  decide

end BugChecker.Wnd
