import BugChecker.Allocator.Heap
import BugChecker.Lib.Budget
import BugChecker.Lib.Tokens

/-!
# The log window

`LogWnd` has the lines of the log in a vector of strings, and drops the oldest
while the memory that both take is over a limit. The memory is measured by what
the allocator has given out, and the buffer of the vector is part of it: it is
never given back.
-/

namespace BugChecker.Wnd

open Allocator (Arch sizeInBits)

-- ---------------------------------------------------------------------------
-- Strings and vectors
-- ---------------------------------------------------------------------------

/-- What `Perf_TotalAllocatedSize` counts for an allocation. -/
def allocatedSize (size : Nat) : Nat :=
  sizeInBits .amd64 (size + Arch.amd64.headerSize) * Arch.amd64.blockSize

theorem allocatedSize_bounds (size : Nat) :
    size + 16 ≤ allocatedSize size ∧ allocatedSize size < size + 80 := by
  have hdiv := Nat.div_add_mod (size + 16) 64
  simp only [allocatedSize, sizeInBits, Arch.headerSize, Arch.blockSize]
  by_cases hmod : (size + 16) % 64 = 0
  · simp only [hmod, ne_eq, not_true_eq_false, if_false]
    omega
  · simp only [hmod, ne_eq, not_false_eq_true, if_true]
    omega

/-- This is by how much the allocator's own counter grows. -/
theorem alloc_perfTotalAllocatedSize (hsize : size + 16 < 2 ^ 64)
    (h : Allocator.alloc .amd64 base start0to99 size st = some (ptr, st')) :
    st'.perfTotalAllocatedSize = st.perfTotalAllocatedSize + allocatedSize size := by
  have hmod : (size + Arch.amd64.headerSize) % 2 ^ Arch.amd64.wordBits =
      size + Arch.amd64.headerSize := Nat.mod_eq_of_lt hsize
  simp only [Allocator.alloc, hmod] at h
  split at h
  · cases h
  · split at h
    · cases h
    · obtain ⟨-, rfl⟩ := Prod.mk.inj (Option.some.inj h)
      rfl

/-- `sizeof(eastl::string)`. -/
def sizeofString : Nat := 24

def ssoCapacity : Nat := sizeofString - 1

/-- A text, and the capacity of its allocation if it is not in the string itself. -/
structure EaString where
  text : List UInt8
  heap : Option Nat
  deriving DecidableEq

namespace EaString

def ofText (text : List UInt8) : EaString :=
  ⟨text, if text.length > ssoCapacity then some text.length else none⟩

def size (s : EaString) : Nat := s.text.length

def held (s : EaString) : Nat :=
  match s.heap with
  | none => 0
  | some capacity => allocatedSize (capacity + 1)

end EaString

/-- `Utils::Tokenize` at line feeds. What is left of the text is in the allocation of all of it. -/
def tokenizeLines (s : List UInt8) : List EaString :=
  let tokens := Tokens.tokenize [10] s
  tokens.dropLast.map .ofText ++ tokens.getLast?.toList.map fun t => ⟨t, (EaString.ofText s).heap⟩

-- ---------------------------------------------------------------------------
-- LogWnd
-- ---------------------------------------------------------------------------

def logWindowContentsMaxSize : Nat := 1 * 1024 * 1024

structure LogWnd where
  contents : List EaString
  /-- The capacity of `contents`. -/
  capacity : Nat
  newLine : Bool
  allocSize : Int
  posY : UInt32
  destY0 : UInt32
  destY1 : UInt32
  goToEndPending : Bool
  deriving DecidableEq

namespace LogWnd

def init : LogWnd where
  contents := []
  capacity := 0
  newLine := true
  allocSize := 0
  posY := 0
  destY0 := 0
  destY1 := 0
  goToEndPending := false

section
variable (w : LogWnd)

def winDim : UInt32 := w.destY1 - w.destY0 + 1

def goToEnd : LogWnd :=
  if w.destY0 = 0 ∧ w.destY1 = 0 then { w with goToEndPending := true }
  else if w.contents.length ≥ w.winDim.toNat then
    { w with posY := UInt32.ofNat (w.contents.length - w.winDim.toNat) }
  else w

/-- The bytes of the buffer of `contents`. -/
def bufferSize (capacity : Nat) : Nat :=
  if capacity = 0 then 0 else allocatedSize (capacity * sizeofString)

/-- What the allocator holds for `contents`. -/
def held : Nat := bufferSize w.capacity + Budget.total EaString.held w.contents

def pushBack (l : EaString) : LogWnd :=
  { w with
    contents := w.contents ++ [l]
    capacity := Budget.pushCapacity w.capacity w.contents.length }

def popEmpty : LogWnd :=
  { w with contents := (w.contents.reverse.dropWhile (·.size = 0)).reverse }

def printable (c : UInt8) : UInt8 :=
  if c ≠ 10 ∧ c ≠ 8 ∧ (c < 32 ∨ c ≥ 128) then 0x3F else c

def unescape (l : EaString) : EaString :=
  { l with text := l.text.map fun c => if c = 8 then 10 else c }

/-- The first line goes on with the last one of the log, if that is not ended. -/
def joined (isFirst : Bool) (l : EaString) : LogWnd × EaString :=
  if w.newLine then ({ w with newLine := false }, l)
  else if isFirst then
    match w.contents.getLast? with
    | none => (w, l)
    | some back => ({ w with contents := w.contents.dropLast }, .ofText (back.text ++ l.text))
  else (w, l)

def appendLines : LogWnd → Bool → List EaString → LogWnd
  | w, _, [] => w
  | w, isFirst, l :: v =>
    let (w, l) := w.joined isFirst l
    appendLines (w.pushBack (unescape l)) false v

def addLines (s : List UInt8) (doAppend : Bool) : LogWnd :=
  if doAppend then w.appendLines true (tokenizeLines (s.map printable))
  else
    let w := if w.newLine then w else w.popEmpty
    let w := if s.length ≠ 0 then w.pushBack (.ofText s) else w
    { w with newLine := true }

/-- The lines are added, and the first ones are dropped while there is too much. -/
def addTrimmed (s : List UInt8) (doAppend : Bool) : LogWnd :=
  let added := w.addLines s doAppend
  let (allocSize, contents) := Budget.trim EaString.held logWindowContentsMaxSize
    (w.allocSize + (added.held - w.held)) added.contents
  { added with allocSize, contents }

def addString (s : List UInt8) (doAppend : Bool) : LogWnd := (w.addTrimmed s doAppend).goToEnd

-- ---------------------------------------------------------------------------
-- What is added
-- ---------------------------------------------------------------------------

def keptLines (doAppend : Bool) : List EaString :=
  if w.newLine then w.contents else if doAppend then w.contents.dropLast else w.popEmpty.contents

/-- The new lines. The first one may go on with the last one that was there. -/
def newLines (s : List UInt8) (doAppend : Bool) : List EaString :=
  if doAppend then
    match tokenizeLines (s.map printable) with
    | [] => []
    | l :: v => ((w.joined true l).2 :: v).map unescape
  else if s.length ≠ 0 then [.ofText s] else []

def lastLine (s : List UInt8) (doAppend : Bool) : List UInt8 :=
  if doAppend then
    ((Tokens.tokenize [10] (s.map printable)).getLast?.getD []).map fun c => if c = 8 then 10 else c
  else s

/-- The capacity of `contents` after the lines are added. -/
def newCapacity (s : List UInt8) (doAppend : Bool) : Nat :=
  Budget.grow w.capacity (w.keptLines doAppend).length (w.newLines s doAppend).length

end

section
variable {w : LogWnd}

theorem appendLines_rest (h : w.newLine = false) (v : List EaString) :
    w.appendLines false v =
      { w with
        contents := w.contents ++ v.map unescape
        capacity := Budget.grow w.capacity w.contents.length v.length } := by
  induction v generalizing w with
  | nil => simp [appendLines, Budget.grow]
  | cons l v ih =>
    have hjoined : w.joined false l = (w, l) := by simp [joined, h]
    rw [appendLines, hjoined]
    simp only
    rw [ih (by simpa [pushBack] using h)]
    simp only [pushBack, List.map_cons, List.append_assoc, List.singleton_append,
      List.length_append, List.length_cons, List.length_nil, Nat.zero_add, Budget.grow_pushCapacity]

theorem joined_fst (l : EaString) :
    (w.joined true l).1 = { w with contents := w.keptLines true, newLine := false } := by
  rcases w with ⟨contents, capacity, newLine, allocSize, posY, destY0, destY1, pending⟩
  cases newLine with
  | true => rfl
  | false =>
    cases hlast : contents.getLast? with
    | none =>
      obtain rfl := List.getLast?_eq_none_iff.mp hlast
      rfl
    | some back => simp [joined, keptLines, hlast]

theorem tokenizeLines_ne_nil (s : List UInt8) : tokenizeLines s ≠ [] := by
  have hne := Tokens.tokensFrom_ne_nil [10] 0 [] s
  simp [tokenizeLines, Tokens.tokenize, List.getLast?_eq_some_getLast hne]

theorem addLines_eq (s : List UInt8) (doAppend : Bool) :
    w.addLines s doAppend =
      { w with
        contents := w.keptLines doAppend ++ w.newLines s doAppend
        capacity := w.newCapacity s doAppend
        newLine := !doAppend } := by
  cases doAppend with
  | true =>
    rcases hv : tokenizeLines (s.map printable) with _ | ⟨l, v⟩
    · exact absurd hv (tokenizeLines_ne_nil _)
    · have hnew : w.newLines s true = ((w.joined true l).2 :: v).map unescape := by
        simp only [newLines, hv, if_true]
      have hjoined : w.joined true l =
          ({ w with contents := w.keptLines true, newLine := false }, (w.joined true l).2) :=
        Prod.ext (joined_fst l) rfl
      rw [newCapacity, addLines, if_pos rfl, hv, appendLines, hnew, hjoined]
      simp only
      rw [appendLines_rest rfl]
      simp only [pushBack, List.map_cons, List.append_assoc, List.singleton_append,
        List.length_append, List.length_cons, List.length_nil, List.length_map, Nat.zero_add,
        Budget.grow_pushCapacity, Bool.not_true]
  | false =>
    have hkept : (if w.newLine then w else w.popEmpty).contents = w.keptLines false := by
      unfold keptLines
      split
      · rfl
      · rfl
    rw [newCapacity, addLines, if_neg Bool.false_ne_true]
    by_cases hlength : s.length ≠ 0
    · simp only [newLines, Bool.false_eq_true, if_false, if_pos hlength, pushBack, hkept,
        List.length_cons, List.length_nil, Budget.grow, Bool.not_false]
      split
      · rfl
      · rfl
    · simp only [newLines, Bool.false_eq_true, if_false, if_neg hlength, ← hkept, List.append_nil,
        List.length_nil, Budget.grow, Bool.not_false]
      split
      · rfl
      · rfl

-- ---------------------------------------------------------------------------
-- What is held
-- ---------------------------------------------------------------------------

/-- `allocSize` is what the allocator holds, the lines are in the buffer, and they are within the
limit. -/
structure Sound (w : LogWnd) : Prop where
  held : w.allocSize = w.held
  room : w.contents.length ≤ w.capacity
  within : w.contents ≠ [] → w.allocSize ≤ logWindowContentsMaxSize

theorem init_sound : Sound init := ⟨rfl, Nat.le_refl 0, fun h => absurd rfl h⟩

theorem length_keptLines_le (doAppend : Bool) :
    (w.keptLines doAppend).length ≤ w.contents.length := by
  unfold keptLines
  split
  · exact Nat.le_refl _
  · split
    · rw [List.length_dropLast]
      exact Nat.sub_le _ _
    · have hsuffix : w.contents.reverse.dropWhile (·.size = 0) <:+ w.contents.reverse :=
        List.dropWhile_suffix _
      simpa [popEmpty] using hsuffix.length_le

theorem addTrimmed_eq (h : Sound w) (s : List UInt8) (doAppend : Bool) :
    let left := Budget.trim EaString.held logWindowContentsMaxSize
      (bufferSize (w.newCapacity s doAppend) +
        Budget.total EaString.held (w.keptLines doAppend ++ w.newLines s doAppend))
      (w.keptLines doAppend ++ w.newLines s doAppend)
    w.addTrimmed s doAppend =
      { w with
        contents := left.2
        capacity := w.newCapacity s doAppend
        newLine := !doAppend
        allocSize := left.1 } := by
  have hsize : w.allocSize + ((w.addLines s doAppend).held - w.held) =
      ((w.addLines s doAppend).held : Int) := by
    rw [h.held]
    omega
  simp only [addTrimmed, hsize]
  simp only [addLines_eq, held, Int.natCast_add]

theorem addTrimmed_sound (h : Sound w) (s : List UInt8) (doAppend : Bool) :
    Sound (w.addTrimmed s doAppend) := by
  have hroom : (w.keptLines doAppend ++ w.newLines s doAppend).length ≤
      w.newCapacity s doAppend := by
    rw [List.length_append]
    exact Budget.grow_le ((length_keptLines_le doAppend).trans h.room) _
  rw [addTrimmed_eq h]
  refine ⟨?_, (Budget.trim_suffix _ _).length_le.trans hroom, Budget.trim_le _ _⟩
  rw [Budget.trim_held]
  simp only [held]
  omega

theorem goToEnd_eq (w : LogWnd) :
    ∃ posY pending, w.goToEnd = { w with posY := posY, goToEndPending := pending } := by
  unfold goToEnd
  split
  · exact ⟨w.posY, true, rfl⟩
  · split
    · exact ⟨_, w.goToEndPending, rfl⟩
    · exact ⟨w.posY, w.goToEndPending, rfl⟩

theorem goToEnd_sound (h : Sound w) : Sound w.goToEnd := by
  obtain ⟨posY, pending, heq⟩ := goToEnd_eq w
  rw [heq]
  exact ⟨h.held, h.room, h.within⟩

theorem addString_sound (h : Sound w) (s : List UInt8) (doAppend : Bool) :
    Sound (w.addString s doAppend) := goToEnd_sound (addTrimmed_sound h s doAppend)

-- ---------------------------------------------------------------------------
-- The newest line
-- ---------------------------------------------------------------------------

/-- The last line of the string is in the log, only lines at the start were dropped, and what is
left is within the limit unless it is one line. -/
structure NewestKept (w : LogWnd) (s : List UInt8) (doAppend : Bool) (w' : LogWnd) : Prop where
  newest : ∃ l ∈ w'.contents.getLast?,
    if doAppend then lastLine s doAppend <:+ l.text else l.text = lastLine s doAppend
  dropped : w'.contents <:+ w.keptLines doAppend ++ w.newLines s doAppend
  size : w'.allocSize ≤ logWindowContentsMaxSize ∨ w'.contents.length = 1

/-- The last of the new lines fits beside the buffer. -/
def NewestFits (w : LogWnd) (s : List UInt8) (doAppend : Bool) : Prop :=
  bufferSize (w.newCapacity s doAppend) +
    (((w.newLines s doAppend).getLast?.map EaString.held).getD 0) ≤ logWindowContentsMaxSize

theorem text_tokenizeLines (s : List UInt8) :
    (tokenizeLines s).map EaString.text = Tokens.tokenize [10] s := by
  have hne : Tokens.tokenize [10] s ≠ [] := Tokens.tokensFrom_ne_nil [10] 0 [] s
  have htext : EaString.text ∘ EaString.ofText = id := rfl
  simp only [tokenizeLines, List.getLast?_eq_some_getLast hne, List.map_append, List.map_map, htext,
    List.map_id, Option.toList_some, List.map_cons, List.map_nil]
  exact List.dropLast_append_getLast hne

theorem joined_snd (isFirst : Bool) (l : EaString) : l.text <:+ (w.joined isFirst l).2.text := by
  unfold joined
  split
  · exact List.suffix_refl _
  · split
    · split
      · exact List.suffix_refl _
      · exact List.suffix_append _ _
    · exact List.suffix_refl _

theorem newLines_getLast (hs : s ≠ []) (doAppend : Bool) :
    ∃ lines l, w.newLines s doAppend = lines ++ [l] ∧
      if doAppend then lastLine s doAppend <:+ l.text else l.text = lastLine s doAppend := by
  cases doAppend with
  | true =>
    have htext := text_tokenizeLines (s.map printable)
    rcases hv : tokenizeLines (s.map printable) with _ | ⟨l, v⟩
    · exact absurd hv (tokenizeLines_ne_nil _)
    · rw [hv] at htext
      simp only [newLines, hv, if_true, lastLine, ← htext]
      rcases List.eq_nil_or_concat v with rfl | ⟨v, x, rfl⟩
      · exact ⟨[], _, rfl, (joined_snd true l).map _⟩
      · refine ⟨((w.joined true l).2 :: v).map unescape, unescape x, by simp, ?_⟩
        rw [List.concat_eq_append, ← List.cons_append, List.map_append, List.map_singleton,
          List.getLast?_concat]
        exact List.suffix_refl _
  | false =>
    have hlength : s.length ≠ 0 := fun h => hs (List.eq_nil_of_length_eq_zero h)
    exact ⟨[], .ofText s, by simp only [newLines, Bool.false_eq_true, if_false, if_pos hlength,
      List.nil_append], rfl⟩

@[simp] theorem goToEnd_contents : w.goToEnd.contents = w.contents := by
  obtain ⟨posY, pending, heq⟩ := goToEnd_eq w
  rw [heq]

theorem addString_ne_nil_iff (h : Sound w) (hs : s ≠ []) (doAppend : Bool) :
    (w.addString s doAppend).contents ≠ [] ↔ NewestFits w s doAppend := by
  obtain ⟨lines, l, hnew, -⟩ := newLines_getLast (w := w) hs doAppend
  rw [addString, goToEnd_contents, addTrimmed_eq h]
  simp only [hnew, ← List.append_assoc]
  rw [Budget.trim_ne_nil_iff, NewestFits, hnew, List.getLast?_concat, Budget.total_append,
    Budget.total_cons, Budget.total_nil, Option.map_some, Option.getD_some]
  omega

theorem newestKept_iff (h : Sound w) (hs : s ≠ []) (doAppend : Bool) :
    NewestKept w s doAppend (w.addString s doAppend) ↔ NewestFits w s doAppend := by
  obtain ⟨lines, l, hnew, hlast⟩ := newLines_getLast (w := w) hs doAppend
  have hsuffix : (w.addString s doAppend).contents <:+
      w.keptLines doAppend ++ w.newLines s doAppend := by
    rw [addString, goToEnd_contents, addTrimmed_eq h]
    exact Budget.trim_suffix _ _
  rw [← addString_ne_nil_iff h hs]
  constructor
  · rintro ⟨⟨l', hl', -⟩, -, -⟩ hnil
    rw [hnil] at hl'
    cases hl'
  · intro hne
    refine ⟨⟨l, ?_, hlast⟩, hsuffix, .inl ((addString_sound h s doAppend).within hne)⟩
    rw [List.getLast?_eq_some_getLast hne, hsuffix.getLast hne]
    simp [hnew]

/-- The log after calls of `AddString`. -/
def runCalls (calls : List (List UInt8 × Bool)) : LogWnd :=
  calls.foldl (fun w call => w.addString call.1 call.2) init

theorem runCalls_concat (calls : List (List UInt8 × Bool)) (call : List UInt8 × Bool) :
    runCalls (calls ++ [call]) = (runCalls calls).addString call.1 call.2 := by
  rw [runCalls, List.foldl_append]
  rfl

theorem runCalls_sound (calls : List (List UInt8 × Bool)) : Sound (runCalls calls) := by
  induction calls using List.reverseRecOn with
  | nil => exact init_sound
  | append_singleton calls call ih =>
    rw [runCalls_concat]
    exact addString_sound ih _ _

end

/-- In a run of `AddString`, every call keeps the newest line exactly if for every call that line
and the buffer of the vector, as it has grown until then, are within the limit. -/
theorem log_keeps_newest_iff (calls : List (List UInt8 × Bool))
    (hne : ∀ call ∈ calls, call.1 ≠ []) :
    (∀ i (hi : i < calls.length), NewestKept (runCalls (calls.take i)) calls[i].1 calls[i].2
        (runCalls (calls.take (i + 1)))) ↔
      ∀ i (hi : i < calls.length), NewestFits (runCalls (calls.take i)) calls[i].1 calls[i].2 := by
  refine forall_congr' fun i => forall_congr' fun hi => ?_
  rw [← List.take_concat_get hi, List.concat_eq_append, runCalls_concat]
  exact newestKept_iff (runCalls_sound _) (hne _ (List.getElem_mem hi)) _

theorem newLines_line (w : LogWnd) (hs : s ≠ []) : w.newLines s false = [.ofText s] := by
  rw [newLines, if_neg Bool.false_ne_true, if_pos (mt List.length_eq_zero_iff.mp hs)]

/-- A line for itself, after lines that are ended. -/
theorem addString_line (hsound : Sound w) (hnew : w.newLine = true) (hs : s ≠ []) :
    (w.addString s false).contents =
        (Budget.trim EaString.held logWindowContentsMaxSize
          (bufferSize (Budget.pushCapacity w.capacity w.contents.length) +
            Budget.total EaString.held (w.contents ++ [.ofText s]))
          (w.contents ++ [.ofText s])).2 ∧
      (w.addString s false).newLine = true ∧
      (w.addString s false).capacity = Budget.pushCapacity w.capacity w.contents.length := by
  have hkept : w.keptLines false = w.contents := if_pos hnew
  have hlines := w.newLines_line hs
  have hcapacity : w.newCapacity s false = Budget.pushCapacity w.capacity w.contents.length := by
    rw [newCapacity, hkept, hlines]
    rfl
  obtain ⟨posY, pending, hend⟩ := goToEnd_eq (w.addTrimmed s false)
  rw [addString, hend, addTrimmed_eq hsound, hkept, hlines, hcapacity]
  exact ⟨rfl, rfl, rfl⟩

/-- The only line is a long one. -/
structure LongLog (s : List UInt8) (w : LogWnd) : Prop where
  contents : w.contents = [.ofText s]
  newLine : w.newLine = true
  capacity : w.capacity = 1 ∨ w.capacity = 2

theorem held_long (hs : s.length = 600000) : (EaString.ofText s).held = 600064 := by
  simp [EaString.held, EaString.ofText, hs, ssoCapacity, sizeofString, allocatedSize, sizeInBits,
    Arch.headerSize, Arch.blockSize]

theorem longLog_init (hs : s.length = 600000) : LongLog s (init.addString s false) := by
  have hne : s ≠ [] := List.ne_nil_of_length_eq_add_one hs
  obtain ⟨hcontents, hnew, hcapacity⟩ := addString_line init_sound rfl hne
  refine ⟨?_, hnew, .inl hcapacity⟩
  rw [hcontents, Budget.trim_of_le]
  · rfl
  · change (bufferSize 1 + Budget.total EaString.held [.ofText s] : Int) ≤ _
    rw [Budget.total_cons, Budget.total_nil, held_long hs]
    decide

theorem LongLog.pushCapacity (h : LongLog s w) :
    Budget.pushCapacity w.capacity w.contents.length = 2 := by
  rw [h.contents]
  rcases h.capacity with hone | htwo
  · rw [hone]
    rfl
  · rw [htwo]
    rfl

/-- Two long lines are too much, and the first one is dropped. -/
theorem longLog_step (hsound : Sound w) (hs : s.length = 600000) (h : LongLog s w) :
    LongLog s (w.addString s false) := by
  have hne : s ≠ [] := List.ne_nil_of_length_eq_add_one hs
  obtain ⟨hcontents, hnew, hcapacity⟩ := addString_line hsound h.newLine hne
  refine ⟨?_, hnew, .inr (hcapacity.trans h.pushCapacity)⟩
  rw [hcontents, h.pushCapacity, h.contents, List.singleton_append, Budget.trim, if_pos,
    Budget.trim_of_le]
  · rw [Budget.total_cons, Budget.total_cons, Budget.total_nil, held_long hs]
    decide
  · rw [Budget.total_cons, Budget.total_cons, Budget.total_nil, held_long hs]
    decide

/-- Two calls with a long line, and one with a short one. -/
def longCalls (s : List UInt8) : List (List UInt8 × Bool) :=
  [(s, false), (s, false), ([0x79], true)]

theorem runCalls_long (hs : s.length = 600000) :
    LongLog s (runCalls [(s, false)]) ∧ LongLog s (runCalls [(s, false), (s, false)]) :=
  ⟨longLog_init hs, longLog_step (runCalls_sound [(s, false)]) hs (longLog_init hs)⟩

theorem newestFits_line {l : EaString} (hnew : w.newLine = true)
    (hlines : w.newLines s doAppend = [l]) :
    NewestFits w s doAppend ↔
      bufferSize (Budget.pushCapacity w.capacity w.contents.length) + l.held ≤
        logWindowContentsMaxSize := by
  have hkept : w.keptLines doAppend = w.contents := if_pos hnew
  rw [NewestFits, newCapacity, hkept, hlines]
  rfl

theorem longCalls_fit (hs : s.length = 600000) (i : Nat) (hi : i < (longCalls s).length) :
    NewestFits (runCalls ((longCalls s).take i)) (longCalls s)[i].1 (longCalls s)[i].2 := by
  have hne : s ≠ [] := List.ne_nil_of_length_eq_add_one hs
  obtain ⟨hfirst, hagain⟩ := runCalls_long hs
  match i, hi with
  | 0, _ =>
    refine (newestFits_line rfl (init.newLines_line hne)).mpr ?_
    rw [held_long hs]
    decide
  | 1, _ =>
    refine (newestFits_line hfirst.newLine (newLines_line _ hne)).mpr ?_
    rw [hfirst.pushCapacity, held_long hs]
    decide
  | 2, _ =>
    have hnew : (runCalls [(s, false), (s, false)]).newLines [0x79] true = [.ofText [0x79]] := by
      have htokens : tokenizeLines ([0x79].map printable) = [.ofText [0x79]] := by decide
      rw [newLines, if_pos rfl, htokens]
      simp only [joined, hagain.newLine, if_true]
      rfl
    refine (newestFits_line hagain.newLine hnew).mpr ?_
    rw [hagain.pushCapacity]
    decide

/-- The second call drops the line of the first one. -/
theorem longLines_kept :
    let s := List.replicate 600000 0x78
    (runCalls ((longCalls s).take 2)).contents = [.ofText s] ∧
      ∀ i (hi : i < (longCalls s).length), NewestKept (runCalls ((longCalls s).take i))
        (longCalls s)[i].1 (longCalls s)[i].2 (runCalls ((longCalls s).take (i + 1))) := by
  have hs : (List.replicate 600000 (0x78 : UInt8)).length = 600000 := List.length_replicate
  refine ⟨(runCalls_long hs).2.contents, (log_keeps_newest_iff _ ?_).mpr (longCalls_fit hs)⟩
  have hne : List.replicate 600000 (0x78 : UInt8) ≠ [] := List.ne_nil_of_length_eq_add_one hs
  exact List.forall_mem_cons.mpr ⟨hne, List.forall_mem_cons.mpr ⟨hne, by simp⟩⟩

/-- `n` calls with a short line. -/
def shortCalls (n : Nat) : List (List UInt8 × Bool) := List.replicate n ([0x78], false)

/-- The buffer has not grown past 32768 lines, and no line takes memory of its own. -/
structure ShortLog (w : LogWnd) (n : Nat) : Prop where
  contents : w.contents = List.replicate n (.ofText [0x78])
  newLine : w.newLine = true
  capacity : w.capacity = 0 ∨ ∃ k ≤ 15, w.capacity = 2 ^ k

theorem bufferSize_le (h : k ≤ 15) : bufferSize (2 ^ k) ≤ logWindowContentsMaxSize := by
  have hpow : 2 ^ k ≤ 2 ^ 15 := Nat.pow_le_pow_right (by decide) h
  have hlt := (allocatedSize_bounds (2 ^ k * 24)).2
  simp only [bufferSize, sizeofString, logWindowContentsMaxSize]
  split
  · decide
  · omega

theorem pushCapacity_two_pow {c size : Nat} (hroom : size ≤ c) (hsize : size < 32768)
    (h : c = 0 ∨ ∃ k ≤ 15, c = 2 ^ k) : ∃ k ≤ 15, Budget.pushCapacity c size = 2 ^ k := by
  unfold Budget.pushCapacity
  rcases h with rfl | ⟨k, hk, rfl⟩
  · obtain rfl := Nat.le_zero.mp hroom
    exact ⟨0, by decide, rfl⟩
  · split
    · exact ⟨k, hk, rfl⟩
    · have hfull : size = 2 ^ k := by omega
      have hlt : k < 15 := (Nat.pow_lt_pow_iff_right (by decide)).mp (hfull ▸ hsize)
      have hpos : 0 < size := hfull ▸ Nat.two_pow_pos k
      rw [if_pos hpos]
      exact ⟨k + 1, hlt, by rw [hfull, Nat.pow_succ, Nat.mul_comm]⟩

theorem total_short (n : Nat) :
    Budget.total EaString.held (List.replicate n (.ofText [0x78])) = 0 := by
  induction n with
  | zero => rfl
  | succ n ih => rw [List.replicate_succ, Budget.total_cons, ih]; rfl

theorem shortLog_newCapacity (h : ShortLog w n) :
    w.newCapacity [0x78] false = Budget.pushCapacity w.capacity n := by
  have hkept : w.keptLines false = w.contents := if_pos h.newLine
  rw [newCapacity, hkept, h.contents, List.length_replicate]
  rfl

theorem shortLog_step (hsound : Sound w) (h : ShortLog w n) (hn : n < 32768) :
    ShortLog (w.addString [0x78] false) (n + 1) := by
  have hroom : n ≤ w.capacity := by
    have hroom := hsound.room
    rwa [h.contents, List.length_replicate] at hroom
  obtain ⟨k, hk, hbuffer⟩ := pushCapacity_two_pow hroom hn h.capacity
  obtain ⟨hcontents, hnew, hcapacity⟩ := addString_line hsound h.newLine (List.cons_ne_nil 0x78 [])
  rw [h.contents, List.length_replicate, hbuffer, ← List.replicate_succ'] at hcontents
  rw [h.contents, List.length_replicate, hbuffer] at hcapacity
  refine ⟨?_, hnew, .inr ⟨k, hk, hcapacity⟩⟩
  rw [hcontents, Budget.trim_of_le]
  have hle := bufferSize_le hk
  rw [total_short]
  omega

theorem runCalls_short (hn : n ≤ 32768) : ShortLog (runCalls (shortCalls n)) n := by
  induction n with
  | zero => exact ⟨rfl, rfl, .inl rfl⟩
  | succ n ih =>
    rw [shortCalls, List.replicate_succ', runCalls_concat]
    exact shortLog_step (runCalls_sound _) (ih (by omega)) hn

/-- The buffer is too large from 32769 lines on, and the log is empty. -/
theorem shortCalls_lost :
    (∀ call ∈ shortCalls 32769, call.1 ≠ [] ∧
      (EaString.ofText call.1).held < logWindowContentsMaxSize) ∧
      (runCalls (shortCalls 32769)).contents = [] ∧
      ¬ NewestKept (runCalls (shortCalls 32768)) [0x78] false (runCalls (shortCalls 32769)) := by
  have hshort := runCalls_short (Nat.le_refl 32768)
  have hsound := runCalls_sound (shortCalls 32768)
  have hrun : runCalls (shortCalls 32769) =
      (runCalls (shortCalls 32768)).addString [0x78] false := by
    rw [shortCalls, List.replicate_succ', runCalls_concat]
    rfl
  have hcapacity : (runCalls (shortCalls 32768)).capacity = 32768 := by
    have hroom := hsound.room
    rw [hshort.contents, List.length_replicate] at hroom
    rcases hshort.capacity with hzero | ⟨k, hk, hpow⟩
    · omega
    · have hle : 2 ^ k ≤ 2 ^ 15 := Nat.pow_le_pow_right (by decide) hk
      omega
  have hfits : ¬ NewestFits (runCalls (shortCalls 32768)) [0x78] false := by
    rw [NewestFits, shortLog_newCapacity hshort, hcapacity]
    show ¬ bufferSize 65536 + 0 ≤ logWindowContentsMaxSize
    decide
  have hnil := mt (addString_ne_nil_iff hsound (List.cons_ne_nil 0x78 []) false).mp hfits
  refine ⟨fun call hcall => ?_, ?_, ?_⟩
  · obtain rfl := List.eq_of_mem_replicate hcall
    decide
  · rw [hrun]
    exact not_not.mp hnil
  · rw [hrun, newestKept_iff hsound (List.cons_ne_nil _ _)]
    exact hfits

end LogWnd

end BugChecker.Wnd
