import Mathlib.Data.List.Basic
import Mathlib.Logic.Function.Iterate

/-!
# A plain line editor

One line of text and a column in it. The commands that were entered can be
shown again, and the word before the column can be completed: each completion
after the first one goes back to the line before the first.
-/

namespace LineEditor

/-- The line before the first completion, and the number of the word that is tried. -/
structure Session (α : Type u) where
  text : List α
  col : Nat
  index : Nat

end LineEditor

structure LineEditor (α : Type u) where
  text : List α
  col : Nat
  history : List (List α)
  recalledAt : Option Nat
  session : Option (LineEditor.Session α)

namespace LineEditor

inductive Op (α : Type u) where
  | insert (x : α)
  | backSpace
  | del
  | left
  | right
  | home
  | toEnd
  | enter (cmd : List α) (more : List (List α)) (lost : Nat)
  | up
  | down
  | complete (words : List α → List (List α)) (backwards : Bool)
  | forget

section
variable (e : LineEditor α)

def insert (x : α) : LineEditor α :=
  { e with text := e.text.insertIdx e.col x, col := e.col + 1, session := none }

def backSpace : LineEditor α :=
  if e.col = 0 then e
  else { e with text := e.text.eraseIdx (e.col - 1), col := e.col - 1, session := none }

def del : LineEditor α :=
  if e.col < e.text.length then { e with text := e.text.eraseIdx e.col, session := none } else e

def left : LineEditor α := { e with col := e.col - 1, session := none }

def right : LineEditor α :=
  if e.col < e.text.length then { e with col := e.col + 1, session := none } else e

def home : LineEditor α := { e with col := 0, session := none }

def toEnd : LineEditor α := { e with col := e.text.length, session := none }

/-- The command is kept, if there is one, and there may be more of them afterwards. The oldest
commands may be lost. -/
def enter (cmd : List α) (more : List (List α)) (lost : Nat) : LineEditor α :=
  { text := [], col := 0, recalledAt := none, session := none
    history := (e.history ++ (if cmd = [] then [] else [cmd]) ++ more).drop lost }

def showAt (i : Nat) : LineEditor α :=
  match e.history[i]? with
  | some cmd => { e with text := cmd, col := cmd.length, recalledAt := some i, session := none }
  | none => e

def up : LineEditor α :=
  match e.recalledAt.getD e.history.length with
  | i + 1 => e.showAt i
  | 0 => e

def down : LineEditor α :=
  match e.recalledAt with
  | some i => e.showAt (i + 1)
  | none => e

end

section
variable [DecidableEq α] (blank : α)

def wordAt (text : List α) (col : Nat) : List α :=
  ((text.take col).reverse.takeWhile (· ≠ blank)).reverse

/-- The words for the one at the column. There are none within a word. -/
def Session.words (words : List α → List (List α)) (s : Session α) : List (List α) :=
  if s.col < s.text.length ∧ s.text[s.col]? ≠ some blank then []
  else if wordAt blank s.text s.col = [] then []
  else words (wordAt blank s.text s.col)

/-- The word at the column is replaced, and the column is at the end of the new one. -/
def replaceWord (e : LineEditor α) (s : Session α) (word : List α) : LineEditor α :=
  let p := s.col - (wordAt blank s.text s.col).length
  { e with text := s.text.take p ++ (word ++ s.text.drop s.col), col := p + word.length
           session := some s }

def Session.next (backwards : Bool) (n : Nat) (s : Session α) : Session α :=
  { s with
    index :=
      if backwards then (if s.index = 0 then n - 1 else s.index - 1)
      else if s.index + 1 < n then s.index + 1 else 0 }

def complete (e : LineEditor α) (words : List α → List (List α)) (backwards : Bool) :
    LineEditor α :=
  match e.session with
  | none =>
    if e.text = [] then e
    else
      let s : Session α := ⟨e.text, e.col, 0⟩
      match (s.words blank words)[0]? with
      | some word => e.replaceWord blank s word
      | none => { e with session := some s }
  | some s =>
    let s := s.next backwards (s.words blank words).length
    match (s.words blank words)[s.index]? with
    | some word => e.replaceWord blank s word
    | none => e

def step (e : LineEditor α) : Op α → LineEditor α
  | .insert x => e.insert x
  | .backSpace => e.backSpace
  | .del => e.del
  | .left => e.left
  | .right => e.right
  | .home => e.home
  | .toEnd => e.toEnd
  | .enter cmd more lost => e.enter cmd more lost
  | .up => e.up
  | .down => e.down
  | .complete words backwards => e.complete blank words backwards
  | .forget => { e with session := none }

def run (e : LineEditor α) (ops : List (Op α)) : LineEditor α := ops.foldl (step blank) e

end

-- ---------------------------------------------------------------------------
-- The completions
-- ---------------------------------------------------------------------------

section
variable [DecidableEq α] {blank : α} {e : LineEditor α} {words : List α → List (List α)}

@[simp] theorem Session.words_next (backwards : Bool) (n : Nat) (s : Session α) :
    (s.next backwards n).words blank words = s.words blank words := rfl

theorem complete_first (h : e.session = none) (htext : e.text ≠ [])
    (hword : ((⟨e.text, e.col, 0⟩ : Session α).words blank words)[0]? = some word)
    (backwards : Bool) :
    e.complete blank words backwards = e.replaceWord blank ⟨e.text, e.col, 0⟩ word := by
  simp [complete, h, htext, hword]

theorem complete_first_nil (h : e.session = none) (htext : e.text ≠ [])
    (hwords : (⟨e.text, e.col, 0⟩ : Session α).words blank words = []) (backwards : Bool) :
    e.complete blank words backwards = { e with session := some ⟨e.text, e.col, 0⟩ } := by
  simp [complete, h, htext, hwords]

theorem complete_next (h : e.session = some s)
    (hword : (s.words blank words)[
      (s.next backwards (s.words blank words).length).index]? = some word) :
    e.complete blank words backwards =
      e.replaceWord blank (s.next backwards (s.words blank words).length) word := by
  simp [complete, h, hword]

theorem complete_next_nil (h : e.session = some s) (hwords : s.words blank words = [])
    (backwards : Bool) : e.complete blank words backwards = e := by
  simp [complete, h, hwords]

end

-- ---------------------------------------------------------------------------
-- The history
-- ---------------------------------------------------------------------------

/-- The command `k` commands before the end of the history is shown. -/
def recalled (e : LineEditor α) (k : Nat) : LineEditor α := e.showAt (e.history.length - k)

theorem recalled_eq {e : LineEditor α} (hpos : 0 < k) (hk : k ≤ e.history.length) :
    ∃ cmd, e.history[e.history.length - k]? = some cmd ∧
      e.recalled k = { e with
        text := cmd, col := cmd.length, recalledAt := some (e.history.length - k), session :=
          none } := by
  have hlt : e.history.length - k < e.history.length := by omega
  refine ⟨_, List.getElem?_eq_getElem hlt, ?_⟩
  rw [recalled, showAt, List.getElem?_eq_getElem hlt]

theorem up_recalled {e : LineEditor α} (hpos : 0 < k) (hk : k + 1 ≤ e.history.length) :
    (e.recalled k).up = e.recalled (k + 1) := by
  obtain ⟨cmd, -, hcmd⟩ := recalled_eq hpos (Nat.le_of_succ_le hk)
  obtain ⟨i, hi⟩ : ∃ i, e.history.length - k = i + 1 := ⟨e.history.length - k - 1, by omega⟩
  rw [hcmd, up]
  simp only [Option.getD_some, hi]
  rw [recalled, showAt, showAt, show e.history.length - (k + 1) = i by omega]
  cases h : e.history[i]? with
  | none =>
    rw [List.getElem?_eq_none_iff] at h
    omega
  | some cmd => rfl

theorem up_fresh {e : LineEditor α} (h : e.recalledAt = none) (hlen : 0 < e.history.length) :
    e.up = e.recalled 1 := by
  obtain ⟨i, hi⟩ : ∃ i, e.history.length = i + 1 := ⟨e.history.length - 1, by omega⟩
  rw [up, h, recalled]
  simp only [Option.getD_none, hi, Nat.add_sub_cancel]

/-- Going up again and again from a fresh line shows one command after the other, the last one
first. -/
theorem iterate_up {e : LineEditor α} (h : e.recalledAt = none) (hpos : 0 < k)
    (hk : k ≤ e.history.length) : Nat.iterate up k e = e.recalled k := by
  induction k with
  | zero => cases hpos
  | succ k ih =>
    rw [Function.iterate_succ_apply']
    cases k with
    | zero => exact up_fresh h hk
    | succ k => rw [ih (Nat.succ_pos k) (Nat.le_of_succ_le hk), up_recalled (Nat.succ_pos k) hk]

theorem down_recalled {e : LineEditor α} (hpos : 0 < k) (hk : k + 1 ≤ e.history.length) :
    (e.recalled (k + 1)).down = e.recalled k := by
  obtain ⟨cmd, -, hcmd⟩ := recalled_eq (Nat.succ_pos k) hk
  rw [hcmd, down]
  simp only
  rw [recalled, showAt, showAt, show e.history.length - (k + 1) + 1 = e.history.length - k by omega]
  cases h : e.history[e.history.length - k]? with
  | none =>
    rw [List.getElem?_eq_none_iff] at h
    omega
  | some cmd => rfl

theorem down_recalled_one {e : LineEditor α} (hlen : 0 < e.history.length) :
    (e.recalled 1).down = e.recalled 1 := by
  obtain ⟨cmd, -, hcmd⟩ := recalled_eq Nat.one_pos hlen
  rw [hcmd, down]
  simp only
  rw [showAt, List.getElem?_eq_none (by dsimp only; omega)]

end LineEditor
