import Mathlib.Data.List.GetD

/-!
# A plain text editor

Lines of text and a position in them. Text is inserted and deleted at the
position, moves to the left and to the right go on over the ends of lines, and
moves up and down go to a wanted column, or to the end of a line that is too
short for it.
-/

structure TextEditor (α : Type u) where
  lines : List (List α)
  row : Nat
  col : Nat

namespace TextEditor

def empty : TextEditor α := ⟨[[]], 0, 0⟩

def lineAt (e : TextEditor α) (row : Nat) : List α := e.lines.getD row []

def line (e : TextEditor α) : List α := e.lineAt e.row

def insert (s : List α) (e : TextEditor α) : TextEditor α :=
  { e with
    lines := e.lines.set e.row (e.line.take e.col ++ (s ++ e.line.drop e.col))
    col := e.col + s.length }

/-- Blanks up to the next column that is a multiple of `n`. -/
def tab (n : Nat) (blank : α) (e : TextEditor α) : TextEditor α :=
  e.insert (List.replicate (n - e.col % n) blank)

def enter (e : TextEditor α) : TextEditor α :=
  { lines := (e.lines.set e.row (e.line.take e.col)).insertIdx (e.row + 1) (e.line.drop e.col)
    row := e.row + 1, col := 0 }

def backSpace (e : TextEditor α) : TextEditor α :=
  if e.col ≠ 0 then
    { e with lines := e.lines.set e.row (e.line.eraseIdx (e.col - 1)), col := e.col - 1 }
  else if e.row ≠ 0 then
    { lines := (e.lines.eraseIdx e.row).set (e.row - 1) (e.lineAt (e.row - 1) ++ e.line)
      row := e.row - 1, col := (e.lineAt (e.row - 1)).length }
  else e

def del (e : TextEditor α) : TextEditor α :=
  if e.col < e.line.length then { e with lines := e.lines.set e.row (e.line.eraseIdx e.col) }
  else if e.row + 1 < e.lines.length then
    { e with lines := (e.lines.eraseIdx (e.row + 1)).set e.row (e.line ++ e.lineAt (e.row + 1)) }
  else e

def left (e : TextEditor α) : TextEditor α :=
  if e.col ≠ 0 then { e with col := e.col - 1 }
  else if e.row ≠ 0 then { e with row := e.row - 1, col := (e.lineAt (e.row - 1)).length }
  else e

def right (e : TextEditor α) : TextEditor α :=
  if e.col < e.line.length then { e with col := e.col + 1 }
  else if e.row + 1 < e.lines.length then { e with row := e.row + 1, col := 0 }
  else e

def goTo (row want : Nat) (e : TextEditor α) : TextEditor α :=
  { e with row := row, col := min want (e.lineAt row).length }

def up (want : Nat) (e : TextEditor α) : TextEditor α :=
  if e.row ≠ 0 then e.goTo (e.row - 1) want else e

def down (want : Nat) (e : TextEditor α) : TextEditor α :=
  if e.row + 1 < e.lines.length then e.goTo (e.row + 1) want else e

def pgUp (rows want : Nat) (e : TextEditor α) : TextEditor α :=
  if e.row ≠ 0 then e.goTo (e.row - rows) want else e

def pgDn (rows want : Nat) (e : TextEditor α) : TextEditor α :=
  if e.row + 1 < e.lines.length then e.goTo (min (e.row + rows) (e.lines.length - 1)) want else e

def home (e : TextEditor α) : TextEditor α := { e with col := 0 }

def toEnd (e : TextEditor α) : TextEditor α := { e with col := e.line.length }

theorem line_set {lines : List (List α)} {row : Nat} (h : row < lines.length)
    (text : List α) (col : Nat) :
    (⟨lines.set row text, row, col⟩ : TextEditor α).line = text := by
  unfold line lineAt
  rw [List.getD_eq_getElem _ _ (by rwa [List.length_set]), List.getElem_set_self]

end TextEditor
