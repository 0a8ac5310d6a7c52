import Mathlib.Data.List.Basic

/-!
# The input line

One line of text under the log window. The window shows it from `offset` on,
and the cursor is that of the screen. TAB puts the next word that completes the
one before the cursor; the text before the first TAB is kept, and the words are
tried on it.
-/

namespace BugChecker.Wnd

/-- The line before the first TAB. -/
structure TabData where
  text : List Char
  offset : Nat
  cursorX : Int
  index : Int
  numOfItems : Int
  deriving DecidableEq

structure InputLine where
  text : List Char
  offset : Nat
  cursorX : Int
  historyPos : Int
  tabData : TabData
  deriving DecidableEq

namespace InputLine

section
variable (wndWidth : Nat) (l : InputLine)

def pos : Int := l.cursorX - 2 + l.offset

/-- The help text is drawn, and `RedrawCallback` forgets the TABs. -/
def finalize : InputLine := { l with tabData := { l.tabData with text := [] } }

def addChar (c : Char) : InputLine :=
  if l.pos < 0 ∨ l.pos > l.text.length then l
  else
    let l : InputLine := { l with text := l.text.insertIdx l.pos.toNat c }
    if l.cursorX < (wndWidth : Int) - 2 then { l with cursorX := l.cursorX + 1 }.finalize
    else { l with offset := l.offset + 1 }.finalize

def enter : InputLine :=
  finalize { l with text := [], offset := 0, historyPos := -1, cursorX := 2 }

def toLeft : InputLine :=
  if l.cursorX > 2 then { l with cursorX := l.cursorX - 1 }
  else if l.offset > 0 then { l with offset := l.offset - 1 }
  else l

def backSpace : InputLine :=
  if l.text = [] then l
  else if l.pos - 1 < 0 then l
  else (toLeft { l with text := l.text.eraseIdx (l.pos - 1).toNat }).finalize

def left : InputLine := l.toLeft.finalize

def right : InputLine :=
  if l.pos < 0 ∨ l.pos ≥ l.text.length then l
  else if l.cursorX < (wndWidth : Int) - 2 then { l with cursorX := l.cursorX + 1 }.finalize
  else { l with offset := l.offset + 1 }.finalize

def del : InputLine :=
  if l.pos < 0 ∨ l.pos ≥ l.text.length then l
  else { l with text := l.text.eraseIdx l.pos.toNat }.finalize

def home : InputLine := finalize { l with offset := 0, cursorX := 2 }

def toEnd : InputLine :=
  let x : Int := l.text.length + 2
  if x > (wndWidth : Int) - 2 then
    finalize { l with cursorX := (wndWidth : Int) - 2, offset := l.text.length - (wndWidth - 4) }
  else finalize { l with cursorX := x, offset := 0 }

def isUserCmd (s : List Char) : Bool := s.length > 2 && s.take 2 == ['\r', ':']

/-- The last command before `i`. -/
def findUp (log : List (List Char)) : Nat → Option Nat
  | 0 => none
  | i + 1 => if isUserCmd (log.getD i []) then some i else findUp log i

def findDown (log : List (List Char)) (i : Int) : Option Nat :=
  (List.range log.length).find? fun j => i < j && isUserCmd (log.getD j [])

def fromLog (log : List (List Char)) (i : Nat) : InputLine :=
  { toEnd wndWidth { l with text := (log.getD i []).drop 2 } with historyPos := i }

def up (log : List (List Char)) : InputLine :=
  let i := if l.historyPos < 0 ∨ l.historyPos ≥ log.length then log.length else l.historyPos.toNat
  match findUp log i with
  | some i => l.fromLog wndWidth log i
  | none => l

def down (log : List (List Char)) : InputLine :=
  if l.historyPos < 0 ∨ l.historyPos ≥ log.length then l
  else
    match findDown log l.historyPos with
    | some i => l.fromLog wndWidth log i
    | none => l

/-- The word before the cursor is completed. `complete` is what the windows and the symbols have for
it: the word of that index, and how many there are. -/
def completeWord (complete : List Char → Int → List Char × Int) : InputLine :=
  if l.text = [] then l
  else if l.pos < 0 ∨ l.pos > l.text.length then l
  else if l.pos = 0 then l
  else
    let pos := l.pos.toNat
    if pos < l.text.length ∧ l.text[pos]? ≠ some ' ' then l
    else
      let t := ((l.text.take pos).reverse.takeWhile (· ≠ ' ')).reverse
      let p := pos - t.length
      if t = [] then l
      else
        let (r, numOfItems) := complete t l.tabData.index
        let l : InputLine := { l with tabData := { l.tabData with numOfItems := numOfItems } }
        if r.length < t.length then l
        else
          let l : InputLine := { l with text := l.text.take p ++ (r ++ l.text.drop pos) }
          let x : Int := l.cursorX + (r.length - t.length : Nat)
          if x > (wndWidth : Int) - 2 then
            { l with offset := l.offset + (x - ((wndWidth : Int) - 2)).toNat
                     cursorX := (wndWidth : Int) - 2 }
          else { l with cursorX := x }

def tab (modifierKeyState : Bool) (complete : List Char → Int → List Char × Int) : InputLine :=
  if l.tabData.text = [] then
    completeWord wndWidth { l with
      tabData :=
        { text := l.text, offset := l.offset, cursorX := l.cursorX, index := 0, numOfItems := 0 } }
      complete
  else if l.tabData.numOfItems = 0 then l
  else
    let index := l.tabData.index + if modifierKeyState then -1 else 1
    let index :=
      if index < 0 then l.tabData.numOfItems - 1
      else if index ≥ l.tabData.numOfItems then 0
      else index
    completeWord wndWidth { l with
      text := l.tabData.text
      offset := l.tabData.offset
      cursorX := l.tabData.cursorX
      tabData := { l.tabData with index := index } } complete

end

-- ---------------------------------------------------------------------------
-- The cursor stays in the text
-- ---------------------------------------------------------------------------

/-- A position of the text. -/
structure At (text : List Char) (offset : Nat) (cursorX : Int) : Prop where
  ge : 2 ≤ cursorX
  le : cursorX - 2 + offset ≤ text.length

structure Ok (l : InputLine) : Prop where
  cursor : At l.text l.offset l.cursorX
  tabs : l.tabData.text ≠ [] → At l.tabData.text l.tabData.offset l.tabData.cursorX

theorem ok_finalize (h : At l.text l.offset l.cursorX) : Ok (finalize l) :=
  ⟨h, fun hno => absurd rfl hno⟩

theorem Ok.addChar (h : Ok l) (wndWidth : Nat) (c : Char) : Ok (l.addChar wndWidth c) := by
  obtain ⟨hge, hle⟩ := h.cursor
  unfold InputLine.addChar
  split
  · exact h
  · next hpos =>
    have hlen : (l.text.insertIdx l.pos.toNat c).length = l.text.length + 1 :=
      List.length_insertIdx_of_le_length (by omega) c
    unfold pos at hlen
    dsimp only
    split <;> refine ok_finalize ⟨?_, ?_⟩ <;> dsimp only [pos] <;> omega

theorem ok_enter (l : InputLine) : Ok l.enter := by
  refine ok_finalize ⟨?_, ?_⟩ <;> simp

theorem toLeft_at {l : InputLine} (hge : 2 ≤ l.cursorX)
    (hle : l.cursorX - 2 + l.offset ≤ l.text.length + 1) :
    At l.toLeft.text l.toLeft.offset l.toLeft.cursorX := by
  unfold toLeft
  split
  · constructor <;> dsimp only <;> omega
  · split
    · constructor <;> dsimp only <;> omega
    · constructor <;> omega

theorem Ok.backSpace (h : Ok l) : Ok l.backSpace := by
  obtain ⟨hge, hle⟩ := h.cursor
  unfold InputLine.backSpace
  split
  · exact h
  · split
    · exact h
    · next hpos =>
      unfold pos at *
      have hlen : (l.text.eraseIdx (l.cursorX - 2 + l.offset - 1).toNat).length =
          l.text.length - 1 :=
        List.length_eraseIdx_of_lt (by omega)
      refine ok_finalize (toLeft_at hge ?_)
      dsimp only
      omega

theorem Ok.left (h : Ok l) : Ok l.left := by
  obtain ⟨hge, hle⟩ := h.cursor
  exact ok_finalize (toLeft_at hge (by omega))

theorem Ok.right (h : Ok l) (wndWidth : Nat) : Ok (l.right wndWidth) := by
  obtain ⟨hge, hle⟩ := h.cursor
  unfold InputLine.right pos
  split
  · exact h
  · split <;> refine ok_finalize ⟨?_, ?_⟩ <;> dsimp only <;> omega

theorem Ok.del (h : Ok l) : Ok l.del := by
  obtain ⟨hge, hle⟩ := h.cursor
  unfold InputLine.del pos
  split
  · exact h
  · refine ok_finalize ⟨hge, ?_⟩
    dsimp only
    rw [List.length_eraseIdx_of_lt (by omega)]
    omega

theorem ok_home (l : InputLine) : Ok l.home := by
  refine ok_finalize ⟨?_, ?_⟩ <;> simp

theorem ok_toEnd (l : InputLine) (hwidth : 4 ≤ wndWidth) : Ok (l.toEnd wndWidth) := by
  unfold toEnd
  dsimp only
  split <;> refine ok_finalize ⟨?_, ?_⟩ <;> dsimp only <;> omega

theorem ok_fromLog (l : InputLine) (hwidth : 4 ≤ wndWidth) (log : List (List Char)) (i : Nat) :
    Ok (l.fromLog wndWidth log i) := by
  obtain ⟨hcursor, htabs⟩ := ok_toEnd { l with text := (log.getD i []).drop 2 } hwidth
  exact ⟨hcursor, htabs⟩

theorem Ok.up (h : Ok l) (hwidth : 4 ≤ wndWidth) (log : List (List Char)) :
    Ok (l.up wndWidth log) := by
  unfold InputLine.up
  dsimp only
  split
  · exact ok_fromLog l hwidth log _
  · exact h

theorem Ok.down (h : Ok l) (hwidth : 4 ≤ wndWidth) (log : List (List Char)) :
    Ok (l.down wndWidth log) := by
  unfold InputLine.down
  split
  · exact h
  · split
    · exact ok_fromLog l hwidth log _
    · exact h

theorem Ok.completeWord (h : Ok l) (hwidth : 4 ≤ wndWidth)
    (complete : List Char → Int → List Char × Int) : Ok (l.completeWord wndWidth complete) := by
  obtain ⟨⟨hge, hle⟩, htabs⟩ := h
  unfold InputLine.completeWord
  split
  · exact ⟨⟨hge, hle⟩, htabs⟩
  split
  · exact ⟨⟨hge, hle⟩, htabs⟩
  split
  · exact ⟨⟨hge, hle⟩, htabs⟩
  next hpos _ =>
  dsimp only
  split
  · exact ⟨⟨hge, hle⟩, htabs⟩
  split
  · exact ⟨⟨hge, hle⟩, htabs⟩
  generalize ht : ((l.text.take l.pos.toNat).reverse.takeWhile (· ≠ ' ')).reverse = t
  rcases complete t l.tabData.index with ⟨r, numOfItems⟩
  dsimp only
  split
  · exact ⟨⟨hge, hle⟩, htabs⟩
  · next hlen =>
    -- the word is a part of the text before the cursor
    have hword : t.length ≤ l.pos.toNat := by
      rw [← ht, List.length_reverse]
      refine Nat.le_trans (List.takeWhile_sublist _).length_le ?_
      rw [List.length_reverse, List.length_take]
      exact Nat.min_le_left _ _
    have hnew : (l.text.take (l.pos.toNat - t.length) ++ (r ++ l.text.drop l.pos.toNat)).length =
        l.text.length + (r.length - t.length) := by
      simp only [List.length_append, List.length_take, List.length_drop]
      omega
    unfold pos at hnew
    split <;> refine ⟨⟨?_, ?_⟩, htabs⟩ <;> dsimp only [pos] <;> omega

theorem Ok.tab (h : Ok l) (hwidth : 4 ≤ wndWidth) (modifierKeyState : Bool)
    (complete : List Char → Int → List Char × Int) :
    Ok (l.tab wndWidth modifierKeyState complete) := by
  unfold InputLine.tab
  split
  · refine Ok.completeWord ?_ hwidth complete
    exact ⟨h.cursor, fun _ => h.cursor⟩
  · next htext =>
    split
    · exact h
    · refine Ok.completeWord ?_ hwidth complete
      exact ⟨h.tabs htext, h.tabs⟩

end InputLine

end BugChecker.Wnd
