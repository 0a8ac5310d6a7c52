import BugChecker.Wnd.Colors

/-!
# The script window

`CodeWnd` keeps the lines of a script, colored, with the position of the window
in them. The cursor is that of the screen. Every operation works out where the
cursor and the window go, and scrolls when the cursor would leave the window.
-/

namespace BugChecker.Wnd

/-- The width of the screen and the rows of the script window. -/
structure Area where
  wndWidth : Nat
  destY0 : Nat
  destY1 : Nat

/-- An area that is large enough for a script. -/
structure Screen extends Area where
  wndWidth_ge : 80 ≤ wndWidth
  destY1_ge : destY0 + 2 ≤ destY1

instance : Coe Screen Area := ⟨Screen.toArea⟩

structure CodeWnd where
  contents : List (List Char)
  posX : Nat
  posY : Nat
  cursorX : Int
  cursorY : Int

-- ---------------------------------------------------------------------------
-- Lines
-- ---------------------------------------------------------------------------

def pad (contents : List (List Char)) (y : Nat) : List (List Char) :=
  contents ++ List.replicate (y + 1 - contents.length) []

def lineAt (contents : List (List Char)) (y : Nat) : List Char := contents.getD y []

/-- `GetLine(y)` takes the colors of the line away. -/
def getLine (contents : List (List Char)) (y : Nat) : List (List Char) :=
  let contents := pad contents y
  contents.set y (uncolored (lineAt contents y))

/-- `GetLine(y, TRUE)` adds an empty line after the line. -/
def getLineAdd (contents : List (List Char)) (y : Nat) : List (List Char) :=
  (pad contents y).insertIdx (y + 1) []

/-- `GetLine(y, FALSE, &deletedStr)` deletes the line, and returns it without its colors. -/
def getLineDel (contents : List (List Char)) (y : Nat) : List Char × List (List Char) :=
  let contents := pad contents y
  (uncolored (lineAt contents y), contents.eraseIdx y)

def syntaxColorAt (clrs : Colors) (contents : List (List Char)) (y : Nat) : List (List Char) :=
  let contents := getLine contents y
  contents.set y (syntaxColor clrs (lineAt contents y))

namespace CodeWnd

section
variable (clrs : Colors) (scr : Area) (w : CodeWnd)

def currentLineId : Nat := (w.posY + (w.cursorY - scr.destY0)).toNat

/-- `CursorX - 2 + posX`. -/
def pos : Int := w.cursorX - 2 + w.posX

def changeCursorX (newX newY : Int) : CodeWnd :=
  { w with cursorX := newX, cursorY := if newY ≥ 0 then newY else w.cursorY }

def finalize : CodeWnd :=
  { w with contents := syntaxColorAt clrs w.contents (w.currentLineId scr) }

-- ---------------------------------------------------------------------------
-- Where the cursor goes
-- ---------------------------------------------------------------------------

/-- The cursor in a line of `textSize` characters, and the window moved if it is past its end. -/
def placeX (x : Int) (textSize : Nat) : Int × Nat :=
  if x > (scr.wndWidth : Int) - 2 then ((scr.wndWidth : Int) - 2, textSize - (scr.wndWidth - 4))
  else (x, 0)

def upY : Int × Nat :=
  if w.cursorY - 1 < scr.destY0 then (w.cursorY, w.posY - 1) else (w.cursorY - 1, w.posY)

def downY : Int × Nat :=
  if w.cursorY + 1 > scr.destY1 then (w.cursorY, w.posY + 1) else (w.cursorY + 1, w.posY)

/-- `n` columns to the right: the cursor if it is before `limit`, else the window. -/
def shiftRight (n : Nat) (limit : Int) : CodeWnd :=
  if w.cursorX < limit then w.changeCursorX (w.cursorX + n) (-1) else { w with posX := w.posX + n }

def shiftLeft : CodeWnd :=
  if w.cursorX > 2 then w.changeCursorX (w.cursorX - 1) (-1)
  else if w.posX > 0 then { w with posX := w.posX - 1 }
  else w

def moveTo (x y : Int × Nat) : CodeWnd :=
  CodeWnd.changeCursorX { w with posX := x.2, posY := y.2 } x.1 y.1

-- ---------------------------------------------------------------------------
-- Operations
-- ---------------------------------------------------------------------------

def add (str : List Char) : CodeWnd :=
  let id := w.currentLineId scr
  let contents := getLine w.contents id
  let text := lineAt contents id
  let pos := w.pos
  if pos < 0 ∨ pos > text.length then { w with contents := contents }
  else
    let k := pos.toNat
    let w : CodeWnd := { w with contents := contents.set id (text.take k ++ (str ++ text.drop k)) }
    (w.shiftRight str.length ((scr.wndWidth : Int) - 1 - str.length)).finalize clrs scr

def enter : CodeWnd :=
  let id := w.currentLineId scr
  let contents := getLine w.contents id
  let text := lineAt contents id
  let pos := w.pos
  if pos < 0 ∨ pos > text.length then { w with contents := contents }
  else
    let k := pos.toNat
    let contents := (getLineAdd (contents.set id (text.take k)) id).set (id + 1) (text.drop k)
    let w := { w with contents := contents }.moveTo (2, 0) (w.downY scr)
    let w := { w with contents := syntaxColorAt clrs w.contents (w.currentLineId scr - 1) }
    w.finalize clrs scr

def backSpace : CodeWnd :=
  let id := w.currentLineId scr
  let pos := w.pos - 1
  if pos ≥ 0 then
    let contents := getLine w.contents id
    let text := lineAt contents id
    if text.length = 0 ∨ pos ≥ text.length then { w with contents := contents }
    else
      let w : CodeWnd := { w with contents := contents.set id (text.eraseIdx pos.toNat) }
      w.shiftLeft.finalize clrs scr
  else if id = 0 then w
  else
    let (deleted, contents) := getLineDel w.contents id
    let contents := getLine contents (id - 1)
    let text := lineAt contents (id - 1)
    let w := { w with contents := contents.set (id - 1) (text ++ deleted) }.moveTo
      (placeX scr (text.length + 2) text.length) (w.upY scr)
    w.finalize clrs scr

def del : CodeWnd :=
  let id := w.currentLineId scr
  let contents := getLine w.contents id
  let text := lineAt contents id
  let pos := w.pos
  if pos < 0 then { w with contents := contents }
  else if pos < text.length then
    { w with contents := contents.set id (text.eraseIdx pos.toNat) }.finalize clrs scr
  else if id + 1 ≥ contents.length then { w with contents := contents }
  else
    let (deleted, contents) := getLineDel contents (id + 1)
    { w with contents := contents.set id (text ++ deleted) }.finalize clrs scr

def left : CodeWnd :=
  if w.cursorX > 2 ∨ w.posX > 0 then w.shiftLeft.finalize clrs scr
  else
    let id := w.currentLineId scr
    if id = 0 then w
    else
      let contents := getLine w.contents (id - 1)
      let textSize := (lineAt contents (id - 1)).length
      let w := { w with contents := contents }.moveTo
          (placeX scr (textSize + 2) textSize) (w.upY scr)
      w.finalize clrs scr

def right : CodeWnd :=
  let id := w.currentLineId scr
  let contents := getLine w.contents id
  let text := lineAt contents id
  let pos := w.pos
  let w := { w with contents := contents }
  if pos < 0 then w
  else if pos < text.length then
    (w.shiftRight 1 ((scr.wndWidth : Int) - 2)).finalize clrs scr
  else if id + 1 ≥ contents.length then w
  else
    let w := w.moveTo (2, 0) (w.downY scr)
    let w := { w with contents := syntaxColorAt clrs w.contents id }
    w.finalize clrs scr

/-- Where `Up`, `Down`, `PgUp` and `PgDn` go in a line. -/
def wantX (textSize : Nat) : Int × Nat := placeX scr (min (textSize + 2) w.cursorX) textSize

def up : CodeWnd :=
  let id := w.currentLineId scr
  if id = 0 then w
  else
    let contents := getLine w.contents (id - 1)
    let textSize := (lineAt contents (id - 1)).length
    let w := { w with contents := contents }.moveTo (w.wantX scr textSize) (w.upY scr)
    w.finalize clrs scr

def down : CodeWnd :=
  let id := w.currentLineId scr
  if id + 1 ≥ w.contents.length then w
  else
    let contents := getLine w.contents (id + 1)
    let textSize := (lineAt contents (id + 1)).length
    let w := { w with contents := contents }.moveTo (w.wantX scr textSize) (w.downY scr)
    w.finalize clrs scr

def home : CodeWnd := ({ w with posX := 0 }.changeCursorX 2 (-1)).finalize clrs scr

def toEnd : CodeWnd :=
  let id := w.currentLineId scr
  let contents := getLine w.contents id
  let textSize := (lineAt contents id).length
  let x := placeX scr (textSize + 2) textSize
  ({ w with contents := contents, posX := x.2 }.changeCursorX x.1 (-1)).finalize clrs scr

def tab : CodeWnd :=
  let pos := 4 - w.pos.tmod 4
  if pos ≤ 0 ∨ pos > 4 then w else w.add clrs scr (List.replicate pos.toNat ' ')

def winDim : Nat := scr.destY1 - scr.destY0 + 1

def pgUp : CodeWnd :=
  let id := w.currentLineId scr
  if id = 0 then w
  else
    let id := id - winDim scr
    let contents := getLine w.contents id
    let textSize := (lineAt contents id).length
    let y := if w.posY ≥ winDim scr then (w.cursorY, w.posY - winDim scr)
        else ((scr.destY0 + id : Int), 0)
    ({ w with contents := contents }.moveTo (w.wantX scr textSize) y).finalize clrs scr

def pgDn : CodeWnd :=
  let id := w.currentLineId scr
  if id + 1 ≥ w.contents.length then w
  else
    let id := if id + winDim scr ≥ w.contents.length then w.contents.length - 1 else id + winDim scr
    let contents := getLine w.contents id
    let textSize := (lineAt contents id).length
    let posY := if w.posY + winDim scr < contents.length then w.posY + winDim scr else w.posY
    let y := ((scr.destY0 + (id - posY) : Int), posY)
    ({ w with contents := contents }.moveTo (w.wantX scr textSize) y).finalize clrs scr

end

end CodeWnd

end BugChecker.Wnd
