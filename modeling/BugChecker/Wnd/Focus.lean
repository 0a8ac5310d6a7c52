import BugChecker.Step.Context
import BugChecker.Wnd.Editor
import BugChecker.Wnd.FrameBuffer
import BugChecker.Wnd.InputLine
import BugChecker.Wnd.Layout

/-!
# The focus and the cursor

One cursor serves the input line and the script window, and the place in the
other window is saved. ESC switches. Whenever the layout is another one,
`CheckDivLineYs` puts the cursor into the input line and the saved places at the
beginning of both windows, whatever has the focus and however far the script is
scrolled. While every step keeps the layout, or finds the input line with the
focus and a script that reaches to the corner of its window, the cursor stays in
its text.
-/

namespace BugChecker.Wnd

inductive CursorFocus where
  | log | code
  deriving DecidableEq

/-- The cursor, and the places that are saved for the two windows. -/
structure Cursors where
  cursorX : Int
  cursorY : Int
  logCursorX : Int
  logCursorY : Int
  codeCursorX : Int
  codeCursorY : Int
  deriving DecidableEq

structure Ui where
  layout : Layout
  -- `PrevWndWidth`, `PrevWndHeight` and `PrevLayout`
  prev : Nat × Nat × List Int
  cursors : Cursors
  focus : CursorFocus
  -- the registers that are drawn at this break
  regs32 : Bool
  clrs : Colors
  -- the script window
  contents : List (List Char)
  posX : Nat
  posY : Nat
  -- the input line
  text : List Char
  offset : Nat
  historyPos : Int
  tabData : TabData

/-- A command with its argument. -/
inductive Command where
  | wr
  | wd (size : Option Nat)
  | ws (size : Option Nat)
  | width (columns : Option Nat)
  | lines (rows : Option Nat)
  | color (clrs : Colors)
  | other

-- ---------------------------------------------------------------------------
-- The layout
-- ---------------------------------------------------------------------------

namespace Layout

/-- What `CheckDivLineYs` compares. -/
def seen (l : Layout) : Nat × Nat × List Int := (l.wndWidth, l.wndHeight, l.lines)

/-- `DrawInterface` makes room for the registers. -/
def withRegs (regs32 : Bool) (sign : Bool) (l : Layout) : Layout :=
  { l with regsDisasmDivLineY := (if sign then -1 else 1) * (regsRows l.wndWidth regs32 + 1 : Nat) }

def toggle (py : DivVar) (l : Layout) : Layout := l.set py (-l.get py)

/-- The height that `WD` and `WS` ask for. -/
def withSize (py : DivVar) (newValue : Nat) (l : Layout) : Layout :=
  match lineBefore py l.getVisibleDivLines with
  | some prev => l.set py (prev + newValue + 1)
  | none => l

/-- `while (!CheckWndWidthHeight(...)) widthChr--`. A window of no columns fits into any screen that
is mapped. -/
def shrink (fits : Nat → Bool) : Nat → Nat
  | 0 => 0
  | n + 1 => if fits (n + 1) then n + 1 else shrink fits n

def withDim (fb : FrameBuffer) (isWidth : Bool) (newValue : Nat) (l : Layout) : Layout :=
  if isWidth then
    { l with
      wndWidth :=
        shrink (fun n => checkWndWidthHeight fb (.ofNat n) (.ofNat l.wndHeight)) newValue }
  else
    { l with
      wndHeight :=
        shrink (fun n => checkWndWidthHeight fb (.ofNat l.wndWidth) (.ofNat n)) newValue }

end Layout

/-- The cursor goes to the input line, and the saved places to the beginning of the windows. A
script window that is hidden has none. -/
def Cursors.reset (l : Layout) : Cursors where
  cursorX := 2
  cursorY := (l.wndHeight : Int) - 3
  logCursorX := 2
  logCursorY := (l.wndHeight : Int) - 3
  codeCursorX := 2
  codeCursorY := ((Layout.lineBefore .codeLog l.getVisibleDivLines).map (· + 1)).getD 0

namespace Ui

def checkDivLineYs (keep : Option DivVar) (s : Ui) : Ui :=
  let l := s.layout.arrange keep
  { s with
    layout := l, prev := l.seen, cursors := if s.prev ≠ l.seen then .reset l else s.cursors }

def drawAllStart (s : Ui) : Ui := s.checkDivLineYs none

def drawAllEnd (s : Ui) : Ui := { s with tabData := { s.tabData with text := [] } }

def drawInterface (s : Ui) : Ui :=
  let sign : Bool := s.layout.regsDisasmDivLineY < 0
  let s := s.drawAllStart
  let s := { s with layout := s.layout.withRegs s.regs32 sign }
  s.drawAllStart.drawAllEnd

/-- `ChangeCursorX`. -/
def changeCursor (newX newY : Int) (c : Cursors) : Cursors :=
  { c with cursorX := newX, cursorY := if newY ≥ 0 then newY else c.cursorY }

def switchBetweenLogCode (s : Ui) : Ui :=
  let s :=
    if s.layout.codeLogDivLineY < 0 then { s with layout := s.layout.toggle .codeLog }.drawAllStart
    else s
  let c := s.cursors
  match s.focus with
  | .log =>
    let c := { c with logCursorX := c.cursorX, logCursorY := c.cursorY }
    { s with cursors := changeCursor c.codeCursorX c.codeCursorY c, focus := .code }
  | .code =>
    let c := { c with codeCursorX := c.cursorX, codeCursorY := c.cursorY }
    { s with cursors := changeCursor c.logCursorX c.logCursorY c, focus := .log }

-- ---------------------------------------------------------------------------
-- Commands
-- ---------------------------------------------------------------------------

def executeWR (s : Ui) : Ui :=
  ({ s with layout := s.layout.toggle .regsDisasm }.checkDivLineYs none).drawInterface

/-- `WD` and `WS`. -/
def executeSize (py : DivVar) (size : Option Nat) (s : Ui) : Ui :=
  match size with
  | none => ({ s with layout := s.layout.toggle py }.checkDivLineYs none).drawInterface
  | some newValue =>
    if newValue < 3 ∨ newValue > 160 then s
    else
      let s :=
        if s.layout.get py < 0
          then { s with layout := s.layout.toggle py }.checkDivLineYs none else s
      ({ s with layout := s.layout.withSize py newValue }.checkDivLineYs (some py)).drawInterface

/-- `WIDTH` and `LINES`. -/
def executeDim (fb : FrameBuffer) (isWidth : Bool) (dim : Option Nat) (s : Ui) : Ui :=
  match dim with
  | none => s
  | some newValue =>
    if newValue < (if isWidth then 80 else 25) ∨ newValue > 160 then s
    else ({ s with layout := s.layout.withDim fb isWidth newValue }.checkDivLineYs
      none).drawInterface

def executeCOLOR (clrs : Colors) (s : Ui) : Ui :=
  let s := { s with
    clrs := clrs, contents := (List.range s.contents.length).foldl (syntaxColorAt clrs) s.contents }
  s.drawInterface

def processCmd (fb : FrameBuffer) (s : Ui) : Command → Ui
  | .wr => s.executeWR
  | .wd size => s.executeSize .disasmCode size
  | .ws size => s.executeSize .codeLog size
  | .width columns => s.executeDim fb true columns
  | .lines rows => s.executeDim fb false rows
  | .color clrs => s.executeCOLOR clrs
  | .other => s

-- ---------------------------------------------------------------------------
-- The keyboard loop
-- ---------------------------------------------------------------------------

def inputLine (s : Ui) : InputLine := ⟨s.text, s.offset, s.cursors.cursorX, s.historyPos, s.tabData⟩

def withInputLine (s : Ui) (l : InputLine) : Ui :=
  { s with
    text := l.text, offset := l.offset, historyPos := l.historyPos, tabData := l.tabData
    cursors := { s.cursors with cursorX := l.cursorX } }

def codeWnd (s : Ui) : CodeWnd := ⟨s.contents, s.posX, s.posY, s.cursors.cursorX, s.cursors.cursorY⟩

/-- The script window has nothing to do with the TABs: ESC has drawn everything. -/
def withCodeWnd (s : Ui) (w : CodeWnd) : Ui :=
  { s with
    contents := w.contents, posX := w.posX, posY := w.posY
    cursors := { s.cursors with cursorX := w.cursorX, cursorY := w.cursorY } }

/-- What is pressed. The words that TAB finds, the log, and the command that the text of the input
line names, are of the system. -/
inductive Key where
  | esc
  | enter (cmd : Option Command)
  | tab (modifierKeyState : Bool) (complete : List Char → Int → List Char × Int)
  | up (log : List (List Char))
  | down (log : List (List Char))
  | char (c : Char) (printable : 32 ≤ c.toNat ∧ c.toNat < 128)
  | backSpace | del | left | right | home | toEnd | pgUp | pgDn
  -- the disassembler or the log is moved, or the script is evaluated
  | other (redraw : Bool)

def Key.op : Key → Option Op
  | .esc | .other _ => none
  | .enter _ => some .enter
  | .tab _ _ => some .tab
  | .up _ => some .up
  | .down _ => some .down
  | .char c printable => some (.add c printable)
  | .backSpace => some .backSpace
  | .del => some .del
  | .left => some .left
  | .right => some .right
  | .home => some .home
  | .toEnd => some .toEnd
  | .pgUp => some .pgUp
  | .pgDn => some .pgDn

def Key.input (width : Nat) (l : InputLine) : Key → InputLine
  | .esc | .other _ | .pgUp | .pgDn => l
  | .enter _ => l.enter
  | .tab modifierKeyState complete => l.tab width modifierKeyState complete
  | .up log => l.up width log
  | .down log => l.down width log
  | .char c _ => l.addChar width c
  | .backSpace => l.backSpace
  | .del => l.del
  | .left => l.left
  | .right => l.right width
  | .home => l.home
  | .toEnd => l.toEnd width

def pressed (fb : FrameBuffer) (s : Ui) (key : Key) : Ui :=
  match key, s.focus with
  | .esc, _ => s.switchBetweenLogCode.drawAllEnd
  | .other redraw, _ => if redraw then s.drawAllEnd else s
  | key, .code =>
    match key.op with
    | some op => s.withCodeWnd (s.codeWnd.apply s.clrs s.layout.codeArea op)
    | none => s
  | key, .log =>
    let s := s.withInputLine (key.input s.layout.wndWidth s.inputLine)
    match key with
    | .enter (some cmd) => s.processCmd fb cmd
    | _ => s

inductive Event where
  | key (key : Key)
  -- the system runs, and breaks in again
  | breakIn (regs32 : Bool)

def step (fb : FrameBuffer) (s : Ui) : Event → Ui
  | .key key => s.pressed fb key
  | .breakIn regs32 => { s with regs32 := regs32 }.drawInterface

def defaults (build : Build) (clrs : Colors) (regs32 : Bool) : Ui where
  layout := ⟨80, 25, match build with | .x64 => 7 | .x86 => 4, 13, 17⟩
  prev := (0, 0, [])
  cursors :=
    { cursorX := 2, cursorY := 22, logCursorX := 2, logCursorY := 22, codeCursorX := 2
      codeCursorY := 14 }
  focus := .log
  regs32 := regs32
  clrs := clrs
  contents := []
  posX := 0
  posY := 0
  text := []
  offset := 0
  historyPos := -1
  tabData := { text := [], offset := 0, cursorX := 0, index := 0, numOfItems := 0 }

def start (build : Build) (clrs : Colors) (regs32 : Bool) : Ui :=
  (defaults build clrs regs32).drawInterface

end Ui

-- ---------------------------------------------------------------------------
-- What a step does to the layout
-- ---------------------------------------------------------------------------

namespace Layout

def drawInterface (regs32 : Bool) (l : Layout) : Layout :=
  ((l.arrange none).withRegs regs32 (l.regsDisasmDivLineY < 0)).arrange none

def afterSize (regs32 : Bool) (py : DivVar) (l : Layout) : Option Nat → Layout
  | none => ((l.toggle py).arrange none).drawInterface regs32
  | some newValue =>
    if newValue < 3 ∨ newValue > 160 then l
    else
      let l := if l.get py < 0 then (l.toggle py).arrange none else l
      ((l.withSize py newValue).arrange (some py)).drawInterface regs32

def afterDim (fb : FrameBuffer) (regs32 isWidth : Bool) (l : Layout) : Option Nat → Layout
  | none => l
  | some newValue =>
    if newValue < (if isWidth then 80 else 25) ∨ newValue > 160 then l
    else ((l.withDim fb isWidth newValue).arrange none).drawInterface regs32

def afterCmd (fb : FrameBuffer) (regs32 : Bool) (l : Layout) : Command → Layout
  | .wr => ((l.toggle .regsDisasm).arrange none).drawInterface regs32
  | .wd size => l.afterSize regs32 .disasmCode size
  | .ws size => l.afterSize regs32 .codeLog size
  | .width columns => l.afterDim fb regs32 true columns
  | .lines rows => l.afterDim fb regs32 false rows
  | .color _ => l.drawInterface regs32
  | .other => l

end Layout

namespace Ui

def layoutAfter (fb : FrameBuffer) (s : Ui) : Event → Layout
  | .breakIn regs32 => s.layout.drawInterface regs32
  | .key .esc =>
    if s.layout.codeLogDivLineY < 0 then (s.layout.toggle .codeLog).arrange none else s.layout
  | .key (.enter (some cmd)) =>
    match s.focus with
    | .log => s.layout.afterCmd fb s.regs32 cmd
    | .code => s.layout
  | .key _ => s.layout

/-- The text reaches to the corner of the script window. -/
def CornerInText (s : Ui) : Prop := s.posX ≤ (uncolored (lineAt s.contents s.posY)).length

/-- A step that does not change the layout, or does so while the cursor is in the input line and the
corner of a visible script window is in the text. -/
def Harmless (fb : FrameBuffer) (s : Ui) (ev : Event) : Prop :=
  (s.layoutAfter fb ev).seen = s.layout.seen ∨
    s.focus = .log ∧ 0 ≤ (s.layoutAfter fb ev).codeLogDivLineY ∧ s.CornerInText

/-- A place in the input line. -/
structure LogOk (s : Ui) (x y : Int) : Prop where
  row : y = (s.layout.wndHeight : Int) - 3
  ge : 0 ≤ x - 2 + s.offset
  le : x - 2 + s.offset ≤ s.text.length

/-- A place in the script. -/
structure CodeOk (s : Ui) (x y : Int) : Prop where
  ge : s.layout.codeArea.destY0 ≤ y
  le : y ≤ s.layout.codeArea.destY1
  col : x - 2 + s.posX ≤
    (uncolored (lineAt s.contents (s.posY + (y - s.layout.codeArea.destY0)).toNat)).length

/-- The cursor and the saved place are in the text of their windows. -/
def Consistent (s : Ui) : Prop :=
  match s.focus with
  | .log =>
    s.LogOk s.cursors.cursorX s.cursors.cursorY ∧
      s.CodeOk s.cursors.codeCursorX s.cursors.codeCursorY
  | .code =>
    s.CodeOk s.cursors.cursorX s.cursors.cursorY ∧ s.LogOk s.cursors.logCursorX s.cursors.logCursorY

def run (fb : FrameBuffer) (s : Ui) (events : List Event) : Ui := events.foldl (step fb) s

end Ui

end BugChecker.Wnd
