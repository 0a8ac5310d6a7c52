import BugChecker.Cmd.Tokenize
import BugChecker.Lib.LineEditor
import BugChecker.Wnd.InputLine
import BugChecker.Wnd.Completion

/-!
# The command line

The input line with the log, which holds the commands that were entered, and
with what there is to complete from. Only a redraw of the windows changes what
is on the screen; TAB itself changes colors and the row of the input line.
-/

namespace BugChecker.Wnd

open Cmd (trim)

structure Prompt where
  line : InputLine
  log : List (List Char)
  sources : Sources

inductive LineOp where
  | addChar (c : Char)
  | backSpace
  | del
  | left
  | right
  | home
  | toEnd
  /-- The command writes lines to the log, and the oldest lines may be dropped from it. -/
  | enter (newLine : Bool) (output : List (List Char)) (dropped : Nat)
  | up
  | down
  | tab (modifierKeyState : Bool)
  | redraw (sources : Sources)

def endLine (newLine : Bool) (log : List (List Char)) : List (List Char) :=
  if newLine then log else (log.reverse.dropWhile (·.isEmpty)).reverse

def addUserCmd (newLine : Bool) (text : List Char) (log : List (List Char)) : List (List Char) :=
  if trim text = [] then log else endLine newLine log ++ ['\r' :: ':' :: trim text]

namespace Prompt

section
variable (wndWidth : Nat) (p : Prompt)

def entered (newLine : Bool) (output : List (List Char)) : List (List Char) :=
  addUserCmd newLine p.line.text p.log ++ output

def step : LineOp → Prompt
  | .addChar c => { p with line := p.line.addChar wndWidth c }
  | .backSpace => { p with line := p.line.backSpace }
  | .del => { p with line := p.line.del }
  | .left => { p with line := p.line.left }
  | .right => { p with line := p.line.right wndWidth }
  | .home => { p with line := p.line.home }
  | .toEnd => { p with line := p.line.toEnd wndWidth }
  | .enter newLine output dropped =>
    { p with line := p.line.enter, log := (p.entered newLine output).drop dropped }
  | .up => { p with line := p.line.up wndWidth p.log }
  | .down => { p with line := p.line.down wndWidth p.log }
  | .tab modifierKeyState =>
    { p with line := p.line.tab wndWidth modifierKeyState p.sources.complete }
  | .redraw sources => { p with line := p.line.finalize, sources := sources }

def run (ops : List LineOp) : Prompt := ops.foldl (step wndWidth) p

end

end Prompt

-- ---------------------------------------------------------------------------
-- The plain line
-- ---------------------------------------------------------------------------

def command? (s : List Char) : Option (List Char) :=
  if InputLine.isUserCmd s then some (s.drop 2) else none

def commands (log : List (List Char)) : List (List Char) := log.filterMap command?

def TabData.session (d : TabData) : LineEditor.Session Char :=
  ⟨d.text, (d.cursorX - 2 + d.offset).toNat, d.index.toNat⟩

namespace Prompt

section
variable (p : Prompt)

def plain : LineEditor Char where
  text := p.line.text
  col := p.line.pos.toNat
  history := commands p.log
  recalledAt :=
    if p.line.historyPos < 0 then none
    else some (commands (p.log.take p.line.historyPos.toNat)).length
  session := if p.line.tabData.text = [] then none else some p.line.tabData.session

def plainOp : LineOp → LineEditor.Op Char
  | .addChar c => .insert c
  | .backSpace => .backSpace
  | .del => .del
  | .left => .left
  | .right => .right
  | .home => .home
  | .toEnd => .toEnd
  | .enter newLine output dropped =>
    .enter (trim p.line.text) (commands output)
      (commands ((p.entered newLine output).take dropped)).length
  | .up => .up
  | .down => .down
  | .tab modifierKeyState => .complete p.sources.words modifierKeyState
  | .redraw _ => .forget

/-- The operations of the plain line, one for each of the input line. -/
def plainOps (wndWidth : Nat) : Prompt → List LineOp → List (LineEditor.Op Char)
  | _, [] => []
  | p, op :: ops => p.plainOp op :: plainOps wndWidth (p.step wndWidth op) ops

end

def tabWords (p : Prompt) : List (List Char) := p.line.tabData.session.words ' ' p.sources.words

/-- The cursor is in the text and on the screen, a command that is shown is one of the log, and the
words are those for the line before the first TAB. -/
structure Ok (wndWidth : Nat) (p : Prompt) : Prop where
  cursor : InputLine.At p.line.text p.line.offset p.line.cursorX
  fits : p.line.cursorX ≤ (wndWidth : Int) - 2
  recalls : 0 ≤ p.line.historyPos →
    InputLine.isUserCmd (p.log.getD p.line.historyPos.toNat []) = true
  tabs : p.line.tabData.text ≠ [] →
    InputLine.At p.line.tabData.text p.line.tabData.offset p.line.tabData.cursorX ∧
      p.line.tabData.cursorX ≤ (wndWidth : Int) - 2 ∧
      p.line.tabData.numOfItems = p.tabWords.length ∧ 0 ≤ p.line.tabData.index ∧
      (p.line.tabData.index < p.tabWords.length ∨ p.line.tabData.index = 0)

end Prompt

end BugChecker.Wnd
