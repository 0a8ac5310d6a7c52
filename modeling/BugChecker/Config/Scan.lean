import Mathlib.Data.List.Basic

/-!
# The structured-file scanner

`BugChecker.dat` is a text file whose tabulations give the nesting of its
lines. Symbol Loader and the driver each carry a copy of one line scanner,
`StructuredFile::Parse` and `Utils::ParseStructuredFile`. Both start at a
pointer, look for a line with a given number of tabulations and, optionally, a
given text, and return a pointer just past the tabulations of that line.

A pointer into the file is represented by the part of the file from it on, so
`p > pszEnd` is the empty list. Characters are bytes; the scanner only compares
them, so their sign does not matter.
-/

namespace BugChecker.Config

abbrev Text := List UInt8

def TAB : UInt8 := 9
def LF : UInt8 := 10
def CR : UInt8 := 13
def NUL : UInt8 := 0

def ascii (s : String) : Text := s.toList.map fun c => UInt8.ofNat c.toNat

theorem ascii_ofList (l : List Char) :
    ascii (String.ofList l) = l.map fun c => UInt8.ofNat c.toNat := by
  simp [ascii]

/-- One run of the inner `for`: the text left in `paOutput`, the file after the
line (the `p++` that follows the loop included), and the two end flags. -/
structure Line where
  output : Text
  rest : Text
  endOfLine : Bool
  endOfFile : Bool

/-- The file after a line terminator: a following LF belongs to it. -/
def skipLf : Text → Text
  | [] => []
  | c :: p => if c = LF then p else c :: p

/-- The inner `for`, with `room` characters left in `paOutput`. -/
def readLine : Nat → Text → Line
  | 0, p => ⟨[], p, false, false⟩
  | _ + 1, [] => ⟨[], [], true, true⟩
  | room + 1, c :: p =>
    if c = CR ∨ c = NUL then ⟨[], skipLf p, true, false⟩
    else { readLine room p with output := c :: (readLine room p).output }

/-- `sizeof((*paOutput)) / sizeof(CHAR)` -/
def outputSize : Nat := 1024

def numOfTabs (line : Text) : Nat := (line.takeWhile (· = TAB)).length

/-- The `do .. while` over the lines. The result is the returned pointer with
the contents of `paOutput`. Every line but the last one consumes a character,
so `fuel` beyond the length of the file is never used up. -/
def parseLoop (tabsNum : Nat) (string : Option Text) : Nat → Bool → Bool → Text →
    Option (Text × Text)
  | 0, _, _, _ => none
  | fuel + 1, tnReached, firstLine, p =>
    let line := readLine outputSize p
    let n := numOfTabs line.output
    if !line.endOfLine then none
    else if ((string.isNone && !firstLine) || tnReached) && decide (n < tabsNum) then none
    else if line.output.drop n ≠ [] ∧ tabsNum = n ∧
        (string = none ∨ string = some (line.output.drop n)) then
      some (p.drop n, line.output)
    else if line.endOfFile then none
    else parseLoop tabsNum string fuel (tnReached || decide (tabsNum ≤ n)) false line.rest

def scanFile (file : Text) (tabsNum : Nat) (string start : Option Text) : Option (Text × Text) :=
  if file = [] ∨ (tabsNum = 0 ∧ string = none) then none
  else parseLoop tabsNum string (file.length + 1) false true (start.getD file)

def StructuredFile.parse := scanFile

def Utils.parseStructuredFile := scanFile

end BugChecker.Config
