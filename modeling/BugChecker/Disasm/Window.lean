import Mathlib.Data.List.Iterate

/-!
# The code window

`DisasmWnd::Disasm` chooses the addresses of the instructions to show, by
decoding forward from the first address shown or, to go backwards, from 512
bytes in front of it up to the last address shown. Then it writes a line for
each, with a line for the symbol above it where there is one, and cuts off as
many lines as it inserted.

Addresses are natural numbers: what is read never ends at the end of the address
space. Only going back from the first bytes wraps.
-/

namespace BugChecker.Disasm

/-- A decoded instruction, or a byte that is none. -/
structure Instr where
  bytes : List UInt8
  error : Bool
  bytes_ne : bytes ≠ []
  deriving DecidableEq

def Instr.length (i : Instr) : Nat := i.bytes.length

theorem Instr.length_pos (i : Instr) : 0 < i.length := List.length_pos_iff.mpr i.bytes_ne

/-- What the window is opened on: the decoded bytes of a part of the memory, by their offsets, and
the public that an address is the address of, when the first of the addresses to show is in its
module. -/
structure Code where
  fetch : (address size : Nat) → Option (Nat → Instr)
  symbolAt : (first address : Nat) → Option String

inductive Line
  | unreadable (address : Nat)
  | symbolName (address : Nat) (name : String)
  | instruction (address : Nat) (instr : Instr)
  deriving DecidableEq

namespace Line

def address : Line → Nat
  | unreadable address => address
  | symbolName address _ => address
  | instruction address _ => address

def isSymbolName : Line → Bool
  | symbolName .. => true
  | _ => false

end Line

structure DisasmWnd where
  symNameLinesNum : Nat := 0
  firstAddressShown : Nat := 0
  lastAddressShown : Nat := 0
  isFirstAddressShownASymName : Bool := false
  isLastAddressShownASymName : Bool := false
  contents : List Line := []
  deriving DecidableEq

def navigatePreservePos : Int := 999999

-- ---------------------------------------------------------------------------
-- Which bytes are read
-- ---------------------------------------------------------------------------

namespace DisasmWnd

def setPos (address : Nat) (w : DisasmWnd) : DisasmWnd :=
  { w with
    firstAddressShown := address
    lastAddressShown := 0
    isFirstAddressShownASymName := false
    isLastAddressShownASymName := false
    symNameLinesNum := 0 }

/-- The symbol in the first line is scrolled off without moving the address. -/
def keepsAddress (navigate : Int) (w : DisasmWnd) : Bool :=
  w.isFirstAddressShownASymName && navigate == 1

def withFlags (navigate : Int) (w : DisasmWnd) : DisasmWnd :=
  { w with
    symNameLinesNum := if navigate = 0 then 0 else w.symNameLinesNum
    isFirstAddressShownASymName := w.keepsAddress navigate
    isLastAddressShownASymName := w.isLastAddressShownASymName && navigate == -1 }

def start (pc : Nat) (navigate : Int) (w : DisasmWnd) : Nat :=
  if navigate ≠ 0 then w.firstAddressShown
  else if pc ≥ w.firstAddressShown ∧ pc ≤ w.lastAddressShown then w.firstAddressShown
  else pc

def moved (navigate : Int) (w : DisasmWnd) : Int :=
  if w.keepsAddress navigate ∨ navigate = navigatePreservePos then 0 else navigate

def asmBytesAddress (pc : Nat) (navigate : Int) (w : DisasmWnd) : Nat :=
  if w.moved navigate < 0 then (w.start pc navigate + (2 ^ 64 - 512)) % 2 ^ 64
    else w.start pc navigate

def asmBytesSize (navigate : Int) (w : DisasmWnd) : Nat :=
  if w.moved navigate < 0 then 1024 else 512

end DisasmWnd

-- ---------------------------------------------------------------------------
-- Which addresses are shown
-- ---------------------------------------------------------------------------

variable (instrAt : Nat → Instr) (asmBytesAddress : Nat)

def following (runtimeAddress : Nat) : Nat :=
  runtimeAddress + (instrAt (runtimeAddress - asmBytesAddress)).length

/-- Forward, as many addresses as there are lines to show and to leave out. -/
def forwardAddresses (contentsDim navigate : Nat) : List Nat :=
  List.iterate (following instrAt asmBytesAddress) asmBytesAddress (max 1 (contentsDim + navigate))

/-- Up to the first address that is not below the last one shown. Each turn gets nearer to it. -/
def sweep (lastAddressShown : Nat) : Nat → Nat → List Nat
  | 0, _ => []
  | fuel + 1, runtimeAddress =>
    if lastAddressShown ≤ runtimeAddress then [runtimeAddress]
    else runtimeAddress :: sweep lastAddressShown fuel
      (following instrAt asmBytesAddress runtimeAddress)

def backwardAddresses (lastAddressShown : Nat) : List Nat :=
  sweep instrAt asmBytesAddress lastAddressShown
    (lastAddressShown - asmBytesAddress + 1) asmBytesAddress

def collected (contentsDim lastAddressShown : Nat) (moved : Int) : List Nat :=
  if 0 ≤ moved then forwardAddresses instrAt asmBytesAddress contentsDim moved.toNat
  else backwardAddresses instrAt asmBytesAddress lastAddressShown

/-- What is left of them, when the last one shown was found and there are enough. -/
def keptBackward (contentsDim lastAddressShown navigate : Nat) (isLast : Bool)
    (addresses : List Nat) :
    Option (List Nat) :=
  if addresses.getLast? = some lastAddressShown then
    if addresses.length < contentsDim + navigate + isLast.toNat then none
    else
      let addresses := addresses.take (addresses.length - navigate + isLast.toNat)
      some (addresses.drop (addresses.length - contentsDim - isLast.toNat))
  else none

def kept (contentsDim lastAddressShown : Nat) (moved : Int) (isLast : Bool) (addresses : List Nat) :
    Option (List Nat) :=
  let addresses :=
    if 0 ≤ moved then some (addresses.drop moved.toNat)
    else keptBackward contentsDim lastAddressShown moved.natAbs isLast addresses
  addresses.filter fun addresses => addresses.length = contentsDim + isLast.toNat

-- ---------------------------------------------------------------------------
-- The lines
-- ---------------------------------------------------------------------------

variable (symbolAt : Nat → Option String)

def block (address : Nat) : List Line :=
  ((symbolAt address).map (Line.symbolName address)).toList ++
    [.instruction address (instrAt (address - asmBytesAddress))]

/-- The second loop. A symbol that was scrolled off is not written again. -/
def linesOf (isFirst : Bool) : List Nat → List Line
  | [] => []
  | address :: addresses =>
    (if isFirst then [.instruction address (instrAt (address - asmBytesAddress))]
      else block instrAt asmBytesAddress symbolAt address) ++
      addresses.flatMap (block instrAt asmBytesAddress symbolAt)

/-- The lines in excess go at the end, or backwards at the beginning. -/
def withoutExcess (moved : Int) (lines : List Line) : List Line :=
  let symNameLinesNum := lines.countP Line.isSymbolName
  if 0 ≤ moved then lines.take (lines.length - symNameLinesNum) else lines.drop symNameLinesNum

def sameAsNext : List Nat → Bool
  | a :: b :: _ => a == b
  | _ => false

namespace DisasmWnd

def withLines (contentsDim : Nat) (moved : Int) (lines : List Line) (w : DisasmWnd) : DisasmWnd :=
  let contents := withoutExcess moved lines
  let addresses := contents.map Line.address
  { w with
    symNameLinesNum := lines.countP Line.isSymbolName
    contents := contents
    firstAddressShown := addresses.headD 0
    lastAddressShown := addresses.getLastD 0
    isFirstAddressShownASymName := sameAsNext addresses
    isLastAddressShownASymName := addresses.length == contentsDim && sameAsNext addresses.reverse }

variable (code : Code) (contentsDim pc : Nat) (navigate : Int) (w : DisasmWnd)

/-- The addresses of the instructions of the new lines, unless the window stays as it is. -/
def shownAddresses (instrAt : Nat → Instr) : Option (List Nat) :=
  kept contentsDim w.lastAddressShown (w.moved navigate)
    (w.withFlags navigate).isLastAddressShownASymName
    (collected instrAt (w.asmBytesAddress pc navigate) contentsDim w.lastAddressShown
      (w.moved navigate))

def disasm : DisasmWnd :=
  let address := w.asmBytesAddress pc navigate
  match code.fetch address (w.asmBytesSize navigate) with
  | none => { w.withFlags navigate with contents := [.unreadable (w.start pc navigate)] }
  | some instrAt =>
    match w.shownAddresses contentsDim pc navigate instrAt with
    | none => w.withFlags navigate
    | some addresses =>
      (w.withFlags navigate).withLines contentsDim (w.moved navigate)
        (linesOf instrAt address (code.symbolAt (addresses.headD 0))
          (w.keepsAddress navigate) addresses)

/-- The lines that `Draw` finds a row for. -/
def shown : List Line := w.contents.take contentsDim

end DisasmWnd

-- ---------------------------------------------------------------------------
-- The keys
-- ---------------------------------------------------------------------------

inductive Key
  | left
  | right
  | up
  | down
  | pgUp
  | pgDn

namespace DisasmWnd

/-- `navigate` of the keyboard loop. Its differences are those of 32 bits. -/
def navigateOf (contentsDim : Nat) (w : DisasmWnd) : Key → Int
  | .left => navigatePreservePos
  | .right => navigatePreservePos
  | .up => -1
  | .down => 1
  | .pgUp => w.symNameLinesNum - contentsDim
  | .pgDn => contentsDim - w.symNameLinesNum

def pressed (code : Code) (contentsDim pc : Nat) (key : Key) (w : DisasmWnd) : DisasmWnd :=
  w.disasm code contentsDim pc (w.navigateOf contentsDim key)

end DisasmWnd

end BugChecker.Disasm
