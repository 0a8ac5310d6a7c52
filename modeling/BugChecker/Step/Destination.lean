import BugChecker.Modules.LoadedList
import BugChecker.Step.Context

/-!
# The destination of an instruction

`X86Step::CalculateStepDestination` works out where the instruction at the
program counter goes, and `Main::DisasmCurrInstr` reads the destination from
memory where it has to. How bytes are decoded is left to the decoder.
-/

namespace BugChecker.Step

open Modules (Snapshot)

-- ---------------------------------------------------------------------------
-- Decoded instructions
-- ---------------------------------------------------------------------------

/-- The conditions of the jumps that are not negated: `JB`, `JBE`, `JL` and so on. -/
inductive Cond where
  | b | be | l | le | o | p | s | z
  deriving DecidableEq

/-- The mnemonics that are looked at. `jcc true .be` is `JNBE`. -/
inductive Mnemonic where
  | ret | call | jmp
  | jcc (not : Bool) (cond : Cond)
  | jcxz | jecxz | jrcxz
  | loop | loope | loopne
  | int | sysenter | syscall
  | iret | iretd | iretq | sysexit | sysret
  | other
  deriving DecidableEq

inductive Segment where
  | cs | ds | es | ss | fs | gs
  deriving DecidableEq

structure MemOperand where
  isMem : Bool
  segment : Segment
  base : ZydisRegister
  index : ZydisRegister
  scale : UInt64
  disp : Option UInt64
  deriving DecidableEq

/-- An operand. Immediates and displacements are sign-extended. -/
inductive Operand where
  | immediate (s : UInt64)
  | register (reg : ZydisRegister)
  | memory (mem : MemOperand)
  | other
  deriving DecidableEq

structure Instr where
  mnemonic : Mnemonic
  length : UInt64
  branchNear : Bool
  addressWidth : Nat
  hasRep : Bool
  hasRepe : Bool
  hasRepne : Bool
  /-- The visible operands. -/
  ops : List Operand
  deriving DecidableEq

def Instr.op0 (i : Instr) : Operand := i.ops.headD .other

def Instr.zero : Instr :=
  { mnemonic := .other, length := 0, branchNear := false, addressWidth := 0, hasRep := false
    hasRepe := false, hasRepne := false, ops := [] }

-- ---------------------------------------------------------------------------
-- CalculateStepDestination
-- ---------------------------------------------------------------------------

inductive JumpInstrType where
  | none
  | notJumping
  | jumping
  deriving DecidableEq

def cpuFlagCF : UInt32 := 0x1
def cpuFlagPF : UInt32 := 0x4
def cpuFlagZF : UInt32 := 0x40
def cpuFlagSF : UInt32 := 0x80
def cpuFlagOF : UInt32 := 0x800

/-- `cpu_flags->tested` of a conditional jump. -/
def Cond.tested : Cond → UInt32
  | .b => cpuFlagCF
  | .be => cpuFlagCF ||| cpuFlagZF
  | .l => cpuFlagSF ||| cpuFlagOF
  | .le => cpuFlagZF ||| cpuFlagSF ||| cpuFlagOF
  | .o => cpuFlagOF
  | .p => cpuFlagPF
  | .s => cpuFlagSF
  | .z => cpuFlagZF

def Context.flag (ctx : Context) (mask : UInt32) : Bool := ctx.eFlags &&& mask ≠ 0

def jccJumps (ctx : Context) (not : Bool) (cond : Cond) : Bool :=
  match not, cond with
  | false, .be => ctx.flag cpuFlagCF || ctx.flag cpuFlagZF
  | false, .l => !ctx.flag cpuFlagSF != !ctx.flag cpuFlagOF
  | true, .l => !ctx.flag cpuFlagSF == !ctx.flag cpuFlagOF
  | false, .le => ctx.flag cpuFlagZF || (!ctx.flag cpuFlagSF != !ctx.flag cpuFlagOF)
  | true, .le => !ctx.flag cpuFlagZF && (!ctx.flag cpuFlagSF == !ctx.flag cpuFlagOF)
  | not, cond =>
    let c := ctx.eFlags &&& cond.tested
    (!not && c == cond.tested) || (not && c == 0)

def counter (build : Build) (ctx : Context) : Nat → UInt64
  | 16 => low16 (ctx.reg .rcx)
  | 32 => low32 (ctx.reg .rcx)
  | 64 => ctx.get build .rcx
  | _ => 1

/-- The address after the instruction. In a 32-bit driver the sum is a 32-bit one. -/
def nextAddr (build : Build) (ctx : Context) (i : Instr) : UInt64 :=
  match build with
  | .x86 => low32 (ctx.pc .x86 + i.length)
  | .x64 => ctx.pc .x64 + i.length

def relative (build : Build) (ctx : Context) (i : Instr) : UInt64 :=
  match i.op0 with
  | .immediate s => nextAddr build ctx i + s
  | _ => 0

def codePointer (build : Build) (is32bitCompat : Bool) (v : UInt64) : UInt64 :=
  if build = .x64 ∧ !is32bitCompat then v else low32 v

def codePointerSize (build : Build) (is32bitCompat : Bool) : Nat :=
  if build = .x64 ∧ !is32bitCompat then 8 else 4

/-- The address of a memory operand, zero if it is not known. -/
def effectiveAddress (build : Build) (ctx : Context) (i : Instr) (m : MemOperand) : UInt64 :=
  let base :=
    match ctx.value build m.base with
    | none => 0
    | some v => if m.base = .d .rip ∨ m.base = .q .rip then v + i.length else v
  let index := (ctx.value build m.index).getD 0 * m.scale
  base + index + m.disp.getD 0

/-- What is found out: an address, or where to read one. -/
structure Destination where
  imm : UInt64
  ptr : UInt64
  ptrSize : Nat
  deriving DecidableEq

def Destination.unknown : Destination := ⟨0, 0, 0⟩

def Destination.ofImm (imm : UInt64) : Destination := ⟨imm, 0, 0⟩

def callDestination (build : Build) (is32bitCompat : Bool) (ctx : Context) (i : Instr) :
    Destination :=
  match i.ops with
  | [.immediate _] => .ofImm (relative build ctx i)
  | [.register reg] => .ofImm ((ctx.value build reg).getD 0)
  | [.memory m] =>
    if m.isMem then
      match m.segment with
      | .cs | .ds | .es | .ss =>
        let v := effectiveAddress build ctx i m
        if v ≠ 0 then
          ⟨0, codePointer build is32bitCompat v, codePointerSize build is32bitCompat⟩
        else .unknown
      | .fs | .gs => .unknown
    else .unknown
  | _ => .unknown

/-- The `switch` over the mnemonics. It is `none` for what is no jump. -/
def jumpDestination (build : Build) (is32bitCompat : Bool) (ctx : Context) (i : Instr) :
    Option Destination :=
  let relativeIf jump := if jump then Destination.ofImm (relative build ctx i) else .unknown
  match i.mnemonic with
  | .ret =>
    if i.branchNear then
      some ⟨0, codePointer build is32bitCompat (ctx.get build .rsp),
        codePointerSize build is32bitCompat⟩
    else some .unknown
  | .call | .jmp => some (callDestination build is32bitCompat ctx i)
  | .jcc not cond => some (relativeIf (jccJumps ctx not cond))
  | .jcxz => some (relativeIf (counter build ctx 16 = 0))
  | .jecxz => some (relativeIf (counter build ctx 32 = 0))
  | .jrcxz => some (relativeIf (counter build ctx 64 = 0))
  | .loop => some (relativeIf (counter build ctx i.addressWidth ≠ 1))
  | .loope => some (relativeIf (counter build ctx i.addressWidth ≠ 1 ∧ ctx.flag cpuFlagZF))
  | .loopne => some (relativeIf (counter build ctx i.addressWidth ≠ 1 ∧ !ctx.flag cpuFlagZF))
  | _ => none

def calculateStepDestination (build : Build) (is32bitCompat : Bool) (ctx : Context) (i : Instr) :
    JumpInstrType × Destination :=
  let jump := jumpDestination build is32bitCompat ctx i
  let dest := jump.getD .unknown
  if dest = .unknown then
    (if jump.isSome then .notJumping else .none, .ofImm (nextAddr build ctx i))
  else (if jump.isSome then .jumping else .none, dest)

-- ---------------------------------------------------------------------------
-- DisasmCurrInstr
-- ---------------------------------------------------------------------------

inductive MachineMode where
  | long64
  | longCompat32
  | legacy32
  deriving DecidableEq

def machineMode (build : Build) (is32bitCompat : Bool) : MachineMode :=
  match build with
  | .x86 => .legacy32
  | .x64 => if is32bitCompat then .longCompat32 else .long64

/-- What the decoder leaves of the instruction at the start of some bytes, and whether it is one. -/
abbrev Decoder := MachineMode → List UInt8 → Instr × Bool

/-- `thisInstr` and `thisOps`, `jumpType` and `stepAddr`. -/
structure Current where
  thisInstr : Instr
  jumpType : JumpInstrType
  stepAddr : UInt64
  deriving DecidableEq

def Current.zero : Current := ⟨.zero, .none, 0⟩

def thisInstrMaxSize : Nat := 64

def resolve (build : Build) (is32bitCompat : Bool) (mem : Snapshot) (d : Destination) : UInt64 :=
  if d.imm ≠ 0 then d.imm
  else if d.ptr ≠ 0 ∧ d.ptrSize = codePointerSize build is32bitCompat then
    match mem.read d.ptr d.ptrSize with
    | none => 0
    | some bytes => UInt64.ofNat (Bytes.leNat bytes)
  else 0

def disasmCurrInstr (decode : Decoder) (build : Build) (is32bitCompat : Bool) (old : Current)
    (ctx : Context) (mem : Snapshot) : Current :=
  match mem.read (ctx.pc build) thisInstrMaxSize with
  | none => old
  | some bytes =>
    match decode (machineMode build is32bitCompat) bytes with
    | (i, false) => { old with thisInstr := i }
    | (i, true) =>
      let (jumpType, dest) := calculateStepDestination build is32bitCompat ctx i
      let stepAddr := resolve build is32bitCompat mem dest
      ⟨i, jumpType, if stepAddr = 0 then old.stepAddr else stepAddr⟩

/-- What is shown of the destination, and where `U DEST` goes. -/
def Current.jumpDest (c : Current) : UInt64 :=
  match c.jumpType with
  | .none => 0
  | .notJumping => -1
  | .jumping => c.stepAddr

end BugChecker.Step
