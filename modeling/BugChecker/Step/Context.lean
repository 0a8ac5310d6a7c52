import Mathlib.Logic.Function.Basic

/-!
# Registers of a thread

The registers that the debugger shows and changes, as they are in the `CONTEXT`
of a state change. A 32-bit driver has a `CONTEXT` of 32-bit registers, and a
64-bit one also debugs threads that run 32-bit code.
-/

namespace BugChecker

/-- Whether the driver is a 32-bit or a 64-bit one. -/
inductive Build where
  | x86
  | x64
  deriving DecidableEq

def Build.pointerBits : Build → Nat
  | .x86 => 32
  | .x64 => 64

namespace Step

inductive Gpr where
  | rax | rbx | rcx | rdx | rsi | rdi | rsp | rbp
  | r8 | r9 | r10 | r11 | r12 | r13 | r14 | r15
  | rip
  deriving DecidableEq

structure Context where
  reg : Gpr → UInt64
  eFlags : UInt32

def low32 (v : UInt64) : UInt64 := v % 0x100000000

def low16 (v : UInt64) : UInt64 := v % 0x10000

def Context.get (build : Build) (ctx : Context) (r : Gpr) : UInt64 :=
  match build with
  | .x86 => low32 (ctx.reg r)
  | .x64 => ctx.reg r

def Context.pc (build : Build) (ctx : Context) : UInt64 := ctx.get build .rip

def Context.set (ctx : Context) (r : Gpr) (v : UInt64) : Context :=
  { ctx with reg := Function.update ctx.reg r v }

/-- A register of an operand: a 64-bit one, a 32-bit one, a 16-bit one, another one, or none. -/
inductive ZydisRegister where
  | q (r : Gpr)
  | d (r : Gpr)
  | w (r : Gpr)
  | other
  | none
  deriving DecidableEq

/-- The registers whose 32-bit names are known: `R8D` and the like are not. -/
def Gpr.hasD : Gpr → Bool
  | .rax | .rbx | .rcx | .rdx | .rsi | .rdi | .rsp | .rbp | .rip => true
  | _ => false

def zydisRegToCtxRegValuePtr (build : Build) : ZydisRegister → Option (Gpr × Nat)
  | .q r => if build = .x64 then some (r, 8) else Option.none
  | .d r => if r.hasD then some (r, 4) else Option.none
  | _ => Option.none

def Context.value (build : Build) (ctx : Context) (reg : ZydisRegister) : Option UInt64 :=
  (zydisRegToCtxRegValuePtr build reg).map fun (r, sz) =>
    if sz = 8 then ctx.reg r else low32 (ctx.reg r)

/-- Of a 64-bit register a 32-bit value replaces the low half only. -/
def Context.store (ctx : Context) (r : Gpr) (sz : Nat) (val : UInt64) : Context :=
  if sz = 8 then ctx.set r val
  else ctx.set r (ctx.reg r - low32 (ctx.reg r) + low32 val)

/-- A register is changed as `R` and `WriteReg` do. A 64-bit register of 32-bit code is not. -/
def Context.writeReg (build : Build) (is32bitCompat : Bool) (ctx : Context) (reg : ZydisRegister)
    (val : UInt64) : Context :=
  match zydisRegToCtxRegValuePtr build reg with
  | Option.none => ctx
  | some (r, sz) =>
    if build = .x64 ∧ is32bitCompat ∧ sz = 8 then ctx else ctx.store r sz val

end Step

end BugChecker
