import BugChecker.Cmd.Registers
import BugChecker.Kd.Scheduler
import BugChecker.Lib.Runs

/-!
# Register writes

`R` and the `WriteReg` of scripts store the value in the context of the
debugger first, and send that context to KD then. When KD refuses it, the
context keeps the value.
-/

namespace BugChecker.Cmd

open Step (Context Gpr low32)

def dbgKdSetContextApi : UInt32 := 0x3133

/-- The context in memory, and the last one that KD accepted. -/
structure View where
  context : Context
  accepted : Context

def View.Agrees (v : View) : Prop := v.context = v.accepted

/-- A place in the context, with its size, and a value for it. -/
structure Assignment where
  reg : Gpr
  sz : Nat
  val : UInt64
  deriving DecidableEq

def Assignment.store (a : Assignment) (ctx : Context) : Context := ctx.store a.reg a.sz a.val

def accepts (answer : Kd.ManipulateState) : Bool :=
  answer.apiNumber = dbgKdSetContextApi && Kd.ntSuccess answer.returnStatus

def View.setContext (v : View) (answer : Kd.ManipulateState) : View × Bool :=
  (if accepts answer then { v with accepted := v.context } else v, accepts answer)

section
variable (build : Build) (is32bitCompat : Bool)

/-- What `Cmd_R::Execute` is asked to store, or the message that it ends with before. -/
def rAssignment (cmd : Text) (evaluate : Text → Except String UInt64) (ctx : Context) :
    Except String Assignment :=
  match tokenizeVec cmd ["R".toList, "-v".toList] with
  | [_, name, option, value] =>
    if !areStringsEqualI option "-v".toList then .error "Syntax error."
    else
      match Step.zydisRegToCtxRegValuePtr build (stringToZydisReg name) with
      | none => .error "Invalid register name."
      | some (reg, sz) =>
        if build = .x64 ∧ is32bitCompat ∧ sz = 8 then
          .error "Unable to change 64-bit register in 32-bit mode."
        else do
          let val ← resolveArg build evaluate value ctx
          .ok ⟨reg, sz, val⟩
  | args => .error (if args.length < 4 then "Too few arguments." else "Too many arguments.")

/-- `Cmd_R::Execute`, and the message. -/
def r (cmd : Text) (evaluate : Text → Except String UInt64)
    (answer : Kd.ManipulateState) (v : View) :
    View × Option String :=
  match rAssignment build is32bitCompat cmd evaluate v.context with
  | .error e => (v, some e)
  | .ok a =>
    let (v, ok) := { v with context := a.store v.context }.setContext answer
    (v, if ok then none else some "Unable to set context.")

/-- What `WriteReg` is asked to store. -/
def writeRegAssignment (regName val : Text) : Option Assignment :=
  match Step.zydisRegToCtxRegValuePtr build (stringToZydisReg regName) with
  | none => none
  | some (reg, sz) =>
    if build = .x64 ∧ is32bitCompat ∧ sz = 8 then none
    else some ⟨reg, sz, .ofNat (Crt.strtoui64 val 10)⟩

/-- `WriteReg`, and what the script is told. -/
def writeReg (regName val : Text) (answer : Kd.ManipulateState) (v : View) : View × Bool :=
  match writeRegAssignment build is32bitCompat regName val with
  | none => (v, false)
  | some a => { v with context := a.store v.context }.setContext answer

/-- A script in the value of `R` comes first, with its own writes. -/
inductive RegWrite where
  | r (cmd : Text) (evaluate : Text → Except String UInt64) (answer : Kd.ManipulateState)
  | writeReg (regName val : Text) (answer : Kd.ManipulateState)

def View.next (v : View) : RegWrite → View
  | .r cmd evaluate answer => (r build is32bitCompat cmd evaluate answer v).1
  | .writeReg regName val answer => (writeReg build is32bitCompat regName val answer v).1

-- ---------------------------------------------------------------------------
-- What is written
-- ---------------------------------------------------------------------------

def RegWrite.answer : RegWrite → Kd.ManipulateState
  | .r _ _ answer => answer
  | .writeReg _ _ answer => answer

def RegWrite.assignment (ctx : Context) : RegWrite → Option Assignment
  | .r cmd evaluate _ => (rAssignment build is32bitCompat cmd evaluate ctx).toOption
  | .writeReg regName val _ => writeRegAssignment build is32bitCompat regName val

/-- The register has the value already. -/
def Assignment.Holds (a : Assignment) (ctx : Context) : Prop :=
  if a.sz = 8 then ctx.reg a.reg = a.val else low32 (ctx.reg a.reg) = low32 a.val

/-- KD accepts what is stored, or nothing else is stored than what is there. -/
def Harmless (v : View) (w : RegWrite) : Prop :=
  ∀ a, w.assignment build is32bitCompat v.context = some a →
    accepts w.answer = true ∨ a.Holds v.context

theorem next_eq (v : View) (w : RegWrite) :
    v.next build is32bitCompat w =
      match w.assignment build is32bitCompat v.context with
      | none => v
      | some a => ({ v with context := a.store v.context }.setContext w.answer).1 := by
  cases w with
  | r cmd evaluate answer =>
    rw [View.next, r, RegWrite.assignment]
    cases rAssignment build is32bitCompat cmd evaluate v.context with
    | error e => rfl
    | ok a => rfl
  | writeReg regName val answer =>
    rw [View.next, writeReg, RegWrite.assignment]
    cases writeRegAssignment build is32bitCompat regName val with
    | none => rfl
    | some a => rfl

theorem store_eq_iff (a : Assignment) (ctx : Context) : a.store ctx = ctx ↔ a.Holds ctx := by
  have hset : ∀ r val, ctx.set r val = ctx ↔ ctx.reg r = val := by
    intro r val
    constructor
    · intro h
      have hreg : (ctx.set r val).reg r = ctx.reg r := congrArg (·.reg r) h
      rw [← hreg]
      exact Function.update_self r val ctx.reg
    · rintro rfl
      rw [Context.set, Function.update_eq_self]
  unfold Assignment.store Context.store Assignment.Holds
  by_cases hsz : a.sz = 8
  · rw [if_pos hsz, if_pos hsz, hset]
  · rw [if_neg hsz, if_neg hsz, hset]
    grind

theorem next_agrees_iff (v : View) (w : RegWrite) (h : v.Agrees) :
    (v.next build is32bitCompat w).Agrees ↔ Harmless build is32bitCompat v w := by
  rw [next_eq]
  cases hw : w.assignment build is32bitCompat v.context with
  | none =>
    refine iff_of_true h fun a ha => ?_
    rw [hw] at ha
    cases ha
  | some a =>
    have hall : Harmless build is32bitCompat v w ↔ accepts w.answer = true ∨ a.Holds v.context := by
      unfold Harmless
      rw [hw]
      exact ⟨fun hall => hall a rfl, fun h b hb => Option.some.inj hb ▸ h⟩
    rw [hall]
    dsimp only [View.setContext]
    by_cases haccepts : accepts w.answer = true
    · rw [if_pos haccepts]
      exact iff_of_true rfl (.inl haccepts)
    · rw [if_neg haccepts, or_iff_right haccepts, ← store_eq_iff, View.Agrees]
      dsimp only
      rw [← h]

/-- What is in memory is what KD accepted, after each write, exactly if each write is harmless. -/
theorem agrees_iff {v : View} (h : v.Agrees) (ws : List RegWrite) :
    Runs.Each (View.next build is32bitCompat)
      (fun v w => (v.next build is32bitCompat w).Agrees) v ws ↔
      Runs.Each (View.next build is32bitCompat) (Harmless build is32bitCompat) v ws :=
  Runs.each_iff_of_invariant (next_agrees_iff build is32bitCompat) h ws

end

def View.zero : View := ⟨⟨fun _ => 0, 0⟩, ⟨fun _ => 0, 0⟩⟩

def setContextAnswer (returnStatus : UInt32) : Kd.ManipulateState :=
  { apiNumber := dbgKdSetContextApi, returnStatus := returnStatus }

def rWrite (cmd : String) (returnStatus : UInt32) : RegWrite :=
  .r cmd.toList (fun _ => .error "") (setContextAnswer returnStatus)

/-- A value that the register has already may be refused. -/
theorem agrees_eax :
    Runs.Each (View.next .x64 false) (fun v w => (v.next .x64 false w).Agrees) .zero
      [rWrite "R eax -v 5" 0, rWrite "R rax -v 5" 0xC0000001,
        .writeReg "rbx".toList "1".toList (setContextAnswer 0)] := by
  refine (agrees_iff .x64 false (show View.zero.Agrees from rfl) _).mpr
    ⟨fun _ _ => .inl (by decide), fun a ha => .inr ?_, fun _ _ => .inl (by decide), trivial⟩
  have hassign : (rWrite "R rax -v 5" 0xC0000001).assignment .x64 false
      (View.next .x64 false .zero (rWrite "R eax -v 5" 0)).context = some ⟨.rax, 8, 5⟩ := by
    decide +kernel
  obtain rfl := Option.some.inj (hassign.symm.trans ha)
  show (View.next .x64 false .zero (rWrite "R eax -v 5" 0)).context.reg .rax = 5
  decide +kernel

/-- A value that is refused is accepted with the next one. -/
theorem agrees_refused :
    ¬ Runs.Each (View.next .x64 false) (fun v w => (v.next .x64 false w).Agrees) .zero
        [rWrite "R rax -v 5" 0xC0000001, .writeReg "rbx".toList "1".toList (setContextAnswer 0)] ∧
      ([rWrite "R rax -v 5" 0xC0000001,
        .writeReg "rbx".toList "1".toList (setContextAnswer 0)].foldl
        (View.next .x64 false) .zero).accepted.reg .rax = 5 := by
  refine ⟨fun hall => ?_, by decide +kernel⟩
  have hcontext : (View.next .x64 false .zero (rWrite "R rax -v 5" 0xC0000001)).context.reg .rax =
      5 := by
    decide +kernel
  have haccepted : (View.next .x64 false .zero (rWrite "R rax -v 5" 0xC0000001)).accepted.reg .rax =
      0 := by
    decide +kernel
  rw [hall.1, haccepted] at hcontext
  cases hcontext

end BugChecker.Cmd
