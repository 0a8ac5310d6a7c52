import BugChecker.Break.Table
import BugChecker.Lib.Runs

/-!
# Breaking in

The state of the debugger that decides where it breaks in, and what a state
change and the commands of a session do to it. A state change is examined
first; then the machine is resumed, or a session begins that a command ends.
KD's table is part of the state, and so is which threads run with the trace
flag: those it was set for when they were resumed and that did not report
since.
-/

namespace BugChecker.Break

structure BreakPoint where
  address : UInt64
  handle : Nat
  eprocess : UInt64
  ethread : UInt64
  when : String
  skip : Bool
  isStepBp : Bool
  deriving DecidableEq

structure BpTrace where
  addr : UInt64
  nextAddr : UInt64
  deriving DecidableEq

/-- The mnemonics that stepping looks at. -/
inductive Mnemonic where
  | call | int | sysenter | syscall | loop | loope | loopne
  | ret | iret | iretd | iretq | sysexit | sysret
  | other
  deriving DecidableEq

structure Instr where
  mnemonic : Mnemonic
  hasRep : Bool
  hasRepe : Bool
  hasRepne : Bool
  length : UInt64
  deriving DecidableEq

/-- An instruction and the destination computed for it, zero if there is none. -/
structure Decoded where
  instr : Instr
  stepAddr : UInt64
  deriving DecidableEq

def Decoded.none : Decoded := ⟨⟨.other, false, false, false, 0⟩, 0⟩

inductive ExceptionKind where
  | breakpoint
  | singleStep
  | other
  deriving DecidableEq

/-- A state change, with what the debugger finds out about the thread while it handles it: the
instructions at an address, the current process, and the value of a condition together with the
program counter that its script leaves. -/
structure StateChange where
  thread : UInt64
  processor : Nat
  numberProcessors : Nat
  exception : ExceptionKind
  int3 : Bool
  pc : UInt64
  eprocess : UInt64
  disasm : UInt64 → Option Decoded
  evalWhen : String → UInt64 → Option UInt64 × UInt64
  thread_ne_zero : thread ≠ 0

inductive Phase where
  | running
  | examined (sc : StateChange) (breakIn : Bool) (pc : UInt64) (thisInstr : Instr)
  | session (sc : StateChange) (pc : UInt64) (thisInstr : Instr)

structure State where
  breakPoints : List BreakPoint
  bpTraces : List (UInt64 × BpTrace)
  trace : Bool
  stepOutThread : UInt64
  bpHitIndex : Option Nat
  table : Table
  stepping : List UInt64
  phase : Phase

def State.start : State :=
  { breakPoints := [], bpTraces := [], trace := false, stepOutThread := 0, bpHitIndex := none,
    table := [], stepping := [], phase := .running }

-- ---------------------------------------------------------------------------
-- BpTrace::Get
-- ---------------------------------------------------------------------------

def resize (xs : List α) (n : Nat) (fill : α) : List α :=
  xs.take n ++ List.replicate (n - xs.length) fill

def StateChange.processors (sc : StateChange) : Nat := max (sc.processor + 1) sc.numberProcessors

def StateChange.tracesDim (sc : StateChange) : Nat := 3 * sc.processors

/-- `BpTrace::Get` moves the entry of the thread to the front, where the reference points. -/
def bpTraceGet (sc : StateChange) (ts : List (UInt64 × BpTrace)) : List (UInt64 × BpTrace) :=
  match ts.findIdx? (·.1 == sc.thread) with
  | none => resize ((sc.thread, ⟨0, 0⟩) :: ts) sc.tracesDim (0, ⟨0, 0⟩)
  | some i => ts.getD i (0, ⟨0, 0⟩) :: ts.eraseIdx i

def currentTrace : List (UInt64 × BpTrace) → BpTrace
  | [] => ⟨0, 0⟩
  | e :: _ => e.2

def setCurrentTrace (b : BpTrace) : List (UInt64 × BpTrace) → List (UInt64 × BpTrace)
  | [] => []
  | e :: ts => (e.1, b) :: ts

/-- `BpTrace::Get().nextAddr = next`. -/
def setNextAddr (sc : StateChange) (next : UInt64) (ts : List (UInt64 × BpTrace)) :
    List (UInt64 × BpTrace) :=
  let ts := bpTraceGet sc ts
  setCurrentTrace { currentTrace ts with nextAddr := next } ts

-- ---------------------------------------------------------------------------
-- The step breakpoint
-- ---------------------------------------------------------------------------

section
variable (kd : Kd)

/-- The step breakpoints are taken out from the last to the first. -/
def removeStepBps (t : Table) : List BreakPoint → Table × List BreakPoint
  | [] => (t, [])
  | bp :: bps =>
    let (t, bps) := removeStepBps t bps
    if bp.isStepBp then (if bp.handle ≠ 0 then t.restore bp.handle else t, bps)
    else (t, bp :: bps)

def stepBp (thread addr : UInt64) (handle : Nat) : BreakPoint :=
  { address := addr, handle := handle, eprocess := 0, ethread := thread, when := "", skip := false,
    isStepBp := true }

def setStepBp (s : State) (thread addr : UInt64) : State :=
  let (table, bps) := removeStepBps s.table s.breakPoints
  let s := { s with table := table, breakPoints := bps }
  if addr = 0 then s
  else
    match s.table.write kd addr with
    | none => { s with trace := false, breakPoints := stepBp thread addr 0 :: s.breakPoints }
    | some (handle, table) =>
      { s with
        trace := false, table := table
        breakPoints := stepBp thread addr handle :: s.breakPoints }

def isRet : Mnemonic → Bool
  | .ret | .iret | .iretd | .iretq | .sysexit | .sysret => true
  | _ => false

/-- Whether `StepOver` steps over the instruction with a breakpoint. -/
def stepsWithBp (i : Instr) : Bool :=
  match i.mnemonic with
  | .call | .int | .sysenter | .syscall | .loop | .loope | .loopne => true
  | _ => i.hasRep || i.hasRepe || i.hasRepne

def stepOver (s : State) (sc : StateChange) (pc : UInt64) (thisInstr : Instr) : State :=
  if stepsWithBp thisInstr then setStepBp kd s sc.thread (pc + thisInstr.length)
  else { s with trace := true, bpTraces := setNextAddr sc 0 s.bpTraces }

-- ---------------------------------------------------------------------------
-- Examining a state change
-- ---------------------------------------------------------------------------

/-- `DisasmCurrInstr` leaves what it cannot find out as it was. -/
def disasmCurrInstr (sc : StateChange) (old : Decoded) (pc : UInt64) : Decoded :=
  match sc.disasm pc with
  | none => old
  | some d => ⟨d.instr, if d.stepAddr = 0 then old.stepAddr else d.stepAddr⟩

/-- What the loop over the breakpoints keeps up to date. -/
structure Visit where
  breakIn : Bool
  pcBpProcessed : Bool
  trace : Bool
  bpTrace : BpTrace
  pc : UInt64
  decoded : Decoded
  bpHitIndex : Option Nat

def windowed (prevBpTraceAddr currPc : UInt64) (bp : BreakPoint) : Bool :=
  bp.address == prevBpTraceAddr || (bp.address > currPc - 64 && bp.address < currPc + 64)

def threadMatches (sc : StateChange) (bp : BreakPoint) : Bool :=
  if bp.skip then false
  else if bp.ethread ≠ 0 then bp.ethread == sc.thread
  else if bp.eprocess ≠ 0 then bp.eprocess == sc.eprocess
  else true

/-- The `WHEN` expression of a breakpoint that would break in otherwise. A script that moves the
program counter has the instruction there disassembled. -/
def evalWhen (sc : StateChange) (currPc : UInt64) (bp : BreakPoint) (v : Visit) : Visit :=
  if v.breakIn && bp.when ≠ "" then
    let (value, pc) := sc.evalWhen bp.when v.pc
    let v := { v with breakIn := value ≠ some 0, pc := pc }
    if currPc ≠ pc then
      let decoded := disasmCurrInstr sc v.decoded pc
      { v with decoded := decoded, bpTrace := { v.bpTrace with nextAddr := decoded.stepAddr } }
    else v
  else v

def checkConditions (sc : StateChange) (stepOutThread currPc : UInt64) (index : Nat)
    (bp : BreakPoint) (v : Visit) : Visit :=
  let v := evalWhen sc currPc bp { v with breakIn := threadMatches sc bp }
  let v := if v.breakIn && bp.isStepBp && stepOutThread ≠ 0 then { v with breakIn := false } else v
  if v.breakIn && !bp.isStepBp then { v with bpHitIndex := some index } else v

/-- One turn of the loop: what became of the breakpoint, and whether it is to be recreated. -/
def visitBp (sc : StateChange) (stepOutThread prevBpTraceAddr currPc : UInt64) (index : Nat)
    (bp : BreakPoint) (v : Visit) : (BreakPoint × Bool) × Visit :=
  if windowed prevBpTraceAddr currPc bp then
    if bp.address = currPc then
      let zeroed := { bp with handle := 0 }
      if v.pcBpProcessed then ((zeroed, false), v)
      else
        let v := { v with
          pcBpProcessed := true, trace := true, bpTrace := ⟨currPc, v.decoded.stepAddr⟩ }
        ((zeroed, false),
          if v.breakIn then v else checkConditions sc stepOutThread currPc index zeroed v)
    else ((bp, true), v)
  else ((bp, false), v)

def visitBps (sc : StateChange) (stepOutThread prevBpTraceAddr currPc : UInt64) (index : Nat) :
    List BreakPoint → Visit → List (BreakPoint × Bool) × Visit
  | [], v => ([], v)
  | bp :: bps, v =>
    let (out, v) := visitBp sc stepOutThread prevBpTraceAddr currPc index bp v
    let (outs, v) := visitBps sc stepOutThread prevBpTraceAddr currPc (index + 1) bps v
    (out :: outs, v)

/-- The breakpoints are recreated from the last to the first. One that cannot be written keeps its
handle. -/
def recreate (t : Table) : List (BreakPoint × Bool) → Table × List BreakPoint
  | [] => (t, [])
  | (bp, wanted) :: rest =>
    let (t, bps) := recreate t rest
    if wanted then
      match t.write kd bp.address with
      | none => (t, bp :: bps)
      | some (handle, t) => (t, { bp with handle := handle } :: bps)
    else (t, bp :: bps)

def restoreAll (t : Table) : List BreakPoint → Table
  | [] => t
  | bp :: bps => restoreAll (if bp.handle ≠ 0 then t.restore bp.handle else t) bps

/-- The address of the INT3 that asks for all breakpoints to be deleted. -/
def deletesAll (deleteAddr : UInt64) (sc : StateChange) : Bool :=
  sc.exception == .breakpoint && sc.pc == deleteAddr

def skipsInt3 (sc : StateChange) : Bool := sc.exception == .breakpoint && sc.int3

def StateChange.currPc (sc : StateChange) : UInt64 := if skipsInt3 sc then sc.pc + 1 else sc.pc

/-- A single step is the debugger's own when it arrives where one was expected. -/
def expectedStep (sc : StateChange) (s : State) : Bool :=
  sc.exception == .singleStep && (currentTrace (bpTraceGet sc s.bpTraces)).nextAddr == sc.pc

def initialBreakIn (deleteAddr : UInt64) (sc : StateChange) (s : State) : Bool :=
  match sc.exception with
  | .breakpoint => sc.int3 && !deletesAll deleteAddr sc
  | .singleStep => !expectedStep sc s && s.stepOutThread == 0
  | .other => false

def State.bpsAt (s : State) (deleteAddr : UInt64) (sc : StateChange) : List BreakPoint :=
  if deletesAll deleteAddr sc then [] else s.breakPoints

def State.tableAt (s : State) (deleteAddr : UInt64) (sc : StateChange) : Table :=
  if deletesAll deleteAddr sc then restoreAll (s.table.stateChange sc.pc) s.breakPoints
  else s.table.stateChange sc.pc

def State.tracesAt (s : State) (sc : StateChange) : List (UInt64 × BpTrace) :=
  bpTraceGet sc (if expectedStep sc s then setNextAddr sc 0 s.bpTraces else s.bpTraces)

def State.prevBpTraceAddr (s : State) (sc : StateChange) : UInt64 :=
  (currentTrace (s.tracesAt sc)).addr

def State.visitAt (s : State) (deleteAddr : UInt64) (sc : StateChange) : Visit :=
  { breakIn := initialBreakIn deleteAddr sc s, pcBpProcessed := false, trace := s.trace
    bpTrace := { currentTrace (s.tracesAt sc) with addr := 0 }, pc := sc.currPc
    decoded := disasmCurrInstr sc Decoded.none sc.currPc, bpHitIndex := none }

def State.visited (s : State) (deleteAddr : UInt64) (sc : StateChange) :
    List (BreakPoint × Bool) × Visit :=
  visitBps sc s.stepOutThread (s.prevBpTraceAddr sc) sc.currPc 0 (s.bpsAt deleteAddr sc)
    (s.visitAt deleteAddr sc)

def examine (deleteAddr : UInt64) (s : State) (sc : StateChange) : State :=
  let (out, v) := s.visited deleteAddr sc
  let (table, bps) := recreate kd (s.tableAt deleteAddr sc) out
  { s with
    breakPoints := bps, table := table, trace := v.trace, bpHitIndex := v.bpHitIndex
    bpTraces := setCurrentTrace v.bpTrace (s.tracesAt sc)
    stepping := s.stepping.filter (· ≠ sc.thread)
    phase := .examined sc v.breakIn v.pc v.decoded.instr }

-- ---------------------------------------------------------------------------
-- Resuming, or a session
-- ---------------------------------------------------------------------------

def resume (s : State) (thread : UInt64) : State :=
  { s with
    stepping := if s.trace then thread :: s.stepping else s.stepping
    trace := false, phase := .running }

def stepOut (s : State) (sc : StateChange) (pc : UInt64) (thisInstr : Instr) : State :=
  if s.stepOutThread ≠ 0 ∧ s.stepOutThread = sc.thread then
    let s := stepOver kd s sc pc thisInstr
    if isRet thisInstr.mnemonic then { s with stepOutThread := 0 } else s
  else s

def proceed (s : State) (sc : StateChange) (breakIn : Bool) (pc : UInt64) (thisInstr : Instr) :
    State :=
  if breakIn then
    { setStepBp kd s sc.thread 0 with stepOutThread := 0, phase := .session sc pc thisInstr }
  else resume (stepOut kd s sc pc thisInstr) sc.thread

/-- `BC`, `BD` and `BE` take a list of indexes or a star. -/
inductive Indexes where
  | all
  | list (nums : List Nat)

def parseListOfDecsArgs (size : Nat) : Indexes → List Nat
  | .all => List.range size
  | .list nums => if ∀ n ∈ nums, n < size then nums else []

def clearBps (t : Table) (bps : List BreakPoint) : List Nat → Table × List BreakPoint
  | [] => (t, bps)
  | n :: nums =>
    match bps[n]? with
    | none => (t, bps)
    | some bp => clearBps (if bp.handle ≠ 0 then t.restore bp.handle else t) (bps.eraseIdx n) nums

def setSkip (skip : Bool) (bps : List BreakPoint) (nums : List Nat) : List BreakPoint :=
  nums.foldl (fun bps n => bps.modify n fun bp => { bp with skip := skip }) bps

inductive Command where
  | bpx (address eprocess ethread : UInt64) (when : String) (readable : Bool)
  | bc (nums : Indexes)
  | bd (nums : Indexes)
  | be (nums : Indexes)
  | r (pc : UInt64)
  | p
  | pRet
  | t
  | x

def userBp (address eprocess ethread : UInt64) (when : String) (handle : Nat) : BreakPoint :=
  { address := address, handle := handle, eprocess := eprocess, ethread := ethread, when := when,
    skip := false, isStepBp := false }

def bpx (s : State) (address eprocess ethread : UInt64) (when : String) (readable : Bool) : State :=
  if (eprocess ≠ 0 ∧ ethread ≠ 0) ∨ (∃ bp ∈ s.breakPoints, bp.address = address) ∨ !readable then s
  else
    match s.table.write kd address with
    | none => s
    | some (handle, table) =>
      { s with
        table := table
        breakPoints := s.breakPoints ++ [userBp address eprocess ethread when handle] }

def execute (s : State) (sc : StateChange) (pc : UInt64) (thisInstr : Instr) : Command → State
  | .bpx address eprocess ethread when readable => bpx kd s address eprocess ethread when readable
  | .bc nums =>
    let (table, bps) := clearBps s.table s.breakPoints
      ((parseListOfDecsArgs s.breakPoints.length nums).mergeSort (· ≥ ·))
    { s with table := table, breakPoints := bps }
  | .bd nums => { s with
      breakPoints := setSkip true s.breakPoints (parseListOfDecsArgs s.breakPoints.length nums) }
  | .be nums => { s with
      breakPoints := setSkip false s.breakPoints (parseListOfDecsArgs s.breakPoints.length nums) }
  | .r pc => { s with phase := .session sc pc thisInstr }
  | .p => resume (stepOver kd s sc pc thisInstr) sc.thread
  | .pRet =>
    let s := stepOver kd s sc pc thisInstr
    resume (if isRet thisInstr.mnemonic then s else { s with stepOutThread := sc.thread }) sc.thread
  | .t => resume { s with trace := true, bpTraces := setNextAddr sc 0 s.bpTraces } sc.thread
  | .x => resume s sc.thread

inductive Input where
  | report (sc : StateChange)
  | proceed
  | command (c : Command)

def step (deleteAddr : UInt64) (s : State) : Input → Option State
  | .report sc =>
    match s.phase with
    | .running => some (examine kd deleteAddr s sc)
    | _ => none
  | .proceed =>
    match s.phase with
    | .examined sc breakIn pc thisInstr => some (proceed kd s sc breakIn pc thisInstr)
    | _ => none
  | .command c =>
    match s.phase with
    | .session sc pc thisInstr => some (execute kd s sc pc thisInstr c)
    | _ => none

end

-- ---------------------------------------------------------------------------
-- State changes for examples
-- ---------------------------------------------------------------------------

def stateChangeAt (thread : UInt64) (exception : ExceptionKind) (int3 : Bool) (pc : UInt64)
    (instr : Instr) (stepAddr : UInt64) (hthread : thread ≠ 0) : StateChange :=
  { thread := thread, processor := 0, numberProcessors := 1, exception := exception, int3 := int3
    pc := pc, eprocess := 0, disasm := fun _ => some ⟨instr, stepAddr⟩
    evalWhen := fun _ pc => (none, pc), thread_ne_zero := hthread }

theorem thread1_ne_zero : (1 : UInt64) ≠ 0 := by decide

theorem thread2_ne_zero : (2 : UInt64) ≠ 0 := by decide

theorem thread3_ne_zero : (3 : UInt64) ≠ 0 := by decide

def callInstr : Instr := ⟨.call, false, false, false, 5⟩

def nopInstr : Instr := ⟨.other, false, false, false, 1⟩

end BugChecker.Break
