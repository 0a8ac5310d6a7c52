import BugChecker.Break.Stops
import Mathlib.Logic.Function.Basic

/-!
# The threads under the debugger

A thread has a program counter and a stack of return addresses: a CALL pushes
one, a RET pops one, and everything else goes where it likes. A thread with the
trace flag executes one instruction and reports; a thread that comes to a
breakpoint of KD's table, or to an INT3 of the program, reports before it
executes anything. The threads run in any order while the debugger waits.
-/

namespace BugChecker.Break

structure Program where
  instr : UInt64 → Instr
  int3 : UInt64 → Bool

/-- A return address, and when it was pushed. -/
structure Frame where
  returnAddr : UInt64
  time : Nat
  deriving DecidableEq

structure Thread where
  pc : UInt64
  stack : List Frame
  deriving DecidableEq

abbrev ThreadId := { t : UInt64 // t ≠ 0 }

/-- The system calls push what `isRet` has pop. -/
def isCall : Mnemonic → Bool
  | .call | .int | .sysenter | .syscall => true
  | _ => false

/-- One instruction, that goes to `next` unless it returns. At the bottom of the stack there is
nothing to return to. -/
def Thread.exec (program : Program) (time : Nat) (next : UInt64) (th : Thread) : Option Thread :=
  let i := program.instr th.pc
  if isCall i.mnemonic then some ⟨next, ⟨th.pc + i.length, time⟩ :: th.stack⟩
  else if isRet i.mnemonic then
    match th.stack with
    | [] => none
    | f :: rest => some ⟨f.returnAddr, rest⟩
  else some { th with pc := next }

theorem Thread.exec_cases {th : Thread} (h : th.exec program now next = some th') :
    (isCall (program.instr th.pc).mnemonic = true ∧
      th' = ⟨next, ⟨th.pc + (program.instr th.pc).length, now⟩ :: th.stack⟩) ∨
    (isRet (program.instr th.pc).mnemonic = true ∧
      ∃ f, th.stack = f :: th'.stack ∧ th'.pc = f.returnAddr) ∨
    (isCall (program.instr th.pc).mnemonic = false ∧ isRet (program.instr th.pc).mnemonic = false ∧
      th' = { th with pc := next }) := by
  rw [Thread.exec] at h
  split at h
  · next hcall => exact .inl ⟨hcall, (Option.some.inj h).symm⟩
  · next hcall =>
    split at h
    · next hret =>
      split at h
      · cases h
      · next f rest hstack =>
        obtain rfl := Option.some.inj h
        exact .inr (.inl ⟨hret, f, hstack, rfl⟩)
    · next hret =>
      exact .inr (.inr ⟨Bool.eq_false_iff.mpr hcall, Bool.eq_false_iff.mpr hret,
        (Option.some.inj h).symm⟩)

/-- What is at the bottom of the stack stays there, unless it is a RET that it is left with. -/
theorem Thread.exec_suffix {th : Thread} {stack : List Frame} (h : stack <:+ th.stack)
    (hexec : th.exec program now next = some th')
    (hdeep : isRet (program.instr th.pc).mnemonic = true → stack.length < th.stack.length) :
    stack <:+ th'.stack := by
  rcases Thread.exec_cases hexec with ⟨-, rfl⟩ | ⟨hret, f, hstack, -⟩ | ⟨-, -, rfl⟩
  · exact h.trans (List.suffix_cons _ _)
  · have hlt := hdeep hret
    rw [hstack] at h hlt
    rcases List.suffix_cons_iff.mp h with rfl | h
    · exact absurd hlt (Nat.lt_irrefl _)
    · exact h
  · exact h

/-- What a state change finds besides the thread and its program counter. -/
structure Info where
  processor : Nat
  numberProcessors : Nat
  eprocess : UInt64
  stepAddr : UInt64 → UInt64
  evalWhen : String → UInt64 → Option UInt64 × UInt64

def Program.stateChange (program : Program) (t : ThreadId) (exception : ExceptionKind) (pc : UInt64)
    (info : Info) : StateChange :=
  { thread := t.val, processor := info.processor, numberProcessors := info.numberProcessors
    exception := exception, int3 := program.int3 pc, pc := pc, eprocess := info.eprocess
    disasm := fun a => some ⟨program.instr a, info.stepAddr a⟩, evalWhen := info.evalWhen
    thread_ne_zero := t.property }

def StateChange.threadId (sc : StateChange) : ThreadId := ⟨sc.thread, sc.thread_ne_zero⟩

/-- What a step was asked to do: to come to the address behind a CALL, or to the end of the
activation, that had the stack. -/
inductive Goal where
  | over (t : ThreadId) (addr : UInt64) (stack : List Frame)
  | out (t : ThreadId) (stack : List Frame)
  deriving DecidableEq

structure World where
  dbg : State
  threads : ThreadId → Thread
  time : Nat
  goal : Option Goal

def World.start (pcs : ThreadId → UInt64) : World :=
  { dbg := State.start, threads := fun t => ⟨pcs t, []⟩, time := 0, goal := none }

inductive Event where
  | exec (t : ThreadId) (next : UInt64)
  | report (t : ThreadId) (exception : ExceptionKind) (next : UInt64) (info : Info)
  | proceed
  | command (c : Command)

namespace World

def move (w : World) (t : ThreadId) (th : Thread) : World :=
  { w with threads := Function.update w.threads t th, time := w.time + 1 }

@[simp] theorem move_dbg (w : World) (t : ThreadId) (th : Thread) : (w.move t th).dbg = w.dbg := rfl

@[simp] theorem move_goal (w : World) (t : ThreadId) (th : Thread) :
    (w.move t th).goal = w.goal := rfl

@[simp] theorem move_threads_self (w : World) (t : ThreadId) (th : Thread) :
    (w.move t th).threads t = th := Function.update_self ..

theorem move_threads_of_ne (w : World) (th : Thread) (h : t' ≠ t) :
    (w.move t th).threads t' = w.threads t' := Function.update_of_ne h ..

/-- The thread cannot execute the instruction it is at. -/
def Halts (program : Program) (w : World) (t : ThreadId) : Prop :=
  w.dbg.table.Active (w.threads t).pc ∨ program.int3 (w.threads t).pc = true

instance (program : Program) (w : World) (t : ThreadId) : Decidable (w.Halts program t) :=
  inferInstanceAs (Decidable (_ ∨ _))

def arrives (program : Program) (w : World) (t : ThreadId) (next : UInt64) :
    ExceptionKind → Option Thread
  | .singleStep =>
    if t.val ∈ w.dbg.stepping ∧ ¬ w.Halts program t then (w.threads t).exec program w.time next
    else none
  | .breakpoint => if w.Halts program t then some (w.threads t) else none
  | .other => some (w.threads t)

/-- `P` at a CALL and `P RET` set a goal. -/
def asked (program : Program) (w : World) (t : ThreadId) (pc : UInt64) : Command → Option Goal
  | .p =>
    if (program.instr pc).mnemonic = .call then
      some (.over t (pc + (program.instr pc).length) (w.threads t).stack)
    else none
  | .pRet => some (.out t (w.threads t).stack)
  | _ => none

/-- `R` changes the program counter of the thread. -/
def commanded (w : World) (t : ThreadId) : Command → World
  | .r pc => { w with threads := Function.update w.threads t { w.threads t with pc := pc } }
  | _ => w

theorem commanded_stack (w : World) (t : ThreadId) (c : Command) (t' : ThreadId) :
    ((w.commanded t c).threads t').stack = (w.threads t').stack := by
  cases c with
  | r pc =>
    by_cases ht : t' = t
    · subst ht
      simp [commanded]
    · simp [commanded, Function.update_of_ne ht]
  | _ => rfl

/-- The thread reports, and goes on from where the debugger leaves it. -/
def reported (deleteAddr : UInt64) (w : World) (t : ThreadId) (th : Thread) (sc : StateChange) :
    World :=
  w.move t { th with pc := (w.dbg.visited deleteAddr sc).2.pc }

def advance (kd : Kd) (deleteAddr : UInt64) (program : Program) (w : World) : Event → Option World
  | .exec t next =>
    match w.dbg.phase with
    | .running =>
      if t.val ∈ w.dbg.stepping ∨ w.Halts program t then none
      else ((w.threads t).exec program w.time next).map (w.move t)
    | _ => none
  | .report t exception next info =>
    (w.arrives program t next exception).bind fun th =>
      let sc := program.stateChange t exception th.pc info
      (step kd deleteAddr w.dbg (.report sc)).map fun dbg =>
        { w.reported deleteAddr t th sc with dbg := dbg }
  | .proceed =>
    (step kd deleteAddr w.dbg .proceed).map fun dbg =>
      { w with dbg := dbg, goal := if dbg.phase.isSession then none else w.goal }
  | .command c =>
    match w.dbg.phase with
    | .session sc pc _ =>
      (step kd deleteAddr w.dbg (.command c)).map fun dbg =>
        { w.commanded sc.threadId c with dbg := dbg, goal := w.asked program sc.threadId pc c }
    | _ => none

-- ---------------------------------------------------------------------------
-- What an event can do
-- ---------------------------------------------------------------------------

theorem advance_cases (h : advance kd deleteAddr program w e = some w') :
    (∃ t next th, e = .exec t next ∧ w.dbg.phase = .running ∧ t.val ∉ w.dbg.stepping ∧
      (w.threads t).exec program w.time next = some th ∧ w' = w.move t th) ∨
    (∃ t exception next info th, e = .report t exception next info ∧ w.dbg.phase = .running ∧
      w.arrives program t next exception = some th ∧
      w' = { w.reported deleteAddr t th (program.stateChange t exception th.pc info) with
        dbg := examine kd deleteAddr w.dbg (program.stateChange t exception th.pc info) }) ∨
    (∃ sc breakIn pc thisInstr, e = .proceed ∧ w.dbg.phase = .examined sc breakIn pc thisInstr ∧
      w' = { w with
        dbg := Break.proceed kd w.dbg sc breakIn pc thisInstr
        goal := if breakIn then none else w.goal }) ∨
    (∃ c sc pc thisInstr, e = .command c ∧ w.dbg.phase = .session sc pc thisInstr ∧
      w' = { w.commanded sc.threadId c with
        dbg := execute kd w.dbg sc pc thisInstr c
        goal := w.asked program sc.threadId pc c }) := by
  cases e with
  | exec t next =>
    cases hp : w.dbg.phase with
    | running =>
      simp only [advance, hp] at h
      split at h
      · cases h
      · next hfree =>
        obtain ⟨th, hth, rfl⟩ := Option.map_eq_some_iff.mp h
        exact .inl ⟨t, next, th, rfl, rfl, fun hmem => hfree (.inl hmem), hth, rfl⟩
    | examined sc breakIn pc thisInstr => simp [advance, hp] at h
    | session sc pc thisInstr => simp [advance, hp] at h
  | report t exception next info =>
    obtain ⟨th, hth, h⟩ := Option.bind_eq_some_iff.mp h
    obtain ⟨dbg, hdbg, rfl⟩ := Option.map_eq_some_iff.mp h
    rcases step_cases hdbg with ⟨sc, hi, hp, rfl⟩ | ⟨_, _, _, _, hi, -⟩ | ⟨_, _, _, _, hi, -⟩
    · cases hi
      exact .inr (.inl ⟨t, exception, next, info, th, rfl, hp, hth, rfl⟩)
    · cases hi
    · cases hi
  | proceed =>
    obtain ⟨dbg, hdbg, rfl⟩ := Option.map_eq_some_iff.mp h
    rcases step_cases hdbg with ⟨_, hi, -⟩ | ⟨sc, breakIn, pc, thisInstr, -, hp, rfl⟩ |
      ⟨_, _, _, _, hi, -⟩
    · cases hi
    · refine .inr (.inr (.inl ⟨sc, breakIn, pc, thisInstr, rfl, hp, ?_⟩))
      cases breakIn with
      | true => rfl
      | false => rfl
    · cases hi
  | command c =>
    cases hp : w.dbg.phase with
    | running => simp [advance, hp] at h
    | examined sc breakIn pc thisInstr => simp [advance, hp] at h
    | session sc pc thisInstr =>
      simp only [advance, hp] at h
      obtain ⟨dbg, hdbg, rfl⟩ := Option.map_eq_some_iff.mp h
      rcases step_cases hdbg with ⟨_, hi, -⟩ | ⟨_, _, _, _, hi, -⟩ | ⟨_, sc', pc', i', hi, hp', rfl⟩
      · cases hi
      · cases hi
      · cases hi
        rw [hp] at hp'
        cases hp'
        exact .inr (.inr (.inr ⟨c, sc, pc, thisInstr, rfl, rfl, rfl⟩))

theorem arrives_cases {w : World} (h : w.arrives program t next exception = some th) :
    (exception = .singleStep ∧ t.val ∈ w.dbg.stepping ∧
      (w.threads t).exec program w.time next = some th) ∨
    (exception ≠ .singleStep ∧ th = w.threads t) := by
  cases exception with
  | singleStep =>
    simp only [arrives] at h
    split at h
    · next hstep => exact .inl ⟨rfl, hstep.1, h⟩
    · cases h
  | breakpoint =>
    simp only [arrives] at h
    split at h
    · exact .inr ⟨fun h => (by cases h), (Option.some.inj h).symm⟩
    · cases h
  | other => exact .inr ⟨fun h => (by cases h), (Option.some.inj h).symm⟩

theorem advance_dbg (h : advance kd deleteAddr program w e = some w') :
    w'.dbg = w.dbg ∨ ∃ i, step kd deleteAddr w.dbg i = some w'.dbg := by
  rcases advance_cases h with ⟨t, next, th, -, -, -, -, rfl⟩ |
    ⟨t, exception, next, info, th, -, hp, -, rfl⟩ | ⟨sc, breakIn, pc, thisInstr, -, hp, rfl⟩ |
    ⟨c, sc, pc, thisInstr, -, hp, rfl⟩
  · exact .inl rfl
  · exact .inr ⟨.report (program.stateChange t exception th.pc info), by simp [step, hp]⟩
  · exact .inr ⟨.proceed, by simp [step, hp]⟩
  · exact .inr ⟨.command c, by simp [step, hp]⟩

/-- What the debugger goes through beside the threads is one of its own runs. -/
theorem reachable_dbg (h : Runs.Reachable (advance kd deleteAddr program) ok (start pcs) w) :
    Runs.Reachable (step kd deleteAddr) (fun _ _ => True) State.start w.dbg := by
  refine h.invariant
    (P := fun w => Runs.Reachable (step kd deleteAddr) (fun _ _ => True) State.start w.dbg) .init ?_
  intro w e w' hw _ hstep
  rcases advance_dbg hstep with heq | ⟨i, hi⟩
  · rw [heq]
    exact hw
  · exact .step hw trivial hi

-- ---------------------------------------------------------------------------
-- The frames
-- ---------------------------------------------------------------------------

theorem exec_frames {th : Thread} {now : Nat} (h : th.exec program now next = some th') :
    ∀ f ∈ th'.stack, f ∈ th.stack ∨ f.time = now := by
  intro f hf
  rcases Thread.exec_cases h with ⟨-, rfl⟩ | ⟨-, g, hstack, -⟩ | ⟨-, -, rfl⟩
  · rcases List.mem_cons.mp hf with rfl | hf
    · exact .inr rfl
    · exact .inl hf
  · rw [hstack]
    exact .inl (List.mem_cons_of_mem _ hf)
  · exact .inl hf

theorem arrives_frames {w : World} (h : w.arrives program t next exception = some th) :
    ∀ f ∈ th.stack, f ∈ (w.threads t).stack ∨ f.time = w.time := by
  rcases arrives_cases h with ⟨-, -, hexec⟩ | ⟨-, rfl⟩
  · exact exec_frames hexec
  · exact fun f hf => .inl hf

/-- Every frame was pushed before, so that a CALL pushes one that was never there: equal stacks are
those of one activation. -/
def FramesPast (w : World) : Prop := ∀ t, ∀ f ∈ (w.threads t).stack, f.time < w.time

theorem move_framesPast {w : World} (h : w.FramesPast)
    (hth : ∀ f ∈ th.stack, f ∈ (w.threads t).stack ∨ f.time = w.time) :
      (w.move t th).FramesPast := by
  intro t' f hf
  by_cases ht : t' = t
  · subst ht
    rw [move_threads_self] at hf
    rcases hth f hf with hmem | heq
    · exact Nat.lt_succ_of_lt (h t' f hmem)
    · exact heq ▸ Nat.lt_succ_self _
  · rw [move_threads_of_ne w th ht] at hf
    exact Nat.lt_succ_of_lt (h t' f hf)

theorem reachable_framesPast (h : Runs.Reachable (advance kd deleteAddr program) ok (start pcs) w) :
    w.FramesPast := by
  refine h.invariant (fun t f hf => by cases hf) fun w e w' hw _ hstep => ?_
  rcases advance_cases hstep with ⟨t, next, th, -, -, -, hth, rfl⟩ |
    ⟨t, exception, next, info, th, -, -, hth, rfl⟩ | ⟨sc, breakIn, pc, thisInstr, -, -, rfl⟩ |
    ⟨c, sc, pc, thisInstr, -, -, rfl⟩
  · exact move_framesPast hw (exec_frames hth)
  · have hframes := arrives_frames hth
    exact move_framesPast hw hframes
  · exact hw
  · intro t f hf
    rw [commanded_stack w sc.threadId c t] at hf
    have htime : (w.commanded sc.threadId c).time = w.time := by
      cases c with
      | _ => rfl
    exact htime ▸ hw t f hf

end World

end BugChecker.Break
