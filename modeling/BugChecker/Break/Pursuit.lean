import BugChecker.Break.Frames

/-!
# Keeping to the frame

From the command to the break, the step breakpoint is the one that was asked
for, and its thread is at the CALL or in what it called. The thread that steps
out is in the activation or in a deeper one, or at its RET, which it executes
with the trace flag and nothing expected.
-/

namespace BugChecker.Break

-- ---------------------------------------------------------------------------
-- What the step breakpoints are for
-- ---------------------------------------------------------------------------

/-- The threads and the addresses of the step breakpoints. -/
def StepBpsFor (P : UInt64 → UInt64 → Prop) (bps : List BreakPoint) : Prop :=
  ∀ bp ∈ bps, bp.isStepBp = true → P bp.ethread bp.address

variable {P : UInt64 → UInt64 → Prop}

theorem stepBpsFor_of_users (h : ∀ bp ∈ bps, bp.isStepBp = false) : StepBpsFor P bps := by
  intro bp hbp hstep
  simp [h bp hbp] at hstep

theorem stepBpsFor_cons (hstep : P thread addr) :
    StepBpsFor P (stepBp thread addr handle :: users bps) := by
  intro bp hbp hbpStep
  rcases List.mem_cons.mp hbp with rfl | hbp
  · exact hstep
  · simp [(mem_users.mp hbp).2] at hbpStep

theorem StepBpsFor.imp {Q : UInt64 → UInt64 → Prop} (h : StepBpsFor P bps)
    (himp : ∀ thread addr, P thread addr → Q thread addr) : StepBpsFor Q bps :=
  fun bp hbp hstep => himp _ _ (h bp hbp hstep)

theorem examine_stepBpsFor
    (h : deletesAll deleteAddr sc = false → StepBpsFor P s.breakPoints) :
    StepBpsFor P (examine kd deleteAddr s sc).breakPoints := by
  intro bp hbp hstep
  have hmem := List.mem_map_of_mem (f := BreakPoint.unset) hbp
  rw [examine_unset] at hmem
  obtain ⟨bp', hbp', heq⟩ := List.mem_map.mp hmem
  obtain ⟨haddress, hthread, hisStep⟩ : bp'.address = bp.address ∧ bp'.ethread = bp.ethread ∧
      bp'.isStepBp = bp.isStepBp := by
    simp only [BreakPoint.unset, BreakPoint.mk.injEq] at heq
    exact ⟨heq.1, heq.2.2.2.1, heq.2.2.2.2.2.2⟩
  have hkept : deletesAll deleteAddr sc = false := by
    cases hdeletes : deletesAll deleteAddr sc with
    | false => rfl
    | true => simp [State.bpsAt, hdeletes] at hbp'
  rw [← haddress, ← hthread]
  exact h hkept bp' (not_deletesAll_of_mem hbp').1 (hisStep.trans hstep)

theorem setStepBp_stepBpsFor (kd : Kd) (s : State) (thread addr : UInt64) (h : P thread addr) :
    StepBpsFor P (setStepBp kd s thread addr).breakPoints ∧
      (setStepBp kd s thread addr).stepOutThread = s.stepOutThread := by
  rcases setStepBp_cases kd s thread addr with ⟨-, heq⟩ | ⟨-, -, heq⟩ | ⟨-, -, n, -, -, heq⟩
  · rw [heq]
    exact ⟨stepBpsFor_of_users fun bp hbp => (mem_users.mp hbp).2, rfl⟩
  · rw [heq]
    exact ⟨stepBpsFor_cons h, rfl⟩
  · rw [heq]
    exact ⟨stepBpsFor_cons h, rfl⟩

theorem stepOver_stepBpsFor (kd : Kd) {sc : StateChange} (pc : UInt64) (thisInstr : Instr)
    (hs : StepBpsFor P s.breakPoints) (h : P sc.thread (pc + thisInstr.length)) :
    StepBpsFor P (stepOver kd s sc pc thisInstr).breakPoints ∧
      (stepOver kd s sc pc thisInstr).stepOutThread = s.stepOutThread := by
  rw [stepOver]
  split
  · exact setStepBp_stepBpsFor kd s sc.thread (pc + thisInstr.length) h
  · exact ⟨hs, rfl⟩

-- ---------------------------------------------------------------------------
-- A thread that executes one instruction
-- ---------------------------------------------------------------------------

/-- The thread has the trace flag, and no address is expected of it. -/
structure StepsOnce (t : UInt64) (s : State) : Prop where
  stepping : t ∈ s.stepping
  expects : ExpectsNone s.bpTraces t

theorem expectsNone_setNextAddr (sc : StateChange) (ts : List (UInt64 × BpTrace)) :
    ExpectsNone (setNextAddr sc 0 ts) sc.thread := by
  obtain ⟨b, rest, hget⟩ := bpTraceGet_front sc ts
  have hset : setNextAddr sc 0 ts = (sc.thread, ⟨b.addr, 0⟩) :: rest := by
    simp [setNextAddr, hget, currentTrace, setCurrentTrace]
  rw [hset]
  intro b' hb'
  rw [entry_cons_self] at hb'
  cases hb'
  rfl

theorem stepOver_stepsOnce (kd : Kd) (s : State) (sc : StateChange) (pc : UInt64)
    {thisInstr : Instr}
    (h : stepsWithBp thisInstr = false) (out : UInt64) :
    StepsOnce sc.thread
      (resume { stepOver kd s sc pc thisInstr with stepOutThread := out } sc.thread) := by
  have hover : stepOver kd s sc pc thisInstr =
      { s with trace := true, bpTraces := setNextAddr sc 0 s.bpTraces } := by simp [stepOver, h]
  rw [hover]
  exact ⟨List.mem_cons_self, expectsNone_setNextAddr sc s.bpTraces⟩

theorem StepsOnce.resume (h : StepsOnce t s) (thread : UInt64) : StepsOnce t (resume s thread) := by
  refine ⟨?_, h.expects⟩
  simp only [Break.resume]
  split
  · exact List.mem_cons_of_mem _ h.stepping
  · exact h.stepping

theorem StepsOnce.examine (h : StepsOnce t s) (hne : t ≠ sc.thread) (ht : t ≠ 0) :
    StepsOnce t (examine kd deleteAddr s sc) := by
  obtain ⟨b', next, rest, hget, htraces⟩ := tracesAt_front s sc
  have hfront : (Break.examine kd deleteAddr s sc).bpTraces =
      (sc.thread, (s.visited deleteAddr sc).2.bpTrace) :: rest := by
    simp only [Break.examine, htraces, setCurrentTrace]
  constructor
  · simp only [Break.examine, List.mem_filter]
    exact ⟨h.stepping, by simpa using hne⟩
  · intro b hb
    rw [hfront, entry_cons_of_ne hne, ← entry_cons_of_ne (b := b') hne, ← hget] at hb
    exact h.expects b (entry_of_bpTraceGet hne ht hb)

namespace World

-- ---------------------------------------------------------------------------
-- The invariant
-- ---------------------------------------------------------------------------

/-- What the debugger has of a goal as long as it does not break in, and where the thread is. -/
def Tracks (program : Program) (w : World) : Goal → Prop
  | .over t addr stack =>
    w.dbg.stepOutThread = 0 ∧
      StepBpsFor (fun thread a => thread = t.val ∧ a = addr ∧
        (w.threads t).StepsOver program addr stack) w.dbg.breakPoints
  | .out t stack =>
    StepBpsFor (fun thread _ => thread = t.val) w.dbg.breakPoints ∧
      ((w.dbg.stepOutThread = t.val ∧ stack <:+ (w.threads t).stack ∧
          (t.val ∈ w.dbg.stepping → isRet (program.instr (w.threads t).pc).mnemonic = false)) ∨
        (w.dbg.stepOutThread = 0 ∧ StepsOnce t.val w.dbg ∧ (w.threads t).stack = stack ∧
          isRet (program.instr (w.threads t).pc).mnemonic = true))

/-- The thread that the debugger handles is where it has left it. -/
def AtPhase (program : Program) (w : World) : Prop :=
  match w.dbg.phase with
  | .running => True
  | .examined sc _ pc thisInstr => (w.threads sc.threadId).pc = pc ∧ thisInstr = program.instr pc
  | .session sc pc _ => (w.threads sc.threadId).pc = pc

/-- A goal is followed until the debugger breaks in, and then it is reached. -/
def Pursues (program : Program) (w : World) (goal : Goal) : Prop :=
  match w.dbg.phase with
  | .running => w.Tracks program goal
  | .examined _ false _ _ => w.Tracks program goal
  | .examined sc true _ _ => w.dbg.bpHitIndex = none → skipsInt3 sc = false →
      goal.Reached sc.threadId (w.threads sc.threadId)
  | .session _ _ _ => True

structure Keeps (program : Program) (w : World) : Prop where
  atPhase : w.AtPhase program
  idle : w.dbg.phase.isSession = true → w.dbg.stepOutThread = 0
  pursues : ∀ goal ∈ w.goal, w.Pursues program goal

theorem Keeps.of_none {w : World} (hat : w.AtPhase program)
    (hidle : w.dbg.phase.isSession = true → w.dbg.stepOutThread = 0) (hgoal : w.goal = none) :
    w.Keeps program := by
  refine ⟨hat, hidle, fun goal h => ?_⟩
  rw [hgoal] at h
  cases h

theorem start_keeps (program : Program) (pcs : ThreadId → UInt64) : (start pcs).Keeps program :=
  .of_none trivial (fun h => by cases h) rfl

variable {goal : Goal}

-- ---------------------------------------------------------------------------
-- An instruction
-- ---------------------------------------------------------------------------

theorem Tracks.exec {w : World} (h : w.Tracks program goal) (hgoal : w.goal = some goal)
    (hok : w.ExecsInFrame program t) (hfree : t.val ∉ w.dbg.stepping)
    (hexec : (w.threads t).exec program w.time next = some th) :
    (w.move t th).Tracks program goal := by
  rw [ExecsInFrame, hgoal] at hok
  rcases goal with ⟨t', addr, stack⟩ | ⟨t', stack⟩
  · refine ⟨h.1, h.2.imp ?_⟩
    rintro thread a ⟨hthread, haddr, hover⟩
    refine ⟨hthread, haddr, ?_⟩
    by_cases ht : t' = t
    · subst ht
      rw [move_threads_self]
      exact hover.exec hexec (hok rfl)
    · rw [move_threads_of_ne w th ht]
      exact hover
  · by_cases ht : t' = t
    · subst ht
      obtain ⟨hbps, ⟨hmode, hsuffix, -⟩ | ⟨-, honce, -⟩⟩ := h
      · refine ⟨hbps, .inl ⟨hmode, ?_, fun hstep => absurd hstep hfree⟩⟩
        rw [move_threads_self]
        exact Thread.exec_suffix hsuffix hexec (hok rfl hmode hfree)
      · exact absurd honce.stepping hfree
    · simp only [Tracks, move_dbg, move_threads_of_ne w th ht]
      exact h

-- ---------------------------------------------------------------------------
-- A report
-- ---------------------------------------------------------------------------

theorem arrives_ret {w : World} (h : w.arrives program t next .singleStep = some th)
    (hret : isRet (program.instr (w.threads t).pc).mnemonic = true) :
    ∃ f, (w.threads t).stack = f :: th.stack ∧ th.pc = f.returnAddr := by
  rcases arrives_cases h with ⟨-, -, hexec⟩ | ⟨hno, -⟩
  · rcases Thread.exec_cases hexec with ⟨hcall, -⟩ | ⟨-, hpop⟩ | ⟨-, hno, -⟩
    · cases hm : (program.instr (w.threads t).pc).mnemonic <;> simp_all [isCall, isRet]
    · exact hpop
    · rw [hret] at hno
      cases hno
  · exact absurd rfl hno

theorem arrives_stepsOver {w : World} (h : (w.threads t).StepsOver program addr stack)
    (harrives : w.arrives program t next exception = some th)
    (hdeep : exception = .singleStep →
      (w.threads t).pc = addr → stack.length < (w.threads t).stack.length) :
    th.StepsOver program addr stack := by
  rcases arrives_cases harrives with ⟨hexc, -, hexec⟩ | ⟨-, rfl⟩
  · exact h.exec hexec (hdeep hexc)
  · exact h

theorem arrives_suffix {w : World} (h : stack <:+ (w.threads t).stack)
    (hret : t.val ∈ w.dbg.stepping → isRet (program.instr (w.threads t).pc).mnemonic = false)
    (harrives : w.arrives program t next exception = some th) : stack <:+ th.stack := by
  rcases arrives_cases harrives with ⟨-, hstep, hexec⟩ | ⟨-, rfl⟩
  · refine Thread.exec_suffix h hexec fun hret' => ?_
    rw [hret hstep] at hret'
    cases hret'
  · exact h

section
variable {program : Program} {w : World} {t : ThreadId} {exception : ExceptionKind} {th : Thread}
  {info : Info} {sc : StateChange} (hsc : program.stateChange t exception th.pc info = sc)
include hsc

theorem Tracks.reached (h : w.Tracks program goal) (hgoal : w.goal = some goal)
    (hshape : Shape w.dbg.breakPoints) (harrives : w.arrives program t next exception = some th)
    (hexec : exception = .singleStep → w.ExecsInFrame program t) (hok : w.ReportsInFrame t th sc)
    (hbreak : (w.dbg.visited deleteAddr sc).2.breakIn = true)
    (hidx : (w.dbg.visited deleteAddr sc).2.bpHitIndex = none) (hint3 : skipsInt3 sc = false) :
    goal.Reached t th := by
  obtain ⟨-, hout, hcause⟩ := break_cases hshape hbreak hidx hint3
  subst hsc
  rw [ReportsInFrame, hgoal] at hok
  rcases goal with ⟨t', addr, stack⟩ | ⟨t', stack⟩
  · obtain ⟨hexpected, hframe⟩ := hok
    rcases hcause with ⟨hexc, hnot⟩ | ⟨bp, hbp, hstep, hthread, haddr⟩
    · simp [hexpected hexc] at hnot
    · obtain ⟨hfor, hat, hover⟩ := h.2 bp hbp hstep
      obtain rfl : t = t' := Subtype.ext (hthread.symm.trans hfor)
      have hpc : th.pc = addr := haddr.symm.trans hat
      have hover' := arrives_stepsOver hover harrives fun hexc => (hexec hexc).deeper hgoal
      exact ⟨rfl, hpc, hover'.stack_eq ((hframe rfl).1 hpc)⟩
  · have hok := hok hout
    obtain ⟨hbps, ⟨hmode, -⟩ | ⟨-, honce, hstack, hret⟩⟩ := h
    · exact absurd (hmode.symm.trans hout) t'.property
    · by_cases ht : t = t'
      · subst ht
        rw [if_pos rfl] at hok
        obtain ⟨hexc, -⟩ := hok
        obtain rfl : exception = .singleStep := hexc
        obtain ⟨f, hframe, hpc⟩ := arrives_ret harrives hret
        exact ⟨rfl, f, hstack.symm.trans hframe, hpc⟩
      · rw [if_neg ht] at hok
        rcases hcause with ⟨hexc, hnot⟩ | ⟨bp, hbp, hstep, hthread, -⟩
        · simp [hok hexc] at hnot
        · exact absurd (Subtype.ext (hthread.symm.trans (hbps bp hbp hstep))) ht

theorem visited_stays (hbreak : (w.dbg.visited deleteAddr sc).2.breakIn = false)
    (hkept : deletesAll deleteAddr sc = false) (hstay : ScriptsStay w.dbg sc) :
    (w.dbg.visited deleteAddr sc).2.pc = th.pc := by
  have hint3 : skipsInt3 sc = false := by
    cases hskips : skipsInt3 sc with
    | false => rfl
    | true =>
      rw [int3_breaks hskips hkept] at hbreak
      cases hbreak
  rw [visited_pc hstay, StateChange.currPc, hint3, if_neg Bool.false_ne_true, ← hsc]
  rfl

theorem Tracks.examined (h : w.Tracks program goal) (hgoal : w.goal = some goal)
    (harrives : w.arrives program t next exception = some th)
    (hexec : exception = .singleStep → w.ExecsInFrame program t) (hok : w.ReportsInFrame t th sc)
    (hbreak : (w.dbg.visited deleteAddr sc).2.breakIn = false)
    {w' : World} (hdbg : w'.dbg = examine kd deleteAddr w.dbg sc)
    (hself : w'.threads t = { th with pc := (w.dbg.visited deleteAddr sc).2.pc })
    (hthreads : ∀ t', t' ≠ t → w'.threads t' = w.threads t') : w'.Tracks program goal := by
  rw [ReportsInFrame, hgoal] at hok
  rcases goal with ⟨t', addr, stack⟩ | ⟨t', stack⟩
  · simp only [Tracks, hdbg]
    refine ⟨h.1, examine_stepBpsFor fun hkept => h.2.imp ?_⟩
    rintro thread a ⟨hthread, haddr, hover⟩
    refine ⟨hthread, haddr, ?_⟩
    by_cases ht : t' = t
    · subst ht
      rw [hself]
      have hover' := arrives_stepsOver hover harrives fun hexc => (hexec hexc).deeper hgoal
      exact hover'.left fun hle => visited_stays hsc hbreak hkept ((hok.2 rfl).2 hle)
    · rw [hthreads t' ht]
      exact hover
  · obtain ⟨hbps, ⟨hmode, hsuffix, hnoRet⟩ | ⟨hout, honce, hstack, hret⟩⟩ := h
    · simp only [Tracks, hdbg]
      refine ⟨examine_stepBpsFor fun _ => hbps, .inl ⟨hmode, ?_⟩⟩
      by_cases ht : t' = t
      · subst ht
        rw [hself]
        have hsuffix' : stack <:+ th.stack := arrives_suffix hsuffix hnoRet harrives
        refine ⟨hsuffix', fun hstep => ?_⟩
        subst hsc
        simp [examine, Program.stateChange] at hstep
      · rw [hthreads t' ht]
        exact ⟨hsuffix, fun hstep => hnoRet (List.mem_of_mem_filter hstep)⟩
    · have hok := hok hout
      by_cases ht : t = t'
      · subst ht hsc
        rw [if_pos rfl] at hok
        have hexpected : expectedStep (program.stateChange t exception th.pc info) w.dbg = false :=
          not_expectedStep honce.expects hok.2
        rw [unexpected_breaks hok.1 hexpected hout] at hbreak
        cases hbreak
      · have ht' : t' ≠ t := fun heq => ht heq.symm
        have hval : t'.val ≠ sc.thread := by
          subst hsc
          exact fun heq => ht' (Subtype.ext heq)
        simp only [Tracks, hdbg, hthreads t' ht']
        exact ⟨examine_stepBpsFor fun _ => hbps,
          .inr ⟨hout, honce.examine hval t'.property, hstack, hret⟩⟩

theorem visited_instr (s : State) (deleteAddr : UInt64) :
    (s.visited deleteAddr sc).2.decoded.instr = program.instr (s.visited deleteAddr sc).2.pc := by
  obtain ⟨old, hdecoded⟩ := visited_decoded s deleteAddr sc
  subst hsc
  rw [hdecoded]
  rfl

end

theorem Keeps.tracks {w : World} (h : w.Keeps program) (hrunning : w.dbg.phase = .running)
    (hgoal : w.goal = some goal) : w.Tracks program goal := by
  have hpursues := h.pursues goal hgoal
  rwa [Pursues, hrunning] at hpursues

theorem report_keeps {w : World} (h : w.Keeps program) (hrunning : w.dbg.phase = .running)
    (hshape : Shape w.dbg.breakPoints) (harrives : w.arrives program t next exception = some th)
    (hexec : exception = .singleStep → w.ExecsInFrame program t)
    (hok : w.ReportsInFrame t th (program.stateChange t exception th.pc info)) :
    Keeps program { w.reported deleteAddr t th (program.stateChange t exception th.pc info) with
      dbg := examine kd deleteAddr w.dbg (program.stateChange t exception th.pc info) } := by
  obtain ⟨sc, hsc⟩ : ∃ sc, program.stateChange t exception th.pc info = sc := ⟨_, rfl⟩
  have hid : sc.threadId = t := by
    subst hsc
    rfl
  have hpc : sc.pc = th.pc := by
    subst hsc
    rfl
  rw [hsc] at hok ⊢
  have hself : (w.reported deleteAddr t th sc).threads t =
      { th with pc := (w.dbg.visited deleteAddr sc).2.pc } :=
    move_threads_self ..
  refine ⟨⟨?_, visited_instr hsc w.dbg deleteAddr⟩, (fun h => by cases h), fun goal hgoal => ?_⟩
  · exact hid ▸ congrArg Thread.pc hself
  · have htracks := h.tracks hrunning hgoal
    have hphase : (examine kd deleteAddr w.dbg sc).phase =
        .examined sc (w.dbg.visited deleteAddr sc).2.breakIn
        (w.dbg.visited deleteAddr sc).2.pc (w.dbg.visited deleteAddr sc).2.decoded.instr := rfl
    cases hbreak : (w.dbg.visited deleteAddr sc).2.breakIn with
    | false =>
      rw [hbreak] at hphase
      simp only [Pursues, hphase]
      exact htracks.examined hsc hgoal harrives hexec hok hbreak rfl hself
        fun t' ht' => Function.update_of_ne ht' ..
    | true =>
      rw [hbreak] at hphase
      simp only [Pursues, hphase]
      intro hidx hint3
      have hreached := htracks.reached hsc hgoal hshape harrives hexec hok hbreak hidx hint3
      have hthread : (w.reported deleteAddr t th sc).threads t = th := by
        rw [hself, (break_cases hshape hbreak hidx hint3).1, hpc]
      rw [hid, hthread]
      exact hreached

-- ---------------------------------------------------------------------------
-- Resuming
-- ---------------------------------------------------------------------------

theorem stepOut_of_ne (kd : Kd) {s : State} {sc : StateChange} {pc : UInt64} {thisInstr : Instr}
    (h : s.stepOutThread = 0 ∨ s.stepOutThread ≠ sc.thread) : stepOut kd s sc pc thisInstr = s := by
  rw [stepOut, if_neg]
  rintro ⟨hne, heq⟩
  rcases h with hzero | hother
  · exact hne hzero
  · exact hother heq

theorem stepOut_cases (kd : Kd) {s : State} {sc : StateChange} (pc : UInt64) {thisInstr : Instr}
    (hplain : PlainRet thisInstr)
      (hbps : StepBpsFor (fun thread _ => thread = sc.thread) s.breakPoints)
    (hmode : s.stepOutThread = sc.thread) :
    StepBpsFor (fun thread _ => thread = sc.thread)
        (resume (stepOut kd s sc pc thisInstr) sc.thread).breakPoints ∧
      (((stepOut kd s sc pc thisInstr).stepOutThread = sc.thread ∧
          isRet thisInstr.mnemonic = false) ∨
        (stepOut kd s sc pc thisInstr).stepOutThread = 0 ∧
          StepsOnce sc.thread (resume (stepOut kd s sc pc thisInstr) sc.thread) ∧
          isRet thisInstr.mnemonic = true) := by
  obtain ⟨hover, hout⟩ := stepOver_stepBpsFor kd pc thisInstr hbps rfl
  have hactive : s.stepOutThread ≠ 0 ∧ s.stepOutThread = sc.thread :=
    ⟨hmode ▸ sc.thread_ne_zero, hmode⟩
  simp only [stepOut, if_pos hactive]
  cases hret : isRet thisInstr.mnemonic with
  | true => exact ⟨hover, .inr ⟨rfl, stepOver_stepsOnce kd s sc pc (hplain hret) 0, rfl⟩⟩
  | false => exact ⟨hover, .inl ⟨hout.trans hmode, rfl⟩⟩

theorem proceed_keeps {w : World} (h : w.Keeps program)
    (hp : w.dbg.phase = .examined sc breakIn pc thisInstr) (hok : w.ProceedsInFrame program) :
    Keeps program { w with
      dbg := proceed kd w.dbg sc breakIn pc thisInstr
      goal := if breakIn then none else w.goal } := by
  obtain ⟨hpc, hinstr⟩ : (w.threads sc.threadId).pc = pc ∧ thisInstr = program.instr pc := by
    have hat := h.atPhase
    rwa [AtPhase, hp] at hat
  cases breakIn with
  | true => exact .of_none hpc (fun _ => rfl) rfl
  | false =>
    refine ⟨trivial, (fun h => by cases h), fun goal hgoal => ?_⟩
    have htracks : w.Tracks program goal := by
      have := h.pursues goal hgoal
      rwa [Pursues, hp] at this
    change Tracks program { w with
      dbg := resume (stepOut kd w.dbg sc pc thisInstr) sc.thread, goal := w.goal } goal
    rcases goal with ⟨t, addr, stack⟩ | ⟨t, stack⟩
    · rw [stepOut_of_ne kd (.inl htracks.1)]
      exact htracks
    · obtain ⟨hbps, ⟨hmode, hsuffix, hnoRet⟩ | ⟨hout, honce, hstack, hret⟩⟩ := htracks
      · by_cases ht : sc.thread = t.val
        · have hid : sc.threadId = t := Subtype.ext ht
          have hgoal' : w.goal = some (.out t stack) := hgoal
          rw [ProceedsInFrame, hp, hgoal'] at hok
          obtain ⟨hdepth, hplain⟩ := hok hmode hid
          rw [hid] at hpc
          rw [hpc, ← hinstr] at hplain
          rw [← ht] at hbps hmode
          obtain ⟨hbps', ⟨hmode', hno⟩ | ⟨hzero, honce, hret⟩⟩ :=
            stepOut_cases kd pc hplain hbps hmode
          · refine ⟨ht ▸ hbps', .inl ⟨hmode'.trans ht, hsuffix, fun _ => ?_⟩⟩
            simp only [hpc, ← hinstr, hno]
          · refine ⟨ht ▸ hbps', .inr ⟨hzero, ht ▸ honce, (hsuffix.eq_of_length_le hdepth).symm, ?_⟩⟩
            simp only [hpc, ← hinstr, hret]
        · rw [stepOut_of_ne kd (.inr fun heq => ht (heq.symm.trans hmode))]
          refine ⟨hbps, .inl ⟨hmode, hsuffix, fun hstep => hnoRet ?_⟩⟩
          simp only [resume] at hstep
          split at hstep
          · exact (List.mem_cons.mp hstep).resolve_left fun heq => ht heq.symm
          · exact hstep
      · rw [stepOut_of_ne kd (.inl hout)]
        exact ⟨hbps, .inr ⟨hout, honce.resume sc.thread, hstack, hret⟩⟩

-- ---------------------------------------------------------------------------
-- A command
-- ---------------------------------------------------------------------------

theorem asked_tracks {w w' : World} {c : Command}
    (hasked : w.asked program sc.threadId pc c = some goal)
    (hok : w.AskedInFrame program c) (hp : w.dbg.phase = .session sc pc thisInstr)
    (hat : (w.threads sc.threadId).pc = pc) (hidle : w.dbg.stepOutThread = 0)
    (husers : ∀ bp ∈ w.dbg.breakPoints, bp.isStepBp = false)
    (hdbg : w'.dbg = execute kd w.dbg sc pc thisInstr c)
    (hthread : w'.threads sc.threadId = w.threads sc.threadId) : w'.Tracks program goal := by
  rw [AskedInFrame, hp] at hok
  obtain ⟨hinstr, hplain⟩ := hok (by rw [hasked]; rfl)
  cases c with
  | p =>
    simp only [asked] at hasked
    split at hasked
    · next hcall =>
      obtain rfl := Option.some.inj hasked
      have hsteps : stepsWithBp thisInstr = true := by simp [stepsWithBp, hinstr, hcall]
      have hover : (w'.threads sc.threadId).StepsOver program (pc + thisInstr.length)
          (w.threads sc.threadId).stack := by
        rw [hthread]
        exact .inl ⟨rfl, .inl ⟨hat ▸ hcall, by rw [hat, hinstr]⟩⟩
      have hset := setStepBp_stepBpsFor kd w.dbg sc.thread (pc + thisInstr.length)
        (P := fun thread a => thread = sc.thread ∧ a = pc + thisInstr.length ∧
          (w'.threads sc.threadId).StepsOver program (pc + thisInstr.length)
            (w.threads sc.threadId).stack) ⟨rfl, rfl, hover⟩
      simp only [Tracks, hdbg, execute, resume, stepOver, hsteps, if_true, ← hinstr]
      exact ⟨hset.2.trans hidle, hset.1⟩
    · cases hasked
  | pRet =>
    obtain rfl := Option.some.inj hasked
    have hbps : StepBpsFor (fun thread _ => thread = sc.thread) w.dbg.breakPoints :=
      stepBpsFor_of_users husers
    obtain ⟨hover, hout⟩ := stepOver_stepBpsFor kd pc thisInstr hbps rfl
    rw [Tracks, hdbg, hthread]
    unfold execute
    cases hret : isRet thisInstr.mnemonic with
    | true =>
      have honce := stepOver_stepsOnce kd w.dbg sc pc (hplain hret)
          (stepOver kd w.dbg sc pc thisInstr).stepOutThread
      refine ⟨hover, .inr ⟨hout.trans hidle, honce, rfl, ?_⟩⟩
      rw [hat, ← hinstr]
      exact hret
    | false =>
      refine ⟨hover, .inl ⟨rfl, List.suffix_rfl, fun _ => ?_⟩⟩
      rw [hat, ← hinstr]
      exact hret
  | _ => cases hasked

theorem command_keeps {w : World} (h : w.Keeps program) (hshaped : Shaped w.dbg)
    (hp : w.dbg.phase = .session sc pc thisInstr) (hok : w.AskedInFrame program c) :
    Keeps program { w.commanded sc.threadId c with
      dbg := execute kd w.dbg sc pc thisInstr c
      goal := w.asked program sc.threadId pc c } := by
  have hat := h.atPhase
  rw [AtPhase, hp] at hat
  have hidle := h.idle (by rw [hp]; rfl)
  cases c with
  | bpx address eprocess ethread when readable =>
    rcases bpx_cases kd w.dbg address eprocess ethread when readable with heq | ⟨-, -, n, -, -, heq⟩
    · simp only [execute, heq]
      exact .of_none (by rw [AtPhase, hp]; exact hat) (fun _ => hidle) rfl
    · simp only [execute, heq]
      exact .of_none (by rw [AtPhase, hp]; exact hat) (fun _ => hidle) rfl
  | bc nums => exact .of_none (by simp only [AtPhase, execute, hp]; exact hat) (fun _ => hidle) rfl
  | bd nums => exact .of_none (by simp only [AtPhase, execute, hp]; exact hat) (fun _ => hidle) rfl
  | be nums => exact .of_none (by simp only [AtPhase, execute, hp]; exact hat) (fun _ => hidle) rfl
  | r pc' =>
    refine .of_none ?_ (fun _ => hidle) rfl
    simp [AtPhase, execute, commanded]
  | t => exact .of_none trivial (fun h => by cases h) rfl
  | x => exact .of_none trivial (fun h => by cases h) rfl
  | p =>
    refine ⟨trivial, (fun h => by cases h), fun goal hgoal => ?_⟩
    exact asked_tracks hgoal hok hp hat hidle (hshaped.session hp) rfl rfl
  | pRet =>
    refine ⟨trivial, (fun h => by cases h), fun goal hgoal => ?_⟩
    exact asked_tracks hgoal hok hp hat hidle (hshaped.session hp) rfl rfl

-- ---------------------------------------------------------------------------
-- Every run
-- ---------------------------------------------------------------------------

theorem exec_keeps {w : World} (h : w.Keeps program) (hrunning : w.dbg.phase = .running)
    (hok : w.ExecsInFrame program t) (hfree : t.val ∉ w.dbg.stepping)
    (hexec : (w.threads t).exec program w.time next = some th) : (w.move t th).Keeps program := by
  refine ⟨by simp [AtPhase, hrunning], by simp [hrunning, Phase.isSession], fun goal hgoal => ?_⟩
  simp only [Pursues, move_dbg, hrunning]
  exact (h.tracks hrunning hgoal).exec hgoal hok hfree hexec

theorem advance_keeps {w : World} (h : w.Keeps program) (hshaped : Shaped w.dbg)
    (hok : w.InFrame program e) (hstep : advance kd deleteAddr program w e = some w') :
    w'.Keeps program := by
  rcases advance_cases hstep with ⟨t, next, th, rfl, hp, hfree, hexec, rfl⟩ |
    ⟨t, exception, next, info, th, rfl, hp, harrives, rfl⟩ |
    ⟨sc, breakIn, pc, thisInstr, rfl, hp, rfl⟩ | ⟨c, sc, pc, thisInstr, rfl, hp, rfl⟩
  · exact exec_keeps h hp hok hfree hexec
  · exact report_keeps h hp hshaped.shape harrives hok.1 (hok.2 th harrives)
  · exact proceed_keeps h hp hok
  · exact command_keeps h hshaped hp hok

theorem Keeps.stepsToGoal {w : World} (h : w.Keeps program) : w.StepsToGoal := by
  intro sc pc thisInstr goal hp hidx hint3 hgoal
  have hpursues := h.pursues goal hgoal
  rw [Pursues, hp] at hpursues
  exact hpursues hidx hint3

/-- Whatever the threads execute and report, and in any order, a break after `P` at a CALL or
`P RET` is where the step was to take its thread, and no other activation has its stack. -/
theorem reachable_stepsToGoal
    (h : Runs.Reachable (advance kd deleteAddr program) (fun w e => w.InFrame program e)
      (start pcs) w) :
    w.StepsToGoal ∧ w.FramesPast := by
  suffices w.Keeps program ∧ Shaped w.dbg from ⟨this.1.stepsToGoal, reachable_framesPast h⟩
  refine h.invariant (P := fun w => w.Keeps program ∧ Shaped w.dbg)
    ⟨start_keeps program pcs, start_shaped⟩ ?_
  rintro w e w' ⟨hkeeps, hshaped⟩ hok hstep
  refine ⟨advance_keeps hkeeps hshaped hok hstep, ?_⟩
  rcases advance_dbg hstep with heq | ⟨i, hi⟩
  · exact heq ▸ hshaped
  · exact step_shaped hshaped hi

-- ---------------------------------------------------------------------------
-- Another thread in the same code
-- ---------------------------------------------------------------------------

def retInstr : Instr := ⟨.ret, false, false, false, 1⟩

def callProgram : Program :=
  { instr := fun a => if a = 0x1000 then callInstr else if a = 0x2000 then retInstr else nopInstr
    int3 := fun a => a == 0xFFF }

def thread1 : ThreadId := ⟨1, thread1_ne_zero⟩

def thread2 : ThreadId := ⟨2, thread2_ne_zero⟩

def nextInfo : Info :=
  { processor := 0, numberProcessors := 1, eprocess := 0, stepAddr := fun a => a + 1
    evalWhen := fun _ pc => (none, pc) }

/-- Thread 1 is to step over the CALL. Thread 2 comes to the step breakpoint first and steps over
it. -/
def overEvents : List Event :=
  [.report thread1 .breakpoint 0 nextInfo, .proceed, .command .p,
    .exec thread1 0x2000, .exec thread2 0x2000, .exec thread2 0,
    .report thread2 .breakpoint 0 nextInfo, .proceed,
    .report thread2 .singleStep 0x1006 nextInfo, .proceed,
    .exec thread1 0, .report thread1 .breakpoint 0 nextInfo]

def atInt3 : World := start fun t => if t = thread1 then 0xFFF else 0x1000

def overWorld : World :=
  (Runs.run (advance slots 0x9000 callProgram) (fun w e => w.InFrame callProgram e) atInt3
    overEvents).getD atInt3

theorem overWorld_reached :
    (Goal.over thread1 0x1005 []).Reached thread1 (overWorld.threads thread1) := by
  have hrun :
      (Runs.run (advance slots 0x9000 callProgram) (fun w e => w.InFrame callProgram e) atInt3
      overEvents).isSome = true := by decide +kernel
  have hreach : Runs.Reachable (advance slots 0x9000 callProgram)
      (fun w e => w.InFrame callProgram e)
      atInt3 overWorld := Runs.reachable_of_run .init (Runs.run_eq_some_getD hrun)
  exact (reachable_stepsToGoal hreach).1 _ _ _ _ rfl rfl rfl rfl

end World

end BugChecker.Break
