import BugChecker.Break.Shape

/-!
# When a breakpoint stops the debugger

A breakpoint of the user whose conditions hold stops the debugger when it is
hit, but for the cases that the debugger sets apart: the INT3 that deletes all
breakpoints, and a step breakpoint at the same address, which alone is looked
at and asks for its own thread and for no step out to be under way.
-/

namespace BugChecker.Break

/-- The conditions of a breakpoint of the user. -/
structure ConditionsHold (sc : StateChange) (bp : BreakPoint) : Prop where
  enabled : bp.skip = false
  thread : bp.ethread = 0 ∨ bp.ethread = sc.thread
  process : bp.ethread = 0 → bp.eprocess = 0 ∨ bp.eprocess = sc.eprocess
  when : bp.when = "" ∨ (sc.evalWhen bp.when sc.pc).1 ≠ some 0

/-- The state change is answered with a session. -/
def Stops (kd : Kd) (deleteAddr : UInt64) (s : State) (sc : StateChange) : Prop :=
  ∃ s' pc thisInstr, Runs.run (step kd deleteAddr) (fun _ _ => True) s [.report sc, .proceed] =
    some s' ∧
    s'.phase = .session sc pc thisInstr

theorem stops_of_breakIn (hp : s.phase = .running)
    (h : (s.visited deleteAddr sc).2.breakIn = true) : Stops kd deleteAddr s sc := by
  have hphase : (examine kd deleteAddr s sc).phase =
      .examined sc true (s.visited deleteAddr sc).2.pc
      (s.visited deleteAddr sc).2.decoded.instr := by
    simp only [examine, h]
  refine ⟨proceed kd (examine kd deleteAddr s sc) sc true (s.visited deleteAddr sc).2.pc
    (s.visited deleteAddr sc).2.decoded.instr, _, _, ?_, rfl⟩
  simp [Runs.run, step, hp, hphase]

theorem ConditionsHold.unset (h : ConditionsHold sc bp) : ConditionsHold sc bp.unset :=
  ⟨h.enabled, h.thread, h.process, h.when⟩

theorem threadMatches_of_conditions (h : ConditionsHold sc bp) : threadMatches sc bp = true := by
  rw [threadMatches, h.enabled]
  by_cases hthread : bp.ethread = 0
  · rcases h.process hthread with hp | hp
    · simp [hthread, hp]
    · simp [hthread, hp]
  · simp [h.thread.resolve_left hthread, sc.thread_ne_zero]

theorem evalWhen_breakIn (hb : v.breakIn = true)
    (hw : bp.when = "" ∨ (sc.evalWhen bp.when v.pc).1 ≠ some 0) :
    (evalWhen sc currPc bp v).breakIn = true := by
  rcases hw with hw | hw
  · rw [evalWhen, hw]
    simpa using hb
  · rw [evalWhen]
    split
    · dsimp only
      split
      · simpa using hw
      · simpa using hw
    · exact hb

theorem checkConditions_user (h : ConditionsHold sc bp) (hpc : v.pc = sc.pc)
    (hu : bp.isStepBp = false) :
    (checkConditions sc stepOutThread currPc index bp.unset v).breakIn = true := by
  have hmatch := threadMatches_of_conditions h.unset
  have hwhen : (evalWhen sc currPc bp.unset
      { v with breakIn := threadMatches sc bp.unset }).breakIn = true :=
    evalWhen_breakIn hmatch (by rw [hpc]; exact h.when)
  simp only [checkConditions, BreakPoint.unset_isStepBp, hu, hwhen]
  simp [hwhen]

theorem checkConditions_stepBp {bp : BreakPoint} (hskip : bp.skip = false) (hwhen : bp.when = "")
    (hthread : bp.ethread = sc.thread) :
    (checkConditions sc 0 currPc index bp.unset v).breakIn = true := by
  have hmatch : threadMatches sc bp.unset = true := by
    simp [threadMatches, BreakPoint.unset, hskip, hthread, sc.thread_ne_zero]
  have heval : evalWhen sc currPc bp.unset { v with breakIn := threadMatches sc bp.unset } =
      { v with breakIn := true } := by
    rw [evalWhen, hmatch]
    simp [BreakPoint.unset, hwhen]
  simp only [checkConditions, heval, ne_eq, not_true_eq_false, decide_false, Bool.and_false,
    Bool.false_eq_true, if_false]
  split
  · rfl
  · rfl

theorem breakIn_of_first (hshape : Shape bps) (hv : v.breakIn = false)
    (hproc : v.pcBpProcessed = false) (hpc : v.pc = sc.pc) (hu : u ∈ bps)
    (huser : u.isStepBp = false) (haddr : u.address = sc.pc) (hcond : ConditionsHold sc u)
    (hlo : 64 ≤ sc.pc.toNat) (hhi : sc.pc.toNat < 2 ^ 64 - 64)
    (hstep : ∀ b ∈ bps, b.isStepBp = true → b.address = sc.pc →
      b.ethread = sc.thread ∧ stepOutThread = 0) :
    (visitBps sc stepOutThread prev sc.pc 0 bps v).2.breakIn = true := by
  rcases visitBps_snd sc stepOutThread prev sc.pc 0 bps hproc with ⟨hnone, -⟩ | ⟨pre, b, post,
    rfl, -, hb, heq⟩
  · have hwindowed : windowed prev sc.pc u = true :=
      windowed_of_near hlo hhi (by rw [haddr]; omega) (by rw [haddr]; omega)
    exact absurd ⟨hwindowed, haddr⟩ (hnone u hu)
  · have hmem : b ∈ pre ++ b :: post := by simp
    rw [heq, hv, if_neg (by simp)]
    cases hbs : b.isStepBp with
    | false =>
      rw [hshape.eq_of_address hmem hu hbs huser (hb.2.trans haddr.symm)]
      exact checkConditions_user hcond hpc huser
    | true =>
      obtain ⟨hthread, rfl⟩ := hstep b hmem hbs hb.2
      obtain ⟨hskip, hwhen, -⟩ := hshape.stepBp b hmem hbs
      exact checkConditions_stepBp hskip hwhen hthread

theorem userBp_stops (kd : Kd) (deleteAddr : UInt64) (s : State) (sc : StateChange) (u : BreakPoint)
    (h : Runs.Reachable (step kd deleteAddr) (fun _ _ => True) State.start s)
    (hp : s.phase = .running) (hbreak : sc.exception = .breakpoint) (hu : u ∈ s.breakPoints)
    (huser : u.isStepBp = false) (haddr : u.address = sc.pc) (hcond : ConditionsHold sc u)
    (hdelete : sc.pc ≠ deleteAddr)
    (hpc : sc.int3 = true ∨ (64 ≤ sc.pc.toNat ∧ sc.pc.toNat < 2 ^ 64 - 64))
    (hstep : sc.int3 = true ∨ ∀ b ∈ s.breakPoints, b.isStepBp = true → b.address = sc.pc →
      b.ethread = sc.thread ∧ s.stepOutThread = 0) :
    Stops kd deleteAddr s sc := by
  have hdel : deletesAll deleteAddr sc = false := by simp [deletesAll, hdelete]
  have hshape := (reachable_shaped h).shape
  refine stops_of_breakIn hp ?_
  rw [State.visited]
  cases hint : sc.int3 with
  | true =>
    -- the loop does not take back a break that the INT3 asks for
    have hv : (s.visitAt deleteAddr sc).breakIn = true := by
      simp [State.visitAt, initialBreakIn, hbreak, hint, hdel]
    rcases visitBps_snd sc s.stepOutThread (s.prevBpTraceAddr sc) sc.currPc 0
        (s.bpsAt deleteAddr sc)
      (v := s.visitAt deleteAddr sc) rfl with ⟨-, heq⟩ | ⟨pre, b, post, -, -, -, heq⟩
    · rw [heq, hv]
    · rw [heq, if_pos hv]
      exact hv
  | false =>
    rw [hint] at hpc hstep
    obtain ⟨hlo, hhi⟩ := hpc.resolve_left Bool.false_ne_true
    have hcurr : sc.currPc = sc.pc := by simp [StateChange.currPc, skipsInt3, hint]
    have hbps : s.bpsAt deleteAddr sc = s.breakPoints := by simp [State.bpsAt, hdel]
    rw [hcurr, hbps]
    exact breakIn_of_first hshape (by simp [State.visitAt, initialBreakIn, hbreak, hint]) rfl
      hcurr hu
      huser haddr hcond hlo hhi (hstep.resolve_left Bool.false_ne_true)

-- ---------------------------------------------------------------------------
-- A step breakpoint of another thread at the same address
-- ---------------------------------------------------------------------------

/-- Thread 1 stops at an INT3 before a call, a breakpoint is set after the call, and the call is
stepped over; so that both breakpoints are at 0x1006. -/
def sharedInputs : List Input :=
  [.report (stateChangeAt 1 .breakpoint true 0x1000 callInstr 0x2000 thread1_ne_zero), .proceed,
    .command (.bpx 0x1006 0 0 "" true), .command .p]

def otherThread : StateChange :=
  stateChangeAt 2 .breakpoint false 0x1006 nopInstr 0x1007 thread2_ne_zero

def Phase.isSession : Phase → Bool
  | .session .. => true
  | _ => false

def sharedState : State :=
  (Runs.run (step slots 0x9000) (fun _ _ => True) State.start sharedInputs).getD State.start

theorem sharedState_breakPoints :
    sharedState.breakPoints = [stepBp 1 0x1006 0, userBp 0x1006 0 0 "" 1] := by decide

/-- The thread that steps does stop there. -/
theorem sharedInputs_stops :
    Stops slots 0x9000 sharedState (stateChangeAt 1 .breakpoint false 0x1006 nopInstr 0x1007
      (by decide)) := by
  refine userBp_stops slots 0x9000 sharedState _ (userBp 0x1006 0 0 "" 1)
    (Runs.reachable_of_run .init (rfl : Runs.run (step slots 0x9000)
      (fun _ _ => True) State.start sharedInputs = _))
    rfl rfl ?_ rfl rfl ⟨rfl, Or.inl rfl, fun _ => Or.inl rfl, Or.inl rfl⟩ (by decide)
    (Or.inr (by decide)) (Or.inr ?_)
  · rw [sharedState_breakPoints]
    simp
  · rw [sharedState_breakPoints]
    intro b hb hstep haddr
    rcases List.mem_cons.mp hb with rfl | hb
    · exact ⟨rfl, rfl⟩
    · rw [List.mem_singleton.mp hb] at hstep
      cases hstep

theorem sharedInputs_missed :
    Runs.run (step slots 0x9000) (fun _ _ => True) State.start sharedInputs = some sharedState ∧
    sharedState.phase = .running ∧ otherThread.exception = .breakpoint ∧
    (∃ u ∈ sharedState.breakPoints, u.isStepBp = false ∧ u.address = otherThread.pc ∧
      ConditionsHold otherThread u) ∧
    ¬ Stops slots 0x9000 sharedState otherThread := by
  refine ⟨rfl, rfl, rfl, ?_, ?_⟩
  · rw [sharedState_breakPoints]
    exact ⟨userBp 0x1006 0 0 "" 1, by simp, rfl, rfl, rfl, Or.inl rfl,
      fun _ => Or.inl rfl, Or.inl rfl⟩
  · rintro ⟨s', pc, thisInstr, hrun, hphase⟩
    have hno : (Runs.run (step slots 0x9000) (fun _ _ => True) sharedState [.report otherThread,
        .proceed]).map
        (·.phase.isSession) = some false := by decide
    rw [hrun, Option.map_some, hphase] at hno
    cases hno

end BugChecker.Break
