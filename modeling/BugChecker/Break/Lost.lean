import BugChecker.Break.Agree

/-!
# No breakpoint is lost

When the machine is resumed, a breakpoint of the list is in KD's table, or a
thread that steps over it with the trace flag will have it recreated. What can
lose a breakpoint is said by the condition on the steps: KD takes it out and
the loop does not see it, the entry of the stepping thread is dropped for that
of another thread, or a step breakpoint is set, which turns the trace flag off.
-/

namespace BugChecker.Break

-- ---------------------------------------------------------------------------
-- The entries of the threads
-- ---------------------------------------------------------------------------

/-- `BpTraces[t]`. -/
def entry (ts : List (UInt64 × BpTrace)) (thread : UInt64) : Option BpTrace :=
  (ts.find? (·.1 == thread)).map (·.2)

theorem entry_cons_self : entry ((thread, b) :: ts) thread = some b := by
  simp [entry]

theorem entry_cons_of_ne (h : t ≠ thread) : entry ((thread, b) :: ts) t = entry ts t := by
  simp [entry, h.symm]

/-- `BpTraces[t].addr`. -/
def tracedAddr (ts : List (UInt64 × BpTrace)) (thread : UInt64) : Option UInt64 :=
  (entry ts thread).map BpTrace.addr

theorem tracedAddr_cons_self : tracedAddr ((thread, b) :: ts) thread = some b.addr := by
  rw [tracedAddr, entry_cons_self, Option.map_some]

theorem tracedAddr_cons_of_ne (h : t ≠ thread) :
    tracedAddr ((thread, b) :: ts) t = tracedAddr ts t := by
  rw [tracedAddr, tracedAddr, entry_cons_of_ne h]

theorem bpTraceGet_front (sc : StateChange) (ts : List (UInt64 × BpTrace)) :
    ∃ b rest, bpTraceGet sc ts = (sc.thread, b) :: rest := by
  rw [bpTraceGet]
  split
  · obtain ⟨n, hn⟩ : ∃ n, sc.tracesDim = n + 1 := ⟨sc.tracesDim - 1, by
      rw [StateChange.tracesDim, StateChange.processors]
      omega⟩
    rw [resize, hn, List.take_succ_cons, List.cons_append]
    exact ⟨_, _, rfl⟩
  · next i hi =>
    obtain ⟨hlt, hthread, -⟩ := List.findIdx?_eq_some_iff_getElem.mp hi
    rw [List.getD_eq_getElem?_getD, List.getElem?_eq_getElem hlt, Option.getD_some]
    exact ⟨ts[i].2, _, congrArg (· :: _) (Prod.ext (beq_iff_eq.mp hthread) rfl)⟩

@[simp] theorem bpTraceGet_of_front (sc : StateChange) :
    bpTraceGet sc ((sc.thread, b) :: rest) = (sc.thread, b) :: rest := by
  simp [bpTraceGet, List.findIdx?_cons]

@[simp] theorem setNextAddr_of_front (sc : StateChange) :
    setNextAddr sc next ((sc.thread, b) :: rest) = (sc.thread, ⟨b.addr, next⟩) :: rest := by
  simp [setNextAddr, currentTrace, setCurrentTrace]

/-- The entries when the loop begins: those that `BpTrace::Get` leaves, but for the expected
address of the thread. -/
theorem tracesAt_front (s : State) (sc : StateChange) : ∃ b next rest,
    bpTraceGet sc s.bpTraces = (sc.thread, b) :: rest ∧
      s.tracesAt sc = (sc.thread, ⟨b.addr, next⟩) :: rest := by
  obtain ⟨b, rest, hget⟩ := bpTraceGet_front sc s.bpTraces
  refine ⟨b, if expectedStep sc s then 0 else b.nextAddr, rest, hget, ?_⟩
  rw [State.tracesAt]
  split
  · have hset : setNextAddr sc 0 s.bpTraces = (sc.thread, ⟨b.addr, 0⟩) :: rest := by
      simp [setNextAddr, hget, currentTrace, setCurrentTrace]
    rw [hset, bpTraceGet_of_front]
  · exact hget

-- ---------------------------------------------------------------------------
-- Pending breakpoints
-- ---------------------------------------------------------------------------

/-- A thread that was resumed with the trace flag has yet to report from stepping over `addr`. -/
def Pending (s : State) (addr : UInt64) : Prop :=
  ∃ t ∈ s.stepping, tracedAddr s.bpTraces t = some addr

instance (s : State) (addr : UInt64) : Decidable (Pending s addr) :=
  inferInstanceAs (Decidable (∃ t ∈ s.stepping, _))

def NoneLost (s : State) : Prop :=
  ∀ bp ∈ s.breakPoints, s.table.Active bp.address ∨ Pending s bp.address

instance (s : State) : Decidable (NoneLost s) :=
  inferInstanceAs (Decidable (∀ bp ∈ s.breakPoints, _))

/-- While the state change of a thread is handled: a breakpoint may also be one that the thread
itself will step over. -/
structure Covered (s : State) (thread : UInt64) : Prop where
  front : ∃ b rest, s.bpTraces = (thread, b) :: rest
  bps : ∀ bp ∈ s.breakPoints, s.table.Active bp.address ∨ Pending s bp.address ∨
    (s.trace = true ∧ (currentTrace s.bpTraces).addr = bp.address)

theorem resume_noneLost (h : Covered s thread) : NoneLost (resume s thread) := by
  obtain ⟨⟨b, rest, hfront⟩, hbps⟩ := h
  have hsub : s.stepping ⊆ (resume s thread).stepping := by
    simp only [resume]
    split
    · exact List.subset_cons_self _ _
    · exact List.Subset.refl _
  intro bp hbp
  rcases hbps bp hbp with ha | ⟨t, hmem, heq⟩ | ⟨htrace, haddr⟩
  · exact Or.inl ha
  · exact Or.inr ⟨t, hsub hmem, heq⟩
  · refine Or.inr ⟨thread, ?_, ?_⟩
    · simp only [resume, htrace, if_true]
      exact List.mem_cons_self
    · rw [hfront] at haddr
      rw [show (resume s thread).bpTraces = (thread, b) :: rest from hfront, tracedAddr_cons_self]
      exact congrArg some haddr

-- ---------------------------------------------------------------------------
-- The steps
-- ---------------------------------------------------------------------------

/-- The breakpoints of the user that the thread would step over do not need it to. -/
def StepsCovered (s : State) (addr : UInt64) : Prop :=
  addr ≠ 0 → ∀ bp ∈ users s.breakPoints, bp.address = (currentTrace s.bpTraces).addr →
    s.table.Active bp.address ∨ Pending s bp.address

instance (s : State) (addr : UInt64) : Decidable (StepsCovered s addr) :=
  inferInstanceAs (Decidable (addr ≠ 0 → _))

theorem setStepBp_covered (kd : Kd) (h : Covered s thread) (hbase : Base s.table s.breakPoints)
    (hshape : Shape s.breakPoints) (hsteps : StepsCovered s addr) :
    Covered (setStepBp kd s t addr) thread := by
  obtain ⟨hfront, hbps⟩ := h
  have hactive : ∀ bp ∈ users s.breakPoints, s.table.Active bp.address →
      (removeStepBps s.table s.breakPoints).1.Active bp.address := fun bp hbp =>
    removeStepBps_active hbase hshape hbp
  -- with an address, only those remain that do not rely on the trace flag
  have hrest : addr ≠ 0 → ∀ bp ∈ users s.breakPoints,
      (removeStepBps s.table s.breakPoints).1.Active bp.address ∨ Pending s bp.address := by
    intro hne bp hbp
    rcases hbps bp (mem_users.mp hbp).1 with ha | hp | ⟨-, haddr⟩
    · exact Or.inl (hactive bp hbp ha)
    · exact Or.inr hp
    · exact (hsteps hne bp hbp haddr.symm).imp_left (hactive bp hbp)
  rcases setStepBp_cases kd s t addr with ⟨-, heq⟩ | ⟨hne, ha, heq⟩ | ⟨hne, -, handle, -, -, heq⟩
  · rw [heq]
    refine ⟨hfront, fun bp hbp => ?_⟩
    exact (hbps bp (mem_users.mp hbp).1).imp_left (hactive bp hbp)
  · rw [heq]
    refine ⟨hfront, fun bp hbp => ?_⟩
    rcases List.mem_cons.mp hbp with rfl | hbp
    · exact Or.inl ha
    · exact (hrest hne bp hbp).imp_right Or.inl
  · rw [heq]
    refine ⟨hfront, fun bp hbp => ?_⟩
    rcases List.mem_cons.mp hbp with rfl | hbp
    · exact Or.inl ⟨_, List.mem_cons_self, rfl⟩
    · exact (hrest hne bp hbp).imp (·.mono (List.subset_cons_self _ _)) Or.inl

theorem trace_covered (sc : StateChange) (h : Covered s sc.thread) :
    Covered { s with trace := true, bpTraces := setNextAddr sc 0 s.bpTraces } sc.thread := by
  obtain ⟨⟨b, rest, hfront⟩, hbps⟩ := h
  have hset : setNextAddr sc 0 s.bpTraces = (sc.thread, ⟨b.addr, 0⟩) :: rest := by
    rw [hfront, setNextAddr_of_front]
  refine ⟨⟨_, _, hset⟩, fun bp hbp => ?_⟩
  rcases hbps bp hbp with ha | ⟨t, hmem, heq⟩ | ⟨-, haddr⟩
  · exact Or.inl ha
  · refine Or.inr (Or.inl ⟨t, hmem, ?_⟩)
    simp only [hset]
    rw [hfront] at heq
    by_cases ht : t = sc.thread
    · subst ht
      rw [tracedAddr_cons_self] at heq ⊢
      exact heq
    · rw [tracedAddr_cons_of_ne ht] at heq ⊢
      exact heq
  · refine Or.inr (Or.inr ⟨rfl, ?_⟩)
    simp only [hset]
    rwa [hfront] at haddr

theorem stepOver_covered (kd : Kd) (sc : StateChange) (h : Covered s sc.thread)
    (hbase : Base s.table s.breakPoints) (hshape : Shape s.breakPoints)
    (hsteps : stepsWithBp thisInstr = true → StepsCovered s (pc + thisInstr.length)) :
    Covered (stepOver kd s sc pc thisInstr) sc.thread := by
  rw [stepOver]
  split
  · next hbp => exact setStepBp_covered kd h hbase hshape (hsteps hbp)
  · exact trace_covered sc h

/-- The entry that the thread gets drops none that a breakpoint out of the table is pending
with. -/
def KeepsPending (s : State) (sc : StateChange) : Prop :=
  ∀ bp ∈ s.breakPoints, Pending s bp.address → s.table.Active bp.address ∨
    ∃ t ∈ s.stepping, tracedAddr (bpTraceGet sc s.bpTraces) t = some bp.address

instance (s : State) (sc : StateChange) : Decidable (KeepsPending s sc) :=
  inferInstanceAs (Decidable (∀ bp ∈ s.breakPoints, _))

theorem visited_of_atPc {s : State} {sc : StateChange} (hbp : bp ∈ s.bpsAt deleteAddr sc)
    (hat : AtPc (s.prevBpTraceAddr sc) sc.currPc bp) :
    (s.visited deleteAddr sc).2.trace = true ∧
      (s.visited deleteAddr sc).2.bpTrace.addr = sc.currPc := by
  rw [State.visited]
  rcases visitBps_snd sc s.stepOutThread (s.prevBpTraceAddr sc) sc.currPc 0 (s.bpsAt deleteAddr sc)
    (v := s.visitAt deleteAddr sc) rfl with ⟨hnone, -⟩ | ⟨pre, b, post, -, -, -, heq⟩
  · exact absurd hat (hnone bp hbp)
  · rw [heq]
    split
    · exact ⟨rfl, rfl⟩
    · exact ⟨checkConditions_sameTrace.2.1, checkConditions_sameTrace.2.2⟩

theorem examine_covered (h : NoneLost s) (hsees : SeesStruck deleteAddr s sc)
    (hkeeps : KeepsPending s sc) :
    Covered (examine kd deleteAddr s sc) sc.thread := by
  obtain ⟨b, next, rest, hget, htraces⟩ := tracesAt_front s sc
  obtain ⟨hsub, -, heach, -, hactive⟩ := recreate_spec kd (s.tableAt deleteAddr sc)
    ((s.bpsAt deleteAddr sc).map (outcome (s.prevBpTraceAddr sc) sc.currPc))
  have hfront : (examine kd deleteAddr s sc).bpTraces =
      (sc.thread, (s.visited deleteAddr sc).2.bpTrace) :: rest := by
    simp only [examine, htraces, setCurrentTrace]
  refine ⟨⟨_, _, hfront⟩, fun bp' hbp' => ?_⟩
  obtain ⟨bp, hbp, haddr⟩ : ∃ bp ∈ s.bpsAt deleteAddr sc, bp.address = bp'.address := by
    have hmem := List.mem_map_of_mem (f := BreakPoint.unset) hbp'
    rw [examine_unset] at hmem
    obtain ⟨bp, hbp, hunset⟩ := List.mem_map.mp hmem
    exact ⟨bp, hbp, address_of_unset hunset⟩
  rw [← haddr]
  have htable : (examine kd deleteAddr s sc).table = (recreate kd (s.tableAt deleteAddr sc)
      ((s.bpsAt deleteAddr sc).map (outcome (s.prevBpTraceAddr sc) sc.currPc))).1 := by
    simp only [examine, State.visited, visitBps_fst]
  by_cases hw : windowed (s.prevBpTraceAddr sc) sc.currPc bp = true
  · by_cases hpc : bp.address = sc.currPc
    · obtain ⟨htrace, hta⟩ := visited_of_atPc hbp ⟨hw, hpc⟩
      refine Or.inr (Or.inr ⟨htrace, ?_⟩)
      rw [hfront, hpc]
      exact hta
    · refine Or.inl ?_
      rw [htable]
      have hact := hactive _ (List.mem_map_of_mem hbp) (by rw [outcome_snd, hw]; simpa using hpc)
      rwa [outcome_address] at hact
  · obtain ⟨hmem, hstate⟩ := not_deletesAll_of_mem hbp
    rcases (h bp hmem).elim Or.inl (hkeeps bp hmem) with ha | ⟨t, ht, heq⟩
    · refine Or.inl ?_
      rw [htable]
      refine Table.Active.mono hsub ?_
      rw [hstate]
      exact Table.active_stateChange ha fun hstruck => hw (hsees bp hbp hstruck)
    · rw [hget] at heq
      by_cases hthread : t = sc.thread
      · -- the breakpoint that the thread itself stepped over is in the window
        subst hthread
        rw [tracedAddr_cons_self, Option.some.injEq] at heq
        refine absurd ?_ hw
        simp [windowed, State.prevBpTraceAddr, htraces, currentTrace, heq]
      · refine Or.inr (Or.inl ⟨t, ?_, ?_⟩)
        · simp only [examine, List.mem_filter]
          exact ⟨ht, by simpa using hthread⟩
        · rw [hfront, tracedAddr_cons_of_ne hthread]
          rwa [tracedAddr_cons_of_ne hthread] at heq

theorem clearBps_covered (nums : List Nat) (h : Covered s thread)
    (hbase : Base s.table s.breakPoints)
    (hnodup : (s.breakPoints.map (·.address)).Nodup) :
    Covered { s with
      table := (clearBps s.table s.breakPoints nums).1
      breakPoints := (clearBps s.table s.breakPoints nums).2 } thread := by
  refine ⟨h.front, fun bp hbp => ?_⟩
  refine (h.bps bp ((clearBps_sublist _ _ nums).subset hbp)).imp_left fun ⟨e, he, heq⟩ => ?_
  exact ⟨e, (clearBps_keeps hbase hnodup).2 e he bp hbp heq.symm, heq⟩

theorem setSkip_covered (skip : Bool) (nums : List Nat) (h : Covered s thread) :
    Covered { s with breakPoints := setSkip skip s.breakPoints nums } thread := by
  refine ⟨h.front, fun bp hbp => ?_⟩
  have hmem := List.mem_map_of_mem (f := BreakPoint.address) hbp
  simp only [setSkip_map BreakPoint.address (fun _ _ => rfl)] at hmem
  obtain ⟨b, hb, heq⟩ := List.mem_map.mp hmem
  rw [← heq]
  exact h.bps b hb

theorem bpx_covered (kd : Kd) (h : Covered s thread) :
    Covered (bpx kd s address eprocess ethread when readable) thread := by
  rcases bpx_cases kd s address eprocess ethread when readable with heq | ⟨-, -, n, -, -, heq⟩
  · rwa [heq]
  · rw [heq]
    refine ⟨h.front, fun bp hbp => ?_⟩
    rcases List.mem_append.mp hbp with hbp | hbp
    · exact (h.bps bp hbp).imp_left (·.mono (List.subset_cons_self _ _))
    · rw [List.mem_singleton.mp hbp]
      exact Or.inl ⟨_, List.mem_cons_self, rfl⟩

/-- What is known of the breakpoints in each phase. -/
def PhaseCovered (s : State) : Prop :=
  match s.phase with
  | .running => NoneLost s
  | .examined sc _ _ _ => Covered s sc.thread
  | .session sc _ _ => Covered s sc.thread

/-- What a step has to meet so that no breakpoint is lost. -/
structure LostSafe (deleteAddr : UInt64) (s : State) (i : Input) : Prop where
  sees : ∀ sc, i = .report sc → SeesStruck deleteAddr s sc
  keeps : ∀ sc, i = .report sc → KeepsPending s sc
  clear : ∀ addr ∈ s.stepBpAt i, StepsClear s addr
  steps : ∀ addr ∈ s.stepBpAt i, StepsCovered s addr

instance (deleteAddr : UInt64) (s : State) : (i : Input) → Decidable (LostSafe deleteAddr s i)
  | .report sc => decidable_of_iff (SeesStruck deleteAddr s sc ∧ KeepsPending s sc)
      ⟨fun ⟨hsees, hkeeps⟩ => ⟨by rintro _ ⟨⟩; exact hsees,
        by rintro _ ⟨⟩; exact hkeeps, nofun, nofun⟩,
        fun h => ⟨h.sees sc rfl, h.keeps sc rfl⟩⟩
  | .proceed => decidable_of_iff
      ((∀ addr ∈ s.stepBpAt .proceed, StepsClear s addr) ∧
        ∀ addr ∈ s.stepBpAt .proceed, StepsCovered s addr)
      ⟨fun h => ⟨nofun, nofun, h.1, h.2⟩, fun h => ⟨h.clear, h.steps⟩⟩
  | .command c => decidable_of_iff
      ((∀ addr ∈ s.stepBpAt (.command c), StepsClear s addr) ∧
        ∀ addr ∈ s.stepBpAt (.command c), StepsCovered s addr)
      ⟨fun h => ⟨nofun, nofun, h.1, h.2⟩, fun h => ⟨h.clear, h.steps⟩⟩

theorem step_covered (hshaped : Shaped s) (hbase : Base s.table s.breakPoints) (h : PhaseCovered s)
    (hsafe : LostSafe deleteAddr s i) (hs : step kd deleteAddr s i = some s') :
      PhaseCovered s' := by
  have hsteps := hsafe.steps
  rcases step_cases hs with ⟨sc, rfl, hp, rfl⟩ | ⟨sc, breakIn, pc, thisInstr, rfl, hp, rfl⟩ |
    ⟨c, sc, pc, thisInstr, rfl, hp, rfl⟩
  · rw [PhaseCovered, hp] at h
    exact examine_covered h (hsafe.sees sc rfl) (hsafe.keeps sc rfl)
  · rw [PhaseCovered, hp] at h
    cases breakIn with
    | true =>
      have hcovered : Covered (setStepBp kd s sc.thread 0) sc.thread :=
        setStepBp_covered kd h hbase hshaped.shape fun hne => absurd rfl hne
      exact ⟨hcovered.front, hcovered.bps⟩
    | false =>
      simp only [State.stepBpAt, hp] at hsteps
      simp only [proceed, Bool.false_eq_true, if_false, stepOut]
      refine resume_noneLost ?_
      split
      · next hout =>
        have hcovered := stepOver_covered kd sc h hbase hshaped.shape fun hbp =>
          hsteps _ (if_pos ⟨hout, hbp⟩)
        split
        · exact ⟨hcovered.front, hcovered.bps⟩
        · exact hcovered
      · exact h
  · have hnodup := (shape_of_users (hshaped.session hp)).mp hshaped.shape
    rw [PhaseCovered, hp] at h
    simp only [State.stepBpAt, hp] at hsteps
    have hover : c.stepsOver = true → Covered (stepOver kd s sc pc thisInstr) sc.thread :=
      fun hc => stepOver_covered kd sc h hbase hshaped.shape fun hbp => hsteps _ (if_pos ⟨hc, hbp⟩)
    cases c with
    | bpx address eprocess ethread when readable =>
      have hphase : (execute kd s sc pc thisInstr
          (.bpx address eprocess ethread when readable)).phase = s.phase := by
        rcases bpx_cases kd s address eprocess ethread when readable with heq | ⟨-, -, n, -, -, heq⟩
        · rw [execute, heq]
        · rw [execute, heq]
      rw [PhaseCovered, hphase, hp]
      exact bpx_covered kd h
    | bc nums =>
      have hcovered := clearBps_covered
        ((parseListOfDecsArgs s.breakPoints.length nums).mergeSort (· ≥ ·)) h hbase hnodup
      simp only [PhaseCovered, execute, hp]
      exact ⟨hcovered.front, hcovered.bps⟩
    | bd nums =>
      have hcovered := setSkip_covered true (parseListOfDecsArgs s.breakPoints.length nums) h
      simp only [PhaseCovered, execute, hp]
      exact ⟨hcovered.front, hcovered.bps⟩
    | be nums =>
      have hcovered := setSkip_covered false (parseListOfDecsArgs s.breakPoints.length nums) h
      simp only [PhaseCovered, execute, hp]
      exact ⟨hcovered.front, hcovered.bps⟩
    | r pc => exact ⟨h.front, h.bps⟩
    | p => exact resume_noneLost (hover rfl)
    | pRet =>
      refine resume_noneLost ?_
      split
      · exact hover rfl
      · exact ⟨(hover rfl).front, (hover rfl).bps⟩
    | t => exact resume_noneLost (trace_covered sc h)
    | x => exact resume_noneLost h

structure NoneLostInvariant (s : State) : Prop where
  shaped : Shaped s
  base : Base s.table s.breakPoints
  covered : PhaseCovered s

theorem noBreakpoint_lost (kd : Kd) (deleteAddr : UInt64) (s : State)
    (h : Runs.Reachable (step kd deleteAddr) (LostSafe deleteAddr) State.start s)
    (hp : s.phase = .running) :
    ∀ bp ∈ s.breakPoints, s.table.Active bp.address ∨ Pending s bp.address := by
  have hinv : NoneLostInvariant s := by
    refine h.invariant ⟨start_shaped, start_reached.base,
      by simp [PhaseCovered, NoneLost, State.start]⟩ ?_
    intro s i s' hs hsafe hstep
    exact ⟨step_shaped hs.shaped hstep,
      step_base hs.shaped hs.base ⟨hsafe.sees, hsafe.clear⟩ hstep,
      step_covered hs.shaped hs.base hs.covered hsafe hstep⟩
  have hcovered := hinv.covered
  rw [PhaseCovered, hp] at hcovered
  exact hcovered

/-- Thread 1 hits the breakpoint at 0x2000 and is resumed to step over it. -/
def steppedInputs : List Input :=
  [.report (stateChangeAt 1 .breakpoint true 0x1000 nopInstr 0 thread1_ne_zero), .proceed,
    .command (.bpx 0x2000 0 0 "" true), .command .x,
    .report (stateChangeAt 1 .breakpoint false 0x2000 nopInstr 0x2001 thread1_ne_zero), .proceed,
    .command .x]

def steppedState : State :=
  (Runs.run (step slots 0x9000) (LostSafe 0x9000) State.start steppedInputs).getD State.start

theorem steppedInputs_pending :
    steppedState.phase = .running ∧ steppedState.table = [] ∧
    ∀ bp ∈ steppedState.breakPoints, steppedState.table.Active bp.address ∨
      Pending steppedState bp.address := by
  have hrun : Runs.run (step slots 0x9000) (LostSafe 0x9000) State.start steppedInputs =
      some steppedState := Runs.run_eq_some_getD (by decide)
  exact ⟨rfl, rfl,
    noBreakpoint_lost slots 0x9000 steppedState (Runs.reachable_of_run .init hrun) rfl⟩

-- ---------------------------------------------------------------------------
-- A breakpoint on a call that is stepped over
-- ---------------------------------------------------------------------------

/-- The breakpoint at 0x2000 is on a call, and the user steps over the call. -/
def lostInputs : List Input :=
  [.report (stateChangeAt 1 .breakpoint true 0x1000 nopInstr 0 thread1_ne_zero), .proceed,
    .command (.bpx 0x2000 0 0 "" true), .command .x,
    .report (stateChangeAt 1 .breakpoint false 0x2000 callInstr 0x3000 thread1_ne_zero), .proceed,
    .command .p]

def lostState : State :=
  (Runs.run (step slots 0x9000) (fun _ _ => True) State.start lostInputs).getD State.start

theorem lostInputs_lost :
    Runs.run (step slots 0x9000) (fun _ _ => True) State.start lostInputs = some lostState ∧
    lostState.phase = .running ∧
    ¬ ∀ bp ∈ lostState.breakPoints, lostState.table.Active bp.address ∨
      Pending lostState bp.address := by
  exact ⟨rfl, rfl, by decide⟩

end BugChecker.Break
