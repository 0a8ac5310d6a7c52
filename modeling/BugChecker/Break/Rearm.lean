import BugChecker.Break.Lost
import BugChecker.Step.Session
import BugChecker.Step.Successor

/-!
# Resuming at a breakpoint

A thread that is resumed at a breakpoint executes the instruction there with the
trace flag, and the trap has the breakpoint recreated. The trap is known by the
address where it was expected, which is kept with the thread until then.
-/

namespace BugChecker.Break

-- ---------------------------------------------------------------------------
-- The entry of a thread
-- ---------------------------------------------------------------------------

/-- The entry of a thread is not the one that is dropped for the entry of another. -/
def KeepsEntry (ts : List (UInt64 × BpTrace)) (t : UInt64) (sc : StateChange) : Prop :=
  (ts.findIdx? (·.1 == sc.thread)).isSome ∨ ts.findIdx (·.1 == t) + 1 < sc.tracesDim

instance (ts : List (UInt64 × BpTrace)) (t : UInt64) (sc : StateChange) :
    Decidable (KeepsEntry ts t sc) := inferInstanceAs (Decidable (_ ∨ _))

theorem find?_take {p : α → Bool} (xs : List α) (h : xs.findIdx p < n) :
    (xs.take n).find? p = xs.find? p := by
  induction xs generalizing n with
  | nil => rw [List.take_nil]
  | cons x xs ih =>
    cases n with
    | zero => omega
    | succ n =>
      rw [List.take_succ_cons, List.find?_cons, List.find?_cons]
      cases hx : p x with
      | true => rfl
      | false =>
        simp only
        refine ih ?_
        rw [List.findIdx_cons, hx, cond_false] at h
        omega

theorem find?_eraseIdx {p : α → Bool} (xs : List α) (i : Nat) (h : ∀ x ∈ xs[i]?, p x = false) :
    (xs.eraseIdx i).find? p = xs.find? p := by
  induction xs generalizing i with
  | nil => rfl
  | cons x xs ih =>
    cases i with
    | zero =>
      rw [List.eraseIdx_cons_zero, List.find?_cons, h x rfl]
    | succ i =>
      rw [List.eraseIdx_cons_succ, List.find?_cons, List.find?_cons, ih i h]

theorem entry_bpTraceGet (sc : StateChange) (h : t ≠ sc.thread) (hkeeps : KeepsEntry ts t sc)
    (hentry : entry ts t = some b) : entry (bpTraceGet sc ts) t = some b := by
  rw [bpTraceGet]
  split
  · next hnone =>
    have hidx : ts.findIdx (·.1 == t) + 1 < sc.tracesDim := by
      rcases hkeeps with hsome | hidx
      · rw [hnone] at hsome
        cases hsome
      · exact hidx
    obtain ⟨n, hn⟩ : ∃ n, sc.tracesDim = n + 1 := ⟨sc.tracesDim - 1, by omega⟩
    rw [resize, hn, List.take_succ_cons, List.cons_append, entry_cons_of_ne h]
    unfold entry at hentry ⊢
    obtain ⟨e, he, rfl⟩ := Option.map_eq_some_iff.mp hentry
    rw [List.find?_append, find?_take ts (by omega), he]
    rfl
  · next i hi =>
    obtain ⟨hlt, hthread, -⟩ := List.findIdx?_eq_some_iff_getElem.mp hi
    have hfront : ts.getD i (0, ⟨0, 0⟩) = (sc.thread, ts[i].2) := by
      rw [List.getD_eq_getElem?_getD, List.getElem?_eq_getElem hlt, Option.getD_some]
      exact Prod.ext (beq_iff_eq.mp hthread) rfl
    rw [hfront, entry_cons_of_ne h]
    unfold entry at hentry ⊢
    rw [find?_eraseIdx ts i, hentry]
    rw [List.getElem?_eq_getElem hlt]
    rintro x ⟨⟩
    rw [beq_iff_eq.mp hthread]
    exact beq_eq_false_iff_ne.mpr h.symm

theorem bpTraceGet_of_entry (sc : StateChange) (h : entry ts sc.thread = some b) :
    ∃ rest, bpTraceGet sc ts = (sc.thread, b) :: rest := by
  obtain ⟨e, he, rfl⟩ := Option.map_eq_some_iff.mp h
  have hthread : e.1 = sc.thread := by simpa using List.find?_some he
  rw [bpTraceGet]
  split
  · next hnone =>
    have hno := List.findIdx?_eq_none_iff.mp hnone e (List.mem_of_find?_eq_some he)
    rw [hthread, beq_self_eq_true] at hno
    cases hno
  · next i hi =>
    have hget : ts[i]? = some e := by
      rw [List.find?_eq_bind_findIdx?_getElem?, hi] at he
      exact he
    rw [List.getD_eq_getElem?_getD, hget, Option.getD_some]
    exact ⟨_, congrArg (· :: _) (Prod.ext hthread rfl)⟩

-- ---------------------------------------------------------------------------
-- Other threads meanwhile
-- ---------------------------------------------------------------------------

/-- The thread that the debugger handles is another one, and its entry is in front. -/
def HandlesOther (t : UInt64) (s : State) : Prop :=
  match s.phase with
  | .running => True
  | .examined sc _ _ _ => sc.thread ≠ t ∧ ∃ b rest, s.bpTraces = (sc.thread, b) :: rest
  | .session sc _ _ => sc.thread ≠ t ∧ ∃ b rest, s.bpTraces = (sc.thread, b) :: rest

/-- A thread steps with the trace flag and has an entry. -/
structure Waiting (t : UInt64) (b : BpTrace) (s : State) : Prop where
  stepping : t ∈ s.stepping
  entry : entry s.bpTraces t = some b
  other : HandlesOther t s

/-- Only other threads report, and none has the entry of the thread dropped. -/
def OthersKeep (t : UInt64) (s : State) : Input → Prop
  | .report sc => sc.thread ≠ t ∧ KeepsEntry s.bpTraces t sc
  | _ => True

instance (t : UInt64) (s : State) : (i : Input) → Decidable (OthersKeep t s i)
  | .report sc => inferInstanceAs (Decidable (sc.thread ≠ t ∧ KeepsEntry s.bpTraces t sc))
  | .proceed => inferInstanceAs (Decidable True)
  | .command _ => inferInstanceAs (Decidable True)

theorem examine_waiting (h : Waiting t b s) (hne : sc.thread ≠ t)
    (hkeeps : KeepsEntry s.bpTraces t sc) : Waiting t b (examine kd deleteAddr s sc) := by
  obtain ⟨b', next, rest, hget, htraces⟩ := tracesAt_front s sc
  have hfront : (examine kd deleteAddr s sc).bpTraces =
      (sc.thread, (s.visited deleteAddr sc).2.bpTrace) :: rest := by
    simp only [examine, htraces, setCurrentTrace]
  have hentry := entry_bpTraceGet sc hne.symm hkeeps h.entry
  rw [hget, entry_cons_of_ne hne.symm] at hentry
  refine ⟨?_, ?_, hne, _, _, hfront⟩
  · simp only [examine, List.mem_filter]
    exact ⟨h.stepping, by simpa using hne.symm⟩
  · rw [hfront, entry_cons_of_ne hne.symm]
    exact hentry

theorem resume_waiting (hstepping : t ∈ s.stepping) (hentry : entry s.bpTraces t = some b) :
    Waiting t b (resume s thread) := by
  refine ⟨?_, hentry, trivial⟩
  simp only [resume]
  split
  · exact List.mem_cons_of_mem _ hstepping
  · exact hstepping

theorem setStepBp_traces (kd : Kd) (s : State) (thread addr : UInt64) :
    (setStepBp kd s thread addr).bpTraces = s.bpTraces ∧
      (setStepBp kd s thread addr).stepping = s.stepping := by
  rcases setStepBp_cases kd s thread addr with ⟨-, heq⟩ | ⟨-, -, heq⟩ | ⟨-, -, n, -, -, heq⟩
  · rw [heq]
    exact ⟨rfl, rfl⟩
  · rw [heq]
    exact ⟨rfl, rfl⟩
  · rw [heq]
    exact ⟨rfl, rfl⟩

theorem entry_setNextAddr (sc : StateChange) (hne : sc.thread ≠ t)
    (hfront : ts = (sc.thread, b') :: rest) : entry (setNextAddr sc next ts) t = entry ts t := by
  rw [hfront, setNextAddr_of_front, entry_cons_of_ne hne.symm, entry_cons_of_ne hne.symm]

theorem stepOver_traces (kd : Kd) (sc : StateChange) (pc : UInt64) (thisInstr : Instr)
    (hne : sc.thread ≠ t)
    (hfront : s.bpTraces = (sc.thread, b') :: rest) :
    (stepOver kd s sc pc thisInstr).stepping = s.stepping ∧
      entry (stepOver kd s sc pc thisInstr).bpTraces t = entry s.bpTraces t := by
  rw [stepOver]
  split
  · obtain ⟨htraces, hstepping⟩ := setStepBp_traces kd s sc.thread (pc + thisInstr.length)
    exact ⟨hstepping, congrArg (entry · t) htraces⟩
  · exact ⟨rfl, entry_setNextAddr sc hne hfront⟩

theorem stepOut_traces (kd : Kd) (sc : StateChange) (pc : UInt64) (thisInstr : Instr)
    (hne : sc.thread ≠ t)
    (hfront : s.bpTraces = (sc.thread, b') :: rest) :
    (stepOut kd s sc pc thisInstr).stepping = s.stepping ∧
      entry (stepOut kd s sc pc thisInstr).bpTraces t = entry s.bpTraces t := by
  have hover := stepOver_traces kd sc pc thisInstr hne hfront
  rw [stepOut]
  split
  · simp only
    split
    · exact hover
    · exact hover
  · exact ⟨rfl, rfl⟩

theorem proceed_waiting (h : Waiting t b s) (hp : s.phase = .examined sc breakIn pc thisInstr) :
    Waiting t b (proceed kd s sc breakIn pc thisInstr) := by
  have hother := h.other
  rw [HandlesOther, hp] at hother
  obtain ⟨hne, b', rest, hfront⟩ := hother
  cases breakIn with
  | true =>
    obtain ⟨htraces, hstepping⟩ := setStepBp_traces kd s sc.thread 0
    refine ⟨hstepping ▸ h.stepping, htraces ▸ h.entry, hne, b', rest, ?_⟩
    exact htraces.trans hfront
  | false =>
    obtain ⟨hstepping, hentry⟩ := stepOut_traces kd sc pc thisInstr hne hfront
    exact resume_waiting (hstepping ▸ h.stepping) (hentry.trans h.entry)

theorem execute_waiting (h : Waiting t b s)
    (hp : s.phase = .session sc pc thisInstr) (c : Command) :
    Waiting t b (execute kd s sc pc thisInstr c) := by
  have hother := h.other
  have hhandles := h.other
  rw [HandlesOther, hp] at hother
  obtain ⟨hne, b', rest, hfront⟩ := hother
  obtain ⟨hstepping, hentry⟩ := stepOver_traces kd sc pc thisInstr hne hfront
  cases c with
  | bpx address eprocess ethread when readable =>
    rcases bpx_cases kd s address eprocess ethread when readable with heq | ⟨-, -, n, -, -, heq⟩
    · rw [execute, heq]
      exact h
    · rw [execute, heq]
      exact ⟨h.stepping, h.entry, hhandles⟩
  | bc nums => exact ⟨h.stepping, h.entry, hhandles⟩
  | bd nums => exact ⟨h.stepping, h.entry, hhandles⟩
  | be nums => exact ⟨h.stepping, h.entry, hhandles⟩
  | r pc => exact ⟨h.stepping, h.entry, hne, b', rest, hfront⟩
  | p => exact resume_waiting (hstepping ▸ h.stepping) (hentry.trans h.entry)
  | pRet =>
    refine resume_waiting ?_ ?_
    · split
      · exact hstepping ▸ h.stepping
      · exact hstepping ▸ h.stepping
    · split
      · exact hentry.trans h.entry
      · exact hentry.trans h.entry
  | t => exact resume_waiting h.stepping ((entry_setNextAddr sc hne hfront).trans h.entry)
  | x => exact resume_waiting h.stepping h.entry

theorem step_waiting (h : Waiting t b s) (hok : OthersKeep t s i)
    (hs : step kd deleteAddr s i = some s') : Waiting t b s' := by
  rcases step_cases hs with ⟨sc, rfl, -, rfl⟩ | ⟨sc, breakIn, pc, thisInstr, rfl, hp, rfl⟩ |
    ⟨c, sc, pc, thisInstr, rfl, hp, rfl⟩
  · exact examine_waiting h hok.1 hok.2
  · exact proceed_waiting h hp
  · exact execute_waiting h hp c

-- ---------------------------------------------------------------------------
-- The thread that is resumed
-- ---------------------------------------------------------------------------

/-- A state change is examined and its thread is resumed, with `X` if the debugger breaks in. -/
def resumed (kd : Kd) (deleteAddr : UInt64) (s : State) (sc : StateChange) : Option State := do
  let s ← step kd deleteAddr s (.report sc)
  let s ← step kd deleteAddr s .proceed
  match s.phase with
  | .session _ _ _ => step kd deleteAddr s (.command .x)
  | _ => some s

theorem evalWhen_nextAddr (h : v.bpTrace.nextAddr = v.decoded.stepAddr) :
    (evalWhen sc currPc bp v).bpTrace.nextAddr = (evalWhen sc currPc bp v).decoded.stepAddr := by
  rw [evalWhen]
  split
  · dsimp only
    split
    · rfl
    · exact h
  · exact h

theorem checkConditions_nextAddr (h : v.bpTrace.nextAddr = v.decoded.stepAddr) :
    (checkConditions sc stepOutThread currPc index bp v).bpTrace.nextAddr =
      (checkConditions sc stepOutThread currPc index bp v).decoded.stepAddr := by
  have hwhen : (evalWhen sc currPc bp { v with breakIn := threadMatches sc bp }).bpTrace.nextAddr =
      (evalWhen sc currPc bp { v with breakIn := threadMatches sc bp }).decoded.stepAddr :=
    evalWhen_nextAddr h
  simp only [checkConditions]
  split
  · split
    · exact hwhen
    · exact hwhen
  · split
    · exact hwhen
    · exact hwhen

theorem evalWhen_decoded (h : v.decoded = disasmCurrInstr sc old v.pc) (hpc : v.pc = currPc) :
    ∃ old, (evalWhen sc currPc bp v).decoded =
      disasmCurrInstr sc old (evalWhen sc currPc bp v).pc := by
  rw [evalWhen]
  split
  · dsimp only
    split
    · exact ⟨_, rfl⟩
    · next heq =>
      exact ⟨old, h.trans (congrArg (disasmCurrInstr sc old) (hpc.trans (not_not.mp heq)))⟩
  · exact ⟨old, h⟩

theorem checkConditions_decoded (h : v.decoded = disasmCurrInstr sc old v.pc)
    (hpc : v.pc = currPc) :
    ∃ old, (checkConditions sc stepOutThread currPc index bp v).decoded =
      disasmCurrInstr sc old (checkConditions sc stepOutThread currPc index bp v).pc := by
  obtain ⟨old', hwhen⟩ : ∃ old,
      (evalWhen sc currPc bp { v with breakIn := threadMatches sc bp }).decoded =
        disasmCurrInstr sc old (evalWhen sc currPc bp
          { v with breakIn := threadMatches sc bp }).pc :=
    evalWhen_decoded h hpc
  refine ⟨old', ?_⟩
  simp only [checkConditions]
  split
  · split
    · exact hwhen
    · exact hwhen
  · split
    · exact hwhen
    · exact hwhen

theorem visited_nextAddr {s : State} {sc : StateChange} (hbp : bp ∈ s.bpsAt deleteAddr sc)
    (hat : AtPc (s.prevBpTraceAddr sc) sc.currPc bp)
    (hdisasm : sc.disasm (s.visited deleteAddr sc).2.pc = some d) (hd : d.stepAddr ≠ 0) :
    (s.visited deleteAddr sc).2.bpTrace.nextAddr = d.stepAddr := by
  have hdecoded : (s.visited deleteAddr sc).2.bpTrace.nextAddr =
        (s.visited deleteAddr sc).2.decoded.stepAddr ∧
      ∃ old, (s.visited deleteAddr sc).2.decoded =
        disasmCurrInstr sc old (s.visited deleteAddr sc).2.pc := by
    rw [State.visited]
    rcases visitBps_snd sc s.stepOutThread (s.prevBpTraceAddr sc) sc.currPc 0
        (s.bpsAt deleteAddr sc)
      (v := s.visitAt deleteAddr sc) rfl with ⟨hnone, -⟩ | ⟨pre, b, post, -, -, -, heq⟩
    · exact absurd hat (hnone bp hbp)
    · rw [heq]
      split
      · exact ⟨rfl, Decoded.none, rfl⟩
      · exact ⟨checkConditions_nextAddr rfl, checkConditions_decoded rfl rfl⟩
  obtain ⟨hnext, old, hold⟩ := hdecoded
  rw [hnext, hold, disasmCurrInstr, hdisasm]
  exact if_neg hd

theorem setStepBp_zero (kd : Kd) (s : State) (thread : UInt64) :
    (setStepBp kd s thread 0).trace = s.trace := by
  rcases setStepBp_cases kd s thread 0 with ⟨-, heq⟩ | ⟨hne, -⟩ | ⟨hne, -⟩
  · rw [heq]
  · exact absurd rfl hne
  · exact absurd rfl hne

theorem resumed_cases (h : resumed kd deleteAddr s sc = some s') :
    let s1 := examine kd deleteAddr s sc
    let v := (s.visited deleteAddr sc).2
    (v.breakIn = true ∧ s' = resume { setStepBp kd s1 sc.thread 0 with
      stepOutThread := 0, phase := .session sc v.pc v.decoded.instr } sc.thread) ∨
    (v.breakIn = false ∧ s' = resume (stepOut kd s1 sc v.pc v.decoded.instr) sc.thread) := by
  have hphase : (examine kd deleteAddr s sc).phase =
      .examined sc (s.visited deleteAddr sc).2.breakIn
      (s.visited deleteAddr sc).2.pc (s.visited deleteAddr sc).2.decoded.instr := rfl
  cases hp : s.phase with
  | examined sc breakIn pc thisInstr => simp [resumed, step, hp] at h
  | session sc pc thisInstr => simp [resumed, step, hp] at h
  | running =>
    simp only [resumed, step, hp, Option.bind_eq_bind, Option.bind_some, hphase] at h
    cases hb : (s.visited deleteAddr sc).2.breakIn with
    | true =>
      rw [hb] at h
      exact .inl ⟨hb, (Option.some.inj h).symm⟩
    | false =>
      rw [hb] at h
      exact .inr ⟨hb, (Option.some.inj h).symm⟩

/-- A thread that is resumed at a breakpoint steps over it, with the address of the breakpoint and
the expected one in its entry. -/
theorem resumed_waiting (hbp : bp ∈ s.bpsAt deleteAddr sc)
    (hat : AtPc (s.prevBpTraceAddr sc) sc.currPc bp)
    (hout : (s.visited deleteAddr sc).2.breakIn = true ∨ s.stepOutThread ≠ sc.thread)
    (h : resumed kd deleteAddr s sc = some s') :
    Waiting sc.thread ⟨sc.currPc, (s.visited deleteAddr sc).2.bpTrace.nextAddr⟩ s' := by
  obtain ⟨b, next, rest, -, htraces⟩ := tracesAt_front s sc
  obtain ⟨htrace, haddr⟩ := visited_of_atPc hbp hat
  have hentry : entry (examine kd deleteAddr s sc).bpTraces sc.thread =
      some ⟨sc.currPc, (s.visited deleteAddr sc).2.bpTrace.nextAddr⟩ := by
    simp only [examine, htraces, setCurrentTrace, entry_cons_self, ← haddr]
  have hresume : ∀ s1 : State, s1.trace = true →
      s1.bpTraces = (examine kd deleteAddr s sc).bpTraces →
      Waiting sc.thread ⟨sc.currPc, (s.visited deleteAddr sc).2.bpTrace.nextAddr⟩
        (resume s1 sc.thread) := by
    intro s1 htrace1 htraces1
    refine ⟨?_, ?_, trivial⟩
    · simp only [resume, htrace1, if_true]
      exact List.mem_cons_self
    · simp only [resume, htraces1, hentry]
  rcases resumed_cases h with ⟨-, rfl⟩ | ⟨hb, rfl⟩
  · refine hresume _ ?_ ?_
    · exact (setStepBp_zero kd (examine kd deleteAddr s sc) sc.thread).trans htrace
    · exact (setStepBp_traces kd (examine kd deleteAddr s sc) sc.thread 0).1
  · have hne : s.stepOutThread ≠ sc.thread := hout.resolve_left (by simp [hb])
    have hno : stepOut kd (examine kd deleteAddr s sc) sc (s.visited deleteAddr sc).2.pc
        (s.visited deleteAddr sc).2.decoded.instr = examine kd deleteAddr s sc :=
      if_neg fun h => hne h.2
    rw [hno]
    exact hresume _ htrace rfl

-- ---------------------------------------------------------------------------
-- The trap
-- ---------------------------------------------------------------------------

/-- The debugger disassembled the instruction with the registers and the memory that the thread is
resumed with. -/
structure Disassembled (decode : Step.Decoder) (build : Build) (compat : Bool) (sc : StateChange)
    (pc : UInt64) (ctx : Step.Context) (mem : Modules.Snapshot) (i : Step.Instr) : Prop where
  atPc : ctx.pc build = pc
  decoded : ∃ bytes, mem.read pc Step.thisInstrMaxSize = some bytes ∧
    decode (Step.machineMode build compat) bytes = (i, true)
  disasm : sc.disasm pc =
    some ⟨i.toBreak, (Step.disasmCurrInstr decode build compat .zero ctx mem).stepAddr⟩

theorem trap_rearms (h : Waiting sc.thread b s) (hexc : sc.exception = .singleStep)
    (hpc : sc.pc = b.nextAddr) (hne : sc.pc ≠ b.addr) :
    initialBreakIn deleteAddr sc s = false ∧
      ∀ u ∈ s.breakPoints, u.address = b.addr →
        (examine kd deleteAddr s sc).table.Active b.addr := by
  obtain ⟨rest, hget⟩ := bpTraceGet_of_entry sc h.entry
  have hexpected : expectedStep sc s = true := by
    simp [expectedStep, hexc, hget, currentTrace, hpc]
  have hcurr : sc.currPc = sc.pc := by simp [StateChange.currPc, skipsInt3, hexc]
  refine ⟨by simp [initialBreakIn, hexc, hexpected], fun u hu haddr => ?_⟩
  obtain ⟨b', next, rest', hget', htraces⟩ := tracesAt_front s sc
  have hb : b' = b := by
    rw [hget] at hget'
    simpa using (List.cons.inj hget').1.symm
  have hprev : s.prevBpTraceAddr sc = u.address := by
    rw [State.prevBpTraceAddr, htraces, hb, haddr]
    rfl
  have hmem : u ∈ s.bpsAt deleteAddr sc := by
    rw [State.bpsAt, if_neg (by simp [deletesAll, hexc])]
    exact hu
  have hwanted : (outcome (s.prevBpTraceAddr sc) sc.currPc u).2 = true := by
    rw [outcome_snd, hcurr]
    simp [windowed, hprev, haddr, hne.symm]
  have hactive := (recreate_spec kd (s.tableAt deleteAddr sc)
    ((s.bpsAt deleteAddr sc).map (outcome (s.prevBpTraceAddr sc) sc.currPc))).active _
    (List.mem_map_of_mem hmem) hwanted
  rw [outcome_address, haddr] at hactive
  simpa only [examine, State.visited, visitBps_fst] using hactive

theorem Disassembled.stepAddr (h : Disassembled decode build compat sc pc ctx mem i) :
    (Step.disasmCurrInstr decode build compat .zero ctx mem).stepAddr =
      Step.resolve build compat mem (Step.calculateStepDestination build compat ctx i).2 := by
  obtain ⟨bytes, hbytes, hdec⟩ := h.decoded
  rw [← h.atPc] at hbytes
  simp only [Step.disasmCurrInstr, hbytes, hdec]
  split
  · next hzero =>
    rw [hzero]
    rfl
  · rfl

/-- A thread is resumed at a breakpoint, other threads report, and then it traps. The trap is no
reason to break in, and the breakpoint is recreated. -/
theorem resume_invisible (kd : Kd) (deleteAddr : UInt64) (decode : Step.Decoder) (build : Build)
    (compat : Bool) (ex : Step.Execution) (ctx : Step.Context) (mem : Modules.Snapshot)
    (i : Step.Instr) (s s1 s2 : State) (sc sc' : StateChange) (bp : BreakPoint)
    (hbp : bp ∈ s.bpsAt deleteAddr sc) (haddr : bp.address = sc.currPc)
    (hrange : 64 ≤ sc.currPc.toNat ∧ sc.currPc.toNat < 2 ^ 64 - 64)
    (hout : (s.visited deleteAddr sc).2.breakIn = true ∨ s.stepOutThread ≠ sc.thread)
    (hres : resumed kd deleteAddr s sc = some s1)
    (hdis : Disassembled decode build compat sc (s.visited deleteAddr sc).2.pc ctx mem i)
    (hplain : Step.Plain build compat ex ctx i)
    (hothers : Runs.Reachable (step kd deleteAddr) (OthersKeep sc.thread) s1 s2)
    (hthread : sc'.thread = sc.thread) (hexc : sc'.exception = .singleStep)
    (htrap : Step.Processor.trapAddr build compat ex ctx mem i = some sc'.pc)
    (hpc : sc'.pc ≠ 0 ∧ sc'.pc ≠ bp.address) :
    sc.thread ∈ s1.stepping ∧ initialBreakIn deleteAddr sc' s2 = false ∧
      ∀ u ∈ s2.breakPoints, u.address = bp.address →
        (examine kd deleteAddr s2 sc').table.Active bp.address := by
  have hat : AtPc (s.prevBpTraceAddr sc) sc.currPc bp :=
    ⟨windowed_of_near hrange.1 hrange.2 (by rw [haddr]; omega) (by rw [haddr]; omega), haddr⟩
  have hstep : (Step.disasmCurrInstr decode build compat .zero ctx mem).stepAddr = sc'.pc := by
    rw [hdis.stepAddr]
    exact Step.resolve_eq_trapAddr hplain htrap hpc.1
  have hnext : (s.visited deleteAddr sc).2.bpTrace.nextAddr = sc'.pc :=
    (visited_nextAddr hbp hat hdis.disasm (by rw [hstep]; exact hpc.1)).trans hstep
  have hwaiting := resumed_waiting hbp hat hout hres
  rw [hnext, ← haddr] at hwaiting
  have hwaiting2 : Waiting sc'.thread ⟨bp.address, sc'.pc⟩ s2 := by
    rw [hthread]
    exact hothers.invariant hwaiting fun _ _ _ hw hok hs => step_waiting hw hok hs
  exact ⟨hwaiting.stepping, trap_rearms hwaiting2 hexc rfl hpc.2⟩

/-- `REP MOVSB` and `NOP` in 64-bit code. -/
def repMovsb : Step.Instr :=
  { Step.Instr.zero with length := 2, addressWidth := 64, hasRep := true }

def nop : Step.Instr := { Step.Instr.zero with length := 1, addressWidth := 64 }

def repNopDecoder : Step.Decoder
  | _, 0xF3 :: 0xA4 :: _ => (repMovsb, true)
  | _, 0x90 :: _ => (nop, true)
  | _, _ => (.zero, false)

def nopMem : Modules.Snapshot := fun _ => some 0x90

def repMem : Modules.Snapshot := fun a =>
  if a = 0x2000 then some 0xF3 else if a = 0x2001 then some 0xA4 else some 0x90

def ctxAt2000 : Step.Context :=
  { reg := fun r => if r = .rip then 0x2000 else if r = .rcx then 3 else 0, eFlags := 0x202 }

def flatExecution : Step.Execution :=
  { operandSize := 8, isFar := false, inhibitsTrap := false, fsBase := 0, gsBase := 0
    zfAfter := false }

def bpState : State :=
  (Runs.run (step slots 0x9000) (fun _ _ => True) State.start
    [.report (stateChangeAt 1 .breakpoint true 0x1000 nopInstr 0 thread1_ne_zero), .proceed,
      .command (.bpx 0x2000 0 0 "" true), .command .x]).getD State.start

def nopHit : StateChange :=
  stateChangeAt 1 .breakpoint false 0x2000 nop.toBreak 0x2001 thread1_ne_zero

def nopResumed : State := (resumed slots 0x9000 bpState nopHit).getD State.start

def nopLater : State :=
  (Runs.run (step slots 0x9000) (OthersKeep 1) nopResumed
    [.report (stateChangeAt 2 .other false 0x5000 nopInstr 0x5001 thread2_ne_zero), .proceed]).getD
    State.start

def nopTrap : StateChange :=
  stateChangeAt 1 .singleStep false 0x2001 nop.toBreak 0x2002 thread1_ne_zero

theorem nopTrap_rearms :
    initialBreakIn 0x9000 nopTrap nopLater = false ∧
      (examine slots 0x9000 nopLater nopTrap).table.Active 0x2000 := by
  have hbp : userBp 0x2000 0 0 "" 1 ∈ bpState.bpsAt 0x9000 nopHit := by decide
  have hdis : Disassembled repNopDecoder .x64 false nopHit 0x2000 ctxAt2000 nopMem nop :=
    ⟨rfl, ⟨List.replicate 64 0x90, by decide +kernel, rfl⟩, by decide +kernel⟩
  have hplain : Step.Plain .x64 false flatExecution ctxAt2000 nop :=
    ⟨fun _ => by decide, if_pos (by decide), fun h => absurd rfl h, by decide, nofun,
      fun h => absurd rfl h, fun h => absurd rfl h, fun h => absurd rfl h, nofun, nofun⟩
  have hothers : Runs.Reachable (step slots 0x9000) (OthersKeep 1) nopResumed nopLater :=
    Runs.reachable_of_run .init (Runs.run_eq_some_getD (by decide))
  have hpc : (bpState.visited 0x9000 nopHit).2.pc = 0x2000 := by decide
  have hbreak : (bpState.visited 0x9000 nopHit).2.breakIn = true := by decide
  have hres : resumed slots 0x9000 bpState nopHit = some nopResumed := rfl
  have htrap : Step.Processor.trapAddr .x64 false flatExecution ctxAt2000 nopMem nop =
      some nopTrap.pc := by decide +kernel
  obtain ⟨-, hbreakIn, hactive⟩ :=
    resume_invisible slots 0x9000 repNopDecoder .x64 false flatExecution
    ctxAt2000 nopMem nop bpState nopResumed nopLater nopHit nopTrap (userBp 0x2000 0 0 "" 1) hbp
    (by decide) (by decide) (.inl hbreak) hres (hpc ▸ hdis) hplain hothers (by decide) (by decide)
    htrap (by decide)
  exact ⟨hbreakIn, hactive (userBp 0x2000 0 0 "" 0) (by decide) (by decide)⟩

def repHit : StateChange :=
  stateChangeAt 1 .breakpoint false 0x2000 repMovsb.toBreak 0x2002 thread1_ne_zero

def repResumed : State := (resumed slots 0x9000 bpState repHit).getD State.start

def repTrap : StateChange :=
  stateChangeAt 1 .singleStep false 0x2000 repMovsb.toBreak 0x2002 thread1_ne_zero

/-- `REP MOVSB` with a count of 3 traps after the first iteration, and the debugger breaks in. -/
theorem repTrap_breaksIn :
    userBp 0x2000 0 0 "" 1 ∈ bpState.bpsAt 0x9000 repHit ∧
    Disassembled repNopDecoder .x64 false repHit 0x2000 ctxAt2000 repMem repMovsb ∧
    resumed slots 0x9000 bpState repHit = some repResumed ∧
    Step.Processor.trapAddr .x64 false flatExecution ctxAt2000 repMem repMovsb = some repTrap.pc ∧
    initialBreakIn 0x9000 repTrap repResumed = true :=
  ⟨by decide,
    ⟨rfl, ⟨0xF3 :: 0xA4 :: List.replicate 62 0x90, by decide +kernel, rfl⟩, by decide +kernel⟩,
    rfl, by decide +kernel, by decide⟩

end BugChecker.Break
