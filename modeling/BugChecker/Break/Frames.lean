import BugChecker.Break.Rearm
import BugChecker.Break.Threads

/-!
# Stepping over and out

After `P` at a CALL the debugger is to break in when that CALL has returned, and
after `P RET` when the activation has. All it has to tell is one step
breakpoint, that is looked at by its thread only, and the thread that steps
out. It knows nothing of the stack: a deeper activation at the step breakpoint,
or one that reports while its thread steps out, is taken for the right one. As
long as there is none, and no activation is left unseen, it is the right one.
-/

namespace BugChecker.Break

-- ---------------------------------------------------------------------------
-- What makes the debugger break in
-- ---------------------------------------------------------------------------

theorem breakIn_of_evalWhen (h : (evalWhen sc currPc bp v).breakIn = true) : v.breakIn = true := by
  cases hb : v.breakIn with
  | true => rfl
  | false =>
    rw [evalWhen, hb] at h
    exact hb.symm.trans h

/-- A breakpoint of the user is recorded when it decides for breaking in; otherwise it is a step
breakpoint of the thread, and no step out is under way. -/
theorem checkConditions_breakIn
    (h : (checkConditions sc stepOutThread currPc index bp v).breakIn = true)
    (hidx : (checkConditions sc stepOutThread currPc index bp v).bpHitIndex = none) :
    bp.isStepBp = true ∧ stepOutThread = 0 ∧ threadMatches sc bp = true := by
  simp only [checkConditions] at h hidx
  cases hw : (evalWhen sc currPc bp { v with breakIn := threadMatches sc bp }).breakIn with
  | false => simp [hw] at h
  | true =>
    have hmatch : threadMatches sc bp = true := breakIn_of_evalWhen hw
    cases hstep : bp.isStepBp with
    | false => simp [hw, hstep] at hidx
    | true =>
      by_cases hout : stepOutThread = 0
      · exact ⟨rfl, hout, hmatch⟩
      · simp [hw, hstep, hout] at h

theorem checkConditions_pc (h : bp.when ≠ "" → (sc.evalWhen bp.when v.pc).2 = v.pc) :
    (checkConditions sc stepOutThread currPc index bp v).pc = v.pc := by
  have hwhen : (evalWhen sc currPc bp { v with breakIn := threadMatches sc bp }).pc = v.pc := by
    rw [evalWhen]
    split
    · next hcond =>
      have hne : bp.when ≠ "" := by simp_all
      dsimp only
      split
      · exact h hne
      · exact h hne
    · rfl
  simp only [checkConditions]
  split
  · split
    · exact hwhen
    · exact hwhen
  · split
    · exact hwhen
    · exact hwhen

theorem threadMatches_ethread {bp : BreakPoint} (h : threadMatches sc bp = true)
    (hthread : bp.ethread ≠ 0) : bp.ethread = sc.thread := by
  rw [threadMatches, if_pos hthread] at h
  split at h
  · cases h
  · exact beq_iff_eq.mp h

/-- A break that neither a breakpoint of the user nor an INT3 causes comes from a single step that
is not expected, or from a step breakpoint of the thread. -/
theorem break_cases {s : State} {sc : StateChange} (hshape : Shape s.breakPoints)
    (hbreak : (s.visited deleteAddr sc).2.breakIn = true)
    (hidx : (s.visited deleteAddr sc).2.bpHitIndex = none) (hint3 : skipsInt3 sc = false) :
    (s.visited deleteAddr sc).2.pc = sc.pc ∧ s.stepOutThread = 0 ∧
      ((sc.exception = .singleStep ∧ expectedStep sc s = false) ∨
        ∃ bp ∈ s.breakPoints, bp.isStepBp = true ∧ bp.ethread = sc.thread ∧
          bp.address = sc.pc) := by
  have hcurr : sc.currPc = sc.pc := by simp [StateChange.currPc, hint3]
  have hinitial : (s.visitAt deleteAddr sc).breakIn = true → s.stepOutThread = 0 ∧
      sc.exception = .singleStep ∧ expectedStep sc s = false := by
    intro h
    simp only [State.visitAt, initialBreakIn] at h
    cases hexc : sc.exception with
    | breakpoint => simp_all [skipsInt3]
    | singleStep => simp_all
    | other => simp [hexc] at h
  rw [State.visited] at hbreak hidx ⊢
  rcases visitBps_snd sc s.stepOutThread (s.prevBpTraceAddr sc) sc.currPc 0 (s.bpsAt deleteAddr sc)
    (v := s.visitAt deleteAddr sc) rfl with ⟨-, heq⟩ | ⟨pre, bp, post, hbps, -, hat, heq⟩
  · rw [heq] at hbreak ⊢
    obtain ⟨hout, hstep⟩ := hinitial hbreak
    exact ⟨hcurr, hout, .inl hstep⟩
  · rw [heq] at hbreak hidx ⊢
    cases hb : (s.visitAt deleteAddr sc).breakIn with
    | true =>
      obtain ⟨hout, hstep⟩ := hinitial hb
      exact ⟨hcurr, hout, .inl hstep⟩
    | false =>
      rw [hb] at hbreak hidx
      have hat' : bp ∈ s.bpsAt deleteAddr sc := hbps ▸ List.mem_append_cons_self
      have hmem : bp ∈ s.breakPoints := (not_deletesAll_of_mem hat').1
      obtain ⟨hstep, hout, hmatch⟩ := checkConditions_breakIn hbreak hidx
      obtain ⟨-, hwhen, hne⟩ := hshape.stepBp bp hmem hstep
      refine ⟨(checkConditions_pc fun hne => absurd hwhen hne).trans hcurr, hout,
        .inr ⟨bp, hmem, hstep, ?_, ?_⟩⟩
      · exact threadMatches_ethread (show threadMatches _ bp.unset = true from hmatch) hne
      · exact hat.2.trans hcurr

theorem visited_of_initial {s : State} {sc : StateChange}
    (h : initialBreakIn deleteAddr sc s = true) :
    (s.visited deleteAddr sc).2.breakIn = true ∧ (s.visited deleteAddr sc).2.pc = sc.currPc := by
  have hv : (s.visitAt deleteAddr sc).breakIn = true := h
  rw [State.visited]
  rcases visitBps_snd sc s.stepOutThread (s.prevBpTraceAddr sc) sc.currPc 0 (s.bpsAt deleteAddr sc)
    (v := s.visitAt deleteAddr sc) rfl with ⟨-, heq⟩ | ⟨pre, bp, post, -, -, -, heq⟩
  · rw [heq]
    exact ⟨hv, rfl⟩
  · rw [heq, if_pos hv]
    exact ⟨hv, rfl⟩

theorem unexpected_breaks {s : State} {sc : StateChange} (hexc : sc.exception = .singleStep)
    (hexp : expectedStep sc s = false) (hout : s.stepOutThread = 0) :
    (s.visited deleteAddr sc).2.breakIn = true :=
  (visited_of_initial (by simp [initialBreakIn, hexc, hexp, hout])).1

/-- A hardcoded INT3 does, unless it is the one that deletes the breakpoints. -/
theorem int3_breaks {s : State} {sc : StateChange} (hint3 : skipsInt3 sc = true)
    (hdeletes : deletesAll deleteAddr sc = false) : (s.visited deleteAddr sc).2.breakIn = true := by
  refine (visited_of_initial ?_).1
  simp only [skipsInt3, Bool.and_eq_true, beq_iff_eq] at hint3
  simp [initialBreakIn, hint3.1, hint3.2, hdeletes]

/-- No script of a breakpoint at the program counter moves it. -/
def ScriptsStay (s : State) (sc : StateChange) : Prop :=
  ∀ bp ∈ s.breakPoints, bp.address = sc.currPc → bp.when ≠ "" →
    (sc.evalWhen bp.when sc.currPc).2 = sc.currPc

instance (s : State) (sc : StateChange) : Decidable (ScriptsStay s sc) := by
  unfold ScriptsStay
  infer_instance

theorem visited_pc {s : State} (h : ScriptsStay s sc) :
    (s.visited deleteAddr sc).2.pc = sc.currPc := by
  rw [State.visited]
  rcases visitBps_snd sc s.stepOutThread (s.prevBpTraceAddr sc) sc.currPc 0 (s.bpsAt deleteAddr sc)
    (v := s.visitAt deleteAddr sc) rfl with ⟨-, heq⟩ | ⟨pre, bp, post, hbps, -, hat, heq⟩
  · rw [heq]
    rfl
  · have hmem : bp ∈ s.bpsAt deleteAddr sc := hbps ▸ List.mem_append_cons_self
    rw [heq]
    split
    · rfl
    · exact checkConditions_pc (h bp (not_deletesAll_of_mem hmem).1 hat.2)

theorem visited_decoded (s : State) (deleteAddr : UInt64) (sc : StateChange) :
    ∃ old, (s.visited deleteAddr sc).2.decoded =
      disasmCurrInstr sc old (s.visited deleteAddr sc).2.pc := by
  rw [State.visited]
  rcases visitBps_snd sc s.stepOutThread (s.prevBpTraceAddr sc) sc.currPc 0 (s.bpsAt deleteAddr sc)
    (v := s.visitAt deleteAddr sc) rfl with ⟨-, heq⟩ | ⟨pre, bp, post, -, -, -, heq⟩
  · rw [heq]
    exact ⟨Decoded.none, rfl⟩
  · rw [heq]
    split
    · exact ⟨Decoded.none, rfl⟩
    · exact checkConditions_decoded rfl rfl

-- ---------------------------------------------------------------------------
-- A thread that expects nothing
-- ---------------------------------------------------------------------------

/-- `BpTraces[t]` expects no single step, if it is there. -/
def ExpectsNone (ts : List (UInt64 × BpTrace)) (t : UInt64) : Prop :=
  ∀ b ∈ entry ts t, b.nextAddr = 0

theorem currentTrace_bpTraceGet (sc : StateChange) (ts : List (UInt64 × BpTrace)) :
    currentTrace (bpTraceGet sc ts) = (entry ts sc.thread).getD ⟨0, 0⟩ := by
  cases h : entry ts sc.thread with
  | some b =>
    obtain ⟨rest, hget⟩ := bpTraceGet_of_entry sc h
    rw [hget]
    rfl
  | none =>
    have hnone : ts.findIdx? (·.1 == sc.thread) = none := by
      rw [List.findIdx?_eq_none_iff]
      simpa [entry] using h
    obtain ⟨n, hn⟩ : ∃ n, sc.tracesDim = n + 1 := ⟨sc.tracesDim - 1, by
      rw [StateChange.tracesDim, StateChange.processors]
      omega⟩
    simp only [bpTraceGet, hnone, resize, hn]
    rfl

theorem not_expectedStep {s : State} {sc : StateChange} (h : ExpectsNone s.bpTraces sc.thread)
    (hpc : sc.pc ≠ 0) : expectedStep sc s = false := by
  have hnext : (currentTrace (bpTraceGet sc s.bpTraces)).nextAddr = 0 := by
    rw [currentTrace_bpTraceGet]
    cases hentry : entry s.bpTraces sc.thread with
    | none => rfl
    | some b => exact h b hentry
  simp [expectedStep, hnext, hpc.symm]

theorem entry_of_bpTraceGet {ts : List (UInt64 × BpTrace)} (h : t ≠ sc.thread) (hne : t ≠ 0)
    (hentry : entry (bpTraceGet sc ts) t = some b) : entry ts t = some b := by
  obtain ⟨e, he, rfl⟩ := Option.map_eq_some_iff.mp hentry
  refine Option.map_eq_some_iff.mpr ⟨e, ?_, rfl⟩
  rw [bpTraceGet] at he
  split at he
  · rw [resize, List.find?_append] at he
    rcases Option.or_eq_some_iff.mp he with hfound | ⟨-, hfound⟩
    · have hcons := (List.take_prefix _ _).find?_eq_some hfound
      rwa [List.find?_cons_of_neg (by simpa using h.symm)] at hcons
    · obtain ⟨-, hmem⟩ := List.mem_replicate.mp (List.mem_of_find?_eq_some hfound)
      have ht := List.find?_some hfound
      rw [hmem] at ht
      exact absurd (beq_iff_eq.mp ht).symm hne
  · next i hi =>
    obtain ⟨hlt, hthread, -⟩ := List.findIdx?_eq_some_iff_getElem.mp hi
    have hget : ts.getD i (0, ⟨0, 0⟩) = ts[i] := by
      rw [List.getD_eq_getElem?_getD, List.getElem?_eq_getElem hlt, Option.getD_some]
    have hother : ts[i].1 ≠ t := fun heq => h (heq.symm.trans (beq_iff_eq.mp hthread))
    rw [hget, List.find?_cons_of_neg (by simpa using hother)] at he
    rwa [find?_eraseIdx ts i] at he
    rw [List.getElem?_eq_getElem hlt]
    rintro x ⟨⟩
    exact beq_eq_false_iff_ne.mpr hother

-- ---------------------------------------------------------------------------
-- The goal of a step
-- ---------------------------------------------------------------------------

/-- The thread is where the step was to take it, and the activation is the one it was given in: it
goes on, or its frame is gone. -/
def Goal.Reached : Goal → ThreadId → Thread → Prop
  | .over t addr stack, t', th => t' = t ∧ th.pc = addr ∧ th.stack = stack
  | .out t stack, t', th => t' = t ∧ ∃ f, stack = f :: th.stack ∧ th.pc = f.returnAddr

/-- The thread is at its CALL or behind it, in that activation, or in what was called. -/
def Thread.StepsOver (program : Program) (addr : UInt64) (stack : List Frame)
    (th : Thread) : Prop :=
  (th.stack = stack ∧ (((program.instr th.pc).mnemonic = .call ∧
      th.pc + (program.instr th.pc).length = addr) ∨ th.pc = addr)) ∨
    ∃ f : Frame, f.returnAddr = addr ∧ f :: stack <:+ th.stack

section
variable {th : Thread} {addr : UInt64} {stack : List Frame} (h : th.StepsOver program addr stack)
include h

theorem Thread.StepsOver.exec (hexec : th.exec program now next = some th')
    (hdeep : th.pc = addr → stack.length < th.stack.length) : th'.StepsOver program addr stack := by
  rcases h with ⟨hstack, ⟨hcall, haddr⟩ | hat⟩ | ⟨f, haddr, hsuffix⟩
  · rcases Thread.exec_cases hexec with ⟨-, rfl⟩ | ⟨hret, -⟩ | ⟨hno, -⟩
    · exact .inr ⟨⟨_, now⟩, haddr, by rw [hstack]⟩
    · simp [hcall, isRet] at hret
    · simp [hcall, isCall] at hno
  · have hlt := hdeep hat
    rw [hstack] at hlt
    exact absurd hlt (Nat.lt_irrefl _)
  · rcases Thread.exec_cases hexec with ⟨-, rfl⟩ | ⟨-, g, hstack, hpc⟩ | ⟨-, -, rfl⟩
    · exact .inr ⟨f, haddr, hsuffix.trans (List.suffix_cons _ _)⟩
    · rw [hstack] at hsuffix
      rcases List.suffix_cons_iff.mp hsuffix with heq | hsuffix
      -- what was called returns
      · cases heq
        exact .inl ⟨rfl, .inr (hpc.trans haddr)⟩
      · exact .inr ⟨f, haddr, hsuffix⟩
    · exact .inr ⟨f, haddr, hsuffix⟩

theorem Thread.StepsOver.stack_eq (hle : th.stack.length ≤ stack.length) : th.stack = stack := by
  rcases h with ⟨hstack, -⟩ | ⟨f, -, hsuffix⟩
  · exact hstack
  · have := hsuffix.length_le
    exact absurd hle (Nat.not_le_of_lt this)

theorem Thread.StepsOver.left {pc' : UInt64} (hpc : th.stack.length ≤ stack.length → pc' = th.pc) :
    Thread.StepsOver program addr stack { th with pc := pc' } := by
  rcases h with ⟨hstack, hat⟩ | ⟨f, haddr, hsuffix⟩
  · obtain rfl := hpc (hstack ▸ Nat.le_refl _)
    exact .inl ⟨hstack, hat⟩
  · exact .inr ⟨f, haddr, hsuffix⟩

end

/-- A RET that stepping does not take for a repeated instruction. -/
def PlainRet (i : Instr) : Prop := isRet i.mnemonic = true → stepsWithBp i = false

instance (i : Instr) : Decidable (PlainRet i) := inferInstanceAs (Decidable (_ → _))

namespace World

/-- The break after a step that no breakpoint of the user and no INT3 causes. -/
def StepsToGoal (w : World) : Prop :=
  ∀ sc pc thisInstr goal, w.dbg.phase = .examined sc true pc thisInstr → w.dbg.bpHitIndex = none →
    skipsInt3 sc = false → w.goal = some goal →
    goal.Reached sc.threadId (w.threads sc.threadId)

-- ---------------------------------------------------------------------------
-- What the events have to meet
-- ---------------------------------------------------------------------------

/-- A thread that steps over executes what is behind its CALL in deeper activations only, and one
that steps out a RET, unless it is looked at before. -/
def ExecsInFrame (program : Program) (w : World) (t : ThreadId) : Prop :=
  match w.goal with
  | none => True
  | some (.over t' addr stack) =>
    t = t' → (w.threads t).pc = addr → stack.length < (w.threads t).stack.length
  | some (.out t' stack) =>
    t = t' → w.dbg.stepOutThread = t.val → t.val ∉ w.dbg.stepping →
      isRet (program.instr (w.threads t).pc).mnemonic = true →
        stack.length < (w.threads t).stack.length

/-- The thread that steps over reports behind its CALL in no deeper activation, and no script moves
it in its own. The one that steps its RET reports next from having executed it. Otherwise a single
step is expected, as long as a thread that steps out does not go on stepping. -/
def ReportsInFrame (w : World) (t : ThreadId) (th : Thread) (sc : StateChange) : Prop :=
  match w.goal with
  | none => True
  | some (.over t' addr stack) =>
    (sc.exception = .singleStep → expectedStep sc w.dbg = true) ∧
      (t = t' → (th.pc = addr → th.stack.length ≤ stack.length) ∧
        (th.stack.length ≤ stack.length → ScriptsStay w.dbg sc))
  | some (.out t' _) =>
    w.dbg.stepOutThread = 0 →
      if t = t' then sc.exception = .singleStep ∧ th.pc ≠ 0
      else sc.exception = .singleStep → expectedStep sc w.dbg = true

/-- The thread that steps out goes on from no deeper activation. -/
def ProceedsInFrame (program : Program) (w : World) : Prop :=
  match w.dbg.phase, w.goal with
  | .examined sc false _ _, some (.out t stack) =>
    w.dbg.stepOutThread = t.val → sc.threadId = t →
      (w.threads t).stack.length ≤ stack.length ∧ PlainRet (program.instr (w.threads t).pc)
  | _, _ => True

/-- The step is given for the instruction that the thread is at. -/
def AskedInFrame (program : Program) (w : World) (c : Command) : Prop :=
  match w.dbg.phase with
  | .session sc pc thisInstr =>
    (w.asked program sc.threadId pc c).isSome = true →
      thisInstr = program.instr pc ∧ PlainRet thisInstr
  | _ => True

def InFrame (program : Program) (w : World) : Event → Prop
  | .exec t _ => w.ExecsInFrame program t
  | .report t exception next info =>
    (exception = .singleStep → w.ExecsInFrame program t) ∧
      ∀ th ∈ w.arrives program t next exception,
        w.ReportsInFrame t th (program.stateChange t exception th.pc info)
  | .proceed => w.ProceedsInFrame program
  | .command c => w.AskedInFrame program c

instance (program : Program) (w : World) (t : ThreadId) : Decidable (w.ExecsInFrame program t) := by
  unfold ExecsInFrame
  split <;> infer_instance

theorem ExecsInFrame.deeper {w : World} (h : w.ExecsInFrame program t)
    (hgoal : w.goal = some (.over t addr stack)) (hpc : (w.threads t).pc = addr) :
    stack.length < (w.threads t).stack.length := by
  rw [ExecsInFrame, hgoal] at h
  exact h rfl hpc

instance (w : World) (t : ThreadId) (th : Thread) (sc : StateChange) :
    Decidable (w.ReportsInFrame t th sc) := by
  unfold ReportsInFrame
  split <;> infer_instance

instance (program : Program) (w : World) : Decidable (w.ProceedsInFrame program) := by
  unfold ProceedsInFrame
  split <;> infer_instance

instance (program : Program) (w : World) (c : Command) : Decidable (w.AskedInFrame program c) := by
  unfold AskedInFrame
  split <;> infer_instance

instance (program : Program) (w : World) : (e : Event) → Decidable (w.InFrame program e)
  | .exec t _ => inferInstanceAs (Decidable (w.ExecsInFrame program t))
  | .report t exception next info => inferInstanceAs (Decidable
      ((exception = .singleStep → w.ExecsInFrame program t) ∧
        ∀ th ∈ w.arrives program t next exception,
          w.ReportsInFrame t th (program.stateChange t exception th.pc info)))
  | .proceed => inferInstanceAs (Decidable (w.ProceedsInFrame program))
  | .command c => inferInstanceAs (Decidable (w.AskedInFrame program c))

end World

end BugChecker.Break
