import BugChecker.Break.Stops

/-!
# The breakpoint that was hit

`BpHitIndex` is where the breakpoint that caused a break was in the list when
the state change was examined. The list changes afterwards: a step breakpoint
in front of it goes when the session begins, and `BC` takes out others. Where
the breakpoint really is, is followed here beside the state.
-/

namespace BugChecker.Break

-- ---------------------------------------------------------------------------
-- Where an element of a list goes
-- ---------------------------------------------------------------------------

/-- Where the element at `p` is once the one at `n` was erased. -/
def afterErase (n p : Nat) : Option Nat :=
  if n < p then some (p - 1) else if n = p then none else some p

theorem getElem?_afterErase (xs : List α) (h : afterErase n p = some q) :
    (xs.eraseIdx n)[q]? = xs[p]? := by
  unfold afterErase at h
  split at h
  · next hlt =>
    obtain rfl : p - 1 = q := Option.some.inj h
    rw [List.getElem?_eraseIdx_of_ge (by omega)]
    congr 1
    omega
  · split at h
    · cases h
    · obtain rfl : p = q := Option.some.inj h
      exact List.getElem?_eraseIdx_of_lt (by omega)

/-- `BC` goes through the numbers in the same way as it clears them. -/
def afterClear : Nat → List Nat → Option Nat → Option Nat
  | _, [], hit => hit
  | size, n :: nums, hit => if n < size then afterClear (size - 1) nums (hit.bind (afterErase n))
    else hit

/-- `BC` gets to a number that is not above `i`. -/
def clearsUpTo (i : Nat) : Nat → List Nat → Bool
  | _, [] => false
  | size, n :: nums => n < size && (n ≤ i || clearsUpTo i (size - 1) nums)

@[simp] theorem afterClear_none (size : Nat) (nums : List Nat) :
    afterClear size nums none = none := by
  induction nums generalizing size with
  | nil => rfl
  | cons n nums ih =>
    rw [afterClear]
    split
    · exact ih _
    · rfl

theorem clearBps_afterClear (t : Table) (bps : List BreakPoint) (nums : List Nat) (p : Nat)
    (h : afterClear bps.length nums (some p) = some q) : (clearBps t bps nums).2[q]? = bps[p]? := by
  induction nums generalizing t bps p with
  | nil =>
    obtain rfl : p = q := Option.some.inj h
    rfl
  | cons n nums ih =>
    rw [afterClear] at h
    rw [clearBps]
    split at h
    · next hlt =>
      rw [Option.bind_some] at h
      cases hp : afterErase n p with
      | none =>
        rw [hp, afterClear_none] at h
        cases h
      | some r =>
        rw [hp, ← List.length_eraseIdx_of_lt hlt] at h
        rw [List.getElem?_eq_getElem hlt]
        exact (ih _ _ r h).trans (getElem?_afterErase bps hp)
    · next hge =>
      obtain rfl : p = q := Option.some.inj h
      have hnone : bps[n]? = none := List.getElem?_eq_none (by omega)
      rw [hnone]

theorem afterClear_lt (h : ∀ p ∈ hit, p < i) : ∀ p ∈ afterClear size nums hit, p < i := by
  induction nums generalizing size hit with
  | nil => exact h
  | cons n nums ih =>
    rw [afterClear]
    split
    · refine ih fun p hp => ?_
      obtain ⟨q, hq, hn⟩ := Option.bind_eq_some_iff.mp hp
      have hlt := h q hq
      unfold afterErase at hn
      split at hn
      · obtain rfl := Option.some.inj hn
        omega
      · split at hn
        · cases hn
        · obtain rfl := Option.some.inj hn
          exact hlt
    · exact h

theorem afterClear_of_not_clears (h : clearsUpTo i size nums = false) :
    afterClear size nums (some i) = some i := by
  induction nums generalizing size with
  | nil => rfl
  | cons n nums ih =>
    rw [afterClear]
    split
    · next hlt =>
      simp only [clearsUpTo, hlt, decide_true, Bool.true_and, Bool.or_eq_false_iff,
        decide_eq_false_iff_not] at h
      have herase : afterErase n i = some i := by
        rw [afterErase, if_neg (by omega), if_neg (by omega)]
      rw [Option.bind_some, herase]
      exact ih h.2
    · rfl

theorem afterClear_of_clears (h : clearsUpTo i size nums = true) :
    ∀ p ∈ afterClear size nums (some i), p < i := by
  induction nums generalizing size with
  | nil => cases h
  | cons n nums ih =>
    rw [clearsUpTo, Bool.and_eq_true, Bool.or_eq_true, decide_eq_true_eq, decide_eq_true_eq] at h
    obtain ⟨hlt, h⟩ := h
    rw [afterClear, if_pos hlt, Option.bind_some]
    by_cases hle : n ≤ i
    · -- from here on it is further to the front, or gone
      refine afterClear_lt fun p hp => ?_
      rw [Option.mem_def, afterErase] at hp
      split at hp
      · obtain rfl := Option.some.inj hp
        omega
      · rw [if_pos (by omega)] at hp
        cases hp
    · rw [afterErase, if_neg (by omega), if_neg (by omega)]
      exact ih (h.resolve_left hle)

-- ---------------------------------------------------------------------------
-- A session
-- ---------------------------------------------------------------------------

def Command.cleared (size : Nat) : Command → List Nat
  | .bc nums => (parseListOfDecsArgs size nums).mergeSort (· ≥ ·)
  | _ => []

def trackedStep (kd : Kd) (deleteAddr : UInt64) (s : State × Option Nat) (c : Command) :
    Option (State × Option Nat) :=
  (step kd deleteAddr s.1 (.command c)).map fun s' =>
    (s', afterClear s.1.breakPoints.length (c.cleared s.1.breakPoints.length) s.2)

def trackedRun (kd : Kd) (deleteAddr : UInt64) : State × Option Nat → List Command →
    Option (State × Option Nat) := Runs.run (trackedStep kd deleteAddr) fun _ _ => True

/-- Where the breakpoint at `i` is when the step breakpoints are gone. -/
def atBreak (bps : List BreakPoint) (i : Nat) : Nat := (users (bps.take i)).length

/-- None of the commands clears the breakpoint at `i` or one before it. -/
def KeepsUpTo (kd : Kd) (deleteAddr : UInt64) (i : Nat) : State → List Command → Prop
  | _, [] => True
  | s, c :: cs => clearsUpTo i s.breakPoints.length (c.cleared s.breakPoints.length) = false ∧
    ∀ s' ∈ step kd deleteAddr s (.command c), KeepsUpTo kd deleteAddr i s' cs

theorem execute_bpHitIndex : (execute kd s sc pc thisInstr c).bpHitIndex = s.bpHitIndex := by
  have hset : ∀ addr, (setStepBp kd s sc.thread addr).bpHitIndex = s.bpHitIndex := by
    intro addr
    rcases setStepBp_cases kd s sc.thread addr with ⟨-, heq⟩ | ⟨-, -, heq⟩ | ⟨-, -, _, -, -, heq⟩
    · rw [heq]
    · rw [heq]
    · rw [heq]
  have hover : (stepOver kd s sc pc thisInstr).bpHitIndex = s.bpHitIndex := by
    unfold stepOver
    split
    · exact hset _
    · rfl
  cases c with
  | bpx address eprocess ethread when readable =>
    rcases bpx_cases kd s address eprocess ethread when readable with heq | ⟨-, -, _, -, -, heq⟩
    · rw [execute, heq]
    · rw [execute, heq]
  | p => exact hover
  | pRet =>
    simp only [execute, resume]
    split
    · exact hover
    · exact hover
  | _ => rfl

theorem trackedStep_cases (h : trackedStep kd deleteAddr (s, hit) c = some x) :
    ∃ sc pc thisInstr, s.phase = .session sc pc thisInstr ∧
      step kd deleteAddr s (.command c) = some x.1 ∧ x.1 = execute kd s sc pc thisInstr c ∧
      x.2 = afterClear s.breakPoints.length (c.cleared s.breakPoints.length) hit := by
  obtain ⟨s', hs, rfl⟩ := Option.map_eq_some_iff.mp h
  rcases step_cases hs with ⟨_, hi, -, -⟩ | ⟨_, _, _, _, hi, -, -⟩ | ⟨_, sc, pc,
    thisInstr, hi, hp, heq⟩
  · cases hi
  · cases hi
  · cases hi
    exact ⟨sc, pc, thisInstr, hp, hs, heq, rfl⟩

theorem trackedRun_cons (h : trackedRun kd deleteAddr (s, hit) (c :: cs) = some x) :
    ∃ y, trackedStep kd deleteAddr (s, hit) c = some y ∧
      trackedRun kd deleteAddr y cs = some x := by
  rw [trackedRun, Runs.run, if_pos trivial] at h
  exact Option.bind_eq_some_iff.mp h

theorem trackedRun_bpHitIndex (h : trackedRun kd deleteAddr x cs = some y) :
    y.1.bpHitIndex = x.1.bpHitIndex := by
  induction cs generalizing x with
  | nil => rw [Option.some.inj h]
  | cons c cs ih =>
    obtain ⟨z, hz, hrest⟩ := trackedRun_cons h
    obtain ⟨_, _, _, -, -, heq, -⟩ := trackedStep_cases hz
    rw [ih hrest, heq, execute_bpHitIndex]

theorem trackedRun_lt (h : trackedRun kd deleteAddr x cs = some y) (hlt : ∀ p ∈ x.2, p < i) :
    ∀ p ∈ y.2, p < i := by
  induction cs generalizing x with
  | nil => rwa [← Option.some.inj h]
  | cons c cs ih =>
    obtain ⟨z, hz, hrest⟩ := trackedRun_cons h
    obtain ⟨_, _, _, -, -, -, heq⟩ := trackedStep_cases hz
    refine ih hrest ?_
    rw [heq]
    exact afterClear_lt hlt

theorem trackedRun_iff (h : trackedRun kd deleteAddr (s, some i) cs = some y) :
    y.2 = some i ↔ KeepsUpTo kd deleteAddr i s cs := by
  induction cs generalizing s with
  | nil =>
    obtain rfl := Option.some.inj h
    simp [KeepsUpTo]
  | cons c cs ih =>
    obtain ⟨⟨s', hit⟩, hz, hrest⟩ := trackedRun_cons h
    obtain ⟨_, _, _, -, hs, -, heq⟩ := trackedStep_cases hz
    obtain rfl : hit = _ := heq
    cases hc : clearsUpTo i s.breakPoints.length (c.cleared s.breakPoints.length) with
    | false =>
      rw [afterClear_of_not_clears hc] at hrest
      simp [KeepsUpTo, hc, hs, ih hrest]
    | true =>
      have hlt := trackedRun_lt hrest (afterClear_of_clears hc)
      simp only [KeepsUpTo, hc, Bool.true_eq_false, false_and, iff_false]
      intro hi
      exact absurd (hlt i hi) (Nat.lt_irrefl i)

theorem execute_denotes
    (hsession : (execute kd s sc pc thisInstr c).phase.isSession = true)
    (hbp : (s.breakPoints.map (·.address))[p]? = some addr)
    (h : afterClear s.breakPoints.length (c.cleared s.breakPoints.length) (some p) = some q) :
    ((execute kd s sc pc thisInstr c).breakPoints.map (·.address))[q]? = some addr := by
  cases c with
  | bpx address eprocess ethread when readable =>
    obtain rfl : p = q := Option.some.inj h
    rcases bpx_cases kd s address eprocess ethread when readable with heq | ⟨-, -, _, -, -, heq⟩
    · rwa [execute, heq]
    · rw [execute, heq, List.map_append]
      rwa [List.getElem?_append_left (List.getElem?_eq_some_iff.mp hbp).1]
  | bc nums =>
    have hcleared := clearBps_afterClear s.table s.breakPoints _ p h
    rw [List.getElem?_map] at hbp ⊢
    rw [← hbp, ← hcleared]
    rfl
  | bd nums =>
    obtain rfl : p = q := Option.some.inj h
    rwa [execute, setSkip_map _ fun _ _ => rfl]
  | be nums =>
    obtain rfl : p = q := Option.some.inj h
    rwa [execute, setSkip_map _ fun _ _ => rfl]
  | r pc =>
    obtain rfl : p = q := Option.some.inj h
    exact hbp
  | p => cases hsession
  | pRet => cases hsession
  | t => cases hsession
  | x => cases hsession

theorem trackedRun_denotes (h : trackedRun kd deleteAddr (s, some p) cs = some (s', some q))
    (hsession : s'.phase.isSession = true) (hbp : (s.breakPoints.map (·.address))[p]? = some addr) :
    (s'.breakPoints.map (·.address))[q]? = some addr := by
  induction cs generalizing s p with
  | nil =>
    obtain ⟨rfl, hpq⟩ := Prod.mk.inj (Option.some.inj h)
    obtain rfl := Option.some.inj hpq
    exact hbp
  | cons c cs ih =>
    obtain ⟨⟨t, hit⟩, hz, hrest⟩ := trackedRun_cons h
    obtain ⟨sc, pc, thisInstr, -, -, ht, hhit⟩ := trackedStep_cases hz
    obtain rfl : t = _ := ht
    have ht : (execute kd s sc pc thisInstr c).phase.isSession = true := by
      cases cs with
      | nil =>
        obtain ⟨rfl, -⟩ := Prod.mk.inj (Option.some.inj hrest)
        exact hsession
      | cons c' cs =>
        obtain ⟨y, hy, -⟩ := trackedRun_cons hrest
        obtain ⟨_, _, _, hp', -⟩ := trackedStep_cases hy
        rw [hp']
        rfl
    cases hit with
    | none =>
      have hlt := trackedRun_lt (i := 0) hrest (by simp)
      exact absurd (hlt q rfl) (Nat.not_lt_zero q)
    | some r => exact ih hrest (execute_denotes ht hbp hhit.symm)

-- ---------------------------------------------------------------------------
-- The break
-- ---------------------------------------------------------------------------

/-- `BpHitIndex`, once a state change was examined, is that of a breakpoint of the user. -/
def HitsUser (s : State) : Prop :=
  ∀ sc breakIn pc thisInstr i, s.phase = .examined sc breakIn pc thisInstr →
    s.bpHitIndex = some i → ∃ bp, s.breakPoints[i]? = some bp ∧ bp.isStepBp = false

theorem checkConditions_bpHitIndex (hv : v.bpHitIndex = none)
    (h : (checkConditions sc stepOutThread currPc index bp v).bpHitIndex = some i) :
    i = index ∧ bp.isStepBp = false := by
  have hwhen : (evalWhen sc currPc bp { v with breakIn := threadMatches sc bp }).bpHitIndex =
      none := by
    unfold evalWhen
    split
    · dsimp only
      split
      · exact hv
      · exact hv
    · exact hv
  simp only [checkConditions] at h
  split at h
  · split at h
    · next hb => simp at hb
    · rw [hwhen] at h
      cases h
  · split at h
    · next hb =>
      obtain ⟨-, hb⟩ := Bool.and_eq_true_iff.mp hb
      exact ⟨(Option.some.inj h).symm, by simpa using hb⟩
    · rw [hwhen] at h
      cases h

theorem examine_hitsUser : HitsUser (examine kd deleteAddr s sc) := by
  intro _ _ _ _ i _ hi
  have hhit : (s.visited deleteAddr sc).2.bpHitIndex = some i := hi
  obtain ⟨bp, hbp, huser⟩ : ∃ bp, (s.bpsAt deleteAddr sc)[i]? = some bp ∧ bp.isStepBp = false := by
    rw [State.visited] at hhit
    rcases visitBps_snd sc s.stepOutThread (s.prevBpTraceAddr sc) sc.currPc 0
        (s.bpsAt deleteAddr sc)
      (v := s.visitAt deleteAddr sc) rfl with ⟨-, heq⟩ | ⟨pre, b, post, hsplit, -, -, heq⟩
    · rw [heq] at hhit
      cases hhit
    · rw [heq] at hhit
      split at hhit
      · cases hhit
      · obtain ⟨rfl, huser⟩ := checkConditions_bpHitIndex rfl hhit
        exact ⟨b, by simp [hsplit], huser⟩
  have hunset := congrArg (·[i]?) (examine_unset kd deleteAddr s sc)
  simp only [List.getElem?_map, hbp, Option.map_some] at hunset
  obtain ⟨bp', hbp', heq⟩ := Option.map_eq_some_iff.mp hunset
  refine ⟨bp', hbp', ?_⟩
  rw [← BreakPoint.unset_isStepBp, heq, BreakPoint.unset_isStepBp, huser]

theorem reachable_hitsUser (h : Runs.Reachable (step kd deleteAddr) ok State.start s) :
    HitsUser s := by
  refine h.invariant (fun _ _ _ _ _ hp => by cases hp) ?_
  intro s i s' _ _ hs
  rcases step_cases hs with ⟨sc, -, -, rfl⟩ | ⟨sc, breakIn, pc, thisInstr, -, -, rfl⟩ |
    ⟨c, sc, pc, thisInstr, -, hp, rfl⟩
  · exact examine_hitsUser
  · intro _ _ _ _ _ hphase
    cases breakIn with
    | true => cases hphase
    | false => cases hphase
  · intro _ _ _ _ _ hphase
    cases c with
    | bpx address eprocess ethread when readable =>
      rcases bpx_cases kd s address eprocess ethread when readable with heq | ⟨-, -, _, -, -, heq⟩
      · rw [execute, heq, hp] at hphase
        cases hphase
      · rw [execute, heq, hp] at hphase
        cases hphase
    | bc nums => cases hp.symm.trans hphase
    | bd nums => cases hp.symm.trans hphase
    | be nums => cases hp.symm.trans hphase
    | r pc => cases hphase
    | p => cases hphase
    | pRet => cases hphase
    | t => cases hphase
    | x => cases hphase

theorem atBreak_eq_iff (hshape : Shape bps) (hbp : bps[i]? = some bp)
    (huser : bp.isStepBp = false) :
    atBreak bps i = i ↔ ∀ b ∈ bps, b.isStepBp = false := by
  obtain ⟨hlt, rfl⟩ := List.getElem?_eq_some_iff.mp hbp
  have hlen : (bps.take i).length = i := by
    rw [List.length_take]
    omega
  have hiff : atBreak bps i = i ↔ ∀ b ∈ bps.take i, b.isStepBp = false := by
    have hfilter := List.length_filter_eq_length_iff (p := (!·.isStepBp)) (l := bps.take i)
    rw [hlen] at hfilter
    simpa [atBreak, users] using hfilter
  rw [hiff]
  constructor
  · intro h b hb
    cases bps with
    | nil => cases hb
    | cons first rest =>
      rcases List.mem_cons.mp hb with rfl | hb
      · cases i with
        | zero => exact huser
        | succ i => exact h b (by simp)
      · exact hshape.tail b hb
  · intro h b hb
    exact h b (List.mem_of_mem_take hb)

theorem atBreak_le (bps : List BreakPoint) (i : Nat) : atBreak bps i ≤ i :=
  Nat.le_trans (List.length_filter_le _ _) (List.length_take_le _ _)

theorem users_atBreak (hbp : bps[i]? = some bp) (huser : bp.isStepBp = false) :
    (users bps)[atBreak bps i]? = some bp := by
  obtain ⟨hlt, rfl⟩ := List.getElem?_eq_some_iff.mp hbp
  have hsplit : users bps = users (bps.take i) ++ bps[i] :: users (bps.drop (i + 1)) := by
    have hcons : users (bps.drop i) = bps[i] :: users (bps.drop (i + 1)) := by
      rw [List.drop_eq_getElem_cons hlt, users, List.filter_cons_of_pos (by simpa using huser)]
      rfl
    rw [← hcons, users, users, users, ← List.filter_append, List.take_append_drop]
  rw [hsplit, atBreak]
  simp

theorem proceed_breakPoints (kd : Kd) (s : State) :
    (proceed kd s sc true pc thisInstr).breakPoints = users s.breakPoints := by
  rcases setStepBp_cases kd s sc.thread 0 with ⟨-, heq⟩ | ⟨hne, -⟩ | ⟨hne, -⟩
  · rw [proceed, if_pos rfl, heq]
  · exact absurd rfl hne
  · exact absurd rfl hne

theorem bpHitIndex_iff (kd : Kd) (deleteAddr : UInt64) (s s' : State)
    (sc : StateChange) (pc : UInt64)
    (thisInstr : Instr) (i : Nat) (hit : Option Nat) (cs : List Command)
    (h : Runs.Reachable (step kd deleteAddr) (fun _ _ => True) State.start s)
    (hp : s.phase = .examined sc true pc thisInstr) (hi : s.bpHitIndex = some i)
    (hrun : trackedRun kd deleteAddr
      (proceed kd s sc true pc thisInstr, some (atBreak s.breakPoints i)) cs = some (s', hit))
    (hsession : s'.phase.isSession = true) :
    (∀ q ∈ hit, s'.breakPoints[q]?.map (·.address) = s.breakPoints[i]?.map (·.address)) ∧
    (s'.bpHitIndex = hit ↔ (∀ bp ∈ s.breakPoints, bp.isStepBp = false) ∧
      KeepsUpTo kd deleteAddr i (proceed kd s sc true pc thisInstr) cs) := by
  obtain ⟨bp, hbp, huser⟩ := reachable_hitsUser h _ _ _ _ i hp hi
  have hindex : s'.bpHitIndex = some i := by
    rw [trackedRun_bpHitIndex hrun]
    rcases setStepBp_cases kd s sc.thread 0 with ⟨-, heq⟩ | ⟨hne, -⟩ | ⟨hne, -⟩
    · rw [proceed, if_pos rfl, heq]
      exact hi
    · exact absurd rfl hne
    · exact absurd rfl hne
  have hiff := atBreak_eq_iff (reachable_shaped h).shape hbp huser
  constructor
  · intro q hq
    obtain rfl := Option.mem_def.mp hq
    have hat := trackedRun_denotes hrun hsession (show _ = some bp.address by
      rw [proceed_breakPoints, List.getElem?_map, users_atBreak hbp huser, Option.map_some])
    rw [List.getElem?_map] at hat
    rw [hat, hbp, Option.map_some]
  · rw [hindex, ← hiff, eq_comm]
    by_cases heq : atBreak s.breakPoints i = i
    · rw [heq] at hrun
      rw [trackedRun_iff hrun]
      simp [heq]
    · have hlt : atBreak s.breakPoints i < i := Nat.lt_of_le_of_ne (atBreak_le _ _) heq
      have hafter := trackedRun_lt (i := i) hrun (by simpa using hlt)
      simp only [heq, false_and, iff_false]
      rintro rfl
      exact absurd (hafter i rfl) (Nat.lt_irrefl i)

def hitInputs : List Input :=
  [.report (stateChangeAt 1 .breakpoint true 0x1000 nopInstr 0 thread1_ne_zero), .proceed,
    .command (.bpx 0x2000 0 0 "" true), .command (.bpx 0x3000 0 0 "" true), .command .x,
    .report (stateChangeAt 1 .breakpoint false 0x3000 nopInstr 0x3001 thread1_ne_zero)]

def hitState : State :=
  (Runs.run (step slots 0x9000) (fun _ _ => True) State.start hitInputs).getD State.start

def hitSession : State × Option Nat :=
  (proceed slots hitState
    (stateChangeAt 1 .breakpoint false 0x3000 nopInstr 0x3001 thread1_ne_zero) true
    0x3000 nopInstr, some (atBreak hitState.breakPoints 1))

theorem hitState_reachable :
    Runs.Reachable (step slots 0x9000) (fun _ _ => True) State.start hitState :=
  Runs.reachable_of_run .init (rfl : Runs.run (step slots 0x9000) (fun _ _ => True) State.start
    hitInputs = some hitState)

theorem cleared_singleton (h : n < size) : (Command.bc (.list [n])).cleared size = [n] := by
  simp [Command.cleared, parseListOfDecsArgs, h]

def clearedAt (n : Nat) : State :=
  execute slots hitSession.1
    (stateChangeAt 1 .breakpoint false 0x3000 nopInstr 0x3001 thread1_ne_zero)
    0x3000 nopInstr (.bc (.list [n]))

theorem clearedAt_run (h : n < 2) :
    trackedRun slots 0x9000 hitSession [.bc (.list [n])] = some (clearedAt n, afterErase n 1) := by
  have hhit : afterClear 2 ((Command.bc (.list [n])).cleared 2) (some 1) = afterErase n 1 := by
    rw [cleared_singleton h, afterClear, if_pos h]
    rfl
  rw [← hhit]
  rfl

def keptCommands : List Command := [.bpx 0x4000 0 0 "" true, .bd .all]

/-- A third breakpoint is set and all are disabled: the second one stays where it is. -/
theorem keptCommands_keep :
    ∃ s', trackedRun slots 0x9000 hitSession keptCommands = some (s', some 1) ∧
      (s'.bpHitIndex = some 1 ↔ (∀ bp ∈ hitState.breakPoints, bp.isStepBp = false) ∧
        KeepsUpTo slots 0x9000 1 hitSession.1 keptCommands) := by
  obtain ⟨s', hrun, hsession⟩ : ∃ s', trackedRun slots 0x9000 hitSession keptCommands =
      some (s', some 1) ∧ s'.phase.isSession = true := ⟨_, rfl, rfl⟩
  exact ⟨s', hrun, (bpHitIndex_iff slots 0x9000 hitState s' _ _ _ 1 (some 1) keptCommands
    hitState_reachable rfl rfl hrun hsession).2⟩

/-- The first breakpoint is cleared, or the second one itself: `BpHitIndex` does not follow. -/
theorem clearedAt_stale :
    (trackedRun slots 0x9000 hitSession [.bc (.list [0])] = some (clearedAt 0, some 0) ∧
      (clearedAt 0).phase.isSession = true ∧ (clearedAt 0).bpHitIndex = some 1) ∧
    trackedRun slots 0x9000 hitSession [.bc (.list [1])] = some (clearedAt 1, none) ∧
      (clearedAt 1).phase.isSession = true ∧ (clearedAt 1).bpHitIndex = some 1 :=
  ⟨⟨clearedAt_run (by decide), rfl, rfl⟩, clearedAt_run (by decide), rfl, rfl⟩

end BugChecker.Break
