import BugChecker.Break.Handles
import Mathlib.Data.List.Sort

/-!
# The list and KD's table agree

Every handle of the list is that of an entry at the breakpoint's address, and
every entry is held by one breakpoint. A write that fails leaves the old handle
in place, which is right as long as the entry that is in the way is the
breakpoint's own; a step breakpoint set at the address of a breakpoint that
waits to be recreated breaks this.
-/

namespace BugChecker.Break

/-- Every entry is held by a breakpoint. -/
def Owned (t : Table) (bps : List BreakPoint) : Prop := ∀ e ∈ t, ∃ bp ∈ bps, bp.handle = e.1

/-- The program counters, before and after a hardcoded INT3, whose window does not wrap around. -/
def InRange (sc : StateChange) : Prop :=
  (64 ≤ sc.pc.toNat ∧ sc.pc.toNat < 2 ^ 64 - 64) ∧
    64 ≤ sc.currPc.toNat ∧ sc.currPc.toNat < 2 ^ 64 - 64

instance (sc : StateChange) : Decidable (InRange sc) := inferInstanceAs (Decidable (_ ∧ _))

theorem currPc_cases (sc : StateChange) : sc.currPc = sc.pc ∨ sc.currPc = sc.pc + 1 := by
  rw [StateChange.currPc]
  split
  · exact Or.inr rfl
  · exact Or.inl rfl

theorem currPc_toNat (h : InRange sc) :
    sc.pc.toNat ≤ sc.currPc.toNat ∧ sc.currPc.toNat ≤ sc.pc.toNat + 1 := by
  have hpc := h.1
  rcases currPc_cases sc with heq | heq
  · rw [heq]
    omega
  · rw [heq, UInt64.toNat_add, show (1 : UInt64).toNat = 1 from rfl]
    omega

theorem struck_currPc (h : InRange sc) : Table.Struck sc.pc sc.currPc := by
  have hle := currPc_toNat h
  exact ⟨hle.1, by omega⟩

theorem seesStruck_of_inRange (h : InRange sc) : SeesStruck deleteAddr s sc := by
  intro bp _ hstruck
  have hle := currPc_toNat h
  exact windowed_of_near h.2.1 h.2.2 (by have := hstruck.1; omega) (by have := hstruck.2; omega)

-- ---------------------------------------------------------------------------
-- Who holds an entry
-- ---------------------------------------------------------------------------

theorem exists_of_forall₂ (h : List.Forall₂ R l l') (ha : a ∈ l) : ∃ b ∈ l', R a b := by
  induction h with
  | nil => cases ha
  | @cons x y l l' hxy _ ih =>
    rcases List.mem_cons.mp ha with rfl | ha
    · exact ⟨y, List.mem_cons_self, hxy⟩
    · obtain ⟨b, hb, hab⟩ := ih ha
      exact ⟨b, List.mem_cons_of_mem _ hb, hab⟩

theorem mem_restoreAll {t : Table} : e ∈ restoreAll t bps ↔
    e ∈ t ∧ ∀ bp ∈ bps, bp.handle ≠ 0 → e.1 ≠ bp.handle := by
  induction bps generalizing t with
  | nil => simp [restoreAll]
  | cons bp bps ih =>
    rw [restoreAll, ih, List.forall_mem_cons]
    split
    · next hne =>
      rw [Table.mem_restore]
      constructor
      · rintro ⟨⟨he, hbp⟩, hrest⟩
        exact ⟨he, fun _ => hbp, hrest⟩
      · rintro ⟨he, hbp, hrest⟩
        exact ⟨⟨he, hbp hne⟩, hrest⟩
    · next hne =>
      constructor
      · rintro ⟨he, hrest⟩
        exact ⟨he, fun h => absurd h hne, hrest⟩
      · rintro ⟨he, -, hrest⟩
        exact ⟨he, hrest⟩

theorem owner_address (h : Base t bps) (he : e ∈ t) (hbp : bp ∈ bps) (heq : bp.handle = e.1) :
    bp.address = e.2 := by
  have hne : bp.handle ≠ 0 := heq ▸ h.table.ne_zero e he
  exact congrArg Prod.snd (h.table.eq_of_handle (h.handles bp hbp hne) he heq)

theorem examine_owned (h : Base s.table s.breakPoints) (ho : Owned s.table s.breakPoints)
    (hrange : InRange sc) :
    Owned (examine kd deleteAddr s sc).table (examine kd deleteAddr s sc).breakPoints := by
  simp only [examine, State.visited, visitBps_fst]
  obtain ⟨-, -, heach, hnew, -⟩ := recreate_spec kd (s.tableAt deleteAddr sc)
    ((s.bpsAt deleteAddr sc).map (outcome (s.prevBpTraceAddr sc) sc.currPc))
  intro e he
  rcases hnew e he with he | ⟨b, hb, heq, -⟩
  · cases hdel : deletesAll deleteAddr sc with
    | true =>
      -- the entry was taken out with the breakpoint that held it
      rw [State.tableAt, if_pos hdel, mem_restoreAll, Table.mem_stateChange] at he
      obtain ⟨bp, hbp, heq⟩ := ho e he.1.1
      have hne : bp.handle ≠ 0 := heq ▸ h.table.ne_zero e he.1.1
      exact absurd heq.symm (he.2 bp hbp hne)
    | false =>
      have hkept := he
      rw [State.tableAt, if_neg (by simp [hdel])] at hkept
      obtain ⟨hmem, hstruck⟩ := Table.mem_stateChange.mp hkept
      obtain ⟨bp, hbp, heq⟩ := ho e hmem
      have haddr := owner_address h hmem hbp heq
      have hbp' : bp ∈ s.bpsAt deleteAddr sc := by rwa [State.bpsAt, if_neg (by simp [hdel])]
      have hfst : (outcome (s.prevBpTraceAddr sc) sc.currPc bp).1 = bp := by
        rw [outcome, if_neg (show ¬ bp.address = sc.currPc from fun hc =>
          hstruck (by rw [← haddr, hc]; exact struck_currPc hrange))]
        split
        · rfl
        · rfl
      obtain ⟨b, hb, hcase⟩ := exists_of_forall₂ heach (List.mem_map_of_mem hbp')
      rw [hfst] at hcase
      rcases hcase with rfl | ⟨-, hfree, -⟩
      · exact ⟨b, hb, heq⟩
      · exact absurd ⟨e, he, haddr.symm⟩ hfree
  · exact ⟨b, hb, heq⟩

theorem removeStepBps_owned (h : Base t bps) (hshape : Shape bps) (ho : Owned t bps) :
    Owned (removeStepBps t bps).1 (users bps) := by
  intro e he
  rcases removeStepBps_cases t hshape with ⟨ht, hzero⟩ | ⟨b, rest, rfl, husers, hne, ht⟩
  · rw [ht] at he
    obtain ⟨bp, hbp, heq⟩ := ho e he
    refine ⟨bp, mem_users.mpr ⟨hbp, ?_⟩, heq⟩
    cases hstep : bp.isStepBp with
    | false => rfl
    | true => exact absurd (heq.symm.trans (hzero bp hbp hstep)) (h.table.ne_zero e he)
  · rw [ht, Table.mem_restore] at he
    obtain ⟨bp, hbp, heq⟩ := ho e he.1
    rw [husers]
    rcases List.mem_cons.mp hbp with rfl | hbp
    · exact absurd heq.symm he.2
    · exact ⟨bp, hbp, heq⟩

theorem setStepBp_owned (kd : Kd) (h : Base s.table s.breakPoints) (hshape : Shape s.breakPoints)
    (ho : Owned s.table s.breakPoints) :
    Owned (setStepBp kd s thread addr).table (setStepBp kd s thread addr).breakPoints := by
  have howned := removeStepBps_owned h hshape ho
  have hcons : ∀ b : BreakPoint, Owned (removeStepBps s.table s.breakPoints).1
      (b :: users s.breakPoints) := fun b e he =>
    (howned e he).imp fun bp ⟨hbp, heq⟩ => ⟨List.mem_cons_of_mem _ hbp, heq⟩
  rcases setStepBp_cases kd s thread addr with
    ⟨-, heq⟩ | ⟨-, -, heq⟩ | ⟨-, -, handle, -, -, heq⟩
  · rw [heq]
    exact howned
  · rw [heq]
    exact hcons _
  · rw [heq]
    intro e he
    rcases List.mem_cons.mp he with rfl | he
    · exact ⟨_, List.mem_cons_self, rfl⟩
    · exact hcons _ e he

theorem clearBps_owned (h : Base t bps) (hnodup : (bps.map (·.address)).Nodup) (ho : Owned t bps) :
    Owned (clearBps t bps nums).1 (clearBps t bps nums).2 := by
  induction nums generalizing t bps with
  | nil => exact ho
  | cons n nums ih =>
    rw [clearBps]
    split
    · exact ho
    · next bp hbp =>
      obtain ⟨hn, rfl⟩ := List.getElem?_eq_some_iff.mp hbp
      refine ih (clear_base h hnodup hn).1 (hnodup.sublist ((List.eraseIdx_sublist bps n).map _)) ?_
      intro e he
      have hmem : e ∈ t ∧ (bps[n].handle ≠ 0 → e.1 ≠ bps[n].handle) := by
        split at he
        · exact ⟨(Table.mem_restore.mp he).1, fun _ => (Table.mem_restore.mp he).2⟩
        · next hne => exact ⟨he, fun h => absurd h hne⟩
      obtain ⟨b, hb, heq⟩ := ho e hmem.1
      obtain ⟨i, hi, rfl⟩ := List.mem_iff_getElem.mp hb
      refine ⟨bps[i], List.mem_eraseIdx_iff_getElem.mpr ⟨i, hi, ?_, rfl⟩, heq⟩
      rintro rfl
      exact hmem.2 (heq ▸ h.table.ne_zero e hmem.1) heq.symm

theorem bpx_owned (kd : Kd) (ho : Owned s.table s.breakPoints) :
    Owned (bpx kd s address eprocess ethread when readable).table
      (bpx kd s address eprocess ethread when readable).breakPoints := by
  rcases bpx_cases kd s address eprocess ethread when readable with heq | ⟨-, -, n, -, -, heq⟩
  · rwa [heq]
  · rw [heq]
    intro e he
    rcases List.mem_cons.mp he with rfl | he
    · exact ⟨_, List.mem_append_right _ List.mem_cons_self, rfl⟩
    · obtain ⟨bp, hbp, hh⟩ := ho e he
      exact ⟨bp, List.mem_append_left _ hbp, hh⟩

theorem setSkip_owned (ho : Owned t bps) : Owned t (setSkip skip bps nums) := by
  intro e he
  obtain ⟨bp, hbp, heq⟩ := ho e he
  have hmem := List.mem_map_of_mem (f := BreakPoint.handle) hbp
  rw [← setSkip_map BreakPoint.handle (fun _ _ => rfl) skip bps nums] at hmem
  obtain ⟨b, hb, hh⟩ := List.mem_map.mp hmem
  exact ⟨b, hb, hh.trans heq⟩

theorem stepOver_owned (kd : Kd) (sc : StateChange) (h : Base s.table s.breakPoints)
    (hshape : Shape s.breakPoints) (ho : Owned s.table s.breakPoints) :
    Owned (stepOver kd s sc pc thisInstr).table (stepOver kd s sc pc thisInstr).breakPoints := by
  rw [stepOver]
  split
  · exact setStepBp_owned kd h hshape ho
  · exact ho

def Input.InRange : Input → Prop
  | .report sc => Break.InRange sc
  | _ => True

instance : (i : Input) → Decidable i.InRange
  | .report sc => inferInstanceAs (Decidable (Break.InRange sc))
  | .proceed => isTrue trivial
  | .command _ => isTrue trivial

theorem step_owned (hshaped : Shaped s) (h : Base s.table s.breakPoints)
    (ho : Owned s.table s.breakPoints) (hrange : i.InRange)
    (hs : step kd deleteAddr s i = some s') : Owned s'.table s'.breakPoints := by
  rcases step_cases hs with ⟨sc, rfl, -, rfl⟩ | ⟨sc, breakIn, pc, thisInstr, rfl, hp, rfl⟩ |
    ⟨c, sc, pc, thisInstr, rfl, hp, rfl⟩
  · exact examine_owned h ho hrange
  · cases breakIn with
    | true => exact setStepBp_owned kd h hshaped.shape ho
    | false =>
      simp only [proceed, Bool.false_eq_true, if_false, resume, stepOut]
      split
      · split
        · exact stepOver_owned kd sc h hshaped.shape ho
        · exact stepOver_owned kd sc h hshaped.shape ho
      · exact ho
  · have husers := hshaped.session hp
    cases c with
    | bpx address eprocess ethread when readable => exact bpx_owned kd ho
    | bc nums => exact clearBps_owned h ((shape_of_users husers).mp hshaped.shape) ho
    | bd nums => exact setSkip_owned ho
    | be nums => exact setSkip_owned ho
    | r pc => exact ho
    | p => exact stepOver_owned kd sc h hshaped.shape ho
    | pRet =>
      simp only [execute, resume]
      split
      · exact stepOver_owned kd sc h hshaped.shape ho
      · exact stepOver_owned kd sc h hshaped.shape ho
    | t => exact ho
    | x => exact ho

-- ---------------------------------------------------------------------------
-- Agreement
-- ---------------------------------------------------------------------------

/-- The program counters are in range, and no step breakpoint is set at the address of a breakpoint
of the user that has no handle. -/
structure AgreeSafe (s : State) (i : Input) : Prop where
  range : i.InRange
  clear : ∀ addr ∈ s.stepBpAt i, addr ≠ 0 →
    ∀ bp ∈ s.breakPoints, bp.isStepBp = false → bp.address = addr → bp.handle ≠ 0

instance (s : State) (i : Input) : Decidable (AgreeSafe s i) :=
  decidable_of_iff (i.InRange ∧ ∀ addr ∈ s.stepBpAt i, addr ≠ 0 →
    ∀ bp ∈ s.breakPoints, bp.isStepBp = false → bp.address = addr → bp.handle ≠ 0)
    ⟨fun h => ⟨h.1, h.2⟩, fun h => ⟨h.1, h.2⟩⟩

structure Agrees (s : State) : Prop where
  denotes : ∀ bp ∈ s.breakPoints, bp.handle ≠ 0 → (bp.handle, bp.address) ∈ s.table
  handles : s.breakPoints.Pairwise fun x y => x.handle ≠ 0 → y.handle ≠ 0 → x.handle ≠ y.handle
  referenced : ∀ e ∈ s.table, s.breakPoints.countP (·.handle == e.1) = 1
  stepBp : ∀ i bp, s.breakPoints[i]? = some bp → bp.isStepBp = true → i = 0
  distinct : ((users s.breakPoints).map (·.address)).Nodup

theorem stepSafe_of_agreeSafe (h : Base s.table s.breakPoints) (hsafe : AgreeSafe s i) :
    StepSafe deleteAddr s i := by
  refine ⟨fun sc hi => ?_, fun addr haddr hne bp hbp heq => ?_⟩
  · subst hi
    exact seesStruck_of_inRange hsafe.range
  · obtain ⟨hmem, huser⟩ := mem_users.mp hbp
    have hhandle := hsafe.clear addr haddr hne bp hmem huser heq
    exact ⟨_, h.handles bp hmem hhandle, heq⟩

theorem countP_handle {bps : List BreakPoint}
    (hpair : bps.Pairwise fun x y => x.handle ≠ 0 → y.handle ≠ 0 → x.handle ≠ y.handle)
    (hne : h ≠ 0) (hbp : bp ∈ bps) (heq : bp.handle = h) : bps.countP (·.handle == h) = 1 := by
  induction bps with
  | nil => cases hbp
  | cons b bps ih =>
    obtain ⟨hb, hrest⟩ := List.pairwise_cons.mp hpair
    rcases List.mem_cons.mp hbp with rfl | hbp
    · have hzero : bps.countP (·.handle == h) = 0 := by
        rw [List.countP_eq_zero]
        intro c hc hch
        rw [beq_iff_eq] at hch
        exact hb c hc (heq ▸ hne) (hch ▸ hne) (heq.trans hch.symm)
      rw [List.countP_cons, hzero, heq]
      simp
    · have hbne : ¬ (b.handle == h) = true := fun hbh => by
        rw [beq_iff_eq] at hbh
        exact hb bp hbp (hbh ▸ hne) (heq ▸ hne) (hbh.trans heq.symm)
      rw [List.countP_cons, if_neg hbne]
      exact ih hrest hbp

theorem agrees_of_owned (hshape : Shape s.breakPoints) (h : Base s.table s.breakPoints)
    (ho : Owned s.table s.breakPoints) : Agrees s := by
  have hhandles : s.breakPoints.Pairwise fun x y =>
      x.handle ≠ 0 → y.handle ≠ 0 → x.handle ≠ y.handle := by
    refine h.apart.imp_of_mem fun {x y} hx hy hapart hxne hyne heq => hapart hxne ?_
    exact congrArg Prod.snd (h.table.eq_of_handle (h.handles x hx hxne) (h.handles y hy hyne) heq)
  refine ⟨h.handles, hhandles, fun e he => ?_, fun i bp hbp hstep => ?_, ?_⟩
  · obtain ⟨bp, hbp, heq⟩ := ho e he
    exact countP_handle hhandles (h.table.ne_zero e he) hbp heq
  · cases i with
    | zero => rfl
    | succ i =>
      have hmem : bp ∈ s.breakPoints.tail := by
        rw [← List.getElem?_tail] at hbp
        exact List.mem_of_getElem? hbp
      rw [hshape.tail bp hmem] at hstep
      cases hstep
  · exact (shape_of_users fun bp hbp => (mem_users.mp hbp).2).mp hshape.users

theorem mergeSort_range (n : Nat) : (List.range n).mergeSort (· ≥ ·) = (List.range n).reverse := by
  have hsorted : ((List.range n).mergeSort (· ≥ ·)).Pairwise fun a b => decide (a ≥ b) :=
    List.pairwise_mergeSort (by simp; omega) (by simp; omega) _
  have hsorted' : ((List.range n).mergeSort (· ≥ ·)).Pairwise (· ≥ ·) := by simpa using hsorted
  have hreverse : (List.range n).reverse.Pairwise (· ≥ ·) :=
    List.pairwise_reverse.mpr List.pairwise_le_range
  exact List.Perm.eq_of_pairwise' hsorted' hreverse
    ((List.mergeSort_perm _ _).trans (List.reverse_perm _).symm)

theorem clearBps_all (t : Table) (bps : List BreakPoint) :
    (clearBps t bps (List.range bps.length).reverse).2 = [] := by
  induction h : bps.length generalizing t bps with
  | zero => exact List.eq_nil_of_length_eq_zero h
  | succ n ih =>
    have hn : bps[n]? = some bps[n] := List.getElem?_eq_getElem (by omega)
    rw [List.range_succ, List.reverse_append, List.reverse_singleton, List.singleton_append,
      clearBps, hn]
    exact ih _ _ (by rw [List.length_eraseIdx_of_lt (by omega), h]; rfl)

structure Reached (s : State) : Prop where
  shaped : Shaped s
  base : Base s.table s.breakPoints
  owned : Owned s.table s.breakPoints

theorem step_reached (h : Reached s) (hsafe : AgreeSafe s i)
    (hs : step kd deleteAddr s i = some s') : Reached s' :=
  ⟨step_shaped h.shaped hs, step_base h.shaped h.base (stepSafe_of_agreeSafe h.base hsafe) hs,
    step_owned h.shaped h.base h.owned hsafe.range hs⟩

theorem start_reached : Reached State.start :=
  ⟨start_shaped, ⟨.nil, by simp [State.start], .nil⟩, by simp [Owned, State.start]⟩

theorem Reached.table_eq_nil (h : Reached s) (hnil : s.breakPoints = []) : s.table = [] := by
  rw [List.eq_nil_iff_forall_not_mem]
  intro e he
  obtain ⟨bp, hbp, -⟩ := h.owned e he
  rw [hnil] at hbp
  cases hbp

theorem list_agrees (kd : Kd) (deleteAddr : UInt64) (s : State)
    (h : Runs.Reachable (step kd deleteAddr) AgreeSafe State.start s) :
    Agrees s ∧
    (∀ s', step kd deleteAddr s (.command (.bc .all)) = some s' → s'.table = []) ∧
    ∀ sc s', InRange sc → deletesAll deleteAddr sc = true →
      step kd deleteAddr s (.report sc) = some s' → s'.table = [] := by
  have hreached : Reached s := h.invariant start_reached fun _ _ _ => step_reached
  refine ⟨agrees_of_owned hreached.shaped.shape hreached.base hreached.owned, ?_, ?_⟩
  · intro s' hs
    have hsafe : AgreeSafe s (.command (.bc .all)) := by
      refine ⟨trivial, fun addr haddr => ?_⟩
      rw [Option.mem_def, State.stepBpAt] at haddr
      split at haddr
      · simp [Command.stepsOver] at haddr
      · cases haddr
    refine (step_reached hreached hsafe hs).table_eq_nil ?_
    rcases step_cases hs with ⟨_, hi, -, -⟩ | ⟨_, _, _, _, hi, -, -⟩ | ⟨c, sc, pc,
      thisInstr, hi, -, rfl⟩
    · cases hi
    · cases hi
    · cases hi
      simp only [execute, parseListOfDecsArgs, mergeSort_range]
      exact clearBps_all s.table s.breakPoints
  · intro sc s' hrange hdel hs
    have hsafe : AgreeSafe s (.report sc) := ⟨hrange, by rintro _ ⟨⟩⟩
    refine (step_reached hreached hsafe hs).table_eq_nil ?_
    rcases step_cases hs with ⟨_, hi, -, rfl⟩ | ⟨_, _, _, _, hi, -, -⟩ | ⟨_, _, _, _, hi, -, -⟩
    · cases hi
      have hunset := examine_unset kd deleteAddr s sc
      rw [State.bpsAt, if_pos hdel] at hunset
      exact List.map_eq_nil_iff.mp hunset
    · cases hi
    · cases hi

/-- A breakpoint of the user and a step breakpoint at its address: the step breakpoint has no
handle. -/
def agreeingInputs : List Input :=
  [.report (stateChangeAt 1 .breakpoint true 0x1000 callInstr 0x2000 thread1_ne_zero), .proceed,
    .command (.bpx 0x1006 0 0 "" true), .command .p]

def agreeingState : State :=
  (Runs.run (step slots 0x9000) AgreeSafe State.start agreeingInputs).getD State.start

theorem agreeingInputs_agrees :
    Runs.run (step slots 0x9000) AgreeSafe State.start agreeingInputs = some agreeingState ∧
    agreeingState.breakPoints = [stepBp 1 0x1006 0, userBp 0x1006 0 0 "" 1] ∧
    Agrees agreeingState := by
  have hrun : Runs.run (step slots 0x9000) AgreeSafe State.start agreeingInputs =
      some agreeingState := Runs.run_eq_some_getD (by decide)
  exact ⟨hrun, by decide,
    (list_agrees slots 0x9000 agreeingState (Runs.reachable_of_run .init hrun)).1⟩

-- ---------------------------------------------------------------------------
-- A handle that two breakpoints have
-- ---------------------------------------------------------------------------

/-- Thread 1 hits the breakpoint at 0x2006 and is resumed to step over it. Thread 2 stops far away,
is moved before a call that ends there, and steps over the call. A state change nearby then has
both breakpoints recreated. -/
def staleInputs : List Input :=
  [.report (stateChangeAt 1 .breakpoint true 0x1000 nopInstr 0 thread1_ne_zero), .proceed,
    .command (.bpx 0x2006 0 0 "" true), .command .x,
    .report (stateChangeAt 1 .breakpoint false 0x2006 nopInstr 0x2007 thread1_ne_zero), .proceed,
    .command .x,
    .report (stateChangeAt 2 .breakpoint true 0x3000 callInstr 0x4000 thread2_ne_zero), .proceed,
    .command (.r 0x2001), .command .p,
    .report (stateChangeAt 3 .other false 0x2000 nopInstr 0 thread3_ne_zero), .proceed]

def staleState : State :=
  (Runs.run (step slots 0x9000) (fun _ _ => True) State.start staleInputs).getD State.start

/-- Every program counter is in range, and both breakpoints have handle 1. -/
theorem staleInputs_shareHandle :
    (∀ i ∈ staleInputs, i.InRange) ∧
    Runs.run (step slots 0x9000) (fun _ _ => True) State.start staleInputs = some staleState ∧
    staleState.phase = .running ∧
    staleState.breakPoints = [stepBp 2 0x2006 1, userBp 0x2006 0 0 "" 1] ∧ ¬ Agrees staleState := by
  have hbps : staleState.breakPoints = [stepBp 2 0x2006 1, userBp 0x2006 0 0 "" 1] := by decide
  refine ⟨by decide, rfl, rfl, hbps, fun h => ?_⟩
  have hhandles := h.handles
  rw [hbps] at hhandles
  exact (List.pairwise_cons.mp hhandles).1 _ List.mem_cons_self (by decide) (by decide) rfl

end BugChecker.Break
