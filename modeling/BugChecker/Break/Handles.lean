import BugChecker.Break.Shape

/-!
# Handles

A breakpoint that has a handle has its own entry in KD's table, and no later
breakpoint of the list has the same address. This is what taking a breakpoint
out by its handle relies on. It holds along runs in which every breakpoint that
KD takes out is looked at again, and no step breakpoint is set at the address
of a breakpoint that is not in the table.
-/

namespace BugChecker.Break

structure Base (t : Table) (bps : List BreakPoint) : Prop where
  table : t.Ok
  handles : ∀ bp ∈ bps, bp.handle ≠ 0 → (bp.handle, bp.address) ∈ t
  apart : bps.Pairwise fun x y => x.handle ≠ 0 → x.address ≠ y.address

-- ---------------------------------------------------------------------------
-- Recreating
-- ---------------------------------------------------------------------------

/-- What recreating does to the table and to each breakpoint. -/
structure Recreated (t : Table) (out : List (BreakPoint × Bool)) (t' : Table)
    (bps : List BreakPoint) : Prop where
  subset : t ⊆ t'
  ok : t.Ok → t'.Ok
  each : List.Forall₂ (fun o b => b = o.1 ∨ (o.2 = true ∧ ¬ t.Active o.1.address ∧
    b.unset = o.1.unset ∧ (b.handle, b.address) ∈ t')) out bps
  new : ∀ e ∈ t', e ∈ t ∨ ∃ b ∈ bps, b.handle = e.1 ∧ b.address = e.2
  active : ∀ o ∈ out, o.2 = true → t'.Active o.1.address

theorem recreate_spec (kd : Kd) (t : Table) (out : List (BreakPoint × Bool)) :
    Recreated t out (recreate kd t out).1 (recreate kd t out).2 := by
  induction out with
  | nil => exact ⟨fun _ h => h, id, .nil, fun _ h => Or.inl h, by simp⟩
  | cons o out ih =>
    obtain ⟨bp, wanted⟩ := o
    obtain ⟨hsub, hok', heach, hnew, hactive⟩ := ih
    simp only [recreate]
    cases wanted with
    | false =>
      refine ⟨hsub, hok', .cons (Or.inl rfl) heach, fun e he => ?_, fun o ho hw => ?_⟩
      · exact (hnew e he).imp_right List.exists_mem_cons_of_exists
      · rcases List.mem_cons.mp ho with rfl | ho
        · cases hw
        · exact hactive o ho hw
    | true =>
      rw [if_pos rfl]
      rcases Table.write_cases kd (recreate kd t out).1 bp.address with
        ⟨ha, hw⟩ | ⟨ha, h, hne, hfresh, hw⟩
      · rw [hw]
        refine ⟨hsub, hok', .cons (Or.inl rfl) heach, fun e he => ?_, fun o ho hw => ?_⟩
        · exact (hnew e he).imp_right List.exists_mem_cons_of_exists
        · rcases List.mem_cons.mp ho with rfl | ho
          · exact ha
          · exact hactive o ho hw
      · rw [hw]
        have hmono := List.subset_cons_self (h, bp.address) (recreate kd t out).1
        refine ⟨List.Subset.trans hsub hmono, fun hok => (hok' hok).cons hne hfresh, .cons ?_ ?_,
          fun e he => ?_, fun o ho hw => ?_⟩
        · exact Or.inr ⟨rfl, fun h => ha (h.mono hsub), rfl, List.mem_cons_self⟩
        · refine heach.imp fun o b hb => hb.imp_right ?_
          rintro ⟨hw, hn, hu, hmem⟩
          exact ⟨hw, hn, hu, hmono hmem⟩
        · rcases List.mem_cons.mp he with rfl | he
          · exact Or.inr ⟨_, List.mem_cons_self, rfl, rfl⟩
          · exact (hnew e he).imp_right List.exists_mem_cons_of_exists
        · rcases List.mem_cons.mp ho with rfl | ho
          · exact ⟨_, List.mem_cons_self, rfl⟩
          · exact (hactive o ho hw).mono hmono

theorem address_of_unset {x y : BreakPoint} (h : x.unset = y.unset) : x.address = y.address := by
  rw [← BreakPoint.unset_address x, h, BreakPoint.unset_address]

theorem exists_of_mem_recreate (h : b ∈ (recreate kd t out).2) :
    ∃ o ∈ out, o.1.unset = b.unset := by
  have hmem := List.mem_map_of_mem (f := BreakPoint.unset) h
  rw [recreate_unset] at hmem
  exact List.mem_map.mp hmem

/-- The handles after recreating. A handle may have lost its entry, if the breakpoint is to be
recreated and its address is free; breakpoints at one address are recreated together. -/
theorem recreate_base (kd : Kd) (t : Table) (out : List (BreakPoint × Bool)) (hok : t.Ok)
    (hgood : ∀ o ∈ out, o.1.handle ≠ 0 → (o.1.handle, o.1.address) ∈ t ∨
      (o.2 = true ∧ ¬ t.Active o.1.address))
    (hapart : out.Pairwise fun x y => x.1.handle ≠ 0 → x.1.address ≠ y.1.address)
    (htogether : out.Pairwise fun x y => x.1.address = y.1.address → x.2 = y.2) :
    Base (recreate kd t out).1 (recreate kd t out).2 := by
  induction out with
  | nil => exact ⟨hok, by simp [recreate], .nil⟩
  | cons o out ih =>
    obtain ⟨bp, wanted⟩ := o
    rw [List.pairwise_cons] at hapart htogether
    obtain ⟨hbpapart, hapart⟩ := hapart
    obtain ⟨hbptogether, htogether⟩ := htogether
    obtain ⟨hok', hhandles, hapart'⟩ :=
      ih (fun o ho => hgood o (List.mem_cons_of_mem _ ho)) hapart htogether
    obtain ⟨hsub, -, -, hnew, hactive⟩ := recreate_spec kd t out
    -- an unchanged head keeps its entry, if it has one
    have hkeep : ((bp.handle, bp.address) ∈ t ∨ ¬ bp.handle ≠ 0) →
        Base (recreate kd t out).1 (bp :: (recreate kd t out).2) := by
      intro hbp
      refine ⟨hok', fun b hb hne => ?_, List.pairwise_cons.mpr ⟨fun b hb hne heq => ?_, hapart'⟩⟩
      · rcases List.mem_cons.mp hb with rfl | hb
        · exact hsub (hbp.resolve_right fun hn => hn hne)
        · exact hhandles b hb hne
      · obtain ⟨o, ho, hunset⟩ := exists_of_mem_recreate hb
        exact hbpapart o ho hne (heq.trans (address_of_unset hunset).symm)
    simp only [recreate]
    cases wanted with
    | false =>
      refine hkeep ?_
      by_cases hne : bp.handle ≠ 0
      · rcases hgood (bp, false) List.mem_cons_self hne with hmem | ⟨hw, -⟩
        · exact Or.inl hmem
        · cases hw
      · exact Or.inr hne
    | true =>
      rw [if_pos rfl]
      rcases Table.write_cases kd (recreate kd t out).1 bp.address with
        ⟨⟨e, he, heq⟩, hw⟩ | ⟨ha, h, hne, hfresh, hw⟩
      · rw [hw]
        refine hkeep ?_
        by_cases hne : bp.handle ≠ 0
        · rcases hgood (bp, true) List.mem_cons_self hne with hmem | ⟨-, hfree⟩
          · exact Or.inl hmem
          · rcases hnew e he with he | ⟨b, hb, -, hbe⟩
            · exact absurd ⟨e, he, heq⟩ hfree
            · obtain ⟨o, ho, hunset⟩ := exists_of_mem_recreate hb
              exact absurd ((address_of_unset hunset).trans (hbe.trans heq)).symm
                (hbpapart o ho hne)
        · exact Or.inr hne
      · rw [hw]
        refine ⟨hok'.cons hne hfresh, fun b hb hbne => ?_,
          List.pairwise_cons.mpr ⟨fun b hb _ heq => ?_, hapart'⟩⟩
        · rcases List.mem_cons.mp hb with rfl | hb
          · exact List.mem_cons_self
          · exact List.mem_cons_of_mem _ (hhandles b hb hbne)
        · -- a later breakpoint at the address would have been recreated before
          obtain ⟨o, ho, hunset⟩ := exists_of_mem_recreate hb
          have haddr : bp.address = o.1.address :=
            heq.trans (address_of_unset hunset).symm
          exact ha (haddr ▸ hactive o ho (hbptogether o ho haddr).symm)

-- ---------------------------------------------------------------------------
-- Taking out
-- ---------------------------------------------------------------------------

theorem mem_restore_of_ne {t : Table} (hok : t.Ok) (hmem : (h, addr) ∈ t) (he : e ∈ t)
    (hne : e.2 ≠ addr) : e ∈ t.restore h :=
  Table.mem_restore.mpr ⟨he, fun heq => hne (congrArg Prod.snd (hok.eq_of_handle he hmem heq))⟩

theorem Base.sublist (h : Base t bps) (hok : t'.Ok) (hsub : bps'.Sublist bps)
    (hkeeps : ∀ e ∈ t, ∀ bp ∈ bps', bp.address = e.2 → e ∈ t') : Base t' bps' :=
  ⟨hok, fun bp hbp hne => hkeeps _ (h.handles bp (hsub.subset hbp) hne) bp hbp rfl,
    h.apart.sublist hsub⟩

theorem users_eq_self (h : ∀ bp ∈ bps, bp.isStepBp = false) : users bps = bps :=
  List.filter_eq_self.mpr fun bp hbp => by simp [h bp hbp]

theorem removeStepBps_users (t : Table) (h : ∀ bp ∈ bps, bp.isStepBp = false) :
    (removeStepBps t bps).1 = t := by
  induction bps with
  | nil => rfl
  | cons bp bps ih =>
    simp only [removeStepBps, h bp List.mem_cons_self, Bool.false_eq_true, if_false]
    exact ih fun b hb => h b (List.mem_cons_of_mem _ hb)

theorem removeStepBps_cases (t : Table) (h : Shape bps) :
    ((removeStepBps t bps).1 = t ∧ ∀ bp ∈ bps, bp.isStepBp = true → bp.handle = 0) ∨
    ∃ bp rest, bps = bp :: rest ∧ users bps = rest ∧ bp.handle ≠ 0 ∧
      (removeStepBps t bps).1 = t.restore bp.handle := by
  cases bps with
  | nil => exact Or.inl ⟨rfl, by simp⟩
  | cons bp rest =>
    have hrest := removeStepBps_users t h.tail
    have hcons : ∀ b ∈ bp :: rest, b.isStepBp = true → b = bp := by
      intro b hb hstep
      rcases List.mem_cons.mp hb with rfl | hb
      · rfl
      · rw [h.tail b hb] at hstep
        cases hstep
    cases hstep : bp.isStepBp with
    | false =>
      refine Or.inl ⟨by simpa [removeStepBps, hstep] using hrest, fun b hb hbs => ?_⟩
      rw [hcons b hb hbs, hstep] at hbs
      cases hbs
    | true =>
      by_cases hne : bp.handle ≠ 0
      · refine Or.inr ⟨bp, rest, rfl, ?_, hne, ?_⟩
        · rw [users, List.filter_cons, hstep]
          exact users_eq_self h.tail
        · simp only [removeStepBps, hstep, if_true, if_pos hne]
          exact congrArg (·.restore bp.handle) hrest
      · refine Or.inl ⟨by simpa [removeStepBps, hstep, hne] using hrest, fun b hb hbs => ?_⟩
        rw [hcons b hb hbs]
        exact not_not.mp hne

theorem removeStepBps_keeps (h : Base t bps) (hshape : Shape bps) (he : e ∈ t)
    (hbp : bp ∈ users bps) (heq : bp.address = e.2) : e ∈ (removeStepBps t bps).1 := by
  rcases removeStepBps_cases t hshape with ⟨ht, -⟩ | ⟨b, rest, rfl, husers, hne, ht⟩
  · rwa [ht]
  · rw [ht]
    refine mem_restore_of_ne h.table (h.handles b List.mem_cons_self hne) he fun heq' => ?_
    rw [husers] at hbp
    exact (List.pairwise_cons.mp h.apart).1 bp hbp hne (heq'.symm.trans heq.symm)

theorem removeStepBps_ok (h : t.Ok) (hshape : Shape bps) : (removeStepBps t bps).1.Ok := by
  rcases removeStepBps_cases t hshape with ⟨ht, -⟩ | ⟨b, rest, -, -, -, ht⟩
  · rwa [ht]
  · rw [ht]
    exact h.filter _

theorem removeStepBps_base (h : Base t bps) (hshape : Shape bps) :
    Base (removeStepBps t bps).1 (users bps) :=
  h.sublist (removeStepBps_ok h.table hshape) List.filter_sublist
    fun _ he _ hbp heq => removeStepBps_keeps h hshape he hbp heq

theorem removeStepBps_active (h : Base t bps) (hshape : Shape bps) (hbp : bp ∈ users bps)
    (ha : t.Active bp.address) : (removeStepBps t bps).1.Active bp.address := by
  obtain ⟨e, he, heq⟩ := ha
  exact ⟨e, removeStepBps_keeps h hshape he hbp heq.symm, heq⟩

theorem clear_base (h : Base t bps) (hnodup : (bps.map (·.address)).Nodup) (hn : n < bps.length) :
    Base (if bps[n].handle ≠ 0 then t.restore bps[n].handle else t) (bps.eraseIdx n) ∧
      ∀ e ∈ t, ∀ b ∈ bps.eraseIdx n, b.address = e.2 →
        e ∈ if bps[n].handle ≠ 0 then t.restore bps[n].handle else t := by
  -- no other breakpoint has the address of the one that goes
  have hother : ∀ b ∈ bps.eraseIdx n, b.address ≠ bps[n].address := by
    intro b hb heq
    obtain ⟨i, hi, hin, rfl⟩ := List.mem_eraseIdx_iff_getElem.mp hb
    have hi' : i < (bps.map (·.address)).length := by simpa using hi
    have hn' : n < (bps.map (·.address)).length := by simpa using hn
    have hget : (bps.map (·.address))[i] = (bps.map (·.address))[n] := by simpa using heq
    exact hin (hnodup.getElem_inj_iff.mp hget)
  have hkeeps : ∀ e ∈ t, ∀ b ∈ bps.eraseIdx n, b.address = e.2 →
      e ∈ if bps[n].handle ≠ 0 then t.restore bps[n].handle else t := by
    intro e he b hb heq
    split
    · next hne =>
      exact mem_restore_of_ne h.table (h.handles _ (List.getElem_mem hn) hne) he
        fun heq' => hother b hb (heq.trans heq')
    · exact he
  have hok : (if bps[n].handle ≠ 0 then t.restore bps[n].handle else t).Ok := by
    split
    · exact h.table.filter _
    · exact h.table
  exact ⟨h.sublist hok (List.eraseIdx_sublist bps n) hkeeps, hkeeps⟩

theorem clearBps_keeps (h : Base t bps) (hnodup : (bps.map (·.address)).Nodup) :
    Base (clearBps t bps nums).1 (clearBps t bps nums).2 ∧
      ∀ e ∈ t, ∀ bp ∈ (clearBps t bps nums).2, bp.address = e.2 → e ∈ (clearBps t bps nums).1 := by
  induction nums generalizing t bps with
  | nil => exact ⟨h, fun e he _ _ _ => he⟩
  | cons n nums ih =>
    rw [clearBps]
    split
    · exact ⟨h, fun e he _ _ _ => he⟩
    · next bp hbp =>
      obtain ⟨hn, rfl⟩ := List.getElem?_eq_some_iff.mp hbp
      obtain ⟨hone, hkeeps⟩ := clear_base h hnodup hn
      obtain ⟨hbase, hrest⟩ := ih hone (hnodup.sublist ((List.eraseIdx_sublist bps n).map _))
      refine ⟨hbase, fun e he b hb heq => hrest e (hkeeps e he b ?_ heq) b hb heq⟩
      exact (clearBps_sublist _ _ nums).subset hb

-- ---------------------------------------------------------------------------
-- The steps
-- ---------------------------------------------------------------------------

def Command.stepsOver : Command → Bool
  | .p | .pRet => true
  | _ => false

def State.stepBpAt (s : State) : Input → Option UInt64
  | .report _ => none
  | .proceed =>
    match s.phase with
    | .examined sc false pc thisInstr =>
      if (s.stepOutThread ≠ 0 ∧ s.stepOutThread = sc.thread) ∧ stepsWithBp thisInstr then
        some (pc + thisInstr.length)
      else none
    | _ => none
  | .command c =>
    match s.phase with
    | .session _ pc thisInstr =>
      if c.stepsOver ∧ stepsWithBp thisInstr then some (pc + thisInstr.length) else none
    | _ => none

instance {p : UInt64 → Prop} [DecidablePred p] (s : State) (i : Input) :
    Decidable (∀ addr ∈ s.stepBpAt i, p addr) := Option.decidableForallMem _

/-- Every breakpoint that KD takes out is in the window of the loop. -/
def SeesStruck (deleteAddr : UInt64) (s : State) (sc : StateChange) : Prop :=
  ∀ bp ∈ s.bpsAt deleteAddr sc, Table.Struck sc.pc bp.address →
    windowed (s.prevBpTraceAddr sc) sc.currPc bp = true

instance : Decidable (SeesStruck deleteAddr s sc) :=
  inferInstanceAs (Decidable (∀ bp ∈ s.bpsAt deleteAddr sc, _))

/-- A breakpoint of the user at the address of a new step breakpoint is in KD's table. -/
def StepsClear (s : State) (addr : UInt64) : Prop :=
  addr ≠ 0 → ∀ bp ∈ users s.breakPoints, bp.address = addr → s.table.Active addr

instance : Decidable (StepsClear s addr) := inferInstanceAs (Decidable (addr ≠ 0 → _))

theorem setStepBp_base (kd : Kd) (h : Base s.table s.breakPoints) (hshape : Shape s.breakPoints)
    (hclear : StepsClear s addr) :
    Base (setStepBp kd s thread addr).table (setStepBp kd s thread addr).breakPoints := by
  have hbase := removeStepBps_base h hshape
  rcases setStepBp_cases kd s thread addr with
    ⟨-, heq⟩ | ⟨-, -, heq⟩ | ⟨haddr, ha, handle, hne, hnew, heq⟩
  · rw [heq]
    exact hbase
  · rw [heq]
    refine ⟨hbase.table, fun bp hbp hne => ?_,
      List.pairwise_cons.mpr ⟨fun _ _ hne => ?_, hbase.apart⟩⟩
    · rcases List.mem_cons.mp hbp with rfl | hbp
      · exact absurd rfl hne
      · exact hbase.handles bp hbp hne
    · exact absurd rfl hne
  · rw [heq]
    refine ⟨hbase.table.cons hne hnew, fun bp hbp hne => ?_,
      List.pairwise_cons.mpr ⟨fun bp hbp _ heq => ?_, hbase.apart⟩⟩
    · rcases List.mem_cons.mp hbp with rfl | hbp
      · exact List.mem_cons_self
      · exact List.mem_cons_of_mem _ (hbase.handles bp hbp hne)
    · replace heq : bp.address = addr := heq.symm
      have hactive := removeStepBps_active h hshape hbp (heq ▸ hclear haddr bp hbp heq)
      exact ha (heq ▸ hactive)

theorem restoreAll_ok (h : t.Ok) : (restoreAll t bps).Ok := by
  induction bps generalizing t with
  | nil => exact h
  | cons bp bps ih =>
    rw [restoreAll]
    refine ih ?_
    split
    · exact h.filter _
    · exact h

theorem tableAt_ok {s : State} (h : s.table.Ok) : (s.tableAt deleteAddr sc).Ok := by
  rw [State.tableAt]
  split
  · exact restoreAll_ok (h.filter _)
  · exact h.filter _

theorem not_deletesAll_of_mem {s : State} (h : bp ∈ s.bpsAt deleteAddr sc) :
    bp ∈ s.breakPoints ∧ s.tableAt deleteAddr sc = s.table.stateChange sc.pc := by
  rw [State.bpsAt] at h
  rw [State.tableAt]
  split at h
  · simp at h
  · next hno => exact ⟨h, if_neg hno⟩

theorem bpsAt_sublist (s : State) (deleteAddr : UInt64) (sc : StateChange) :
    (s.bpsAt deleteAddr sc).Sublist s.breakPoints := by
  rw [State.bpsAt]
  split
  · exact List.nil_sublist _
  · exact List.Sublist.refl _

theorem examine_base (h : Base s.table s.breakPoints) (hsees : SeesStruck deleteAddr s sc) :
    Base (examine kd deleteAddr s sc).table (examine kd deleteAddr s sc).breakPoints := by
  simp only [examine, State.visited, visitBps_fst]
  refine recreate_base kd _ _ (tableAt_ok h.table) ?_ ?_ ?_
  · intro o ho hne
    obtain ⟨bp, hbp, rfl⟩ := List.mem_map.mp ho
    obtain ⟨hmem, htable⟩ := not_deletesAll_of_mem hbp
    have hfst := outcome_fst hne
    rw [hfst] at hne ⊢
    have hentry := h.handles bp hmem hne
    rw [htable]
    by_cases hstruck : Table.Struck sc.pc bp.address
    · -- it was taken out, and it was not hit since it still has its handle
      refine Or.inr ⟨?_, Table.not_active_stateChange hstruck⟩
      have hw := hsees bp hbp hstruck
      rw [outcome_snd, hw, Bool.true_and, bne_iff_ne]
      intro heq
      rw [outcome, if_pos hw, if_pos heq] at hfst
      rw [← hfst] at hne
      exact hne rfl
    · exact Or.inl (Table.mem_stateChange.mpr ⟨hentry, hstruck⟩)
  · refine List.pairwise_map.mpr ((h.apart.sublist (bpsAt_sublist s deleteAddr sc)).imp ?_)
    intro x y hxy hne
    have hfst := outcome_fst hne
    rw [hfst] at hne ⊢
    rw [outcome_address]
    exact hxy hne
  · refine List.pairwise_map.mpr (List.pairwise_of_forall fun x y heq => ?_)
    rw [outcome_address, outcome_address] at heq
    rw [outcome_snd, outcome_snd, windowed, windowed, heq]

theorem stepOver_base (kd : Kd) (sc : StateChange) (h : Base s.table s.breakPoints)
    (hshape : Shape s.breakPoints)
    (hclear : stepsWithBp thisInstr = true → StepsClear s (pc + thisInstr.length)) :
    Base (stepOver kd s sc pc thisInstr).table (stepOver kd s sc pc thisInstr).breakPoints := by
  rw [stepOver]
  split
  · next hbp => exact setStepBp_base kd h hshape (hclear hbp)
  · exact h

theorem bpx_base (kd : Kd) (h : Base s.table s.breakPoints) :
    Base (bpx kd s address eprocess ethread when readable).table
      (bpx kd s address eprocess ethread when readable).breakPoints := by
  rcases bpx_cases kd s address eprocess ethread when readable with heq | ⟨hnew, -, n,
    hne, hfresh, heq⟩
  · rwa [heq]
  · rw [heq]
    refine ⟨h.table.cons hne hfresh, fun bp hbp hbne => ?_, List.pairwise_append.mpr
      ⟨h.apart, List.pairwise_singleton _ _, fun x hx y hy _ => ?_⟩⟩
    · rcases List.mem_append.mp hbp with hbp | hbp
      · exact List.mem_cons_of_mem _ (h.handles bp hbp hbne)
      · rw [List.mem_singleton.mp hbp]
        exact List.mem_cons_self
    · rw [List.mem_singleton.mp hy]
      exact hnew x hx

theorem setSkip_base (h : Base t bps) : Base t (setSkip skip bps nums) := by
  have hmap := setSkip_map (fun bp => (bp.handle, bp.address)) (fun _ _ => rfl) skip bps nums
  refine ⟨h.table, fun bp hbp hne => ?_, ?_⟩
  · have hmem : (bp.handle, bp.address) ∈ bps.map fun bp => (bp.handle, bp.address) :=
      hmap ▸ List.mem_map_of_mem (f := fun bp => (bp.handle, bp.address)) hbp
    obtain ⟨b, hb, heq⟩ := List.mem_map.mp hmem
    rw [Prod.mk.injEq] at heq
    rw [← heq.1, ← heq.2]
    exact h.handles b hb (heq.1 ▸ hne)
  · have hpair : (bps.map fun bp => (bp.handle, bp.address)).Pairwise fun x y => x.1 ≠ 0 →
        x.2 ≠ y.2 :=
      List.pairwise_map.mpr h.apart
    rw [← hmap] at hpair
    exact List.pairwise_map.mp hpair

/-- What a step asks for. -/
structure StepSafe (deleteAddr : UInt64) (s : State) (i : Input) : Prop where
  sees : ∀ sc, i = .report sc → SeesStruck deleteAddr s sc
  clear : ∀ addr, s.stepBpAt i = some addr → StepsClear s addr

theorem step_base (hshaped : Shaped s) (h : Base s.table s.breakPoints)
    (hsafe : StepSafe deleteAddr s i) (hs : step kd deleteAddr s i = some s') :
    Base s'.table s'.breakPoints := by
  rcases step_cases hs with ⟨sc, rfl, -, rfl⟩ | ⟨sc, breakIn, pc, thisInstr, rfl, hp, rfl⟩ |
    ⟨c, sc, pc, thisInstr, rfl, hp, rfl⟩
  · exact examine_base h (hsafe.sees sc rfl)
  · have hclear := hsafe.clear
    cases breakIn with
    | true => exact setStepBp_base kd h hshaped.shape fun hne => absurd rfl hne
    | false =>
      simp only [State.stepBpAt, hp] at hclear
      simp only [proceed, Bool.false_eq_true, if_false, resume, stepOut]
      split
      · next hout =>
        have hbase := stepOver_base kd sc h hshaped.shape fun hbp =>
          hclear _ (if_pos ⟨hout, hbp⟩)
        split
        · exact hbase
        · exact hbase
      · exact h
  · have husers := hshaped.session hp
    have hclear := hsafe.clear
    simp only [State.stepBpAt, hp] at hclear
    cases c with
    | bpx address eprocess ethread when readable => exact bpx_base kd h
    | bc nums => exact (clearBps_keeps h ((shape_of_users husers).mp hshaped.shape)).1
    | bd nums => exact setSkip_base h
    | be nums => exact setSkip_base h
    | r pc => exact h
    | p => exact stepOver_base kd sc h hshaped.shape fun hbp => hclear _ (if_pos ⟨rfl, hbp⟩)
    | pRet =>
      have hbase := stepOver_base kd sc h hshaped.shape fun hbp =>
        hclear _ (if_pos ⟨rfl, hbp⟩)
      simp only [execute, resume]
      split
      · exact hbase
      · exact hbase
    | t => exact h
    | x => exact h

end BugChecker.Break
