import BugChecker.Break.Visit

/-!
# The shape of the list of breakpoints

Whatever the threads report and the user asks for, only the first breakpoint of
the list can be a step breakpoint, it has no condition but its thread, the
others have pairwise different addresses, and a session has no step breakpoint.
-/

namespace BugChecker.Break

-- ---------------------------------------------------------------------------
-- What a step can do
-- ---------------------------------------------------------------------------

theorem step_cases (h : step kd deleteAddr s i = some s') :
    (∃ sc, i = .report sc ∧ s.phase = .running ∧ s' = examine kd deleteAddr s sc) ∨
    (∃ sc breakIn pc thisInstr, i = .proceed ∧ s.phase = .examined sc breakIn pc thisInstr ∧
      s' = proceed kd s sc breakIn pc thisInstr) ∨
    (∃ c sc pc thisInstr, i = .command c ∧ s.phase = .session sc pc thisInstr ∧
      s' = execute kd s sc pc thisInstr c) := by
  cases i with
  | report sc =>
    cases hp : s.phase with
    | running => exact Or.inl ⟨sc, rfl, rfl, by simpa [step, hp] using h.symm⟩
    | examined sc breakIn pc thisInstr => simp [step, hp] at h
    | session sc pc thisInstr => simp [step, hp] at h
  | proceed =>
    cases hp : s.phase with
    | running => simp [step, hp] at h
    | examined sc breakIn pc thisInstr =>
      exact Or.inr (Or.inl ⟨sc, breakIn, pc, thisInstr, rfl, rfl, by simpa [step, hp] using h.symm⟩)
    | session sc pc thisInstr => simp [step, hp] at h
  | command c =>
    cases hp : s.phase with
    | running => simp [step, hp] at h
    | examined sc breakIn pc thisInstr => simp [step, hp] at h
    | session sc pc thisInstr =>
      exact Or.inr (Or.inr ⟨c, sc, pc, thisInstr, rfl, rfl, by simpa [step, hp] using h.symm⟩)

-- ---------------------------------------------------------------------------
-- The lists that the operations leave
-- ---------------------------------------------------------------------------

theorem recreate_unset (t : Table) (out : List (BreakPoint × Bool)) :
    (recreate kd t out).2.map BreakPoint.unset = out.map (·.1.unset) := by
  induction out with
  | nil => rfl
  | cons o out ih =>
    obtain ⟨bp, wanted⟩ := o
    simp only [recreate]
    split
    · split
      · simp only [List.map_cons, ih]
      · simp only [List.map_cons, ih]
        rfl
    · simp only [List.map_cons, ih]

theorem removeStepBps_snd (t : Table) (bps : List BreakPoint) :
    (removeStepBps t bps).2 = bps.filter (!·.isStepBp) := by
  induction bps with
  | nil => rfl
  | cons bp bps ih =>
    simp only [removeStepBps, List.filter_cons]
    cases bp.isStepBp with
    | true => exact ih
    | false => exact congrArg _ ih

theorem clearBps_sublist (t : Table) (bps : List BreakPoint) (nums : List Nat) :
    (clearBps t bps nums).2.Sublist bps := by
  induction nums generalizing t bps with
  | nil => exact List.Sublist.refl _
  | cons n nums ih =>
    rw [clearBps]
    split
    · exact List.Sublist.refl _
    · exact (ih _ _).trans (List.eraseIdx_sublist bps n)

theorem examine_unset (kd : Kd) (deleteAddr : UInt64) (s : State) (sc : StateChange) :
    (examine kd deleteAddr s sc).breakPoints.map BreakPoint.unset =
      (s.bpsAt deleteAddr sc).map BreakPoint.unset := by
  simp only [examine, State.visited, recreate_unset, visitBps_fst, List.map_map, Function.comp_def,
    outcome_unset]

def users (bps : List BreakPoint) : List BreakPoint := bps.filter (!·.isStepBp)

theorem mem_users : bp ∈ users bps ↔ bp ∈ bps ∧ bp.isStepBp = false := by simp [users]

/-- What setting a step breakpoint does: nothing but take out the old one if there is no address,
else there is a new one in front, with a handle if the address was free. -/
theorem setStepBp_cases (kd : Kd) (s : State) (thread addr : UInt64) :
    (addr = 0 ∧ setStepBp kd s thread addr = { s with
      table := (removeStepBps s.table s.breakPoints).1, breakPoints := users s.breakPoints }) ∨
    (addr ≠ 0 ∧ (removeStepBps s.table s.breakPoints).1.Active addr ∧
      setStepBp kd s thread addr = { s with
        table := (removeStepBps s.table s.breakPoints).1, trace := false
        breakPoints := stepBp thread addr 0 :: users s.breakPoints }) ∨
    (addr ≠ 0 ∧ ¬ (removeStepBps s.table s.breakPoints).1.Active addr ∧ ∃ h, h ≠ 0 ∧
      h ∉ (removeStepBps s.table s.breakPoints).1.map Prod.fst ∧
      setStepBp kd s thread addr = { s with
        table := (h, addr) :: (removeStepBps s.table s.breakPoints).1, trace := false
        breakPoints := stepBp thread addr h :: users s.breakPoints }) := by
  by_cases haddr : addr = 0
  · exact Or.inl ⟨haddr, by simp only [setStepBp, haddr, if_true, removeStepBps_snd]; rfl⟩
  · rcases Table.write_cases kd (removeStepBps s.table s.breakPoints).1 addr with
      ⟨ha, hw⟩ | ⟨ha, h, hne, hnew, hw⟩
    · refine Or.inr (Or.inl ⟨haddr, ha, ?_⟩)
      simp only [setStepBp, if_neg haddr, hw, removeStepBps_snd]
      rfl
    · refine Or.inr (Or.inr ⟨haddr, ha, h, hne, hnew, ?_⟩)
      simp only [setStepBp, if_neg haddr, hw, removeStepBps_snd]
      rfl

-- ---------------------------------------------------------------------------
-- The shape
-- ---------------------------------------------------------------------------

structure Shape (bps : List BreakPoint) : Prop where
  tail : ∀ bp ∈ bps.tail, bp.isStepBp = false
  stepBp : ∀ bp ∈ bps, bp.isStepBp = true → bp.skip = false ∧ bp.when = "" ∧ bp.ethread ≠ 0
  distinct : bps.Pairwise fun x y => x.isStepBp = false → x.address ≠ y.address

theorem shape_unset : Shape (bps.map BreakPoint.unset) ↔ Shape bps := by
  constructor
  · rintro ⟨htail, hstep, hdistinct⟩
    refine ⟨fun bp hbp => ?_, fun bp hbp => hstep bp.unset (List.mem_map_of_mem hbp),
      List.pairwise_map.mp hdistinct⟩
    exact htail bp.unset (by rw [← List.map_tail]; exact List.mem_map_of_mem hbp)
  · rintro ⟨htail, hstep, hdistinct⟩
    refine ⟨fun bp hbp => ?_, fun bp hbp => ?_, List.pairwise_map.mpr hdistinct⟩
    · rw [← List.map_tail] at hbp
      obtain ⟨bp, hmem, rfl⟩ := List.mem_map.mp hbp
      exact htail bp hmem
    · obtain ⟨bp, hmem, rfl⟩ := List.mem_map.mp hbp
      exact hstep bp hmem

theorem Shape.nil : Shape [] := ⟨by simp, by simp, .nil⟩

theorem Shape.sublist (h : Shape bps) (hsub : bps'.Sublist bps)
    (husers : ∀ bp ∈ bps', bp.isStepBp = false) : Shape bps' :=
  ⟨fun bp hbp => husers bp (List.mem_of_mem_tail hbp), fun bp hbp => h.stepBp bp (hsub.subset hbp),
    h.distinct.sublist hsub⟩

theorem Shape.users (h : Shape bps) : Shape (users bps) :=
  h.sublist List.filter_sublist fun _ hbp => (mem_users.mp hbp).2

theorem Shape.cons (h : Shape bps) (husers : ∀ bp ∈ bps, bp.isStepBp = false)
    (hthread : thread ≠ 0) :
    Shape (Break.stepBp thread addr handle :: bps) := by
  refine ⟨husers, fun bp hbp hstep => ?_, List.pairwise_cons.mpr ⟨fun _ _ hstep => ?_, h.distinct⟩⟩
  · rcases List.mem_cons.mp hbp with rfl | hbp
    · exact ⟨rfl, rfl, hthread⟩
    · exact h.stepBp bp hbp hstep
  · cases hstep

structure Shaped (s : State) : Prop where
  shape : Shape s.breakPoints
  session : ∀ {sc pc thisInstr}, s.phase = .session sc pc thisInstr →
    ∀ bp ∈ s.breakPoints, bp.isStepBp = false

theorem setStepBp_shape (kd : Kd) (hthread : thread ≠ 0) (h : Shape s.breakPoints) :
    Shape (setStepBp kd s thread addr).breakPoints := by
  have husers : ∀ bp ∈ users s.breakPoints, bp.isStepBp = false :=
    fun bp hbp => (mem_users.mp hbp).2
  rcases setStepBp_cases kd s thread addr with ⟨-, heq⟩ | ⟨-, -, heq⟩ | ⟨-, -, handle, -, -, heq⟩
  · rw [heq]
    exact h.users
  · rw [heq]
    exact h.users.cons husers hthread
  · rw [heq]
    exact h.users.cons husers hthread

theorem stepOver_shape (kd : Kd) (sc : StateChange) (h : Shape s.breakPoints) :
    Shape (stepOver kd s sc pc thisInstr).breakPoints := by
  rw [stepOver]
  split
  · exact setStepBp_shape kd sc.thread_ne_zero h
  · exact h

theorem examine_shape (h : Shape s.breakPoints) :
    Shape (examine kd deleteAddr s sc).breakPoints := by
  rw [← shape_unset, examine_unset, shape_unset, State.bpsAt]
  split
  · exact .nil
  · exact h

theorem stepOut_shape (kd : Kd) (sc : StateChange) (h : Shape s.breakPoints) :
    Shape (stepOut kd s sc pc thisInstr).breakPoints := by
  simp only [stepOut]
  split
  · split
    · exact stepOver_shape kd sc h
    · exact stepOver_shape kd sc h
  · exact h

theorem map_modify (g : α → β) (f : α → α) (hg : ∀ x, g (f x) = g x) (xs : List α) (n : Nat) :
    (xs.modify n f).map g = xs.map g := by
  induction xs generalizing n with
  | nil => simp
  | cons x xs ih =>
    cases n with
    | zero => simp [hg]
    | succ n => simp [ih]

theorem setSkip_map (g : BreakPoint → β) (hg : ∀ bp skip, g { bp with skip := skip } = g bp)
    (skip : Bool) (bps : List BreakPoint) (nums : List Nat) :
    (setSkip skip bps nums).map g = bps.map g := by
  induction nums generalizing bps with
  | nil => rfl
  | cons n nums ih => exact (ih _).trans (map_modify g _ (hg · skip) bps n)

theorem shape_of_users (husers : ∀ bp ∈ bps, bp.isStepBp = false) :
    Shape bps ↔ (bps.map (·.address)).Nodup := by
  rw [List.nodup_iff_pairwise_ne, List.pairwise_map]
  constructor
  · intro h
    exact h.distinct.imp_of_mem fun hx _ hne => hne (husers _ hx)
  · intro h
    refine ⟨fun bp hbp => husers bp (List.mem_of_mem_tail hbp),
      fun bp hbp hstep => by simp [husers bp hbp] at hstep, ?_⟩
    exact h.imp fun {x y} hne (_ : x.isStepBp = false) => hne

theorem Shape.eq_of_address (h : Shape bps) (hx : x ∈ bps) (hy : y ∈ bps)
    (hxu : x.isStepBp = false) (hyu : y.isStepBp = false) (heq : x.address = y.address) :
      x = y := by
  have hnodup := (shape_of_users fun bp hbp => (mem_users.mp hbp).2).mp h.users
  exact List.inj_on_of_nodup_map hnodup (mem_users.mpr ⟨hx, hxu⟩) (mem_users.mpr ⟨hy, hyu⟩) heq

theorem users_of_map {bps bps' : List BreakPoint}
    (h : bps'.map (·.isStepBp) = bps.map (·.isStepBp)) (husers : ∀ bp ∈ bps, bp.isStepBp = false) :
    ∀ bp ∈ bps', bp.isStepBp = false := by
  intro bp hbp
  have hmem : bp.isStepBp ∈ bps.map (·.isStepBp) := h ▸ List.mem_map_of_mem hbp
  obtain ⟨bp', hbp', heq⟩ := List.mem_map.mp hmem
  rw [← heq, husers bp' hbp']

theorem setSkip_users (husers : ∀ bp ∈ bps, bp.isStepBp = false) :
    ∀ bp ∈ setSkip skip bps nums, bp.isStepBp = false :=
  users_of_map (setSkip_map _ (fun _ _ => rfl) skip bps nums) husers

theorem setSkip_shape (h : Shape bps) (husers : ∀ bp ∈ bps, bp.isStepBp = false) :
    Shape (setSkip skip bps nums) := by
  rw [shape_of_users (setSkip_users husers), setSkip_map _ fun _ _ => rfl]
  exact (shape_of_users husers).mp h

theorem bpx_cases (kd : Kd) (s : State) (address eprocess ethread : UInt64) (when : String)
    (readable : Bool) :
    bpx kd s address eprocess ethread when readable = s ∨
    ((∀ bp ∈ s.breakPoints, bp.address ≠ address) ∧ ¬ s.table.Active address ∧
      ∃ h, h ≠ 0 ∧ h ∉ s.table.map Prod.fst ∧
        bpx kd s address eprocess ethread when readable = { s with
          table := (h, address) :: s.table
          breakPoints := s.breakPoints ++ [userBp address eprocess ethread when h] }) := by
  by_cases hskip : (eprocess ≠ 0 ∧ ethread ≠ 0) ∨ (∃ bp ∈ s.breakPoints, bp.address = address) ∨
      !readable
  · exact Or.inl (by rw [bpx, if_pos hskip])
  · rcases Table.write_cases kd s.table address with ⟨ha, hw⟩ | ⟨ha, h, hne, hnew, hw⟩
    · exact Or.inl (by simp only [bpx, if_neg hskip, hw])
    · refine Or.inr ⟨fun bp hbp heq => hskip (Or.inr (Or.inl ⟨bp, hbp, heq⟩)), ha, h, hne, hnew, ?_⟩
      simp only [bpx, if_neg hskip, hw]

theorem Shape.concat (h : Shape bps) (bp : BreakPoint)
    (husers : ∀ bp ∈ bps, bp.isStepBp = false) (hnew : ∀ bp ∈ bps, bp.address ≠ address)
    (heq : bp.address = address) (hbp : bp.isStepBp = false) :
    Shape (bps ++ [bp]) ∧ ∀ x ∈ bps ++ [bp], x.isStepBp = false := by
  have hall : ∀ x ∈ bps ++ [bp], x.isStepBp = false := by
    intro x hx
    rcases List.mem_append.mp hx with hx | hx
    · exact husers x hx
    · rwa [List.mem_singleton.mp hx]
  refine ⟨(shape_of_users hall).mpr ?_, hall⟩
  rw [List.map_append, List.map_singleton, heq]
  refine ((shape_of_users husers).mp h).append (List.nodup_singleton _) ?_
  simpa [List.disjoint_right] using hnew

theorem execute_shaped (h : Shaped s) (hp : s.phase = .session sc pc thisInstr) :
    Shaped (execute kd s sc pc thisInstr c) := by
  have husers := h.session hp
  cases c with
  | bpx address eprocess ethread when readable =>
    rcases bpx_cases kd s address eprocess ethread when readable with heq | ⟨hnew, -, n, -, -, heq⟩
    · rw [execute, heq]
      exact h
    · obtain ⟨hshape, hall⟩ := h.shape.concat (userBp address eprocess ethread when n) husers hnew
        rfl rfl
      rw [execute, heq]
      exact ⟨hshape, fun _ => hall⟩
  | bc nums =>
    have hsub := clearBps_sublist s.table s.breakPoints
      ((parseListOfDecsArgs s.breakPoints.length nums).mergeSort (· ≥ ·))
    have hall := fun bp hbp => husers bp (hsub.subset hbp)
    exact ⟨h.shape.sublist hsub hall, fun _ => hall⟩
  | bd nums => exact ⟨setSkip_shape h.shape husers, fun _ => setSkip_users husers⟩
  | be nums => exact ⟨setSkip_shape h.shape husers, fun _ => setSkip_users husers⟩
  | r pc => exact ⟨h.shape, fun _ => husers⟩
  | p => exact ⟨stepOver_shape kd sc h.shape, fun hp => by cases hp⟩
  | pRet =>
    refine ⟨?_, fun hp => by cases hp⟩
    simp only [execute, resume]
    split
    · exact stepOver_shape kd sc h.shape
    · exact stepOver_shape kd sc h.shape
  | t => exact ⟨h.shape, fun hp => by cases hp⟩
  | x => exact ⟨h.shape, fun hp => by cases hp⟩

theorem proceed_shaped (h : Shaped s) : Shaped (proceed kd s sc breakIn pc thisInstr) := by
  rw [proceed]
  split
  · refine ⟨setStepBp_shape kd sc.thread_ne_zero h.shape, fun _ bp hbp => ?_⟩
    rcases setStepBp_cases kd s sc.thread 0 with ⟨-, heq⟩ | ⟨hne, -⟩ | ⟨hne, -⟩
    · rw [heq] at hbp
      exact (mem_users.mp hbp).2
    · exact absurd rfl hne
    · exact absurd rfl hne
  · exact ⟨stepOut_shape kd sc h.shape, fun hp => by cases hp⟩

theorem step_shaped (h : Shaped s) (hs : step kd deleteAddr s i = some s') : Shaped s' := by
  rcases step_cases hs with ⟨sc, -, -, rfl⟩ | ⟨sc, breakIn, pc, thisInstr, -, -, rfl⟩ |
    ⟨c, sc, pc, thisInstr, -, hp, rfl⟩
  · exact ⟨examine_shape h.shape, fun hp => by cases hp⟩
  · exact proceed_shaped h
  · exact execute_shaped h hp

theorem start_shaped : Shaped State.start := ⟨.nil, fun hp => by cases hp⟩

theorem reachable_shaped (h : Runs.Reachable (step kd deleteAddr) ok State.start s) : Shaped s :=
  h.invariant start_shaped fun _ _ _ hs _ hstep => step_shaped hs hstep

end BugChecker.Break
