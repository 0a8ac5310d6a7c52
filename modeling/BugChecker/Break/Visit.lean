import BugChecker.Break.Machine

/-!
# The loop over the breakpoints

Only the first breakpoint at the program counter has a say in whether the
debugger breaks in; the loop passes over those before it and only drops the
handles of those after it. A breakpoint elsewhere in the window is recreated.
-/

namespace BugChecker.Break

def BreakPoint.unset (bp : BreakPoint) : BreakPoint := { bp with handle := 0 }

@[simp] theorem BreakPoint.unset_address (bp : BreakPoint) : bp.unset.address = bp.address := rfl
@[simp] theorem BreakPoint.unset_isStepBp (bp : BreakPoint) : bp.unset.isStepBp = bp.isStepBp := rfl

/-- What the loop makes of a breakpoint, and whether it is to be recreated. -/
def outcome (prevBpTraceAddr currPc : UInt64) (bp : BreakPoint) : BreakPoint × Bool :=
  if windowed prevBpTraceAddr currPc bp then
    if bp.address = currPc then (bp.unset, false) else (bp, true)
  else (bp, false)

theorem visitBp_fst : (visitBp sc stepOutThread prev currPc index bp v).1 =
    outcome prev currPc bp := by
  rw [visitBp, outcome]
  split
  · split
    · split
      · rfl
      · rfl
    · rfl
  · rfl

theorem visitBps_fst : (visitBps sc stepOutThread prev currPc index bps v).1 =
    bps.map (outcome prev currPc) := by
  induction bps generalizing index v with
  | nil => rfl
  | cons bp bps ih => simp only [visitBps, List.map_cons, visitBp_fst, ih]

theorem outcome_unset : (outcome prev currPc bp).1.unset = bp.unset := by
  rw [outcome]
  split
  · split
    · rfl
    · rfl
  · rfl

@[simp] theorem outcome_address : (outcome prev currPc bp).1.address = bp.address := by
  rw [outcome]
  split
  · split
    · rfl
    · rfl
  · rfl

theorem outcome_snd : (outcome prev currPc bp).2 =
    (windowed prev currPc bp && bp.address != currPc) := by
  rw [outcome]
  split
  · next hw =>
    split
    · next heq => simp [heq]
    · next hne => simp [hw, hne]
  · next hw => simp [hw]

theorem outcome_fst (h : (outcome prev currPc bp).1.handle ≠ 0) :
    (outcome prev currPc bp).1 = bp := by
  rw [outcome] at h ⊢
  split at h
  · next hw =>
    rw [if_pos hw]
    split at h
    · exact absurd rfl h
    · next hne => rw [if_neg hne]
  · next hw => rw [if_neg hw]

theorem windowed_of_near (hlo : 64 ≤ currPc.toNat) (hhi : currPc.toNat < 2 ^ 64 - 64)
    (h : currPc.toNat < bp.address.toNat + 64) (h' : bp.address.toNat < currPc.toNat + 64) :
    windowed prev currPc bp = true := by
  have h64 : (64 : UInt64).toNat = 64 := rfl
  have hgt : bp.address > currPc - 64 := by
    rw [gt_iff_lt, UInt64.lt_iff_toNat_lt, UInt64.toNat_sub_of_le _ _ (by
      rw [UInt64.le_iff_toNat_le, h64]
      exact hlo), h64]
    omega
  have hlt : bp.address < currPc + 64 := by
    rw [UInt64.lt_iff_toNat_lt, UInt64.toNat_add, h64]
    omega
  simp [windowed, hgt, hlt]

/-- A breakpoint that the loop takes for one that was hit. -/
def AtPc (prev currPc : UInt64) (bp : BreakPoint) : Prop :=
  windowed prev currPc bp = true ∧ bp.address = currPc

theorem visitBp_snd_of_not_atPc (h : ¬ AtPc prev currPc bp) :
    (visitBp sc stepOutThread prev currPc index bp v).2 = v := by
  rw [visitBp]
  split
  · next hw =>
    rw [if_neg fun ha => h ⟨hw, ha⟩]
  · rfl

theorem visitBp_snd_of_processed (h : v.pcBpProcessed = true) :
    (visitBp sc stepOutThread prev currPc index bp v).2 = v := by
  simp only [visitBp, h, if_true]
  split
  · split
    · rfl
    · rfl
  · rfl

theorem visitBps_snd_of_processed (h : v.pcBpProcessed = true) :
    (visitBps sc stepOutThread prev currPc index bps v).2 = v := by
  induction bps generalizing index with
  | nil => rfl
  | cons bp bps ih =>
    simp only [visitBps, visitBp_snd_of_processed h]
    exact ih

/-- What the loop keeps up to date when it meets the first breakpoint at the program counter. -/
def Visit.hit (v : Visit) (currPc : UInt64) : Visit :=
  { v with pcBpProcessed := true, trace := true, bpTrace := ⟨currPc, v.decoded.stepAddr⟩ }

/-- What checking the conditions leaves alone. -/
def Visit.SameTrace (v w : Visit) : Prop :=
  v.pcBpProcessed = w.pcBpProcessed ∧ v.trace = w.trace ∧ v.bpTrace.addr = w.bpTrace.addr

theorem evalWhen_sameTrace : (evalWhen sc currPc bp v).SameTrace v := by
  rw [evalWhen]
  split
  · dsimp only
    split
    · exact ⟨rfl, rfl, rfl⟩
    · exact ⟨rfl, rfl, rfl⟩
  · exact ⟨rfl, rfl, rfl⟩

theorem checkConditions_sameTrace :
    (checkConditions sc stepOutThread currPc index bp v).SameTrace v := by
  have h : (evalWhen sc currPc bp { v with breakIn := threadMatches sc bp }).SameTrace v :=
    evalWhen_sameTrace
  simp only [checkConditions]
  split
  · split
    · exact h
    · exact h
  · split
    · exact h
    · exact h

theorem visitBp_snd_of_atPc (h : AtPc prev currPc bp) (hv : v.pcBpProcessed = false) :
    (visitBp sc stepOutThread prev currPc index bp v).2 =
      if v.breakIn then v.hit currPc
      else checkConditions sc stepOutThread currPc index bp.unset (v.hit currPc) := by
  simp only [visitBp, h.1, h.2, hv, if_true, Bool.false_eq_true, if_false]
  rfl

theorem visitBps_snd (sc : StateChange) (stepOutThread prev currPc : UInt64) (index : Nat)
    (bps : List BreakPoint) {v : Visit} (hv : v.pcBpProcessed = false) :
    ((∀ bp ∈ bps, ¬ AtPc prev currPc bp) ∧
      (visitBps sc stepOutThread prev currPc index bps v).2 = v) ∨
    ∃ pre bp post, bps = pre ++ bp :: post ∧ (∀ b ∈ pre, ¬ AtPc prev currPc b) ∧
      AtPc prev currPc bp ∧ (visitBps sc stepOutThread prev currPc index bps v).2 =
        if v.breakIn then v.hit currPc
        else checkConditions sc stepOutThread currPc (index + pre.length) bp.unset
          (v.hit currPc) := by
  induction bps generalizing index with
  | nil => exact Or.inl ⟨by simp, rfl⟩
  | cons bp bps ih =>
    by_cases hat : AtPc prev currPc bp
    · refine Or.inr ⟨[], bp, bps, rfl, by simp, hat, ?_⟩
      simp only [visitBps]
      rw [visitBps_snd_of_processed, visitBp_snd_of_atPc hat hv]
      · rfl
      · rw [visitBp_snd_of_atPc hat hv]
        split
        · rfl
        · exact checkConditions_sameTrace.1
    · simp only [visitBps, visitBp_snd_of_not_atPc hat]
      rcases ih (index + 1) with ⟨hnone, heq⟩ | ⟨pre, b, post, rfl, hpre, hb, heq⟩
      · refine Or.inl ⟨fun b hb => ?_, heq⟩
        rcases List.mem_cons.mp hb with rfl | hb
        · exact hat
        · exact hnone b hb
      · refine Or.inr ⟨bp :: pre, b, post, rfl, fun x hx => ?_, hb, ?_⟩
        · rcases List.mem_cons.mp hx with rfl | hx
          · exact hat
          · exact hpre x hx
        · rw [heq, List.length_cons, Nat.add_right_comm, Nat.add_assoc]

end BugChecker.Break
