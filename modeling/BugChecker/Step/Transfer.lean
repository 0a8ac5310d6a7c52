import BugChecker.Step.Prediction

/-!
# Unconditional transfers

A near `CALL`, `JMP` or `RET` goes to its operand. `CalculateStepDestination`
has zero for what it does not know, so an operand that it cannot evaluate and
one that evaluates to zero end in the test that is meant for a conditional jump
that is not taken.
-/

namespace BugChecker.Step

-- ---------------------------------------------------------------------------
-- The outcomes
-- ---------------------------------------------------------------------------

theorem calculateStepDestination_ofImm (h : jumpDestination build compat ctx i = some (.ofImm a)) :
    calculateStepDestination build compat ctx i =
      if a = 0 then (.notJumping, .ofImm (nextAddr build ctx i)) else (.jumping, .ofImm a) := by
  simp only [calculateStepDestination, h, Option.getD_some, Option.isSome_some, if_true]
  split
  · next heq => rw [if_pos (show a = 0 from congrArg Destination.imm heq)]
  · next hne =>
    rw [if_neg]
    rintro rfl
    exact hne rfl

theorem calculateStepDestination_ptr
    (h : jumpDestination build compat ctx i = some ⟨0, ptr, codePointerSize build compat⟩) :
    calculateStepDestination build compat ctx i =
      (.jumping, ⟨0, ptr, codePointerSize build compat⟩) := by
  have hne : (⟨0, ptr, codePointerSize build compat⟩ : Destination) ≠ .unknown := fun heq =>
    codePointerSize_ne_zero (congrArg Destination.ptrSize heq)
  simp only [calculateStepDestination, h, Option.getD_some, Option.isSome_some, if_true, if_neg hne]

theorem calculateStepDestination_notJumping
    (h : jumpDestination build compat ctx i = some .unknown) :
    calculateStepDestination build compat ctx i =
      (.notJumping, .ofImm (nextAddr build ctx i)) := by
  simp only [calculateStepDestination, h, Option.getD_some, Option.isSome_some, if_true]

-- ---------------------------------------------------------------------------
-- The processor
-- ---------------------------------------------------------------------------

namespace Processor
section
variable (build : Build) (compat : Bool) (ex : Execution) (ctx : Context) (i : Instr)

def directTarget : Option UInt64 :=
  match i.mnemonic, i.ops with
  | .ret, _ => none
  | _, [.immediate s] => some (truncate ex.operandSize (ctx.pc build + i.length + s))
  | _, [.register reg] => (value ctx reg).map (truncate ex.operandSize)
  | _, _ => none

def targetPointer : Option UInt64 :=
  match i.mnemonic, i.ops with
  | .ret, _ => some (codePointer build compat (ctx.get build .rsp))
  | _, [.memory m] => address build compat ex ctx i m
  | _, _ => none

end
end Processor

/-- A near transfer as the decoder has it: a register operand is as long as the operand size says,
and there are no 64-bit operands in 32-bit code. -/
structure DecodedTransfer (build : Build) (ex : Execution) (i : Instr) : Prop where
  size : build = .x86 → ex.operandSize ≠ 8
  mnemonic : i.mnemonic = .call ∨ i.mnemonic = .jmp ∨ i.mnemonic = .ret
  near : i.mnemonic = .ret → i.branchNear
  ops : i.mnemonic ≠ .ret → (∃ s, i.ops = [.immediate s]) ∨
    (∃ r, i.ops = [.register (.q r)] ∧ ex.operandSize = 8) ∨
    (∃ r, i.ops = [.register (.d r)] ∧ ex.operandSize = 4) ∨
    (∃ r, i.ops = [.register (.w r)] ∧ ex.operandSize = 2) ∨
    ∃ m, i.ops = [.memory m] ∧ m.isMem

section
variable (build : Build) (compat : Bool) (ex : Execution) (ctx : Context) (i : Instr)

/-- The transfer is reported as one, with its true target, or with the address of the pointer that
holds it, or with neither where the destination is not known. -/
def TellsTarget : Prop :=
  let (type, dest) := calculateStepDestination build compat ctx i
  type ≠ .notJumping ∧
    (dest.imm ≠ 0 ∧ Processor.directTarget build ex ctx i = some dest.imm ∨
      dest.imm = 0 ∧ dest.ptr ≠ 0 ∧ Processor.targetPointer build compat ex ctx i = some dest.ptr ∨
      dest.imm = 0 ∧ dest.ptr = 0)

/-- The sum of the registers and the displacement of a memory operand, where a register that the
`CONTEXT` has no field for counts as zero. -/
def knownSum (m : MemOperand) : UInt64 :=
  let base := (ctx.value build m.base).getD 0
  let length :=
    if (ctx.value build m.base).isSome ∧ (m.base = .d .rip ∨ m.base = .q .rip) then i.length else 0
  base + length + (ctx.value build m.index).getD 0 * m.scale + m.disp.getD 0

/-- The operands that the destination can be told of: an immediate whose target is not zero and
does not wrap around, a register of the `CONTEXT` that is not zero, and memory that is not relative
to `FS` or `GS`, whose address is not zero and comes out right without the registers that are not
known. -/
def TargetKnown : Prop :=
  match i.mnemonic, i.ops with
  | .ret, _ => True
  | _, [.immediate s] =>
    nextAddr build ctx i + s ≠ 0 ∧
      Processor.truncate ex.operandSize (nextAddr build ctx i + s) = nextAddr build ctx i + s
  | _, [.register reg] => (ctx.value build reg).getD 0 ≠ 0
  | _, [.memory m] =>
    m.segment ≠ .fs ∧ m.segment ≠ .gs ∧ knownSum build ctx i m ≠ 0 ∧
      (codePointer build compat (knownSum build ctx i m) = 0 ∨
        Processor.address build compat ex ctx i m =
          some (codePointer build compat (knownSum build ctx i m)))
  | _, _ => False

end

section
variable {build : Build} {compat : Bool} {ex : Execution} {ctx : Context} {i : Instr}

theorem effectiveAddress_eq_knownSum (m : MemOperand) :
    effectiveAddress build ctx i m = knownSum build ctx i m := by
  simp only [effectiveAddress, knownSum]
  cases ctx.value build m.base with
  | none => simp
  | some v =>
    by_cases hpc : m.base = .d .rip ∨ m.base = .q .rip
    · simp [hpc]
    · simp [hpc]

theorem low16_low32_add (x y : UInt64) : low16 (low32 x + y) = low16 (x + y) := by
  apply UInt64.toNat_inj.mp
  have hsize : (0x100000000 : UInt64).toNat = 2 ^ 32 := rfl
  have hsize' : (0x10000 : UInt64).toNat = 2 ^ 16 := rfl
  simp only [low16, low32, UInt64.toNat_mod, UInt64.toNat_add, hsize, hsize']
  omega

theorem truncate_low32_add (h : n ≠ 8) (x y : UInt64) :
    Processor.truncate n (low32 x + y) = Processor.truncate n (x + y) := by
  by_cases hn : n = 4
  · subst hn
    exact low32_low32_add x y
  · have hlow : Processor.truncate n = low16 := by
      funext v
      unfold Processor.truncate
      split
      · exact absurd rfl h
      · exact absurd rfl hn
      · rfl
    rw [hlow]
    exact low16_low32_add x y

theorem truncate_nextAddr (h : DecodedTransfer build ex i) (s : UInt64) :
    Processor.truncate ex.operandSize (ctx.pc build + i.length + s) =
      Processor.truncate ex.operandSize (nextAddr build ctx i + s) := by
  cases build with
  | x64 => rfl
  | x86 => exact (truncate_low32_add (h.size rfl) _ _).symm

theorem jumpDestination_call (hm : i.mnemonic = .call ∨ i.mnemonic = .jmp) :
    jumpDestination build compat ctx i = some (callDestination build compat ctx i) := by
  rcases hm with hm | hm
  · simp only [jumpDestination, hm]
  · simp only [jumpDestination, hm]

theorem jumpDestination_ret (hm : i.mnemonic = .ret) (hnear : i.branchNear) :
    jumpDestination build compat ctx i =
      some ⟨0, codePointer build compat (ctx.get build .rsp), codePointerSize build compat⟩ := by
  simp only [jumpDestination, hm, hnear, if_true]

theorem jumpDestination_memory (hm : i.mnemonic = .call ∨ i.mnemonic = .jmp)
    (hops : i.ops = [.memory m]) (hmem : m.isMem) (hfs : m.segment ≠ .fs) (hgs : m.segment ≠ .gs)
    (hsum : knownSum build ctx i m ≠ 0) :
    jumpDestination build compat ctx i =
      some ⟨0, codePointer build compat (knownSum build ctx i m),
        codePointerSize build compat⟩ := by
  rw [jumpDestination_call hm, callDestination, hops]
  simp only [hmem, if_true, effectiveAddress_eq_knownSum, ne_eq, hsum, not_false_eq_true]
  cases hs : m.segment with
  | fs => exact absurd hs hfs
  | gs => exact absurd hs hgs
  | _ => rfl

theorem jumpDestination_memory_unknown (hm : i.mnemonic = .call ∨ i.mnemonic = .jmp)
    (hops : i.ops = [.memory m]) (hmem : m.isMem)
    (h : ¬ (m.segment ≠ .fs ∧ m.segment ≠ .gs ∧ knownSum build ctx i m ≠ 0)) :
    jumpDestination build compat ctx i = some .unknown := by
  rw [jumpDestination_call hm, callDestination, hops]
  simp only [hmem, if_true, effectiveAddress_eq_knownSum]
  cases hs : m.segment with
  | fs => rfl
  | gs => rfl
  | _ =>
    have hsum : knownSum build ctx i m = 0 := by simpa [hs] using h
    simp only [hsum, ne_eq, not_true_eq_false, if_false]

theorem tellsTarget_ofImm (hdest : jumpDestination build compat ctx i = some (.ofImm a))
    (hdirect : Processor.directTarget build ex ctx i = some b) :
    TellsTarget build compat ex ctx i ↔ a ≠ 0 ∧ b = a := by
  rw [TellsTarget, calculateStepDestination_ofImm hdest, hdirect]
  by_cases ha : a = 0
  · simp [ha]
  · simp [ha, Destination.ofImm]

theorem tellsTarget_ret (hm : i.mnemonic = .ret) (hnear : i.branchNear) :
    TellsTarget build compat ex ctx i := by
  have hptr : Processor.targetPointer build compat ex ctx i =
      some (codePointer build compat (ctx.get build .rsp)) := by
    simp only [Processor.targetPointer, hm]
  rw [TellsTarget, calculateStepDestination_ptr (jumpDestination_ret hm hnear), hptr]
  simp only [ne_eq, reduceCtorEq, not_false_eq_true, not_true_eq_false, false_and, true_and,
    false_or]
  exact (em _).symm.imp_left fun hne => ⟨hne, trivial⟩

theorem tellsTarget_immediate (h : DecodedTransfer build ex i)
    (hm : i.mnemonic = .call ∨ i.mnemonic = .jmp) (hops : i.ops = [.immediate s]) :
    TellsTarget build compat ex ctx i ↔ TargetKnown build compat ex ctx i := by
  have hrelative : relative build ctx i = nextAddr build ctx i + s := by
    rw [relative, Instr.op0, hops, List.headD_cons]
  have hdest : jumpDestination build compat ctx i = some (.ofImm (nextAddr build ctx i + s)) := by
    rw [jumpDestination_call hm, callDestination, hops]
    simp only [hrelative]
  have hdirect : Processor.directTarget build ex ctx i =
      some (Processor.truncate ex.operandSize (nextAddr build ctx i + s)) := by
    rcases hm with hm | hm
    · simp only [Processor.directTarget, hm, hops, truncate_nextAddr h]
    · simp only [Processor.directTarget, hm, hops, truncate_nextAddr h]
  rw [tellsTarget_ofImm hdest hdirect]
  rcases hm with hm | hm
  · simp only [TargetKnown, hm, hops]
  · simp only [TargetKnown, hm, hops]

theorem tellsTarget_register (hm : i.mnemonic = .call ∨ i.mnemonic = .jmp)
    (hops : i.ops = [.register reg])
    (hvalue : ∀ v, ctx.value build reg = some v →
      (Processor.value ctx reg).map (Processor.truncate ex.operandSize) = some v)
    (hsome : (Processor.value ctx reg).isSome) :
    TellsTarget build compat ex ctx i ↔ TargetKnown build compat ex ctx i := by
  have hdest : jumpDestination build compat ctx i =
      some (.ofImm ((ctx.value build reg).getD 0)) := by
    rw [jumpDestination_call hm, callDestination, hops]
  have hdirect : Processor.directTarget build ex ctx i =
      (Processor.value ctx reg).map (Processor.truncate ex.operandSize) := by
    rcases hm with hm | hm
    · simp only [Processor.directTarget, hm, hops]
    · simp only [Processor.directTarget, hm, hops]
  obtain ⟨w, hw⟩ := Option.isSome_iff_exists.mp hsome
  rw [hw, Option.map_some] at hdirect hvalue
  have hknown : TargetKnown build compat ex ctx i ↔ (ctx.value build reg).getD 0 ≠ 0 := by
    rcases hm with hm | hm
    · simp only [TargetKnown, hm, hops]
    · simp only [TargetKnown, hm, hops]
  rw [tellsTarget_ofImm hdest hdirect, hknown]
  constructor
  · rintro ⟨hne, -⟩
    exact hne
  · intro hne
    cases hv : ctx.value build reg with
    | none =>
      rw [hv] at hne
      exact absurd rfl hne
    | some v =>
      rw [hv] at hne
      exact ⟨hne, Option.some.inj (hvalue v hv)⟩

theorem targetKnown_memory (hm : i.mnemonic = .call ∨ i.mnemonic = .jmp)
    (hops : i.ops = [.memory m]) :
    TargetKnown build compat ex ctx i ↔
      m.segment ≠ .fs ∧ m.segment ≠ .gs ∧ knownSum build ctx i m ≠ 0 ∧
        (codePointer build compat (knownSum build ctx i m) = 0 ∨
          Processor.address build compat ex ctx i m =
            some (codePointer build compat (knownSum build ctx i m))) := by
  rcases hm with hm | hm
  · simp only [TargetKnown, hm, hops]
  · simp only [TargetKnown, hm, hops]

theorem address_eq_knownSum (hfs : m.segment ≠ .fs) (hgs : m.segment ≠ .gs)
    (hwidth : i.addressWidth = 8 * codePointerSize build compat)
    (hbase : Named build compat m.base) (hrip : m.base ≠ .d .rip)
    (hindex : Named build compat m.index) :
    Processor.address build compat ex ctx i m =
      some (codePointer build compat (knownSum build ctx i m)) := by
  rw [← effectiveAddress_eq_knownSum]
  exact address_eq hfs hgs hwidth hbase hrip hindex

/-- With addresses of the size of the code's pointers the sum is the address that is read. -/
theorem targetKnown_memory_wide (hm : i.mnemonic = .call ∨ i.mnemonic = .jmp)
    (hops : i.ops = [.memory m]) (hwidth : i.addressWidth = 8 * codePointerSize build compat)
    (hbase : Named build compat m.base) (hrip : m.base ≠ .d .rip)
    (hindex : Named build compat m.index) :
    TargetKnown build compat ex ctx i ↔
      m.segment ≠ .fs ∧ m.segment ≠ .gs ∧ knownSum build ctx i m ≠ 0 := by
  rw [targetKnown_memory hm hops]
  constructor
  · rintro ⟨hfs, hgs, hsum, -⟩
    exact ⟨hfs, hgs, hsum⟩
  · rintro ⟨hfs, hgs, hsum⟩
    exact ⟨hfs, hgs, hsum, .inr (address_eq_knownSum hfs hgs hwidth hbase hrip hindex)⟩

theorem tellsTarget_memory (hm : i.mnemonic = .call ∨ i.mnemonic = .jmp)
    (hops : i.ops = [.memory m]) (hmem : m.isMem) :
    TellsTarget build compat ex ctx i ↔ TargetKnown build compat ex ctx i := by
  have hptr : Processor.targetPointer build compat ex ctx i =
      Processor.address build compat ex ctx i m := by
    rcases hm with hm | hm
    · simp only [Processor.targetPointer, hm, hops]
    · simp only [Processor.targetPointer, hm, hops]
  by_cases hseg : m.segment ≠ .fs ∧ m.segment ≠ .gs ∧ knownSum build ctx i m ≠ 0
  · obtain ⟨hfs, hgs, hsum⟩ := hseg
    have hdest : jumpDestination build compat ctx i = _ :=
      jumpDestination_memory hm hops hmem hfs hgs hsum
    rw [TellsTarget, calculateStepDestination_ptr hdest, targetKnown_memory hm hops, hptr]
    simp only [ne_eq, reduceCtorEq, not_false_eq_true, not_true_eq_false, false_and, true_and,
      false_or, hfs, hgs, hsum]
    by_cases hzero : codePointer build compat (knownSum build ctx i m) = 0
    · simp [hzero]
    · simp [hzero]
  · have hdest : jumpDestination build compat ctx i = _ :=
      jumpDestination_memory_unknown hm hops hmem hseg
    rw [TellsTarget, calculateStepDestination_notJumping hdest, targetKnown_memory hm hops]
    constructor
    · rintro ⟨hne, -⟩
      exact absurd rfl hne
    · rintro ⟨hfs, hgs, hsum, -⟩
      exact absurd ⟨hfs, hgs, hsum⟩ hseg

theorem tellsTarget_call (h : DecodedTransfer build ex i)
    (hm : i.mnemonic = .call ∨ i.mnemonic = .jmp) :
    TellsTarget build compat ex ctx i ↔ TargetKnown build compat ex ctx i := by
  have hret : i.mnemonic ≠ .ret := by
    rcases hm with hm | hm
    · simp [hm]
    · simp [hm]
  obtain ⟨s, hops⟩ | ⟨r, hops, hsize⟩ | ⟨r, hops, hsize⟩ | ⟨r, hops, hsize⟩ | ⟨m, hops, hmem⟩ :=
    h.ops hret
  · exact tellsTarget_immediate h hm hops
  · refine tellsTarget_register hm hops (fun v hv => ?_) rfl
    obtain ⟨p, hp, rfl⟩ := Option.map_eq_some_iff.mp hv
    simp only [zydisRegToCtxRegValuePtr, Option.ite_none_right_eq_some, Option.some.injEq] at hp
    rw [← hp.2, hsize]
    rfl
  · refine tellsTarget_register hm hops (fun v hv => ?_) rfl
    obtain ⟨p, hp, rfl⟩ := Option.map_eq_some_iff.mp hv
    simp only [zydisRegToCtxRegValuePtr, Option.ite_none_right_eq_some, Option.some.injEq] at hp
    rw [← hp.2, hsize]
    exact congrArg some (low32_low32 _)
  · refine tellsTarget_register hm hops (fun v hv => ?_) rfl
    cases hv
  · exact tellsTarget_memory hm hops hmem

end

/-- A transfer is reported with its target exactly when the operand is known. -/
theorem transfer_told_iff (build : Build) (is32bitCompat : Bool) (ex : Execution) (ctx : Context)
    (i : Instr) (h : DecodedTransfer build ex i) :
    TellsTarget build is32bitCompat ex ctx i ↔ TargetKnown build is32bitCompat ex ctx i := by
  rcases h.mnemonic with hm | hm | hm
  · exact tellsTarget_call h (.inl hm)
  · exact tellsTarget_call h (.inr hm)
  · have hknown : TargetKnown build is32bitCompat ex ctx i := by simp only [TargetKnown, hm]
    exact iff_of_true (tellsTarget_ret hm (h.near hm)) hknown

/-- `JMP RAX`. -/
def jmpRax : Instr :=
  { mnemonic := .jmp, length := 2, branchNear := true, addressWidth := 64, hasRep := false
    hasRepe := false, hasRepne := false, ops := [.register (.q .rax)] }

def longExecution : Execution where
  operandSize := 8
  isFar := false
  inhibitsTrap := false
  fsBase := 0
  gsBase := 0
  zfAfter := false

theorem jmpRax_decoded : DecodedTransfer .x64 longExecution jmpRax where
  size := by rintro ⟨⟩
  mnemonic := .inr (.inl rfl)
  near := by rintro ⟨⟩
  ops := fun _ => .inr (.inl ⟨.rax, rfl, rfl⟩)

def raxContext (v : UInt64) : Context where
  reg := fun r => if r = .rip then 0x1000 else if r = .rax then v else 0
  eFlags := 0x202

theorem jmpRax_told : TellsTarget .x64 false longExecution (raxContext 0x401000) jmpRax :=
  (transfer_told_iff .x64 false longExecution (raxContext 0x401000) jmpRax jmpRax_decoded).mpr
    (show (0x401000 : UInt64) ≠ 0 by decide)

/-- With zero in `RAX` the jump is said to go on after itself. -/
theorem jmpRax_notJumping :
    DecodedTransfer .x64 longExecution jmpRax ∧
      calculateStepDestination .x64 false (raxContext 0) jmpRax = (.notJumping, .ofImm 0x1002) ∧
      ¬ TellsTarget .x64 false longExecution (raxContext 0) jmpRax :=
  ⟨jmpRax_decoded, by decide, by
    rintro ⟨htype, -⟩
    exact htype (by decide)⟩

end BugChecker.Step
