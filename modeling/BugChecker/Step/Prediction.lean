import BugChecker.Step.Successor

/-!
# The prediction of conditional branches

The processor takes a conditional jump or a loop by the flags and the counter.
`CalculateStepDestination` says the same of every one of them: for some mnemonics
with a rule of their own, for the others with the mask of the flags that Zydis
says the instruction tests.
-/

namespace BugChecker.Step

namespace Processor

/-- A bit of `EFLAGS`. -/
def eflag (ctx : Context) (k : Nat) : Bool := ctx.eFlags.toBitVec.getLsbD k

/-- The conditions by the numbers of the bits: `CF` is 0, `PF` 2, `ZF` 6, `SF` 7 and `OF` 11. -/
def condition (ctx : Context) : Cond → Bool
  | .o => eflag ctx 11
  | .b => eflag ctx 0
  | .z => eflag ctx 6
  | .be => eflag ctx 0 || eflag ctx 6
  | .s => eflag ctx 7
  | .p => eflag ctx 2
  | .l => eflag ctx 7 != eflag ctx 11
  | .le => eflag ctx 6 || eflag ctx 7 != eflag ctx 11

def decremented (ctx : Context) (i : Instr) : UInt64 :=
  truncate (i.addressWidth / 8) (ctx.reg .rcx - 1)

def taken (ctx : Context) (i : Instr) : Bool :=
  match i.mnemonic with
  | .jcc not cond => not != condition ctx cond
  | .jcxz => low16 (ctx.reg .rcx) = 0
  | .jecxz => low32 (ctx.reg .rcx) = 0
  | .jrcxz => ctx.reg .rcx = 0
  | .loop => decremented ctx i ≠ 0
  | .loope => decremented ctx i ≠ 0 ∧ eflag ctx 6
  | .loopne => decremented ctx i ≠ 0 ∧ !eflag ctx 6
  | _ => false

end Processor

/-- What the decoder says of a conditional branch: its operand is an immediate, and there are 64-bit
counters in 64-bit code only. -/
structure DecodedBranch (build : Build) (i : Instr) (s : UInt64) : Prop where
  isBranch : i.mnemonic.isBranch
  ops : i.ops = [.immediate s]
  width : i.addressWidth = 16 ∨ i.addressWidth = 32 ∨ i.addressWidth = 64 ∧ build = .x64
  jrcxz : i.mnemonic = .jrcxz → build = .x64

theorem flag_eq_eflag (ctx : Context) (mask : UInt32) (k : Nat) (hk : k < 32)
    (h : mask.toBitVec = BitVec.twoPow 32 k) : ctx.flag mask = Processor.eflag ctx k := by
  have hand := BitVec.and_twoPow ctx.eFlags.toBitVec k
  have hne : BitVec.twoPow 32 k ≠ 0#32 := by
    intro hzero
    have hbit := congrArg (·.getLsbD k) hzero
    simp [hk] at hbit
  simp only [Context.flag, Processor.eflag, ne_eq, ← UInt32.toBitVec_inj, UInt32.toBitVec_and, h,
    hand]
  cases ctx.eFlags.toBitVec.getLsbD k with
  | true => simpa using hne
  | false => rfl

theorem condition_eq_holds (ctx : Context) (cond : Cond) :
    Processor.condition ctx cond = Processor.holds ctx cond := by
  have hcf := flag_eq_eflag ctx cpuFlagCF 0 (by decide) rfl
  have hpf := flag_eq_eflag ctx cpuFlagPF 2 (by decide) rfl
  have hzf := flag_eq_eflag ctx cpuFlagZF 6 (by decide) rfl
  have hsf := flag_eq_eflag ctx cpuFlagSF 7 (by decide) rfl
  have hof := flag_eq_eflag ctx cpuFlagOF 11 (by decide) rfl
  cases cond with
  | b => exact hcf.symm
  | be => simp only [Processor.condition, Processor.holds, hcf, hzf]
  | l => simp only [Processor.condition, Processor.holds, hsf, hof]
  | le => simp only [Processor.condition, Processor.holds, hzf, hsf, hof]
  | o => exact hof.symm
  | p => exact hpf.symm
  | s => exact hsf.symm
  | z => exact hzf.symm

theorem low32_sub_one (v : UInt64) : low32 (v - 1) = 0 ↔ low32 v = 1 := by
  have hsize : (0x100000000 : UInt64).toNat = 2 ^ 32 := rfl
  have hlt := v.toNat_lt
  simp only [low32, ← UInt64.toNat_inj, UInt64.toNat_mod, UInt64.toNat_sub, hsize,
    UInt64.reduceToNat]
  omega

theorem low16_sub_one (v : UInt64) : low16 (v - 1) = 0 ↔ low16 v = 1 := by
  have hsize : (0x10000 : UInt64).toNat = 2 ^ 16 := rfl
  have hlt := v.toNat_lt
  simp only [low16, ← UInt64.toNat_inj, UInt64.toNat_mod, UInt64.toNat_sub, hsize,
    UInt64.reduceToNat]
  omega

theorem counter_ne_one (ctx : Context) (h : DecodedBranch build i s) :
    (counter build ctx i.addressWidth ≠ 1) = (Processor.decremented ctx i ≠ 0) := by
  rw [Processor.decremented]
  rcases h.width with hw | hw | ⟨hw, rfl⟩
  · rw [hw]
    exact propext (not_congr (low16_sub_one _).symm)
  · rw [hw]
    exact propext (not_congr (low32_sub_one _).symm)
  · rw [hw]
    exact propext (not_congr (sub_one_eq_zero _).symm)

theorem jumpDestination_branch (h : DecodedBranch build i s) :
    jumpDestination build compat ctx i =
      some (if Processor.taken ctx i then .ofImm (relative build ctx i) else .unknown) := by
  have hzf := flag_eq_eflag ctx cpuFlagZF 6 (by decide) rfl
  have hcounter := counter_ne_one ctx h
  have hbranch := h.isBranch
  cases hm : i.mnemonic with
  | jcc not cond =>
    simp only [jumpDestination, Processor.taken, hm, jccJumps_eq, condition_eq_holds]
  | jcxz => simp only [jumpDestination, Processor.taken, hm, counter]
  | jecxz => simp only [jumpDestination, Processor.taken, hm, counter]
  | jrcxz => simp only [jumpDestination, Processor.taken, hm, h.jrcxz hm, counter, Context.get]
  | loop => simp only [jumpDestination, Processor.taken, hm, hcounter]
  | loope => simp only [jumpDestination, Processor.taken, hm, hcounter, hzf]
  | loopne => simp only [jumpDestination, Processor.taken, hm, hcounter, hzf]
  | _ =>
    rw [hm] at hbranch
    cases hbranch

/-- The prediction matches the processor: a branch that is taken is reported as jumping to its
target, and one that is not as going on after the instruction. -/
theorem conditional_branch_predicted (build : Build) (is32bitCompat : Bool)
    (ctx : Context) (i : Instr)
    (s : UInt64) (h : DecodedBranch build i s) (htarget : nextAddr build ctx i + s ≠ 0) :
    calculateStepDestination build is32bitCompat ctx i =
      if Processor.taken ctx i then (.jumping, .ofImm (nextAddr build ctx i + s))
      else (.notJumping, .ofImm (nextAddr build ctx i)) := by
  have hrelative : relative build ctx i = nextAddr build ctx i + s := by
    rw [relative, Instr.op0, h.ops, List.headD_cons]
  simp only [calculateStepDestination, jumpDestination_branch h, hrelative]
  cases Processor.taken ctx i with
  | true => exact if_neg (ofImm_ne_unknown htarget)
  | false => rfl

/-- `JZ` of two bytes, five bytes ahead, with the zero flag set. -/
def jzShort : Instr :=
  { mnemonic := .jcc false .z, length := 2, branchNear := false, addressWidth := 64, hasRep := false
    hasRepe := false, hasRepne := false, ops := [.immediate 5] }

def zeroContext : Context where
  reg := fun r => if r = .rip then 0x1000 else 0
  eFlags := 0x246

theorem jzShort_predicted :
    calculateStepDestination .x64 false zeroContext jzShort = (.jumping, .ofImm 0x1007) :=
  conditional_branch_predicted .x64 false zeroContext jzShort 5
    ⟨rfl, rfl, .inr (.inr ⟨rfl, rfl⟩), by rintro ⟨⟩⟩ (by decide)

end BugChecker.Step
