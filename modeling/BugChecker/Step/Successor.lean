import BugChecker.Step.Destination

/-!
# Where a single step ends

A thread that executes an instruction with the trace flag reports at the next
instruction it would execute. A repeated string instruction reports after each
iteration. What `DisasmCurrInstr` expects is that address for the instructions
that it knows the destination of.
-/

namespace BugChecker.Step

open Modules (Snapshot)

/-- What decides, besides the registers and the memory, where a thread goes on: the size of an
operand in bytes, whether a transfer is a far one, whether the trap waits for the next instruction,
where `FS` and `GS` point, and the zero flag after an iteration of a string instruction. -/
structure Execution where
  operandSize : Nat
  isFar : Bool
  inhibitsTrap : Bool
  fsBase : UInt64
  gsBase : UInt64
  zfAfter : Bool

namespace Processor

def truncate : Nat → UInt64 → UInt64
  | 8, v => v
  | 4, v => low32 v
  | _, v => low16 v

def value (ctx : Context) : ZydisRegister → Option UInt64
  | .q r => some (ctx.reg r)
  | .d r => some (low32 (ctx.reg r))
  | .w r => some (low16 (ctx.reg r))
  | .none => some 0
  | .other => none

def number (mem : Snapshot) (addr : UInt64) (n : Nat) : Option UInt64 :=
  (mem.read addr n).map fun bytes => UInt64.ofNat (Bytes.leNat bytes)

def holds (ctx : Context) : Cond → Bool
  | .b => ctx.flag cpuFlagCF
  | .be => ctx.flag cpuFlagCF || ctx.flag cpuFlagZF
  | .l => ctx.flag cpuFlagSF != ctx.flag cpuFlagOF
  | .le => ctx.flag cpuFlagZF || ctx.flag cpuFlagSF != ctx.flag cpuFlagOF
  | .o => ctx.flag cpuFlagOF
  | .p => ctx.flag cpuFlagPF
  | .s => ctx.flag cpuFlagSF
  | .z => ctx.flag cpuFlagZF

section
variable (build : Build) (compat : Bool) (ex : Execution) (ctx : Context) (mem : Snapshot)
  (i : Instr)

def next : UInt64 := codePointer build compat (ctx.pc build + i.length)

def segBase : Segment → UInt64
  | .fs => ex.fsBase
  | .gs => ex.gsBase
  | _ => 0

def address (m : MemOperand) : Option UInt64 := do
  let base ←
    if m.base = .d .rip ∨ m.base = .q .rip then some (ctx.pc build + i.length) else value ctx m.base
  let index ← value ctx m.index
  some (codePointer build compat
    (segBase ex m.segment + truncate (i.addressWidth / 8) (base + index * m.scale + m.disp.getD 0)))

def target : Option UInt64 :=
  match i.ops with
  | [.immediate s] => some (truncate ex.operandSize (ctx.pc build + i.length + s))
  | [.register reg] => (value ctx reg).map (truncate ex.operandSize)
  | [.memory m] => (address build compat ex ctx i m).bind (number mem · ex.operandSize)
  | _ => none

def count : UInt64 := truncate (i.addressWidth / 8) (ctx.reg .rcx)

/-- Whether an iteration of a string instruction is followed by another. -/
def repeats : Bool :=
  (i.hasRep || i.hasRepe || i.hasRepne) && count ctx i ≠ 0 && count ctx i ≠ 1 &&
    (!i.hasRepe || ex.zfAfter) && (!i.hasRepne || !ex.zfAfter)

/-- Where the trap is reported. It is `none` where that depends on more than the instruction. -/
def trapAddr : Option UInt64 :=
  let branch jumps := if jumps then target build compat ex ctx mem i
      else some (next build compat ctx i)
  if ex.isFar then none
  else
    match i.mnemonic with
    | .ret => number mem (codePointer build compat (ctx.get build .rsp)) ex.operandSize
    | .call => target build compat ex ctx mem i
    | .jmp => target build compat ex ctx mem i
    | .jcc not cond => branch (not != holds ctx cond)
    | .jcxz => branch (low16 (ctx.reg .rcx) = 0)
    | .jecxz => branch (low32 (ctx.reg .rcx) = 0)
    | .jrcxz => branch (ctx.reg .rcx = 0)
    | .loop => branch (count ctx i - 1 ≠ 0)
    | .loope => branch (count ctx i - 1 ≠ 0 ∧ ctx.flag cpuFlagZF)
    | .loopne => branch (count ctx i - 1 ≠ 0 ∧ !ctx.flag cpuFlagZF)
    | .other =>
      if ex.inhibitsTrap then none
      else some (if repeats ex ctx i then ctx.pc build else next build compat ctx i)
    | _ => none

end

end Processor

-- ---------------------------------------------------------------------------
-- What is expected
-- ---------------------------------------------------------------------------

/-- An address that the code can go to. -/
def InCode (build : Build) (compat : Bool) (v : UInt64) : Prop := codePointer build compat v = v

/-- A register that is full in the code, and that the debugger knows by name. -/
def Named (build : Build) (compat : Bool) : ZydisRegister → Prop
  | .q _ => build = .x64 ∧ compat = false
  | .d r => ¬ (build = .x64 ∧ compat = false) ∧ r.hasD
  | .none => True
  | .w _ => False
  | .other => False

def Mnemonic.isBranch : Mnemonic → Bool
  | .jcc _ _ | .jcxz | .jecxz | .jrcxz | .loop | .loope | .loopne => true
  | _ => false

/-- The instructions and the registers for which the step ends where it is expected: no iteration of
a string instruction follows, operands and addresses of a transfer have the size of the code's
pointers, and nothing wraps around. -/
structure Plain (build : Build) (compat : Bool) (ex : Execution) (ctx : Context) (i : Instr) :
    Prop where
  once : i.mnemonic = .other → Processor.repeats ex ctx i = false
  next : InCode build compat (nextAddr build ctx i)
  size : i.mnemonic ≠ .other → ex.operandSize = codePointerSize build compat
  width : i.addressWidth = 16 ∨ i.addressWidth = 32 ∨ (i.addressWidth = 64 ∧ build = .x64)
  branch : i.mnemonic.isBranch → ∃ s, i.ops = [.immediate s]
  imm : i.mnemonic ≠ .other → ∀ s, i.op0 = .immediate s →
    InCode build compat (nextAddr build ctx i + s)
  reg : i.mnemonic ≠ .other → ∀ reg, i.op0 = .register reg → reg ≠ .none ∧ Named build compat reg
  mem : i.mnemonic ≠ .other → ∀ m, i.op0 = .memory m → m.isMem ∧ m.segment ≠ .fs ∧ m.segment ≠ .gs ∧
    i.addressWidth = 8 * codePointerSize build compat ∧ Named build compat m.base ∧
    m.base ≠ .d .rip ∧ Named build compat m.index ∧
    codePointer build compat (effectiveAddress build ctx i m) ≠ 0
  ret : i.mnemonic = .ret → i.branchNear ∧ codePointer build compat (ctx.get build .rsp) ≠ 0
  jrcxz : i.mnemonic = .jrcxz → build = .x64

theorem low32_low32_add (x y : UInt64) : low32 (low32 x + y) = low32 (x + y) := by
  apply UInt64.toNat_inj.mp
  have hsize : (0x100000000 : UInt64).toNat = 2 ^ 32 := rfl
  simp only [low32, UInt64.toNat_mod, UInt64.toNat_add, hsize]
  omega

@[simp] theorem low32_low32 (x : UInt64) : low32 (low32 x) = low32 x := by
  have h := low32_low32_add x 0
  rwa [UInt64.add_zero, UInt64.add_zero] at h

theorem next_eq (h : InCode build compat (nextAddr build ctx i)) :
    Processor.next build compat ctx i = nextAddr build ctx i := by
  cases build with
  | x86 => exact rfl
  | x64 => exact h

theorem and_flag (x mask : UInt32) (k : Nat) (h : mask.toBitVec = BitVec.twoPow 32 k) :
    x &&& mask = 0 ∨ x &&& mask = mask := by
  have hand := BitVec.and_twoPow x.toBitVec k
  rw [← h] at hand
  split at hand
  · exact .inr (UInt32.toBitVec_inj.mp hand)
  · exact .inl (UInt32.toBitVec_inj.mp hand)

theorem Cond.tested_flag (cond : Cond) (h : cond ≠ .be) (h' : cond ≠ .l) (h'' : cond ≠ .le) :
    ∃ k, cond.tested.toBitVec = BitVec.twoPow 32 k := by
  cases cond with
  | b => exact ⟨0, rfl⟩
  | o => exact ⟨11, rfl⟩
  | p => exact ⟨2, rfl⟩
  | s => exact ⟨7, rfl⟩
  | z => exact ⟨6, rfl⟩
  | be => exact absurd rfl h
  | l => exact absurd rfl h'
  | le => exact absurd rfl h''

theorem jccJumps_single (ctx : Context) (not : Bool) (cond : Cond) (h : cond ≠ .be) (h' : cond ≠ .l)
    (h'' : cond ≠ .le) (hne : cond.tested ≠ 0) :
    jccJumps ctx not cond = (not != ctx.flag cond.tested) := by
  obtain ⟨k, hk⟩ := cond.tested_flag h h' h''
  have hjumps : jccJumps ctx not cond = ((!not && ctx.eFlags &&& cond.tested == cond.tested) ||
      (not && ctx.eFlags &&& cond.tested == 0)) := by
    unfold jccJumps
    split
    · exact absurd rfl h
    · exact absurd rfl h'
    · exact absurd rfl h'
    · exact absurd rfl h''
    · exact absurd rfl h''
    · rfl
  rw [hjumps, Context.flag]
  rcases and_flag ctx.eFlags cond.tested k hk with hand | hand
  · rw [hand]
    cases not <;> simp [hne.symm]
  · rw [hand]
    cases not <;> simp [hne]

theorem jccJumps_eq (ctx : Context) (not : Bool) (cond : Cond) :
    jccJumps ctx not cond = (not != Processor.holds ctx cond) := by
  cases cond with
  | b => exact jccJumps_single ctx not .b (by decide) (by decide) (by decide) (by decide)
  | o => exact jccJumps_single ctx not .o (by decide) (by decide) (by decide) (by decide)
  | p => exact jccJumps_single ctx not .p (by decide) (by decide) (by decide) (by decide)
  | s => exact jccJumps_single ctx not .s (by decide) (by decide) (by decide) (by decide)
  | z => exact jccJumps_single ctx not .z (by decide) (by decide) (by decide) (by decide)
  | be =>
    cases not with
    | false => simp only [jccJumps, Processor.holds, Bool.false_bne]
    | true =>
      have hor : ctx.eFlags &&& (cpuFlagCF ||| cpuFlagZF) = 0 ↔
          ctx.eFlags &&& cpuFlagCF = 0 ∧ ctx.eFlags &&& cpuFlagZF = 0 := by
        simp only [← UInt32.toBitVec_inj, UInt32.toBitVec_and, UInt32.toBitVec_or,
          BitVec.and_or_distrib_left]
        exact BitVec.or_eq_zero_iff
      simp only [jccJumps, Processor.holds, Context.flag, Cond.tested, Bool.true_bne]
      rw [Bool.eq_iff_iff]
      simp [hor]
  | l =>
    cases not with
    | false =>
      simp only [jccJumps, Processor.holds]
      cases ctx.flag cpuFlagSF <;> cases ctx.flag cpuFlagOF <;> rfl
    | true =>
      simp only [jccJumps, Processor.holds]
      cases ctx.flag cpuFlagSF <;> cases ctx.flag cpuFlagOF <;> rfl
  | le =>
    cases not with
    | false =>
      simp only [jccJumps, Processor.holds]
      cases ctx.flag cpuFlagZF <;> cases ctx.flag cpuFlagSF <;> cases ctx.flag cpuFlagOF <;> rfl
    | true =>
      simp only [jccJumps, Processor.holds]
      cases ctx.flag cpuFlagZF <;> cases ctx.flag cpuFlagSF <;> cases ctx.flag cpuFlagOF <;> rfl

theorem resolve_ofImm (h : a ≠ 0) : resolve build compat mem (.ofImm a) = a := if_pos h

theorem ofImm_ne_unknown (h : a ≠ 0) : Destination.ofImm a ≠ .unknown := fun heq =>
  h (congrArg Destination.imm heq)

theorem calculateStepDestination_known (h : jumpDestination build compat ctx i = some dest)
    (hne : dest ≠ .unknown) : (calculateStepDestination build compat ctx i).2 = dest := by
  simp only [calculateStepDestination, h, Option.getD_some, if_neg hne]

theorem calculateStepDestination_unknown
    (h : (jumpDestination build compat ctx i).getD .unknown = .unknown) :
    (calculateStepDestination build compat ctx i).2 = .ofImm (nextAddr build ctx i) := by
  simp only [calculateStepDestination, h, if_true]

theorem truncate_codePointerSize (build : Build) (compat : Bool) (v : UInt64) :
    Processor.truncate (codePointerSize build compat) v = codePointer build compat v := by
  unfold codePointerSize codePointer
  split
  · rfl
  · rfl

theorem value_of_named (h : Named build compat reg) :
    Processor.value ctx reg = some ((ctx.value build reg).getD 0) := by
  cases reg with
  | q r => simp [Context.value, zydisRegToCtxRegValuePtr, h.1, Processor.value]
  | d r => simp [Context.value, zydisRegToCtxRegValuePtr, h.2, Processor.value]
  | none => rfl
  | w _ => exact absurd h id
  | other => exact absurd h id

theorem number_eq_resolve (hptr : ptr ≠ 0)
    (h : Processor.number mem ptr (codePointerSize build compat) = some a) :
    resolve build compat mem ⟨0, ptr, codePointerSize build compat⟩ = a := by
  obtain ⟨bytes, hbytes, rfl⟩ := Option.map_eq_some_iff.mp h
  simp only [resolve, ne_eq, not_true_eq_false, if_false, hptr, not_false_eq_true, true_and,
    if_true, hbytes]

theorem codePointerSize_ne_zero : codePointerSize build compat ≠ 0 := by
  unfold codePointerSize
  split
  · decide
  · decide

theorem relative_eq_target (hp : Plain build compat ex ctx i) (hm : i.mnemonic ≠ .other)
    (hops : i.ops = [.immediate s]) :
    Processor.target build compat ex ctx mem i = some (relative build ctx i) := by
  have hop : i.op0 = .immediate s := by rw [Instr.op0, hops, List.headD_cons]
  have hcode := hp.imm hm s hop
  have hrel : relative build ctx i = nextAddr build ctx i + s := by rw [relative, hop]
  rw [Processor.target, hops, hrel, hp.size hm]
  simp only [truncate_codePointerSize]
  cases build with
  | x64 => exact congrArg some hcode
  | x86 =>
    rw [← hcode]
    simp only [nextAddr, codePointer, reduceCtorEq, false_and, if_false, low32_low32_add]

@[simp] theorem codePointer_codePointer :
    codePointer build compat (codePointer build compat v) = codePointer build compat v := by
  unfold codePointer
  split
  · rfl
  · exact low32_low32 v

/-- With addresses of the size of the code's pointers, the address that is worked out is the one
that the processor reads from. -/
theorem address_eq (hfs : m.segment ≠ .fs) (hgs : m.segment ≠ .gs)
    (hwidth : i.addressWidth = 8 * codePointerSize build compat)
    (hbase : Named build compat m.base) (hrip : m.base ≠ .d .rip)
    (hindex : Named build compat m.index) :
    Processor.address build compat ex ctx i m =
      some (codePointer build compat (effectiveAddress build ctx i m)) := by
  have hseg : Processor.segBase ex m.segment = 0 := by
    cases hs : m.segment with
    | fs => exact absurd hs hfs
    | gs => exact absurd hs hgs
    | _ => rfl
  have hsize : i.addressWidth / 8 = codePointerSize build compat := by omega
  have haddr : ∀ v, codePointer build compat (Processor.segBase ex m.segment +
      Processor.truncate (i.addressWidth / 8) v) = codePointer build compat v := by
    intro v
    rw [hseg, hsize, truncate_codePointerSize, UInt64.zero_add, codePointer_codePointer]
  simp only [Processor.address, value_of_named hindex, haddr, effectiveAddress]
  by_cases hpc : m.base = .q .rip
  · have hlong : build = .x64 := by
      rw [hpc] at hbase
      exact hbase.1
    subst hlong
    simp only [hpc, Context.value, zydisRegToCtxRegValuePtr]
    rfl
  · have hnot : ¬ (m.base = .d .rip ∨ m.base = .q .rip) := by simp [hrip, hpc]
    rw [if_neg hnot, value_of_named hbase]
    cases ctx.value build m.base with
    | none => rfl
    | some v =>
      simp only [hnot, if_false]
      rfl

theorem callDestination_eq_target (hp : Plain build compat ex ctx i) (hm : i.mnemonic ≠ .other)
    (h : Processor.target build compat ex ctx mem i = some a) (ha : a ≠ 0) :
    callDestination build compat ctx i ≠ .unknown ∧
      resolve build compat mem (callDestination build compat ctx i) = a := by
  have hsize := hp.size hm
  rcases hops : i.ops with _ | ⟨op, _ | ⟨op', ops⟩⟩
  · simp only [Processor.target, hops] at h
    cases h
  · have hop : i.op0 = op := by rw [Instr.op0, hops, List.headD_cons]
    cases op with
    | immediate s =>
      have htarget : Processor.target build compat ex ctx mem i = some (relative build ctx i) :=
        relative_eq_target hp hm hops
      rw [h, Option.some.injEq] at htarget
      rw [callDestination, hops, ← htarget]
      exact ⟨ofImm_ne_unknown ha, resolve_ofImm ha⟩
    | register reg =>
      obtain ⟨hne, hnamed⟩ := hp.reg hm reg hop
      rw [Processor.target, hops] at h
      simp only [value_of_named hnamed, Option.map_some, Option.some.injEq, hsize,
        truncate_codePointerSize] at h
      have hvalue : codePointer build compat ((ctx.value build reg).getD 0) =
          (ctx.value build reg).getD 0 := by
        cases reg with
        | q r => exact if_pos (by simp [hnamed.1, hnamed.2])
        | d r =>
          have hd : (ctx.value build (.d r)).getD 0 = low32 (ctx.reg r) := by
            simp [Context.value, zydisRegToCtxRegValuePtr, hnamed.2]
          rw [hd, codePointer]
          split
          · rfl
          · exact low32_low32 _
        | none => exact absurd rfl hne
        | w _ => exact absurd hnamed id
        | other => exact absurd hnamed id
      rw [hvalue] at h
      rw [callDestination, hops]
      simp only [h]
      exact ⟨ofImm_ne_unknown ha, resolve_ofImm ha⟩
    | memory m =>
      obtain ⟨hmem, hfs, hgs, hwidth, hbase, hrip, hindex, hne⟩ := hp.mem hm m hop
      have hdest : callDestination build compat ctx i =
          ⟨0, codePointer build compat (effectiveAddress build ctx i m),
            codePointerSize build compat⟩ := by
        have hv : effectiveAddress build ctx i m ≠ 0 := by
          intro hzero
          rw [hzero] at hne
          refine hne ?_
          unfold codePointer
          split
          · rfl
          · rfl
        rw [callDestination, hops]
        simp only [hmem, if_true, hv, ne_eq, not_false_eq_true]
        cases hs : m.segment with
        | fs => exact absurd hs hfs
        | gs => exact absurd hs hgs
        | _ => rfl
      rw [Processor.target, hops] at h
      simp only [address_eq hfs hgs hwidth hbase hrip hindex, Option.bind_some, hsize] at h
      rw [hdest]
      exact ⟨fun heq => hne (congrArg Destination.ptr heq), number_eq_resolve hne h⟩
    | other =>
      simp only [Processor.target, hops] at h
      cases h
  · simp only [Processor.target, hops] at h
    cases h

theorem counter_eq_count (hp : Plain build compat ex ctx i) :
    counter build ctx i.addressWidth = Processor.count ctx i := by
  rcases hp.width with hw | hw | ⟨hw, rfl⟩
  · rw [Processor.count, hw]
    rfl
  · rw [Processor.count, hw]
    rfl
  · rw [Processor.count, hw]
    rfl

theorem branch_eq (hp : Plain build compat ex ctx i) (hm : i.mnemonic ≠ .other) (jumps : Bool)
    (hdest : jumpDestination build compat ctx i =
      some (if jumps then .ofImm (relative build ctx i) else .unknown))
    (h : (if jumps then Processor.target build compat ex ctx mem i
      else some (Processor.next build compat ctx i)) = some a) (ha : a ≠ 0)
    (himm : ∃ s, i.ops = [.immediate s]) :
    resolve build compat mem (calculateStepDestination build compat ctx i).2 = a := by
  obtain ⟨s, hops⟩ := himm
  cases jumps with
  | true =>
    rw [if_pos rfl, relative_eq_target hp hm hops, Option.some.injEq] at h
    rw [if_pos rfl, h] at hdest
    rw [calculateStepDestination_known hdest (ofImm_ne_unknown ha), resolve_ofImm ha]
  | false =>
    rw [if_neg Bool.false_ne_true, next_eq hp.next, Option.some.injEq] at h
    rw [if_neg Bool.false_ne_true] at hdest
    rw [calculateStepDestination_unknown (by rw [hdest]; rfl), h, resolve_ofImm ha]

theorem sub_one_eq_zero (v : UInt64) : v - 1 = 0 ↔ v = 1 := by
  constructor
  · intro h
    rw [← UInt64.sub_add_cancel v 1, h, UInt64.zero_add]
  · rintro rfl
    rfl

theorem resolve_eq_trapAddr (hp : Plain build compat ex ctx i)
    (h : Processor.trapAddr build compat ex ctx mem i = some a) (ha : a ≠ 0) :
    resolve build compat mem (calculateStepDestination build compat ctx i).2 = a := by
  unfold Processor.trapAddr at h
  simp only at h
  split at h
  · cases h
  · split at h
    · next hm =>
      obtain ⟨hnear, hsp⟩ := hp.ret hm
      have hdest : jumpDestination build compat ctx i =
          some ⟨0, codePointer build compat (ctx.get build .rsp),
            codePointerSize build compat⟩ := by
        simp only [jumpDestination, hm, hnear, if_true]
      rw [hp.size (by simp [hm])] at h
      rw [calculateStepDestination_known hdest fun heq => hsp (congrArg Destination.ptr heq)]
      exact number_eq_resolve hsp h
    · next hm =>
      obtain ⟨hne, hres⟩ := callDestination_eq_target hp (by simp [hm]) h ha
      rw [calculateStepDestination_known (by simp only [jumpDestination, hm]) hne, hres]
    · next hm =>
      obtain ⟨hne, hres⟩ := callDestination_eq_target hp (by simp [hm]) h ha
      rw [calculateStepDestination_known (by simp only [jumpDestination, hm]) hne, hres]
    · next not cond hm =>
      refine branch_eq hp (by simp [hm]) _ ?_ h ha (hp.branch (by rw [hm]; rfl))
      simp only [jumpDestination, hm, jccJumps_eq]
    · next hm =>
      refine branch_eq hp (by simp [hm]) _ ?_ h ha (hp.branch (by rw [hm]; rfl))
      simp only [jumpDestination, hm, counter]
    · next hm =>
      refine branch_eq hp (by simp [hm]) _ ?_ h ha (hp.branch (by rw [hm]; rfl))
      simp only [jumpDestination, hm, counter]
    · next hm =>
      refine branch_eq hp (by simp [hm]) _ ?_ h ha (hp.branch (by rw [hm]; rfl))
      simp only [jumpDestination, hm, counter, Context.get, hp.jrcxz hm]
    · next hm =>
      refine branch_eq hp (by simp [hm]) _ ?_ h ha (hp.branch (by rw [hm]; rfl))
      simp only [jumpDestination, hm, counter_eq_count hp, ne_eq, sub_one_eq_zero]
    · next hm =>
      refine branch_eq hp (by simp [hm]) _ ?_ h ha (hp.branch (by rw [hm]; rfl))
      simp only [jumpDestination, hm, counter_eq_count hp, ne_eq, sub_one_eq_zero]
    · next hm =>
      refine branch_eq hp (by simp [hm]) _ ?_ h ha (hp.branch (by rw [hm]; rfl))
      simp only [jumpDestination, hm, counter_eq_count hp, ne_eq, sub_one_eq_zero]
    · next hm =>
      split at h
      · cases h
      · rw [hp.once hm, if_neg Bool.false_ne_true, next_eq hp.next, Option.some.injEq] at h
        rw [calculateStepDestination_unknown (by simp only [jumpDestination, hm, Option.getD_none]),
          h, resolve_ofImm ha]
    · cases h

end BugChecker.Step
