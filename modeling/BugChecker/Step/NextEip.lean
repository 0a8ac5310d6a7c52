import BugChecker.Step.Transfer

/-!
# The next EIP

In 32-bit code the program counter has 32 bits, and so has every target. The
sums of `CalculateStepDestination` have 64 in a driver of either kind, and only
the addresses that targets are read from are cut to 32.
-/

namespace BugChecker.Step

open Modules (Snapshot)

/-- Where 32-bit code goes on after an instruction, with 32-bit operands. It is `none` where the
target cannot be read, and for the instructions that go through a gate. -/
def Processor.nextEip (build : Build) (compat : Bool) (ex : Execution) (ctx : Context)
    (mem : Snapshot) (i : Instr) : Option UInt64 :=
  match i.mnemonic with
  | .ret => number mem (codePointer build compat (ctx.get build .rsp)) 4
  | .call => target build compat ex ctx mem i
  | .jmp => target build compat ex ctx mem i
  | .other => some (next build compat ctx i)
  | m =>
    if m.isBranch then
      if taken ctx i then target build compat ex ctx mem i else some (next build compat ctx i)
    else none

/-- An instruction of 32-bit code that has a destination: near, with 32-bit operands. -/
structure Decoded32 (ex : Execution) (i : Instr) : Prop where
  size : ex.operandSize = 4
  width : i.addressWidth = 16 ∨ i.addressWidth = 32
  handled : i.mnemonic = .ret ∧ i.branchNear ∨
    (i.mnemonic = .call ∨ i.mnemonic = .jmp) ∧
      ((∃ s, i.ops = [.immediate s]) ∨ (∃ r, i.ops = [.register (.d r)] ∧ r.hasD) ∨
        ∃ m, i.ops = [.memory m] ∧ m.isMem ∧ m.base ≠ .other ∧ m.index ≠ .other) ∨
    i.mnemonic.isBranch ∧ i.mnemonic ≠ .jrcxz ∧ (∃ s, i.ops = [.immediate s]) ∨
    i.mnemonic = .other

section
variable (build : Build) (compat : Bool) (ex : Execution) (ctx : Context) (i : Instr)

/-- Whatever is in memory, `stepAddr` is the next EIP if the instruction is the one that is decoded.
`EntryPoint` has zero in `stepAddr` before. -/
def StepsToEip : Prop :=
  ∀ (decode : Decoder) (mem : Snapshot) (old : Current) (bytes : List UInt8) (a : UInt64),
    old.stepAddr = 0 → mem.read (ctx.pc build) thisInstrMaxSize = some bytes →
    decode (machineMode build compat) bytes = (i, true) →
    Processor.nextEip build compat ex ctx mem i = some a →
    (disasmCurrInstr decode build compat old ctx mem).stepAddr = a ∧
      (disasmCurrInstr decode build compat old ctx mem).stepAddr < 0x100000000

/-- A target that is in the low 4 GB, and that is not taken for none at all. -/
def TargetFits (v : UInt64) : Prop := v < 0x100000000 ∧ (v ≠ 0 ∨ nextAddr build ctx i = 0)

/-- The registers for which the destination of an instruction comes out right. -/
def DestinationFits : Prop :=
  match i.mnemonic, i.ops with
  | .ret, _ => codePointer build compat (ctx.get build .rsp) ≠ 0
  | .other, _ => nextAddr build ctx i < 0x100000000
  | _, [.immediate s] =>
    if i.mnemonic.isBranch ∧ !Processor.taken ctx i then nextAddr build ctx i < 0x100000000
    else TargetFits build ctx i (nextAddr build ctx i + s)
  | _, [.register reg] => TargetFits build ctx i ((ctx.value build reg).getD 0)
  | _, [.memory m] =>
    m.segment ≠ .fs ∧ m.segment ≠ .gs ∧ codePointer build compat (knownSum build ctx i m) ≠ 0 ∧
      Processor.address build compat ex ctx i m =
        some (codePointer build compat (knownSum build ctx i m))
  | _, _ => False

end

-- ---------------------------------------------------------------------------
-- Memory
-- ---------------------------------------------------------------------------

def filled (f : UInt64 → UInt8) : Snapshot := fun a => some (f a)

theorem read_filled (f : UInt64 → UInt8) (addr : UInt64) (n : Nat) (h : n ≤ Modules.bufferSize) :
    (filled f).read addr n = some ((List.range n).map fun k => f (addr + UInt64.ofNat k)) := by
  rw [Snapshot.read, if_neg (by omega)]
  exact List.mapM_pure

theorem number_filled (f : UInt64 → UInt8) (addr : UInt64) :
    Processor.number (filled f) addr 4 =
      some (UInt64.ofNat (Bytes.leNat [f (addr + 0), f (addr + 1), f (addr + 2),
        f (addr + 3)])) := by
  rw [Processor.number, read_filled f addr 4 (by decide)]
  rfl

theorem number_lt (h : Processor.number mem addr 4 = some a) : a < 0x100000000 := by
  obtain ⟨bytes, hbytes, rfl⟩ := Option.map_eq_some_iff.mp h
  have hlength : bytes.length = 4 := by
    simpa using congrArg List.length (Snapshot.read_eq_some.mp hbytes).2.symm
  have hlt := Bytes.leNat_lt bytes
  rw [hlength] at hlt
  have hsize : Bytes.leNat bytes < UInt64.size := hlt.trans (by decide)
  rw [UInt64.lt_iff_toNat_lt, UInt64.toNat_ofNat_of_lt' hsize]
  exact hlt

theorem ofNat_leNat_inj (h : UInt64.ofNat (Bytes.leNat (b :: bytes)) =
    UInt64.ofNat (Bytes.leNat (b' :: bytes'))) : b = b' := by
  have hmod := congrArg (fun v => v.toNat % 256) h
  simp only [UInt64.toNat_ofNat', Bytes.leNat] at hmod
  have hb := b.toNat_lt
  have hb' := b'.toNat_lt
  exact UInt8.toNat_inj.mp (by omega)

-- ---------------------------------------------------------------------------
-- What is read
-- ---------------------------------------------------------------------------

theorem low32_lt (v : UInt64) : low32 v < 0x100000000 := by
  have hsize : (0x100000000 : UInt64).toNat = 2 ^ 32 := rfl
  simp only [low32, UInt64.lt_iff_toNat_lt, UInt64.toNat_mod, hsize]
  omega

theorem low32_eq_iff (v : UInt64) : low32 v = v ↔ v < 0x100000000 := by
  constructor
  · intro h
    rw [← h]
    exact low32_lt v
  · intro h
    exact UInt64.toNat_inj.mp (Nat.mod_eq_of_lt (UInt64.lt_iff_toNat_lt.mp h))

@[simp] theorem resolve_ofImm_eq : resolve build compat mem (.ofImm v) = v := by
  by_cases hv : v = 0
  · subst hv
    rfl
  · exact resolve_ofImm hv

section
variable {build : Build} {compat : Bool} {ex : Execution} {ctx : Context} {i : Instr}

theorem stepAddr_eq (hold : old.stepAddr = 0)
    (hread : mem.read (ctx.pc build) thisInstrMaxSize = some bytes)
    (hdecode : decode (machineMode build compat) bytes = (i, true)) :
    (disasmCurrInstr decode build compat old ctx mem).stepAddr =
      resolve build compat mem (calculateStepDestination build compat ctx i).2 := by
  simp only [disasmCurrInstr, hread, hdecode, hold]
  split
  · next heq => exact heq.symm
  · rfl

def always (i : Instr) : Decoder := fun _ _ => (i, true)

theorem StepsToEip.filled (h : StepsToEip build compat ex ctx i) (f : UInt64 → UInt8)
    (hnext : Processor.nextEip build compat ex ctx (filled f) i = some a) :
    resolve build compat (filled f) (calculateStepDestination build compat ctx i).2 = a ∧
      a < 0x100000000 := by
  have hread := read_filled f (ctx.pc build) thisInstrMaxSize (by decide)
  have hstep := h (always i) (Step.filled f) .zero _ a rfl hread rfl hnext
  rw [stepAddr_eq rfl hread (show always i (machineMode build compat) _ = (i, true) from rfl)]
    at hstep
  exact ⟨hstep.1, hstep.1 ▸ hstep.2⟩

theorem stepsToEip_of (h : ∀ mem a, Processor.nextEip build compat ex ctx mem i = some a →
      resolve build compat mem (calculateStepDestination build compat ctx i).2 = a ∧
        a < 0x100000000) : StepsToEip build compat ex ctx i := by
  intro decode mem old bytes a hold hread hdecode hnext
  obtain ⟨hres, hlt⟩ := h mem a hnext
  rw [stepAddr_eq hold hread hdecode, hres]
  exact ⟨rfl, hlt⟩

theorem stepsToEip_ofImm (hdest : jumpDestination build compat ctx i = some (.ofImm v))
    (hnext : ∀ mem, Processor.nextEip build compat ex ctx mem i = some (low32 v)) :
    StepsToEip build compat ex ctx i ↔ TargetFits build ctx i v := by
  have hcalc : ∀ mem, resolve build compat mem (calculateStepDestination build compat ctx i).2 =
      if v = 0 then nextAddr build ctx i else v := by
    intro mem
    rw [calculateStepDestination_ofImm hdest]
    split
    · exact resolve_ofImm_eq
    · exact resolve_ofImm_eq
  constructor
  · intro h
    obtain ⟨hres, -⟩ := h.filled (fun _ => 0) (hnext _)
    rw [hcalc] at hres
    split at hres
    · next hv =>
      subst hv
      exact ⟨by decide, .inr hres⟩
    · next hv => exact ⟨(low32_eq_iff v).mp hres.symm, .inl hv⟩
  · rintro ⟨hlt, hne⟩
    refine stepsToEip_of fun mem a ha => ?_
    have hlow := (low32_eq_iff v).mpr hlt
    rw [hnext, hlow, Option.some.injEq] at ha
    subst ha
    rw [hcalc]
    split
    · next hv =>
      subst hv
      exact ⟨hne.resolve_left (fun h => h rfl), hlt⟩
    · exact ⟨rfl, hlt⟩

theorem stepsToEip_next (hdest : (jumpDestination build compat ctx i).getD .unknown = .unknown)
    (hnext : ∀ mem, Processor.nextEip build compat ex ctx mem i =
      some (low32 (nextAddr build ctx i))) :
    StepsToEip build compat ex ctx i ↔ nextAddr build ctx i < 0x100000000 := by
  have hcalc : ∀ mem, resolve build compat mem (calculateStepDestination build compat ctx i).2 =
      nextAddr build ctx i := by
    intro mem
    rw [calculateStepDestination_unknown hdest, resolve_ofImm_eq]
  constructor
  · intro h
    obtain ⟨hres, -⟩ := h.filled (fun _ => 0) (hnext _)
    rw [hcalc] at hres
    exact (low32_eq_iff _).mp hres.symm
  · intro hlt
    refine stepsToEip_of fun mem a ha => ?_
    rw [hnext, (low32_eq_iff _).mpr hlt, Option.some.injEq] at ha
    subst ha
    exact ⟨hcalc mem, hlt⟩

theorem number_constant_ne (v : UInt64) (addr : UInt64) :
    ∃ f a, Processor.number (filled f) addr 4 = some a ∧ a ≠ v := by
  by_cases hv : v = 0
  · refine ⟨fun _ => 1, _, number_filled _ _, ?_⟩
    rw [hv]
    decide
  · exact ⟨fun _ => 0, _, number_filled _ _, fun h => hv h.symm⟩

theorem not_stepsToEip_unknown (hdest : jumpDestination build compat ctx i = some .unknown)
    (hnext : ∀ mem, Processor.nextEip build compat ex ctx mem i = Processor.number mem addr 4) :
    ¬ StepsToEip build compat ex ctx i := by
  intro h
  obtain ⟨f, a, hnumber, hne⟩ := number_constant_ne (nextAddr build ctx i) addr
  obtain ⟨hres, -⟩ := h.filled f ((hnext _).trans hnumber)
  rw [calculateStepDestination_notJumping hdest, resolve_ofImm_eq] at hres
  exact hne hres.symm

theorem stepsToEip_ptr (hcode : codePointerSize build compat = 4)
    (hdest : jumpDestination build compat ctx i = some ⟨0, ptr, codePointerSize build compat⟩)
    (hnext : ∀ mem, Processor.nextEip build compat ex ctx mem i = Processor.number mem addr 4) :
    StepsToEip build compat ex ctx i ↔ ptr ≠ 0 ∧ addr = ptr := by
  constructor
  · intro h
    have hptr : ptr ≠ 0 := by
      rintro rfl
      obtain ⟨f, a, hnumber, hne⟩ := number_constant_ne 0 addr
      obtain ⟨hres, -⟩ := h.filled f ((hnext _).trans hnumber)
      rw [calculateStepDestination_ptr hdest] at hres
      exact hne hres.symm
    refine ⟨hptr, Classical.byContradiction fun hne => ?_⟩
    have hnumber := number_filled (fun a => if a = addr then 1 else 0) addr
    obtain ⟨hres, -⟩ := h.filled _ ((hnext _).trans hnumber)
    rw [calculateStepDestination_ptr hdest] at hres
    have hread := number_filled (fun a => if a = addr then 1 else 0) ptr
    rw [← hcode] at hread
    rw [number_eq_resolve hptr hread] at hres
    have hfirst := ofNat_leNat_inj hres
    rw [UInt64.add_zero, UInt64.add_zero, if_neg (Ne.symm hne), if_pos rfl] at hfirst
    cases hfirst
  · rintro ⟨hptr, rfl⟩
    refine stepsToEip_of fun mem a ha => ?_
    rw [hnext] at ha
    refine ⟨?_, number_lt ha⟩
    rw [← hcode] at ha
    rw [calculateStepDestination_ptr hdest]
    exact number_eq_resolve hptr ha

theorem low32_nextAddr (build : Build) (ctx : Context) (i : Instr) (s : UInt64) :
    low32 (ctx.pc build + i.length + s) = low32 (nextAddr build ctx i + s) := by
  cases build with
  | x64 => rfl
  | x86 => exact (low32_low32_add _ _).symm

theorem codePointer_eq_low32 (hcode : codePointerSize build compat = 4) (v : UInt64) :
    codePointer build compat v = low32 v := by
  rw [← truncate_codePointerSize, hcode]
  rfl

theorem next_eq_low32 (hcode : codePointerSize build compat = 4) :
    Processor.next build compat ctx i = low32 (nextAddr build ctx i) := by
  rw [Processor.next, codePointer_eq_low32 hcode]
  have hadd := low32_nextAddr build ctx i 0
  rwa [UInt64.add_zero, UInt64.add_zero] at hadd

theorem target_immediate (h : Decoded32 ex i) (hops : i.ops = [.immediate s]) :
    Processor.target build compat ex ctx mem i = some (low32 (nextAddr build ctx i + s)) := by
  simp only [Processor.target, hops, h.size, ← low32_nextAddr]
  rfl

theorem value_isSome (ctx : Context) (h : reg ≠ .other) :
    ∃ v, Processor.value ctx reg = some v := by
  cases reg with
  | other => exact absurd rfl h
  | _ => exact ⟨_, rfl⟩

theorem address_isSome (hbase : m.base ≠ .other) (hindex : m.index ≠ .other) :
    ∃ addr, Processor.address build compat ex ctx i m = some addr := by
  obtain ⟨base, hbase⟩ := value_isSome ctx hbase
  obtain ⟨index, hindex⟩ := value_isSome ctx hindex
  simp only [Processor.address, hbase, hindex]
  split
  · exact ⟨_, rfl⟩
  · exact ⟨_, rfl⟩

theorem nextEip_branch (hbranch : i.mnemonic.isBranch) :
    Processor.nextEip build compat ex ctx mem i =
      if Processor.taken ctx i then Processor.target build compat ex ctx mem i
      else some (Processor.next build compat ctx i) := by
  cases hm : i.mnemonic with
  | jcc | jcxz | jecxz | jrcxz | loop | loope | loopne =>
    simp only [Processor.nextEip, hm, Mnemonic.isBranch, if_true]
  | _ =>
    rw [hm] at hbranch
    cases hbranch

theorem destinationFits_branch (hbranch : i.mnemonic.isBranch) (hops : i.ops = [.immediate s]) :
    DestinationFits build compat ex ctx i ↔
      if Processor.taken ctx i then TargetFits build ctx i (nextAddr build ctx i + s)
      else nextAddr build ctx i < 0x100000000 := by
  cases hm : i.mnemonic with
  | jcc | jcxz | jecxz | jrcxz | loop | loope | loopne =>
    simp only [DestinationFits, hm, hops, Mnemonic.isBranch]
    cases Processor.taken ctx i <;> simp
  | _ =>
    rw [hm] at hbranch
    cases hbranch

theorem stepsToEip_branch (h : Decoded32 ex i) (hcode : codePointerSize build compat = 4)
    (hbranch : i.mnemonic.isBranch) (hne : i.mnemonic ≠ .jrcxz) (hops : i.ops = [.immediate s]) :
    StepsToEip build compat ex ctx i ↔ DestinationFits build compat ex ctx i := by
  have hdecoded : DecodedBranch build i s :=
    ⟨hbranch, hops, h.width.imp_right .inl, fun hm => absurd hm hne⟩
  have hdest : jumpDestination build compat ctx i = _ := jumpDestination_branch hdecoded
  have hrelative : relative build ctx i = nextAddr build ctx i + s := by
    rw [relative, Instr.op0, hops, List.headD_cons]
  have hnext : ∀ mem, Processor.nextEip build compat ex ctx mem i =
      if Processor.taken ctx i then some (low32 (nextAddr build ctx i + s))
      else some (low32 (nextAddr build ctx i)) := by
    intro mem
    rw [nextEip_branch hbranch, target_immediate h hops, next_eq_low32 hcode]
  have hfits : DestinationFits build compat ex ctx i ↔ _ := destinationFits_branch hbranch hops
  cases htaken : Processor.taken ctx i with
  | true =>
    simp only [htaken, if_true, hrelative] at hdest hnext hfits
    rw [stepsToEip_ofImm hdest hnext, hfits]
  | false =>
    simp only [htaken, Bool.false_eq_true, if_false] at hdest hnext hfits
    rw [stepsToEip_next (by rw [hdest]; rfl) hnext, hfits]

theorem nextEip_call (hm : i.mnemonic = .call ∨ i.mnemonic = .jmp) :
    Processor.nextEip build compat ex ctx mem i = Processor.target build compat ex ctx mem i := by
  rcases hm with hm | hm
  · simp only [Processor.nextEip, hm]
  · simp only [Processor.nextEip, hm]

theorem stepsToEip_immediate (h : Decoded32 ex i) (hm : i.mnemonic = .call ∨ i.mnemonic = .jmp)
    (hops : i.ops = [.immediate s]) :
    StepsToEip build compat ex ctx i ↔ DestinationFits build compat ex ctx i := by
  have hrelative : relative build ctx i = nextAddr build ctx i + s := by
    rw [relative, Instr.op0, hops, List.headD_cons]
  have hdest : jumpDestination build compat ctx i = some (.ofImm (nextAddr build ctx i + s)) := by
    rw [jumpDestination_call hm, callDestination, hops]
    simp only [hrelative]
  have hfits : DestinationFits build compat ex ctx i ↔
      TargetFits build ctx i (nextAddr build ctx i + s) := by
    rcases hm with hm | hm
    · simp [DestinationFits, hm, hops, Mnemonic.isBranch]
    · simp [DestinationFits, hm, hops, Mnemonic.isBranch]
  rw [stepsToEip_ofImm hdest fun mem => (nextEip_call hm).trans (target_immediate h hops), hfits]

theorem stepsToEip_register (h : Decoded32 ex i) (hm : i.mnemonic = .call ∨ i.mnemonic = .jmp)
    (hops : i.ops = [.register (.d r)]) (hr : r.hasD) :
    StepsToEip build compat ex ctx i ↔ DestinationFits build compat ex ctx i := by
  have hvalue : ctx.value build (.d r) = some (low32 (ctx.reg r)) := by
    simp [Context.value, zydisRegToCtxRegValuePtr, hr]
  have hdest : jumpDestination build compat ctx i = some (.ofImm (low32 (ctx.reg r))) := by
    rw [jumpDestination_call hm, callDestination, hops]
    simp only [hvalue, Option.getD_some]
  have hnext : ∀ mem, Processor.nextEip build compat ex ctx mem i =
      some (low32 (low32 (ctx.reg r))) := by
    intro mem
    simp only [nextEip_call hm, Processor.target, hops, h.size]
    rfl
  have hfits : DestinationFits build compat ex ctx i ↔
      TargetFits build ctx i (low32 (ctx.reg r)) := by
    rcases hm with hm | hm
    · simp only [DestinationFits, hm, hops, hvalue, Option.getD_some]
    · simp only [DestinationFits, hm, hops, hvalue, Option.getD_some]
  rw [stepsToEip_ofImm hdest hnext, hfits]

theorem destinationFits_memory (hm : i.mnemonic = .call ∨ i.mnemonic = .jmp)
    (hops : i.ops = [.memory m]) :
    DestinationFits build compat ex ctx i ↔ m.segment ≠ .fs ∧ m.segment ≠ .gs ∧
      codePointer build compat (knownSum build ctx i m) ≠ 0 ∧
      Processor.address build compat ex ctx i m =
        some (codePointer build compat (knownSum build ctx i m)) := by
  rcases hm with hm | hm
  · simp only [DestinationFits, hm, hops]
  · simp only [DestinationFits, hm, hops]

/-- With 32-bit addresses the sum is always the address that is read. -/
theorem destinationFits_memory32 (hcode : codePointerSize build compat = 4)
    (hm : i.mnemonic = .call ∨ i.mnemonic = .jmp) (hops : i.ops = [.memory m])
    (hwidth : i.addressWidth = 32) (hbase : Named build compat m.base) (hrip : m.base ≠ .d .rip)
    (hindex : Named build compat m.index) :
    DestinationFits build compat ex ctx i ↔ m.segment ≠ .fs ∧ m.segment ≠ .gs ∧
      codePointer build compat (knownSum build ctx i m) ≠ 0 := by
  rw [destinationFits_memory hm hops]
  constructor
  · rintro ⟨hfs, hgs, hptr, -⟩
    exact ⟨hfs, hgs, hptr⟩
  · rintro ⟨hfs, hgs, hptr⟩
    have hwide : i.addressWidth = 8 * codePointerSize build compat := by rw [hwidth, hcode]
    exact ⟨hfs, hgs, hptr, address_eq_knownSum hfs hgs hwide hbase hrip hindex⟩

theorem stepsToEip_memory (h : Decoded32 ex i) (hcode : codePointerSize build compat = 4)
    (hm : i.mnemonic = .call ∨ i.mnemonic = .jmp) (hops : i.ops = [.memory m]) (hmem : m.isMem)
    (hbase : m.base ≠ .other) (hindex : m.index ≠ .other) :
    StepsToEip build compat ex ctx i ↔ DestinationFits build compat ex ctx i := by
  obtain ⟨addr, haddr⟩ : ∃ addr, Processor.address build compat ex ctx i m = some addr :=
    address_isSome hbase hindex
  have hnext : ∀ mem, Processor.nextEip build compat ex ctx mem i =
      Processor.number mem addr 4 := by
    intro mem
    simp only [nextEip_call hm, Processor.target, hops, haddr, h.size, Option.bind_some]
  rw [destinationFits_memory hm hops, haddr, Option.some.injEq]
  by_cases hknown : m.segment ≠ .fs ∧ m.segment ≠ .gs ∧ knownSum build ctx i m ≠ 0
  · obtain ⟨hfs, hgs, hsum⟩ := hknown
    rw [stepsToEip_ptr hcode (jumpDestination_memory hm hops hmem hfs hgs hsum) hnext]
    simp only [hfs, hgs, ne_eq, not_false_eq_true, true_and]
  · refine iff_of_false
      (not_stepsToEip_unknown (jumpDestination_memory_unknown hm hops hmem hknown) hnext) ?_
    rintro ⟨hfs, hgs, hptr, -⟩
    refine hknown ⟨hfs, hgs, fun hsum => hptr ?_⟩
    rw [hsum, codePointer_eq_low32 hcode]
    rfl

theorem stepsToEip_ret (hcode : codePointerSize build compat = 4) (hm : i.mnemonic = .ret)
    (hnear : i.branchNear) :
    StepsToEip build compat ex ctx i ↔ DestinationFits build compat ex ctx i := by
  have hnext : ∀ mem, Processor.nextEip build compat ex ctx mem i =
      Processor.number mem (codePointer build compat (ctx.get build .rsp)) 4 := by
    intro mem
    simp only [Processor.nextEip, hm]
  rw [stepsToEip_ptr hcode (jumpDestination_ret hm hnear) hnext]
  simp only [DestinationFits, hm, and_true]

theorem stepsToEip_other (hcode : codePointerSize build compat = 4) (hm : i.mnemonic = .other) :
    StepsToEip build compat ex ctx i ↔ DestinationFits build compat ex ctx i := by
  have hnext : ∀ mem, Processor.nextEip build compat ex ctx mem i =
      some (low32 (nextAddr build ctx i)) := by
    intro mem
    simp only [Processor.nextEip, hm, next_eq_low32 hcode]
  have hdest : (jumpDestination build compat ctx i).getD .unknown = .unknown := by
    simp only [jumpDestination, hm, Option.getD_none]
  rw [stepsToEip_next hdest hnext]
  simp only [DestinationFits, hm]

end

/-- The step ends at the next EIP exactly when the destination needs no wrapping around, is not zero
and, if it is read, is read at the address that the processor reads it from. -/
theorem stepAddr_is_nextEip_iff (build : Build) (is32bitCompat : Bool) (ex : Execution)
    (ctx : Context) (i : Instr) (hcode : build = .x86 ∨ is32bitCompat = true)
    (h : Decoded32 ex i) :
    StepsToEip build is32bitCompat ex ctx i ↔ DestinationFits build is32bitCompat ex ctx i := by
  have hsize : codePointerSize build is32bitCompat = 4 := by
    rcases hcode with hcode | hcode
    · simp [codePointerSize, hcode]
    · simp [codePointerSize, hcode]
  obtain ⟨hm, hnear⟩ | ⟨hm, hops⟩ | ⟨hbranch, hne, s, hops⟩ | hm := h.handled
  · exact stepsToEip_ret hsize hm hnear
  · obtain ⟨s, hops⟩ | ⟨r, hops, hr⟩ | ⟨m, hops, hmem, hbase, hindex⟩ := hops
    · exact stepsToEip_immediate h hm hops
    · exact stepsToEip_register h hm hops hr
    · exact stepsToEip_memory h hsize hm hops hmem hbase hindex
  · exact stepsToEip_branch h hsize hbranch hne hops
  · exact stepsToEip_other hsize hm

/-- `JMP` of five bytes, by the given displacement. -/
def jmpNear (s : UInt64) : Instr :=
  { mnemonic := .jmp, length := 5, branchNear := true, addressWidth := 32, hasRep := false
    hasRepe := false, hasRepne := false, ops := [.immediate s] }

def execution32 : Execution where
  operandSize := 4
  isFar := false
  inhibitsTrap := false
  fsBase := 0
  gsBase := 0
  zfAfter := false

theorem jmpNear_decoded (s : UInt64) : Decoded32 execution32 (jmpNear s) :=
  ⟨rfl, .inr rfl, .inr (.inl ⟨.inr rfl, .inl ⟨s, rfl⟩⟩)⟩

theorem jmpNear_fits : StepsToEip .x64 true execution32 zeroContext (jmpNear 0x100) :=
  (stepAddr_is_nextEip_iff .x64 true execution32 zeroContext (jmpNear 0x100) (.inr rfl)
    (jmpNear_decoded 0x100)).mpr (show TargetFits .x64 zeroContext (jmpNear 0x100) 0x1105 from
      ⟨by decide, .inl (by decide)⟩)

/-- The bytes of `JMP` by `-0x2000`, at `1000`. -/
def jmpBackByte (a : UInt64) : UInt8 :=
  if a = 0x1000 then 0xE9 else if a = 0x1002 then 0xE0
    else if a = 0x1003 ∨ a = 0x1004 then 0xFF else 0

/-- The jump goes to `FFFFF005`. -/
theorem jmpBack_leaves_code :
    Decoded32 execution32 (jmpNear (-0x2000)) ∧ zeroContext.pc .x86 < 0x100000000 ∧
      Processor.nextEip .x86 false execution32 zeroContext (filled jmpBackByte)
        (jmpNear (-0x2000)) =
        some 0xFFFFF005 ∧
      (disasmCurrInstr (always (jmpNear (-0x2000))) .x86 false .zero zeroContext
        (filled jmpBackByte)).stepAddr = 0xFFFFFFFFFFFFF005 ∧
      ¬ StepsToEip .x86 false execution32 zeroContext (jmpNear (-0x2000)) := by
  have hread := read_filled jmpBackByte (zeroContext.pc .x86) thisInstrMaxSize (by decide)
  have hstep : (disasmCurrInstr (always (jmpNear (-0x2000))) .x86 false .zero zeroContext
      (filled jmpBackByte)).stepAddr = 0xFFFFFFFFFFFFF005 :=
    (stepAddr_eq rfl hread rfl).trans (by decide)
  refine ⟨jmpNear_decoded _, by decide, by decide, hstep, fun h => ?_⟩
  obtain ⟨-, hlt⟩ :=
    h (always (jmpNear (-0x2000))) (filled jmpBackByte) .zero _ 0xFFFFF005 rfl hread rfl
    (by decide)
  rw [hstep] at hlt
  exact absurd hlt (by decide)

end BugChecker.Step
