import BugChecker.Modules.Recorded
import BugChecker.Step.NextEip

/-!
# Return addresses on the stack

`Cmd::ScanStackForRets` goes through the stack page by page, and takes a slot for
a return address if its value is in a module and the instruction before it is a
`CALL`. The offsets that it tries end two bytes before the return address.
-/

namespace BugChecker.Step

open Modules (Snapshot NtModules)

-- ---------------------------------------------------------------------------
-- ScanStackForRets
-- ---------------------------------------------------------------------------

def moduleRanges (ntModules : NtModules) (currentEproc : UInt64) : List (UInt64 × UInt64) :=
  let eprocs := if currentEproc ≠ 0 then [currentEproc, 0] else [0]
  eprocs.flatMap fun eproc =>
    match ntModules.find? (·.1 = eproc) with
    | none => []
    | some e => e.2.map fun mod => (mod.dllBase, mod.dllBase + mod.sizeOfImage.toUInt64)

/-- An address as it is read: a 32-bit driver has the low half of it. -/
def ulongPtr (build : Build) (v : UInt64) : UInt64 :=
  match build with
  | .x86 => low32 v
  | .x64 => v

/-- `sizeof(asmb)`. -/
def asmbSize : Nat := 32 + 32

def pageSize : Nat := 0x1000

def isCallOperand : List Operand → Bool
  | [.immediate _] => true
  | [.register _] => true
  | [.memory m] => m.isMem
  | _ => false

section
variable (decode : Decoder) (build : Build) (is32bitCompat : Bool)

def callAtOffset (asmb : List UInt8) (offset : Nat) : Bool :=
  match decode (machineMode build is32bitCompat) (asmb.drop offset) with
  | (_, false) => false
  | (i, true) =>
    i.mnemonic = .call ∧ UInt64.ofNat offset + i.length = UInt64.ofNat (asmbSize / 2) ∧
      isCallOperand i.ops

def isRet (ranges : List (UInt64 × UInt64)) (mem : Snapshot) (l : UInt64) : Bool :=
  l ≠ 0 && ranges.any (fun range => l ≥ range.1 && l < range.2) &&
    match mem.read (ulongPtr build (l - UInt64.ofNat (asmbSize / 2))) asmbSize with
    | none => false
    | some asmb => (List.range (asmbSize / 2 - 2)).any
      (callAtOffset decode build is32bitCompat asmb)

def slotAt (start : UInt64) (page : List UInt8) (i : Nat) : UInt64 × UInt64 :=
  (start + UInt64.ofNat i,
    UInt64.ofNat (Bytes.leNat ((page.drop i).take (codePointerSize build is32bitCompat))))

def scanPage (isRet : UInt64 → Bool) (start : UInt64) (page : List UInt8) :
    List Nat → Int → List (UInt64 × UInt64) → Int × List (UInt64 × UInt64)
  | [], depth, addrs => (depth, addrs)
  | i :: is, depth, addrs =>
    let slot := slotAt build is32bitCompat start page i
    if isRet slot.2 then
      if depth - 1 ≤ 0 then (depth - 1, addrs ++ [slot])
      else scanPage isRet start page is (depth - 1) (addrs ++ [slot])
    else scanPage isRet start page is depth addrs

def slotOffsets (len : Nat) : List Nat :=
  let size := codePointerSize build is32bitCompat
  (List.range ((len + size - 1) / size)).map (· * size)

/-- The pages from `start` on. After `turns` pages the answer is left open. -/
def scanPages (isRet : UInt64 → Bool) (mem : Snapshot) :
    Nat → UInt64 → UInt64 → Int → List (UInt64 × UInt64) → Option (List (UInt64 × UInt64))
  | 0, _, _, _, _ => none
  | turns + 1, start, next, depth, addrs =>
    if depth > 0 then
      let len := next - start
      if len > UInt64.ofNat pageSize then some addrs
      else
        match mem.read (ulongPtr build start) len.toNat with
        | none => some addrs
        | some page =>
          let (depth, addrs) := scanPage build is32bitCompat isRet start page
            (slotOffsets build is32bitCompat len.toNat) depth addrs
          scanPages isRet mem turns next (next + UInt64.ofNat pageSize) depth addrs
    else some addrs

def nextPage (start : UInt64) : UInt64 := (start &&& 0xFFFFFFFFFFFFF000) + UInt64.ofNat pageSize

/-- `res`, `addrs` and `is64`, and what is printed. -/
structure ScanResult where
  res : Bool
  addrs : List (UInt64 × UInt64)
  is64 : Bool
  printed : Option String
  deriving DecidableEq

def scanStackForRets (ntModules : NtModules) (currentEproc : UInt64) (mem : Snapshot) (turns : Nat)
    (sp : UInt64) (depth : Int) : Option ScanResult :=
  let is64 := build = .x64 ∧ !is32bitCompat
  if sp % UInt64.ofNat (codePointerSize build is32bitCompat) ≠ 0 then
    some ⟨false, [], is64, some "Stack pointer is not aligned."⟩
  else
    let isRet := isRet decode build is32bitCompat (moduleRanges ntModules currentEproc) mem
    (scanPages build is32bitCompat isRet mem turns sp (nextPage sp) depth []).map fun addrs =>
      ⟨true, addrs, is64, none⟩

-- ---------------------------------------------------------------------------
-- Return addresses
-- ---------------------------------------------------------------------------

/-- The last `n` of the first 32 bytes are a call. -/
def endsInCall (asmb : List UInt8) (n : Nat) : Bool :=
  match decode (machineMode build is32bitCompat) (asmb.drop (32 - n)) with
  | (_, false) => false
  | (i, true) => i.mnemonic = .call ∧ i.length = UInt64.ofNat n ∧ isCallOperand i.ops

/-- A value in a module, after a call of at least `shortest` bytes. -/
def isReturn (shortest : Nat) (ranges : List (UInt64 × UInt64)) (mem : Snapshot)
    (l : UInt64) : Bool :=
  l ≠ 0 && ranges.any (fun range => range.1 ≤ l && l < range.2) &&
    match mem.read (ulongPtr build (l - 32)) 64 with
    | none => false
    | some asmb => (List.range 33).any fun n =>
      shortest ≤ n && endsInCall decode build is32bitCompat asmb n

/-- The slots from `sp` on in `k` pages: their addresses and their values. -/
def stackSlots (mem : Snapshot) (sp : UInt64) (k : Nat) : List (UInt64 × UInt64) :=
  let size := codePointerSize build is32bitCompat
  (List.range ((pageSize * k - sp.toNat % pageSize) / size)).map fun j =>
    let addr := sp + UInt64.ofNat (size * j)
    (addr, (Processor.number mem (ulongPtr build addr) size).getD 0)

/-- `k` pages can be read from `start` on, the first of them from there only, and the next not. -/
def ReadablePages (mem : Snapshot) : Nat → UInt64 → Prop
  | 0, start => mem.read (ulongPtr build start) (pageSize - start.toNat % pageSize) = none
  | k + 1, start =>
    (mem.read (ulongPtr build start) (pageSize - start.toNat % pageSize)).isSome ∧
      ReadablePages mem k (nextPage start)

end

-- ---------------------------------------------------------------------------
-- The calls that are found
-- ---------------------------------------------------------------------------

section
variable {decode : Decoder} {build : Build} {compat : Bool}

theorem ofNat_add_eq_iff (a b : Nat) (x : UInt64) :
    UInt64.ofNat a + x = UInt64.ofNat (a + b) ↔ x = UInt64.ofNat b := by
  rw [UInt64.ofNat_add]
  exact UInt64.add_right_inj _

theorem callAtOffset_eq (asmb : List UInt8) (n : Nat) (h : n ≤ 32) :
    callAtOffset decode build compat asmb (32 - n) = endsInCall decode build compat asmb n := by
  have hend : ∀ x : UInt64, UInt64.ofNat (32 - n) + x = UInt64.ofNat (asmbSize / 2) ↔
      x = UInt64.ofNat n := by
    intro x
    rw [show asmbSize / 2 = 32 - n + n by rw [asmbSize]; omega]
    exact ofNat_add_eq_iff _ _ x
  simp only [callAtOffset, endsInCall, hend]

theorem any_callAtOffset (asmb : List UInt8) :
    (List.range (asmbSize / 2 - 2)).any (callAtOffset decode build compat asmb) =
      (List.range 33).any fun n => 3 ≤ n && endsInCall decode build compat asmb n := by
  rw [Bool.eq_iff_iff]
  simp only [List.any_eq_true, List.mem_range, Bool.and_eq_true, decide_eq_true_eq, asmbSize]
  constructor
  · rintro ⟨offset, hlt, hcall⟩
    have hoffset : 32 - (32 - offset) = offset := by omega
    refine ⟨32 - offset, by omega, by omega, ?_⟩
    rwa [← callAtOffset_eq asmb (32 - offset) (by omega), hoffset]
  · rintro ⟨n, hlt, hle, hcall⟩
    refine ⟨32 - n, by omega, ?_⟩
    rwa [callAtOffset_eq asmb n (by omega)]

theorem isRet_eq_isReturn : isRet decode build compat = isReturn decode build compat 3 := by
  funext ranges mem l
  unfold isRet isReturn
  simp only [any_callAtOffset]
  rfl

theorem isReturn_mono (h : isReturn decode build compat 3 ranges mem l) :
    isReturn decode build compat 1 ranges mem l := by
  unfold isReturn at h ⊢
  rw [Bool.and_eq_true] at h ⊢
  refine ⟨h.1, ?_⟩
  have hcall := h.2
  split at hcall
  · cases hcall
  · simp only [List.any_eq_true, List.mem_range, Bool.and_eq_true, decide_eq_true_eq] at hcall ⊢
    obtain ⟨n, hlt, hle, hend⟩ := hcall
    exact ⟨n, hlt, by omega, hend⟩

-- ---------------------------------------------------------------------------
-- One page
-- ---------------------------------------------------------------------------

theorem scanPage_eq (p : UInt64 → Bool) (start : UInt64) (page : List UInt8) (is : List Nat)
    (depth : Int) (addrs : List (UInt64 × UInt64)) (hdepth : 0 < depth) :
    let slots := (is.map (slotAt build compat start page)).filter (p ·.2)
    scanPage build compat p start page is depth addrs =
      (depth - (slots.take depth.toNat).length, addrs ++ slots.take depth.toNat) := by
  induction is generalizing depth addrs with
  | nil => simp [scanPage]
  | cons i is ih =>
    obtain ⟨d, rfl⟩ : ∃ d : Nat, depth = d + 1 := ⟨(depth - 1).toNat, by omega⟩
    have hd : (d + 1 : Int).toNat = d + 1 := by omega
    simp only [scanPage, List.map_cons, List.filter_cons]
    split
    · simp only [hd, List.take_succ_cons, List.length_cons]
      split
      · next hlast =>
        obtain rfl : d = 0 := by omega
        simp
      · next hmore =>
        rw [ih _ _ (by omega)]
        have hd' : ((d : Int) + 1 - 1).toNat = d := by omega
        simp only [hd', List.append_assoc, List.singleton_append, Prod.mk.injEq, and_true]
        omega
    · exact ih _ _ hdepth

theorem toNat_and_page (v : UInt64) :
    (v &&& 0xFFFFFFFFFFFFF000).toNat = v.toNat - v.toNat % pageSize := by
  have hmask : v &&& (0xFFFFFFFFFFFFF000 : UInt64) =
      UInt64.ofBitVec ((v.toBitVec >>> 12) <<< 12) := by
    rw [BitVec.shiftLeft_ushiftRight]
    rfl
  have hlt := v.toNat_lt
  rw [hmask]
  simp only [UInt64.toNat_ofBitVec, BitVec.toNat_shiftLeft, BitVec.toNat_ushiftRight,
    UInt64.toNat_toBitVec, Nat.shiftRight_eq_div_pow, Nat.shiftLeft_eq, pageSize]
  omega

theorem toNat_nextPage (start : UInt64) :
    (nextPage start).toNat = (start.toNat - start.toNat % pageSize + pageSize) % 2 ^ 64 := by
  rw [nextPage, UInt64.toNat_add, toNat_and_page]
  rfl

theorem toNat_nextPage_sub (start : UInt64) :
    (nextPage start - start).toNat = pageSize - start.toNat % pageSize := by
  have hlt := start.toNat_lt
  rw [UInt64.toNat_sub, toNat_nextPage]
  simp only [pageSize]
  omega

theorem nextPage_mod (start : UInt64) : (nextPage start).toNat % pageSize = 0 := by
  have hlt := start.toNat_lt
  rw [toNat_nextPage]
  simp only [pageSize]
  omega

theorem nextPage_nextPage (start : UInt64) :
    nextPage (nextPage start) = nextPage start + UInt64.ofNat pageSize := by
  have hmod := nextPage_mod start
  have hlt := (nextPage start).toNat_lt
  apply UInt64.toNat_inj.mp
  rw [toNat_nextPage, hmod, UInt64.toNat_add, Nat.sub_zero]
  rfl

theorem ulongPtr_add (start : UInt64) (i : Nat) (h : start.toNat % pageSize + i < pageSize) :
    ulongPtr build (start + UInt64.ofNat i) = ulongPtr build start + UInt64.ofNat i := by
  cases build with
  | x64 => rfl
  | x86 =>
    have hlt := start.toNat_lt
    have hsize : (0x100000000 : UInt64).toNat = 2 ^ 32 := rfl
    simp only [pageSize] at h
    apply UInt64.toNat_inj.mp
    simp only [ulongPtr, low32, UInt64.toNat_mod, UInt64.toNat_add, UInt64.toNat_ofNat', hsize]
    omega

theorem codePointerSize_cases (build : Build) (compat : Bool) :
    codePointerSize build compat = 8 ∨ codePointerSize build compat = 4 := by
  unfold codePointerSize
  split
  · exact .inl rfl
  · exact .inr rfl

theorem page_slots (h : start % UInt64.ofNat (codePointerSize build compat) = 0) :
    ∃ n, pageSize - start.toNat % pageSize = codePointerSize build compat * n := by
  have hmod := congrArg UInt64.toNat h
  rcases codePointerSize_cases build compat with hsize | hsize
  · rw [hsize] at hmod ⊢
    have hzero : start.toNat % 8 = 0 := hmod
    refine ⟨(pageSize - start.toNat % pageSize) / 8, ?_⟩
    simp only [pageSize]
    omega
  · rw [hsize] at hmod ⊢
    have hzero : start.toNat % 4 = 0 := hmod
    refine ⟨(pageSize - start.toNat % pageSize) / 4, ?_⟩
    simp only [pageSize]
    omega

theorem nextPage_eq_add (start : UInt64) :
    nextPage start = start + UInt64.ofNat (pageSize - start.toNat % pageSize) := by
  rw [← toNat_nextPage_sub, UInt64.ofNat_toNat, UInt64.add_comm, UInt64.sub_add_cancel]

theorem slotOffsets_mul (n : Nat) :
    slotOffsets build compat (codePointerSize build compat * n) =
      (List.range n).map (· * codePointerSize build compat) := by
  have hcount : (codePointerSize build compat * n + codePointerSize build compat - 1) /
      codePointerSize build compat = n := by
    rcases codePointerSize_cases build compat with hsize | hsize
    · rw [hsize]
      omega
    · rw [hsize]
      omega
  simp only [slotOffsets, hcount]

theorem slotAt_eq
    (hread : mem.read (ulongPtr build start) (pageSize - start.toNat % pageSize) = some page)
    (hn : pageSize - start.toNat % pageSize = codePointerSize build compat * n) (hj : j < n) :
    slotAt build compat start page (j * codePointerSize build compat) =
      (start + UInt64.ofNat (codePointerSize build compat * j),
        (Processor.number mem (ulongPtr build
          (start + UInt64.ofNat (codePointerSize build compat * j)))
          (codePointerSize build compat)).getD 0) := by
  have hend : codePointerSize build compat * j + codePointerSize build compat ≤
      pageSize - start.toNat % pageSize := by
    rw [hn, ← Nat.mul_succ]
    exact Nat.mul_le_mul_left _ hj
  have hpos : 0 < codePointerSize build compat := Nat.pos_of_ne_zero codePointerSize_ne_zero
  have hread' := Snapshot.read_part hread hend
  rw [Nat.mul_comm j, ulongPtr_add start _ (by omega), Processor.number, hread']
  rfl

theorem stackSlots_succ
    (hread : mem.read (ulongPtr build start) (pageSize - start.toNat % pageSize) = some page)
    (h : start % UInt64.ofNat (codePointerSize build compat) = 0) :
    stackSlots build compat mem start (k + 1) =
      (slotOffsets build compat (pageSize - start.toNat % pageSize)).map
          (slotAt build compat start page) ++ stackSlots build compat mem (nextPage start) k := by
  obtain ⟨n, hn⟩ := page_slots h
  have hpos : 0 < codePointerSize build compat := Nat.pos_of_ne_zero codePointerSize_ne_zero
  have hcount : (pageSize * (k + 1) - start.toNat % pageSize) / codePointerSize build compat =
      n + (pageSize * k - (nextPage start).toNat % pageSize) / codePointerSize build compat := by
    have hsum : pageSize * (k + 1) - start.toNat % pageSize =
        pageSize * k + codePointerSize build compat * n := by
      have hlt : start.toNat % pageSize < pageSize := Nat.mod_lt _ (by decide)
      rw [Nat.mul_succ]
      omega
    rw [hsum, nextPage_mod, Nat.sub_zero, Nat.add_mul_div_left _ _ hpos, Nat.add_comm]
  simp only [stackSlots, hcount, List.range_add, List.map_append, List.map_map]
  refine congrArg₂ (· ++ ·) ?_ ?_
  · rw [hn, slotOffsets_mul, List.map_map]
    apply List.map_congr_left
    intro j hj
    exact (slotAt_eq hread hn (List.mem_range.mp hj)).symm
  · apply List.map_congr_left
    intro j _
    have hadd : start + UInt64.ofNat (codePointerSize build compat * (n + j)) =
        nextPage start + UInt64.ofNat (codePointerSize build compat * j) := by
      rw [nextPage_eq_add, hn, Nat.mul_add, UInt64.ofNat_add, UInt64.add_assoc]
    simp only [Function.comp_apply, hadd]

theorem stackSlots_zero : stackSlots build compat mem start 0 = [] := by
  simp only [stackSlots, Nat.mul_zero, Nat.zero_sub, Nat.zero_div, List.range_zero, List.map_nil]

-- ---------------------------------------------------------------------------
-- The stack
-- ---------------------------------------------------------------------------

theorem nextPage_aligned (start : UInt64) :
    nextPage start % UInt64.ofNat (codePointerSize build compat) = 0 := by
  have hmod := nextPage_mod start
  simp only [pageSize] at hmod
  apply UInt64.toNat_inj.mp
  rcases codePointerSize_cases build compat with hsize | hsize
  · rw [hsize]
    show (nextPage start).toNat % 8 = 0
    omega
  · rw [hsize]
    show (nextPage start).toNat % 4 = 0
    omega

theorem scanPages_eq (p : UInt64 → Bool) (turns k : Nat) (hturns : k < turns) (start : UInt64)
    (depth : Int) (addrs : List (UInt64 × UInt64)) (hpages : ReadablePages build mem k start)
    (h : start % UInt64.ofNat (codePointerSize build compat) = 0) :
    scanPages build compat p mem turns start (nextPage start) depth addrs =
      some (addrs ++ ((stackSlots build compat mem start k).filter (p ·.2)).take depth.toNat) := by
  induction k generalizing turns start depth addrs with
  | zero =>
    obtain ⟨turns, rfl⟩ : ∃ t, turns = t + 1 := ⟨turns - 1, by omega⟩
    have hnone : mem.read (ulongPtr build start) (nextPage start - start).toNat = none := by
      rw [toNat_nextPage_sub]
      exact hpages
    simp only [scanPages, hnone, ite_self, stackSlots_zero, List.filter_nil, List.take_nil,
      List.append_nil]
  | succ k ih =>
    obtain ⟨turns, rfl⟩ : ∃ t, turns = t + 1 := ⟨turns - 1, by omega⟩
    obtain ⟨hsome, hrest⟩ := hpages
    obtain ⟨page, hread⟩ := Option.isSome_iff_exists.mp hsome
    by_cases hdepth : 0 < depth
    · have hlen : ¬ nextPage start - start > UInt64.ofNat pageSize := by
        rw [gt_iff_lt, UInt64.lt_iff_toNat_lt, toNat_nextPage_sub]
        show ¬ pageSize < pageSize - _
        omega
      rw [scanPages, if_pos hdepth]
      simp only [if_neg hlen, toNat_nextPage_sub, hread]
      rw [scanPage_eq p start page _ depth addrs hdepth, ← nextPage_nextPage]
      simp only
      rw [ih turns (by omega) (nextPage start) _ _ hrest (nextPage_aligned start),
        stackSlots_succ hread h, List.filter_append, List.take_append, List.append_assoc]
      congr 4
      simp only [List.length_take]
      omega
    · have hzero : depth.toNat = 0 := by omega
      rw [scanPages, if_neg hdepth, hzero, List.take_zero, List.append_nil]

theorem take_filter_eq_iff {p q : α → Bool} {xs : List α} (hpq : ∀ x, p x → q x) (d : Nat) :
    (xs.filter p).take d = (xs.filter q).take d ↔ ∀ x ∈ (xs.filter q).take d, p x := by
  constructor
  · intro h x hx
    rw [← h] at hx
    exact (List.mem_filter.mp (List.mem_of_mem_take hx)).2
  · intro h
    induction xs generalizing d with
    | nil => rfl
    | cons x xs ih =>
      by_cases hq : q x
      · cases d with
        | zero => rfl
        | succ d =>
          rw [List.filter_cons_of_pos hq, List.take_succ_cons] at h
          obtain ⟨hp, hrest⟩ := List.forall_mem_cons.mp h
          rw [List.filter_cons_of_pos hq, List.filter_cons_of_pos hp, List.take_succ_cons,
            List.take_succ_cons, ih d hrest]
      · have hp : ¬ p x := fun hp => hq (hpq x hp)
        rw [List.filter_cons_of_neg hq] at h
        rw [List.filter_cons_of_neg hq, List.filter_cons_of_neg hp, ih d h]

end

/-- The return addresses of a stack of `k` pages. -/
def returnAddresses (decode : Decoder) (build : Build) (is32bitCompat : Bool)
    (ntModules : NtModules)
    (currentEproc : UInt64) (mem : Snapshot) (sp : UInt64) (k : Nat) : List (UInt64 × UInt64) :=
  (stackSlots build is32bitCompat mem sp k).filter fun slot =>
    isReturn decode build is32bitCompat 1 (moduleRanges ntModules currentEproc) mem slot.2

/-- The scan ends, and its result is the first `depth` return addresses exactly when a call of three
bytes or more ends at each of them. -/
theorem scanStackForRets_complete_iff (decode : Decoder) (build : Build) (is32bitCompat : Bool)
    (ntModules : NtModules) (currentEproc : UInt64) (mem : Snapshot) (sp : UInt64) (depth : Int)
    (k turns : Nat) (hsp : sp % UInt64.ofNat (codePointerSize build is32bitCompat) = 0)
    (hpages : ReadablePages build mem k sp) (hturns : k < turns) :
    ∃ result,
      scanStackForRets decode build is32bitCompat ntModules currentEproc mem turns sp depth =
        some result ∧ result.res = true ∧
      (result.addrs =
        (returnAddresses decode build is32bitCompat ntModules currentEproc mem sp k).take
          depth.toNat ↔
        ∀ slot ∈ (returnAddresses decode build is32bitCompat ntModules currentEproc mem sp k).take
          depth.toNat,
            isReturn decode build is32bitCompat 3 (moduleRanges ntModules currentEproc) mem
            slot.2) := by
  have hscan :=
    scanPages_eq (isRet decode build is32bitCompat (moduleRanges ntModules currentEproc) mem)
    turns k hturns sp depth [] hpages hsp
  rw [scanStackForRets, if_neg (not_not.mpr hsp)]
  simp only [hscan, Option.map_some, List.nil_append]
  refine ⟨_, rfl, rfl, ?_⟩
  rw [isRet_eq_isReturn]
  exact take_filter_eq_iff (fun _ => isReturn_mono) _

/-- `CALL` with a relative destination, `CALL RAX` and `NOP`. -/
def callsDecoder : Decoder
  | _, 0xE8 :: rel =>
    ({ Instr.zero with
        mnemonic := .call, length := 5, branchNear := true
        ops := [.immediate (UInt64.ofNat (Bytes.leNat (rel.take 4)))] }, true)
  | _, 0xFF :: 0xD0 :: _ =>
    ({ Instr.zero with mnemonic := .call, length := 2, branchNear := true
                       ops := [.register (.q .rax)] }, true)
  | _, 0x90 :: _ => ({ Instr.zero with length := 1 }, true)
  | _, _ => (.zero, false)

/-- A module of `NOP`s with a call that ends at `400020`, and a stack of one slot. -/
def stackOf (call : List UInt8) : Snapshot :=
  let image : Snapshot := fun a => if 0x400000 ≤ a ∧ a < 0x400040 then some 0x90 else none
  (image.write (0x400020 - UInt64.ofNat call.length) call).write 0x1FF8 [0x20, 0, 0x40,
    0, 0, 0, 0, 0]

def stackModules : NtModules :=
  [(0, [{ dllBase := 0x400000, sizeOfImage := 0x1000, dllName := [], pdbGuid := [], pdbAge := 0
          pdbName := [], arch := 0 }])]

theorem stackOf_pages (call : List UInt8) (h : stackOf call 0x2000 = none)
    (h' : ((stackOf call).read 0x1FF8 8).isSome) : ReadablePages .x64 (stackOf call) 1 0x1FF8 :=
  ⟨h', Snapshot.read_eq_none h (by decide)⟩

/-- A call of five bytes is found. -/
theorem stackOf_relative_found :
    ∃ result, scanStackForRets callsDecoder .x64 false stackModules 0
        (stackOf [0xE8, 0, 0, 0, 0]) 2 0x1FF8 1 = some result ∧
      result.addrs = (returnAddresses callsDecoder .x64 false stackModules 0
        (stackOf [0xE8, 0, 0, 0, 0]) 0x1FF8 1).take 1 := by
  obtain ⟨result, hscan, -, hiff⟩ :=
    scanStackForRets_complete_iff callsDecoder .x64 false stackModules 0
    (stackOf [0xE8, 0, 0, 0, 0]) 0x1FF8 1 1 2 (by decide)
    (stackOf_pages _ (by decide) (by decide)) (by decide)
  exact ⟨result, hscan, hiff.mpr (List.all_eq_true.mp (by decide +kernel))⟩

/-- `CALL RAX` is not. -/
theorem stackOf_callRax_missed :
    ReadablePages .x64 (stackOf [0xFF, 0xD0]) 1 0x1FF8 ∧
      scanStackForRets callsDecoder .x64 false stackModules 0 (stackOf [0xFF, 0xD0]) 2 0x1FF8 1 =
        some ⟨true, [], true, none⟩ ∧
      (returnAddresses callsDecoder .x64 false stackModules 0
        (stackOf [0xFF, 0xD0]) 0x1FF8 1).take 1 =
        [(0x1FF8, 0x400020)] :=
  ⟨stackOf_pages _ (by decide) (by decide), by decide +kernel, by decide +kernel⟩

end BugChecker.Step
