import BugChecker.Lib.IntervalTree
import BugChecker.Modules.SystemSpace

/-!
# The image around a user pointer

For a pointer of user space, `DiscoverBytePointerPosInModules` goes down the
tree of virtual address descriptors of the current process. The system keeps
the descriptors in order of their pages. A descriptor that is not in memory
ends the search.
-/

namespace BugChecker.Modules

open Bytes IntervalTree

/-- Where the fields of a descriptor are, and those that lead to it. -/
structure VadFields where
  kteb : Nat
  kpeb : Nat
  vadRoot : Nat
  startingVpn : Nat
  endingVpn : Nat
  leftLink : Nat
  rightLink : Nat
  controlArea : Option Nat
  startingVpnHigh : Option Nat
  endingVpnHigh : Option Nat
  subsection : Option Nat
  sizeOfVpn : Nat

/-- `MACRO_SIZEOF_VAD`. -/
def VadFields.sizeOfVad (f : VadFields) : Nat :=
  [f.startingVpn, f.endingVpn, f.leftLink, f.rightLink, f.controlArea.getD 0,
    f.startingVpnHigh.getD 0,
    f.endingVpnHigh.getD 0, f.subsection.getD 0].foldl max 0 + 32

/-- The addresses of the pages of a descriptor, if the size of its page numbers is known. -/
def vadRange (f : VadFields) (vad : List UInt8) : Option (UInt64 × UInt64) :=
  if f.sizeOfVpn = 4 ∨ f.sizeOfVpn = 8 then
    let qwStart := UInt64.ofNat (field vad f.startingVpn f.sizeOfVpn) <<< 12
    let qwEnd := ((UInt64.ofNat (field vad f.endingVpn f.sizeOfVpn) + 1) <<< 12) - 1
    match f.startingVpnHigh, f.endingVpnHigh with
    | some startingVpnHigh, some endingVpnHigh =>
      some (qwStart ||| UInt64.ofNat (field vad startingVpnHigh 1) <<< 44,
        qwEnd ||| UInt64.ofNat (field vad endingVpnHigh 1) <<< 44)
    | _, _ => some (qwStart, qwEnd)
  else none

section
variable (build : Build) (f : VadFields) (m : Snapshot)

def vadLink (vad : List UInt8) (link : Nat) : UInt64 :=
  UInt64.ofNat (field vad link (ptrSize build))

/-- The descriptor with a pointer and the start of its pages. -/
def findVad (qwPointer : UInt64) : Nat → UInt64 → Option (Option (UInt64 × UInt64))
  | 0, _ => none
  | turns + 1, pbNode =>
    if pbNode = 0 then some none
    else
      match (m.ofBuild build).read pbNode f.sizeOfVad with
      | none => some none
      | some vad =>
        match vadRange f vad with
        | none => some none
        | some (qwStart, qwEnd) =>
          if qwEnd < qwStart then some none
          else if qwStart ≤ qwPointer ∧ qwPointer ≤ qwEnd then some (some (pbNode, qwStart))
          else if qwPointer < qwStart then findVad qwPointer turns (vadLink build vad f.leftLink)
          else findVad qwPointer turns (vadLink build vad f.rightLink)

def vadRoot (pcr : UInt64) : Option UInt64 := do
  let pbKteb ← readUlongPtr build m (pcr + UInt64.ofNat f.kteb)
  guard (pbKteb ≠ 0)
  let pbKpeb ← readUlongPtr build m (pbKteb + UInt64.ofNat f.kpeb)
  guard (pbKpeb ≠ 0)
  readUlongPtr build m (pbKpeb + UInt64.ofNat f.vadRoot)

def matchingStart (turns : Nat) (pcr qwPointer : UInt64) : Option (Option (UInt64 × UInt64)) :=
  match vadRoot build f m pcr with
  | none => some none
  | some root => findVad build f m qwPointer turns root

end

-- ---------------------------------------------------------------------------
-- The tree of the system
-- ---------------------------------------------------------------------------

/-- A descriptor: where it is, and its first and last page. -/
structure Vad where
  node : UInt64
  startingVpn : Nat
  endingVpn : Nat

/-- A page number has eight bits more where there are bytes for them. -/
def vpn (vad : List UInt8) (sizeOfVpn low : Nat) (high : Option Nat) : Nat :=
  field vad low sizeOfVpn + 2 ^ 32 * (high.elim 0 fun high => field vad high 1)

/-- The layouts that Windows has: page numbers of 32 bits, of 40 bits in two parts, and of 64 bits.
-/
def VadFields.Known (f : VadFields) : Prop :=
  (f.sizeOfVpn = 4 ∧ f.startingVpnHigh.isSome = f.endingVpnHigh.isSome) ∨
    (f.sizeOfVpn = 8 ∧ f.startingVpnHigh = none ∧ f.endingVpnHigh = none)

/-- Addresses have 64 bits. -/
structure HoldsVad (f : VadFields) (v : Vad) (vad : List UInt8) : Prop where
  starting : vpn vad f.sizeOfVpn f.startingVpn f.startingVpnHigh = v.startingVpn
  ending : vpn vad f.sizeOfVpn f.endingVpn f.endingVpnHigh = v.endingVpn
  inSpace : v.endingVpn < 2 ^ 52

/-- The descriptors below a link, in memory or not. -/
inductive TreeAt (build : Build) (f : VadFields) (all : Snapshot) : UInt64 → BinaryTree Vad → Prop
  | nil : TreeAt build f all 0 .nil
  | node (v : Vad) (vad : List UInt8) (hnode : v.node ≠ 0)
      (hread : (all.ofBuild build).read v.node f.sizeOfVad = some vad) (hvad : HoldsVad f v vad)
      (hleft : TreeAt build f all (vadLink build vad f.leftLink) left)
      (hright : TreeAt build f all (vadLink build vad f.rightLink) right) :
      TreeAt build f all v.node (.node v left right)

/-- What is in memory of what there is. -/
def Resident (m all : Snapshot) : Prop := ∀ addr b, m addr = some b → all addr = some b

def inMemory (build : Build) (f : VadFields) (m : Snapshot) (v : Vad) : Bool :=
  ((m.ofBuild build).read v.node f.sizeOfVad).isSome

def pageOf (addr : UInt64) : Nat := addr.toNat / 4096

-- ---------------------------------------------------------------------------
-- The range of a descriptor
-- ---------------------------------------------------------------------------

theorem field_lt (vad : List UInt8) (pos n : Nat) : field vad pos n < 256 ^ n :=
  lt_of_lt_of_le (leNat_lt _) (Nat.pow_le_pow_right (by decide) (List.length_take_le _ _))

theorem toNat_shiftLeft_of_lt {v : Nat} (h : v * 2 ^ k < 2 ^ 64) (hk : k < 64) :
    (UInt64.ofNat v <<< UInt64.ofNat k).toNat = v * 2 ^ k := by
  have hv : v < 2 ^ 64 := lt_of_le_of_lt (Nat.le_mul_of_pos_right v (Nat.two_pow_pos k)) h
  simp only [UInt64.toNat_shiftLeft, UInt64.toNat_ofNat', Nat.shiftLeft_eq]
  rw [Nat.mod_eq_of_lt hv, Nat.mod_eq_of_lt (show k < 2 ^ 64 by omega), Nat.mod_eq_of_lt hk,
    Nat.mod_eq_of_lt h]

theorem start_toNat {low : Nat} (h : low < 2 ^ 52) :
    (UInt64.ofNat low <<< 12).toNat = 4096 * low := by
  have := toNat_shiftLeft_of_lt (k := 12) (v := low) (by omega) (by decide)
  rw [show (12 : UInt64) = UInt64.ofNat 12 from rfl, this]
  omega

theorem end_toNat {low : Nat} (h : low < 2 ^ 52) :
    (((UInt64.ofNat low + 1) <<< 12) - 1).toNat = 4096 * low + 4095 := by
  have hadd : (UInt64.ofNat low + 1).toNat = low + 1 := by
    simp only [UInt64.toNat_add, UInt64.toNat_ofNat', UInt64.toNat_one]
    omega
  have hshift : ((UInt64.ofNat low + 1) <<< 12).toNat = 4096 * (low + 1) % 2 ^ 64 := by
    rw [UInt64.toNat_shiftLeft, hadd, Nat.shiftLeft_eq, show (12 : UInt64).toNat % 64 = 12 from rfl,
      Nat.mul_comm]
  rw [UInt64.toNat_sub, hshift, UInt64.toNat_one]
  omega

theorem or_high_toNat {addr : UInt64} (h : addr.toNat < 2 ^ 44) {high : Nat} (hhigh : high < 256) :
    (addr ||| UInt64.ofNat high <<< 44).toNat = addr.toNat + 2 ^ 44 * high := by
  have hshift := toNat_shiftLeft_of_lt (k := 44) (v := high) (by omega) (by decide)
  rw [UInt64.toNat_or, show (44 : UInt64) = UInt64.ofNat 44 from rfl, hshift, Nat.or_comm,
    ← Nat.shiftLeft_eq, ← Nat.shiftLeft_add_eq_or_of_lt h, Nat.shiftLeft_eq]
  omega

theorem vadRange_eq (hf : f.Known) (h : HoldsVad f v vad) (hne : v.startingVpn ≤ v.endingVpn) :
    ∃ qwStart qwEnd, vadRange f vad = some (qwStart, qwEnd) ∧
      qwStart.toNat = 4096 * v.startingVpn ∧ qwEnd.toNat = 4096 * v.endingVpn + 4095 := by
  obtain ⟨hstart, hend, hspace⟩ := h
  unfold vpn at hstart hend
  have hsize : f.sizeOfVpn = 4 ∨ f.sizeOfVpn = 8 := by
    rcases hf with ⟨h, -⟩ | ⟨h, -⟩
    · exact .inl h
    · exact .inr h
  have hlt := field_lt vad f.startingVpn f.sizeOfVpn
  have hlt' := field_lt vad f.endingVpn f.sizeOfVpn
  rw [vadRange, if_pos hsize]
  cases hs : f.startingVpnHigh with
  | none =>
    have he : f.endingVpnHigh = none := by
      rcases hf with ⟨-, h⟩ | ⟨-, -, h⟩
      · rw [hs] at h
        exact Option.isNone_iff_eq_none.mp (by simpa using h.symm)
      · exact h
    rw [hs] at hstart
    rw [he] at hend ⊢
    simp only [Option.elim_none, Nat.mul_zero, Nat.add_zero] at hstart hend
    exact ⟨_, _, rfl, by rw [hstart, start_toNat (by omega)], by rw [hend, end_toNat hspace]⟩
  | some startingVpnHigh =>
    obtain ⟨hfour, endingVpnHigh, he⟩ : f.sizeOfVpn = 4 ∧ ∃ high, f.endingVpnHigh = some high := by
      rcases hf with ⟨hfour, h⟩ | ⟨-, h, -⟩
      · rw [hs] at h
        exact ⟨hfour, Option.isSome_iff_exists.mp h.symm⟩
      · simp [hs] at h
    rw [hs] at hstart
    rw [he] at hend ⊢
    rw [hfour] at hlt hlt' hstart hend ⊢
    simp only [Option.elim_some] at hstart hend
    have hhigh := field_lt vad startingVpnHigh 1
    have hhigh' := field_lt vad endingVpnHigh 1
    refine ⟨_, _, rfl, ?_, ?_⟩
    · rw [or_high_toNat _ (by omega), start_toNat (by omega)]
      · omega
      · rw [start_toNat (by omega)]
        omega
    · rw [or_high_toNat _ (by omega), end_toNat (by omega)]
      · omega
      · rw [end_toNat (by omega)]
        omega

-- ---------------------------------------------------------------------------
-- The search
-- ---------------------------------------------------------------------------

theorem Resident.read (h : Resident m all) (hread : (m.ofBuild build).read addr n = some bytes) :
    (all.ofBuild build).read addr n = some bytes := by
  obtain ⟨hn, hmap⟩ := Snapshot.read_eq_some.mp hread
  refine Snapshot.read_eq_some.mpr ⟨hn, ?_⟩
  rw [← hmap]
  apply List.map_congr_left
  intro i hi
  have hmem : (m.ofBuild build) (addr + UInt64.ofNat i) ∈ bytes.map some := by
    rw [← hmap]
    exact List.mem_map_of_mem hi
  obtain ⟨b, -, hb⟩ := List.mem_map.mp hmem
  rw [← hb]
  cases build with
  | x86 => exact h _ _ hb.symm
  | x64 => exact h _ _ hb.symm

theorem findVad_eq_search (hf : f.Known) (hres : Resident m all) (htree : TreeAt build f all root t)
    (hord : Ordered Vad.startingVpn Vad.endingVpn t) (hturns : t.height < turns) :
    findVad build f m qwPointer turns root =
      some ((search Vad.startingVpn Vad.endingVpn (inMemory build f m) (pageOf qwPointer) t).map
        fun v => (v.node, UInt64.ofNat (4096 * v.startingVpn))) := by
  induction htree generalizing turns with
  | nil =>
    obtain ⟨turns, rfl⟩ := Nat.exists_eq_succ_of_ne_zero (Nat.ne_zero_of_lt hturns)
    rfl
  | node v vad hnode hread hvad hleft hright ihl ihr =>
    obtain ⟨turns, rfl⟩ := Nat.exists_eq_succ_of_ne_zero (Nat.ne_zero_of_lt hturns)
    obtain ⟨hordl, hordr, hne, -⟩ := ordered_node_iff.mp hord
    obtain ⟨hl, hr⟩ := max_lt_iff.mp (Nat.lt_of_succ_lt_succ hturns)
    rw [findVad, if_neg hnode, search]
    cases hm : (m.ofBuild build).read v.node f.sizeOfVad with
    | none => simp [inMemory, hm]
    | some bytes =>
      obtain rfl : bytes = vad := Option.some.inj ((hres.read hm).symm.trans hread)
      obtain ⟨qwStart, qwEnd, hrange, hstart, hend⟩ := vadRange_eq hf hvad hne
      have hseen : ¬ inMemory build f m v = false := by simp [inMemory, hm]
      have hle : ¬ qwEnd < qwStart := by rw [UInt64.lt_iff_toNat_lt]; omega
      have hcovers : (qwStart ≤ qwPointer ∧ qwPointer ≤ qwEnd) ↔
          v.startingVpn ≤ pageOf qwPointer ∧ pageOf qwPointer ≤ v.endingVpn := by
        rw [UInt64.le_iff_toNat_le, UInt64.le_iff_toNat_le, hstart, hend, pageOf]
        omega
      have hbelow : qwPointer < qwStart ↔ pageOf qwPointer < v.startingVpn := by
        rw [UInt64.lt_iff_toNat_lt, hstart, pageOf]
        omega
      have heq : qwStart = UInt64.ofNat (4096 * v.startingVpn) :=
        UInt64.toNat_inj.mp (by rw [hstart, UInt64.toNat_ofNat']; have := hvad.inSpace; omega)
      simp only [hrange, if_neg hle, if_neg hseen, hcovers, hbelow]
      split
      · rw [Option.map_some, heq]
      · split
        · exact ihl hordl hl
        · exact ihr hordr hr

def twoVadFields : VadFields where
  kteb := 0
  kpeb := 0
  vadRoot := 0
  startingVpn := 0
  endingVpn := 4
  leftLink := 8
  rightLink := 16
  controlArea := none
  startingVpnHigh := none
  endingVpnHigh := none
  subsection := none
  sizeOfVpn := 4

def twoVadBytes (start last left : Nat) : List UInt8 :=
  leBytes 4 start ++ leBytes 4 last ++ leBytes 8 left ++ leBytes 32 0

/-- A descriptor of the pages 5 and 6, and to its left one of the pages 1 and 2. -/
def twoVads : Snapshot :=
  ((((Snapshot.write (fun _ => none) 0x1000 (leBytes 8 0x2000)).write 0x2000
    (leBytes 8 0x3000)).write
    0x3000 (leBytes 8 0x4000)).write 0x4000 (twoVadBytes 5 6 0x5000)).write 0x5000
      (twoVadBytes 1 2 0)

end BugChecker.Modules
