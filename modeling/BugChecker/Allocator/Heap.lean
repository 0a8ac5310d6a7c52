import BugChecker.Lib.Extents
import BugChecker.Allocator.Bitmap
import Mathlib.Logic.Relation

/-!
# The allocator over whole runs

`Allocator::Alloc`, `Free` and the operations that measure, for both processor
architectures. A run is any interleaving of allocations, of releases of live
allocations, and of writes of the clients to their own bytes. A call that ends
in `FatalError` never returns, so no run goes past it.
-/

namespace BugChecker.Allocator

open Bytes

-- ---------------------------------------------------------------------------
-- The operations
-- ---------------------------------------------------------------------------

/-- The two builds of the driver. -/
inductive Arch where
  | amd64 | x86
deriving DecidableEq, Repr

namespace Arch

/-- The bits of a `size_t`. -/
def wordBits : Arch → Nat
  | .amd64 => 64
  | .x86 => 32

def arenaSize : Nat := 13 * 1024 * 1024

def blockSize : Arch → Nat
  | .amd64 => 64
  | .x86 => 32

def headerSize : Arch → Nat
  | .amd64 => 16
  | .x86 => 8

def blocksNum (a : Arch) : Nat := arenaSize / a.blockSize

end Arch

/-- What `Arena` and `Bitmap` point to, and the counters. -/
structure State where
  bitmap : Memory
  arena : Memory
  perfAllocationsNum : Nat
  perfTotalAllocatedSize : Nat

def init : State where
  bitmap := fun _ => 0
  arena := fun _ => 0
  perfAllocationsNum := 0
  perfTotalAllocatedSize := 0

section
variable (a : Arch) (base : Nat)

/-- The blocks that `size` bytes take, as `Alloc` computes them. -/
def sizeInBits (size : Nat) : Nat :=
  size / a.blockSize + (if size % a.blockSize ≠ 0 then 1 else 0)

/-- `Allocator::Alloc`; `base` is the address of the arena, `none` is
`FatalError`. -/
def alloc (start0to99 size : Nat) (st : State) : Option (Nat × State) :=
  let n := sizeInBits a ((size + a.headerSize) % 2 ^ a.wordBits)
  let p := findNextRangeOfUnsetBits a.wordBits st.bitmap a.blocksNum
    (a.blocksNum * start0to99 / 100) n n
  if p.1 ≠ n then none
  else if p.2 + n > a.blocksNum then none
  else
    let header := p.2 * a.blockSize
    some (base + header + a.headerSize,
      { bitmap := setRange true p.2 n st.bitmap
        arena := store st.arena header (leBytes (a.wordBits / 8) n)
        perfAllocationsNum := st.perfAllocationsNum + 1
        perfTotalAllocatedSize := st.perfTotalAllocatedSize + n * a.blockSize })

/-- The block of a pointer and the header word in front of it, if `Free` and
`UserSizeInBytes` accept the pointer. -/
def header (ptr : Nat) (st : State) : Option (Nat × Nat) :=
  if ptr < base ∨ ptr ≥ base + Arch.arenaSize then none
  else
    let n := (word a.wordBits st.arena (ptr - base - a.headerSize)).toNat
    let block := (ptr - base) / a.blockSize
    if n = 0 ∨ (block + n) % 2 ^ a.wordBits > a.blocksNum then none else some (block, n)

/-- `Allocator::Free`. -/
def free (ptr : Nat) (st : State) : Option State :=
  (header a base ptr st).map fun p =>
    { st with
      bitmap := setRange false p.1 p.2 st.bitmap
      perfAllocationsNum := st.perfAllocationsNum - 1
      perfTotalAllocatedSize := st.perfTotalAllocatedSize - p.2 * a.blockSize }

/-- `Allocator::UserSizeInBytes`. -/
def userSizeInBytes (ptr : Nat) (st : State) : Option Nat :=
  (header a base ptr st).map fun p => p.2 * a.blockSize - a.headerSize

/-- `Allocator::GetSetBitsNumInBitmap`, for a bitmap at the address `bitmapBase`. -/
def getSetBitsNumInBitmap (bitmapBase : Nat) (st : State) : Nat :=
  countInRange a.wordBits bitmapBase st.bitmap a.blocksNum 0 a.blocksNum true

end

-- ---------------------------------------------------------------------------
-- Runs
-- ---------------------------------------------------------------------------

/-- An allocation the client holds: its pointer and the size it asked for. -/
structure Live where
  ptr : Nat
  size : Nat
deriving DecidableEq, Repr

/-- The allocator and the allocations that are live. -/
structure Heap where
  state : State
  live : List Live

/-- What can happen to the heap. Sizes do not wrap when the header is added. -/
inductive Step (a : Arch) (base : Nat) : Heap → Heap → Prop where
  | alloc (start0to99 size : Nat) (hstart : start0to99 ≤ 99)
      (hsize : size + a.headerSize < 2 ^ a.wordBits)
      (h : alloc a base start0to99 size st = some (ptr, st')) :
      Step a base ⟨st, live⟩ ⟨st', ⟨ptr, size⟩ :: live⟩
  | free (l : Live) (hl : l ∈ live) (h : free a base l.ptr st = some st') :
      Step a base ⟨st, live⟩ ⟨st', live.erase l⟩
  | write (l : Live) (hl : l ∈ live) (h : userSizeInBytes a base l.ptr st = some n)
      (offset : Nat) (hoffset : offset < n) (value : UInt8) :
      Step a base ⟨st, live⟩
        ⟨{ st with arena := store st.arena (l.ptr - base + offset) [value] }, live⟩

def Reachable (a : Arch) (base : Nat) (heap : Heap) : Prop :=
  Relation.ReflTransGen (Step a base) ⟨init, []⟩ heap

/-- The blocks of an allocation: from the one its pointer lies in, as many as its
size and the header take. -/
def Live.extent (a : Arch) (base : Nat) (l : Live) : Extent where
  start := (l.ptr - base) / a.blockSize
  len := sizeInBits a (l.size + a.headerSize)

/-- The invariant of the heap. -/
structure Heap.Ok (a : Arch) (base : Nat) (heap : Heap) : Prop where
  layout : Extent.Layout a.blocksNum (heap.live.map (Live.extent a base))
  ptr : ∀ l ∈ heap.live, l.ptr = base + (l.extent a base).start * a.blockSize + a.headerSize
  fits : ∀ l ∈ heap.live, l.size + a.headerSize < 2 ^ a.wordBits
  bits : ∀ i < a.blocksNum, bit heap.state.bitmap i = true ↔
    Extent.Covered (heap.live.map (Live.extent a base)) i
  headerWord : ∀ l ∈ heap.live,
    (word a.wordBits heap.state.arena (l.ptr - base - a.headerSize)).toNat = (l.extent a base).len
  allocations : heap.state.perfAllocationsNum = heap.live.length
  total : heap.state.perfTotalAllocatedSize =
    ((heap.live.map (Live.extent a base)).map Extent.len).sum * a.blockSize

-- ---------------------------------------------------------------------------
-- Blocks and bytes
-- ---------------------------------------------------------------------------

theorem Arch.dvd_wordBits (a : Arch) : 8 ∣ a.wordBits := by cases a <;> decide

theorem Arch.wordBits_pos (a : Arch) : 0 < a.wordBits := by cases a <;> decide

theorem Arch.dvd_blocksNum (a : Arch) : 8 ∣ a.blocksNum := by cases a <;> decide

theorem Arch.blocksNum_lt (a : Arch) : a.blocksNum < 256 ^ (a.wordBits / 8) := by
  cases a <;> decide

theorem Arch.pow_wordBits (a : Arch) : 256 ^ (a.wordBits / 8) = 2 ^ a.wordBits := by
  cases a <;> decide

theorem sizeInBits_pos (a : Arch) (size : Nat) : 0 < sizeInBits a (size + a.headerSize) := by
  unfold sizeInBits
  split <;> cases a <;> simp only [Arch.blockSize, Arch.headerSize] at * <;> omega

theorem le_sizeInBits (a : Arch) (size : Nat) : size ≤ sizeInBits a size * a.blockSize := by
  unfold sizeInBits
  split <;> cases a <;> simp only [Arch.blockSize] at * <;> omega

theorem searchFrom_lt (a : Arch) (h : start0to99 ≤ 99) :
    a.blocksNum * start0to99 / 100 / a.wordBits < a.blocksNum / a.wordBits := by
  cases a <;> simp only [Arch.blocksNum, Arch.arenaSize, Arch.blockSize, Arch.wordBits] <;> omega

theorem block_of_ptr (a : Arch) (base q : Nat) :
    (base + q * a.blockSize + a.headerSize - base) / a.blockSize = q := by
  cases a <;> simp only [Arch.blockSize, Arch.headerSize] <;> omega

theorem ptr_sub_header (base x h : Nat) : base + x + h - base - h = x := by omega

theorem headerWord_congr (a : Arch) (q : Nat)
    (h : ∀ i, q * a.blockSize ≤ i → i < q * a.blockSize + a.headerSize → m i = m' i) :
    word a.wordBits m (q * a.blockSize) = word a.wordBits m' (q * a.blockSize) := by
  have hle : a.wordBits / 8 ≤ a.headerSize := by cases a <;> decide
  rw [word, word, load_congr fun i hi hi' => h i hi (by omega)]

theorem headerWord_store (a : Arch) (hn : n ≤ a.blocksNum) :
    (word a.wordBits (store m pos (leBytes (a.wordBits / 8) n)) pos).toNat = n := by
  have hlt : n < 256 ^ (a.wordBits / 8) := Nat.lt_of_le_of_lt hn a.blocksNum_lt
  have hload : load (store m pos (leBytes (a.wordBits / 8) n)) pos (a.wordBits / 8) =
      leBytes (a.wordBits / 8) n := by
    have h := load_store m pos (leBytes (a.wordBits / 8) n)
    rwa [length_leBytes] at h
  rw [word, hload, leNat_leBytes hlt, BitVec.toNat_ofNat, ← a.pow_wordBits, Nat.mod_eq_of_lt hlt]

theorem block_ne (a : Arch) (hne : q ≠ q') (hi : q * a.blockSize ≤ i)
    (hi' : i < q * a.blockSize + a.blockSize) :
    i < q' * a.blockSize ∨ q' * a.blockSize + a.blockSize ≤ i := by
  cases a <;> simp only [Arch.blockSize] at * <;> omega

-- ---------------------------------------------------------------------------
-- The invariant
-- ---------------------------------------------------------------------------

section
variable {a : Arch} {base : Nat} {heap : Heap}

theorem Heap.Ok.init (a : Arch) (base : Nat) : Heap.Ok a base ⟨init, []⟩ where
  layout := .nil _
  ptr := nofun
  fits := nofun
  bits i _ := by
    have hzero : bit Allocator.init.bitmap i = false := BitVec.getLsbD_zero
    rw [hzero]
    exact ⟨nofun, fun h => absurd h (Extent.covered_nil i)⟩
  headerWord := nofun
  allocations := rfl
  total := by simp [Allocator.init]

theorem Heap.Ok.extent_le (h : heap.Ok a base) (hl : l ∈ heap.live) :
    (l.extent a base).start + (l.extent a base).len ≤ a.blocksNum :=
  h.layout.inside _ (List.mem_map_of_mem hl)

theorem Heap.Ok.headerOffset (h : heap.Ok a base) (hl : l ∈ heap.live) :
    l.ptr - base - a.headerSize = (l.extent a base).start * a.blockSize := by
  rw [h.ptr l hl]
  exact ptr_sub_header ..

theorem Heap.Ok.header_live (h : heap.Ok a base) (hl : l ∈ heap.live) :
    header a base l.ptr heap.state = some ((l.extent a base).start, (l.extent a base).len) := by
  have hle := h.extent_le hl
  have hpos : 0 < (l.extent a base).len := sizeInBits_pos a l.size
  have hptr := h.ptr l hl
  have hword := h.headerWord l hl
  have hlt : (l.extent a base).start + (l.extent a base).len < 2 ^ a.wordBits := by
    rw [← a.pow_wordBits]
    exact Nat.lt_of_le_of_lt hle a.blocksNum_lt
  have hrange : ¬(l.ptr < base ∨ l.ptr ≥ base + Arch.arenaSize) := by
    rw [hptr]
    cases a <;> simp only [Arch.blockSize, Arch.headerSize, Arch.blocksNum, Arch.arenaSize] at * <;>
      omega
  simp only [Allocator.header, if_neg hrange, hword]
  rw [if_neg (by rw [Nat.mod_eq_of_lt (by exact hlt)]; simp only [Live.extent] at *; omega)]
  rfl

theorem Heap.Ok.userSize (h : heap.Ok a base) (hl : l ∈ heap.live) :
    ∃ n, userSizeInBytes a base l.ptr heap.state = some n ∧ l.size ≤ n := by
  refine ⟨_, by rw [userSizeInBytes, h.header_live hl]; rfl, ?_⟩
  have hle := le_sizeInBits a (l.size + a.headerSize)
  simp only [Live.extent]
  omega

theorem start_ne_of_not_covers (l : Live) (hq : ¬(l.extent a base).Covers q) :
    (l.extent a base).start ≠ q := by
  have hpos : 0 < (l.extent a base).len := sizeInBits_pos a l.size
  rintro rfl
  exact hq ⟨Nat.le_refl _, by omega⟩

/-- `Alloc` of `n` blocks takes the lowest run of `n` free blocks from where the search starts, and
fails only if there is none. -/
theorem alloc_cases (a : Arch) (base : Nat) (st : State) (hstart : start0to99 ≤ 99)
    (hn : 1 ≤ sizeInBits a ((size + a.headerSize) % 2 ^ a.wordBits)) :
    let n := sizeInBits a ((size + a.headerSize) % 2 ^ a.wordBits)
    let s := searchStart a.wordBits st.bitmap (a.blocksNum * start0to99 / 100)
    (∃ q, FirstRun st.bitmap n s q ∧ q + n ≤ a.blocksNum ∧
      alloc a base start0to99 size st = some (base + q * a.blockSize + a.headerSize,
        { bitmap := setRange true q n st.bitmap
          arena := store st.arena (q * a.blockSize) (leBytes (a.wordBits / 8) n)
          perfAllocationsNum := st.perfAllocationsNum + 1
          perfTotalAllocatedSize := st.perfTotalAllocatedSize + n * a.blockSize })) ∨
    alloc a base start0to99 size st = none ∧
      ∀ q, s ≤ q → q + n ≤ a.blocksNum → ¬FreeRun st.bitmap n q := by
  intro n s
  rcases findNextRangeOfUnsetBits_ok hn a.dvd_wordBits a.wordBits_pos
    (searchFrom_lt a hstart) (m := st.bitmap) with ⟨q, hfind, hrun, hle⟩ | ⟨⟨q, hfind⟩, hnone⟩
  · refine .inl ⟨q, hrun, hle, ?_⟩
    simp only [alloc, hfind]
    rw [if_neg (by simp), if_neg (by omega)]
  · refine .inr ⟨?_, hnone⟩
    simp only [alloc, hfind]
    rw [if_pos (by omega)]

theorem alloc_eq_some (hstart : start0to99 ≤ 99) (hsize : size + a.headerSize < 2 ^ a.wordBits)
    (h : alloc a base start0to99 size st = some (ptr, st')) :
    let n := sizeInBits a (size + a.headerSize)
    ∃ q, q + n ≤ a.blocksNum ∧ FreeRun st.bitmap n q ∧
      ptr = base + q * a.blockSize + a.headerSize ∧
      st' =
        { bitmap := setRange true q n st.bitmap
          arena := store st.arena (q * a.blockSize) (leBytes (a.wordBits / 8) n)
          perfAllocationsNum := st.perfAllocationsNum + 1
          perfTotalAllocatedSize := st.perfTotalAllocatedSize + n * a.blockSize } := by
  intro n
  have hmod : (size + a.headerSize) % 2 ^ a.wordBits = size + a.headerSize := Nat.mod_eq_of_lt hsize
  have hn : 1 ≤ sizeInBits a ((size + a.headerSize) % 2 ^ a.wordBits) := by
    rw [hmod]
    exact sizeInBits_pos a size
  rcases alloc_cases a base st hstart hn with ⟨q, hrun, hle, heq⟩ | ⟨hnone, -⟩
  · rw [hmod] at hrun hle heq
    rw [h, Option.some.injEq, Prod.mk.injEq] at heq
    exact ⟨q, hle, hrun.run, heq.1, heq.2⟩
  · rw [hnone] at h
    cases h

/-- Allocation is first fit, and runs out of memory only when there is no run of free blocks that is
long enough. -/
theorem alloc_first_fit (a : Arch) (base start0to99 size : Nat) (st : State)
    (hstart : start0to99 ≤ 99) (hn : 1 ≤ sizeInBits a ((size + a.headerSize) % 2 ^ a.wordBits)) :
    let n := sizeInBits a ((size + a.headerSize) % 2 ^ a.wordBits)
    let s := searchStart a.wordBits st.bitmap (a.blocksNum * start0to99 / 100)
    (alloc a base start0to99 size st = none ↔
      ¬∃ q, s ≤ q ∧ q + n ≤ a.blocksNum ∧ FreeRun st.bitmap n q) ∧
    ∀ ptr st', alloc a base start0to99 size st = some (ptr, st') →
      ∃ q, ptr = base + q * a.blockSize + a.headerSize ∧ s ≤ q ∧ q + n ≤ a.blocksNum ∧
        FreeRun st.bitmap n q ∧ ∀ q', s ≤ q' → q' < q → ¬FreeRun st.bitmap n q' := by
  intro n s
  rcases alloc_cases a base st hstart hn with ⟨q, hrun, hle, heq⟩ | ⟨hnone, hno⟩
  · rw [heq]
    refine ⟨⟨by rintro ⟨⟩, fun hno => absurd ⟨q, hrun.le, hle, hrun.run⟩ hno⟩, ?_⟩
    rintro ptr st' h
    rw [Option.some.injEq, Prod.mk.injEq] at h
    exact ⟨q, h.1.symm, hrun.le, hle, hrun.run, hrun.first⟩
  · rw [hnone]
    refine ⟨⟨fun _ => ?_, fun _ => rfl⟩, by rintro ptr st' ⟨⟩⟩
    rintro ⟨q, hq, hle, hrun⟩
    exact hno q hq hle hrun

theorem alloc_ok (h : Heap.Ok a base ⟨st, live⟩) (hstart : start0to99 ≤ 99)
    (hsize : size + a.headerSize < 2 ^ a.wordBits)
    (halloc : alloc a base start0to99 size st = some (ptr, st')) :
    Heap.Ok a base ⟨st', ⟨ptr, size⟩ :: live⟩ := by
  obtain ⟨q, hle, hrun, rfl, rfl⟩ := alloc_eq_some hstart hsize halloc
  have hextent : Live.extent a base ⟨base + q * a.blockSize + a.headerSize, size⟩ =
      ⟨q, sizeInBits a (size + a.headerSize)⟩ := by
    rw [Live.extent, block_of_ptr]
  have hfree : ∀ i, q ≤ i → i < q + sizeInBits a (size + a.headerSize) →
      ¬Extent.Covered (live.map (Live.extent a base)) i := by
    intro i hi hi' hcovered
    have hset := (h.bits i (by omega)).mpr hcovered
    rw [hrun i hi hi'] at hset
    cases hset
  refine ⟨?_, ?_, ?_, fun i hi => ?_, ?_, ?_, ?_⟩
  · rw [List.map_cons, hextent]
    exact h.layout.cons hle fun i hi => hfree i hi.1 hi.2
  · rw [List.forall_mem_cons, hextent]
    exact ⟨rfl, h.ptr⟩
  · exact List.forall_mem_cons.mpr ⟨hsize, h.fits⟩
  · rw [bit_setRange, List.map_cons, hextent, Extent.covered_cons, ← h.bits i hi]
    split
    · next hin => exact ⟨fun _ => .inl hin, fun _ => rfl⟩
    · next hout => exact ⟨.inr, fun hor => hor.resolve_left hout⟩
  · refine List.forall_mem_cons.mpr ⟨?_, fun l hl => ?_⟩
    · rw [hextent, ptr_sub_header]
      exact headerWord_store a (by omega)
    · have hpos := sizeInBits_pos a size
      have hne : (l.extent a base).start ≠ q := start_ne_of_not_covers l fun hc =>
        hfree q (Nat.le_refl q) (by omega) ⟨_, List.mem_map_of_mem hl, hc⟩
      rw [← h.headerWord l hl, h.headerOffset hl, headerWord_congr a _ fun i hi hi' =>
        store_of_not_mem ?_]
      have hword : a.wordBits / 8 ≤ a.blockSize := by cases a <;> decide
      have hheader : a.headerSize ≤ a.blockSize := by cases a <;> decide
      rcases block_ne a hne hi (by omega) with hlt | hgt
      · exact .inl hlt
      · exact .inr (by rw [length_leBytes]; omega)
  · exact congrArg (· + 1) h.allocations
  · rw [List.map_cons, List.map_cons, List.sum_cons, hextent, Nat.add_mul, ← h.total]
    exact Nat.add_comm ..

theorem free_ok (h : Heap.Ok a base ⟨st, live⟩) (hl : l ∈ live)
    (hfree : free a base l.ptr st = some st') : Heap.Ok a base ⟨st', live.erase l⟩ := by
  rw [free, h.header_live hl] at hfree
  cases hfree
  have hperm : live.Perm (l :: live.erase l) := List.perm_cons_erase hl
  have hmap := hperm.map (Live.extent a base)
  rw [List.map_cons] at hmap
  have hlayout := h.layout.perm hmap
  refine ⟨hlayout.tail, fun l' hl' => h.ptr l' (List.mem_of_mem_erase hl'),
    fun l' hl' => h.fits l' (List.mem_of_mem_erase hl'), fun i hi => ?_,
    fun l' hl' => h.headerWord l' (List.mem_of_mem_erase hl'), ?_, ?_⟩
  · rw [bit_setRange, hlayout.covered_tail, ← Extent.covered_perm hmap, ← h.bits i hi]
    split
    · next hin => exact ⟨nofun, fun hout => absurd hin hout.2⟩
    · next hout => exact ⟨fun hbit => ⟨hbit, hout⟩, fun hbit => hbit.1⟩
  · rw [List.length_erase_of_mem hl]
    exact congrArg (· - 1) h.allocations
  · have hsum := (hmap.map Extent.len).sum_eq
    simp only [List.map_cons, List.sum_cons] at hsum
    have htotal := h.total
    simp only [hsum, Nat.add_mul] at htotal
    simp only [htotal, Nat.add_sub_cancel_left]

theorem write_ok (h : Heap.Ok a base ⟨st, live⟩) (hl : l ∈ live)
    (hsize : userSizeInBytes a base l.ptr st = some n) (hoffset : offset < n) (value : UInt8) :
    Heap.Ok a base
      ⟨{ st with arena := store st.arena (l.ptr - base + offset) [value] }, live⟩ := by
  refine ⟨h.layout, h.ptr, h.fits, h.bits, fun l' hl' => ?_, h.allocations, h.total⟩
  rw [userSizeInBytes, h.header_live hl] at hsize
  cases hsize
  have hpos : l.ptr - base = (l.extent a base).start * a.blockSize + a.headerSize := by
    rw [h.ptr l hl]
    omega
  rw [← h.headerWord l' hl', h.headerOffset hl', hpos,
    headerWord_congr a _ fun i hi hi' => store_of_not_mem ?_]
  rw [List.length_singleton]
  by_cases hsame : l'.extent a base = l.extent a base
  · rw [hsame] at hi hi'
    omega
  · have hapart := h.layout.apart.forall (List.mem_map_of_mem hl') (List.mem_map_of_mem hl) hsame
    have hcovers : (l'.extent a base).Covers (l'.extent a base).start :=
      ⟨Nat.le_refl _, Nat.lt_add_of_pos_right (sizeInBits_pos a l'.size)⟩
    have hout := hapart _ hcovers
    simp only [Extent.Covers, not_and_or, Nat.not_le, Nat.not_lt] at hout
    generalize (l'.extent a base).start = q' at *
    generalize (l.extent a base).start = q at *
    generalize (l.extent a base).len = k at *
    cases a <;> simp only [Arch.blockSize, Arch.headerSize] at * <;> omega

theorem reachable_ok (h : Reachable a base heap) : heap.Ok a base := by
  induction h with
  | refl => exact Heap.Ok.init a base
  | tail _ hstep ih =>
    cases hstep with
    | alloc start0to99 size hstart hsize halloc => exact alloc_ok ih hstart hsize halloc
    | free l hl hfree => exact free_ok ih hl hfree
    | write l hl hsize offset hoffset value => exact write_ok ih hl hsize hoffset value

theorem Heap.Ok.total_eq (h : heap.Ok a base) :
    heap.state.perfTotalAllocatedSize =
      a.blockSize * (setBits heap.state.bitmap 0 a.blocksNum).card := by
  rw [h.total, Nat.mul_comm, h.layout.card_covered fun i => ?_]
  rw [mem_setBits]
  constructor
  · rintro ⟨⟨-, hi⟩, hbit⟩
    exact (h.bits i hi).mp hbit
  · intro hcovered
    obtain ⟨e, he, hc⟩ := id hcovered
    have hi : i < a.blocksNum := Nat.lt_of_lt_of_le hc.2 (h.layout.inside e he)
    exact ⟨⟨Nat.zero_le i, hi⟩, (h.bits i hi).mpr hcovered⟩

/-- In every reachable heap the live allocations lie apart inside the arena, the
bitmap marks exactly their blocks, their headers count them, they are at least
as large as was asked for, and the counters agree with the bitmap. -/
theorem reachable_invariant (a : Arch) (base : Nat) (heap : Heap) (h : Reachable a base heap) :
    Extent.Layout a.blocksNum (heap.live.map (Live.extent a base)) ∧
    (∀ i < a.blocksNum, bit heap.state.bitmap i = true ↔
      ∃ l ∈ heap.live, (l.extent a base).Covers i) ∧
    (∀ l ∈ heap.live,
      (word a.wordBits heap.state.arena (l.ptr - base - a.headerSize)).toNat =
        (l.extent a base).len ∧
      ∃ n, userSizeInBytes a base l.ptr heap.state = some n ∧ l.size ≤ n) ∧
    heap.state.perfAllocationsNum = heap.live.length ∧
    heap.state.perfTotalAllocatedSize =
      a.blockSize * (setBits heap.state.bitmap 0 a.blocksNum).card ∧
    ∀ bitmapBase, heap.state.perfTotalAllocatedSize =
      a.blockSize * getSetBitsNumInBitmap a bitmapBase heap.state := by
  have hok := reachable_ok h
  refine ⟨hok.layout, fun i hi => ?_, fun l hl => ⟨hok.headerWord l hl, hok.userSize hl⟩,
    hok.allocations, hok.total_eq, fun bitmapBase => ?_⟩
  · rw [hok.bits i hi]
    simp [Extent.Covered]
  · rw [hok.total_eq, getSetBitsNumInBitmap, countInRange_eq a.dvd_wordBits a.wordBits_pos
      a.dvd_blocksNum (Nat.le_of_eq (Nat.zero_add _)), Nat.zero_add]

end

def oneAllocation : State where
  bitmap := setRange true 0 2 init.bitmap
  arena := store init.arena 0 (leBytes 8 2)
  perfAllocationsNum := 1
  perfTotalAllocatedSize := 128

theorem alloc_oneAllocation : alloc .amd64 0x10000 0 100 init = some (0x10010, oneAllocation) :=
  by rfl

theorem oneAllocation_invariant :
    Reachable .amd64 0x10000 ⟨oneAllocation, [⟨0x10010, 100⟩]⟩ ∧
      userSizeInBytes .amd64 0x10000 0x10010 oneAllocation = some 112 ∧
      ∀ bitmapBase, 128 = 64 * getSetBitsNumInBitmap .amd64 bitmapBase oneAllocation := by
  have hreachable : Reachable .amd64 0x10000 ⟨oneAllocation, [⟨0x10010, 100⟩]⟩ :=
    .single (.alloc 0 100 (by decide) (by decide) alloc_oneAllocation)
  have hinvariant := reachable_invariant .amd64 0x10000 _ hreachable
  exact ⟨hreachable, by rfl, hinvariant.2.2.2.2.2⟩

theorem oneAllocation_first_fit :
    ∃ q, 0x10010 = 0x10000 + q * 64 + 16 ∧ searchStart 64 init.bitmap 0 ≤ q ∧ q + 2 ≤ 212992 ∧
      FreeRun init.bitmap 2 q ∧
      ∀ q', searchStart 64 init.bitmap 0 ≤ q' → q' < q → ¬FreeRun init.bitmap 2 q' :=
  (alloc_first_fit .amd64 0x10000 0 100 init (by decide) (by decide)).2 _ _ alloc_oneAllocation

end BugChecker.Allocator
