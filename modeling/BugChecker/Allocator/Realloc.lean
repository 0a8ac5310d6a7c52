import BugChecker.Allocator.Heap
import BugChecker.Lib.Runs

/-!
# The heap of the scripts

`malloc`, `free` and `realloc` of `QuickJSCppInterface.cpp` over the allocator.
What a client finds in its block is what it wrote there, whatever the others do
in the meantime.
-/

namespace BugChecker.Allocator

open Bytes

-- ---------------------------------------------------------------------------
-- malloc and realloc
-- ---------------------------------------------------------------------------

/-- `ALLOCATOR_START_0TO99_QUICKJS`. -/
def startQuickjs : Nat := 20

section
variable (a : Arch) (base : Nat)

def malloc (size : Nat) (st : State) : Option (Nat × State) := alloc a base startQuickjs size st

def memcpy (dest src n : Nat) (st : State) : State :=
  { st with arena := store st.arena (dest - base) (load st.arena (src - base) n) }

/-- `realloc`; a null pointer is `none`. -/
def realloc (memory : Option Nat) (newSize : Nat) (st : State) : Option (Nat × State) := do
  let (newMem, st) ← malloc a base newSize st
  match memory with
  | none => some (newMem, st)
  | some memory =>
    let s1 ← userSizeInBytes a base newMem st
    let s2 ← userSizeInBytes a base memory st
    let st ← free a base memory (memcpy base newMem memory (min s1 s2) st)
    some (newMem, st)

def Live.userSize (l : Live) : Nat := (l.extent a base).len * a.blockSize - a.headerSize

/-- A byte of the arena lies in the blocks of an allocation, in its header or behind it. -/
def Live.Owns (l : Live) (i : Nat) : Prop := (l.extent a base).Covers (i / a.blockSize)

def Live.userBytes (l : Live) (st : State) : List UInt8 :=
  load st.arena (l.ptr - base) (l.userSize a base)

end

section
variable {a : Arch} {base : Nat} {heap : Heap}

theorem Heap.Ok.userSize_eq (h : heap.Ok a base) (hl : l ∈ heap.live) :
    userSizeInBytes a base l.ptr heap.state = some (l.userSize a base) := by
  rw [userSizeInBytes, h.header_live hl]
  rfl

theorem Live.size_le_userSize (a : Arch) (base : Nat) (l : Live) : l.size ≤ l.userSize a base := by
  have hle := le_sizeInBits a (l.size + a.headerSize)
  simp only [Live.userSize, Live.extent]
  omega

theorem Heap.Ok.apart (h : heap.Ok a base) (hl : l ∈ heap.live) (hl' : l' ∈ heap.live)
    (hne : l ≠ l') : (l.extent a base).Apart (l'.extent a base) := by
  have hsymm : Std.Symm fun x y : Live => (x.extent a base).Apart (y.extent a base) :=
    ⟨fun _ _ => Extent.Apart.symm⟩
  exact (List.pairwise_map.mp h.layout.apart).forall hl hl' hne

theorem Heap.Ok.owns (h : heap.Ok a base) (hl : l ∈ heap.live) (hi : i < l.userSize a base) :
    l.Owns a base (l.ptr - base + i) := by
  have hptr := h.ptr l hl
  simp only [Live.userSize] at hi
  simp only [Live.Owns, Extent.Covers, hptr]
  generalize (l.extent a base).start = q at *
  generalize (l.extent a base).len = n at *
  cases a <;> simp only [Arch.blockSize, Arch.headerSize] at * <;> omega

theorem Live.owns_header (l : Live) (hi : (l.extent a base).start * a.blockSize ≤ i)
    (hi' : i < (l.extent a base).start * a.blockSize + a.headerSize) : l.Owns a base i := by
  have hpos : 0 < (l.extent a base).len := sizeInBits_pos a l.size
  simp only [Live.Owns, Extent.Covers]
  generalize (l.extent a base).start = q at *
  generalize (l.extent a base).len = n at *
  cases a <;> simp only [Arch.blockSize, Arch.headerSize] at * <;> omega

-- ---------------------------------------------------------------------------
-- What leaves a block alone
-- ---------------------------------------------------------------------------

theorem alloc_frame (h : Heap.Ok a base ⟨st, live⟩) (hstart : start0to99 ≤ 99)
    (hsize : size + a.headerSize < 2 ^ a.wordBits)
    (halloc : alloc a base start0to99 size st = some (ptr, st')) (hl : l ∈ live)
    (hi : l.Owns a base i) : st'.arena i = st.arena i := by
  obtain ⟨q, hle, hrun, rfl, rfl⟩ := alloc_eq_some hstart hsize halloc
  have hpos := sizeInBits_pos a size
  have hne : i / a.blockSize ≠ q := by
    rintro rfl
    have hset := (h.bits _ (by omega)).mpr ⟨_, List.mem_map_of_mem hl, hi⟩
    rw [hrun _ (Nat.le_refl _) (by omega)] at hset
    cases hset
  refine store_of_not_mem ?_
  rw [length_leBytes]
  cases a <;> simp only [Arch.blockSize, Arch.wordBits] at * <;> omega

theorem store_frame (offset : Nat) (h : heap.Ok a base) (hl : l ∈ heap.live)
    (hl' : l' ∈ heap.live) (hne : l' ≠ l) (hi : l.Owns a base i)
      (hbytes : offset + bytes.length ≤ l'.userSize a base) :
    store m (l'.ptr - base + offset) bytes i = m i := by
  refine store_of_not_mem ?_
  by_contra hin
  have howns := h.owns hl' (i := i - (l'.ptr - base)) (by omega)
  rw [show l'.ptr - base + (i - (l'.ptr - base)) = i by omega] at howns
  exact h.apart hl' hl hne _ howns hi

theorem free_arena (h : free a base ptr st = some st') : st'.arena = st.arena := by
  obtain ⟨p, -, rfl⟩ := Option.map_eq_some_iff.mp h
  rfl

theorem userBytes_congr (h : heap.Ok a base) (hl : l ∈ heap.live)
    (heq : ∀ i, l.Owns a base i → st.arena i = st'.arena i) :
    l.userBytes a base st = l.userBytes a base st' := by
  refine load_congr fun i hi hi' => heq i ?_
  have howns := h.owns hl (i := i - (l.ptr - base)) (by omega)
  rwa [show l.ptr - base + (i - (l.ptr - base)) = i by omega] at howns

-- ---------------------------------------------------------------------------
-- realloc
-- ---------------------------------------------------------------------------

theorem store_reachable (offset : Nat) (bytes : List UInt8) (h : Reachable a base ⟨st, live⟩)
    (hl : l ∈ live)
    (hbytes : offset + bytes.length ≤ l.userSize a base) :
    Reachable a base
      ⟨{ st with arena := store st.arena (l.ptr - base + offset) bytes }, live⟩ := by
  induction bytes generalizing st offset with
  | nil => simpa using h
  | cons b bytes ih =>
    rw [List.length_cons] at hbytes
    have hsize := (reachable_ok h).userSize_eq hl
    have hwrite := h.tail (.write l hl hsize offset (by omega) b)
    have hrest := ih (offset + 1) hwrite (by omega)
    rw [store_cons, Nat.add_assoc]
    exact hrest

theorem realloc_eq_some (h : realloc a base (some ptr) newSize st = some (newMem, st')) :
    ∃ st1 s1 s2, malloc a base newSize st = some (newMem, st1) ∧
      userSizeInBytes a base newMem st1 = some s1 ∧ userSizeInBytes a base ptr st1 = some s2 ∧
      free a base ptr (memcpy base newMem ptr (min s1 s2) st1) = some st' := by
  simp only [realloc, Option.bind_eq_bind, Option.bind_eq_some_iff] at h
  obtain ⟨⟨newMem, st1⟩, hmalloc, s1, hs1, s2, hs2, st2, hfree, heq⟩ := h
  obtain ⟨rfl, rfl⟩ := Prod.mk.inj (Option.some.inj heq)
  exact ⟨st1, s1, s2, hmalloc, hs1, hs2, hfree⟩

theorem ptr_ne_of_apart {l l' : Live} (hapart : (l.extent a base).Apart (l'.extent a base)) :
    l.ptr ≠ l'.ptr := by
  have hpos : 0 < (l.extent a base).len := sizeInBits_pos a l.size
  have hpos' : 0 < (l'.extent a base).len := sizeInBits_pos a l'.size
  intro heq
  have hstart : (l.extent a base).start = (l'.extent a base).start := by
    rw [Live.extent, Live.extent, heq]
  exact hapart (l.extent a base).start ⟨Nat.le_refl _, by omega⟩ ⟨by omega, by omega⟩

theorem malloc_new (h : Reachable a base ⟨st, live⟩) (hsize : size + a.headerSize < 2 ^ a.wordBits)
    (hmalloc : malloc a base size st = some (ptr, st')) :
    Reachable a base ⟨st', ⟨ptr, size⟩ :: live⟩ ∧
      ∀ l ∈ live, Extent.Apart (Live.extent a base ⟨ptr, size⟩) (l.extent a base) := by
  have hnew := h.tail (.alloc startQuickjs size (by decide) hsize hmalloc)
  refine ⟨hnew, fun l hl => ?_⟩
  have hpairwise := (reachable_ok hnew).layout.apart
  exact (List.pairwise_cons.mp hpairwise).1 _ (List.mem_map_of_mem hl)

/-- The new block of a `realloc` begins with what the old one had, and the others stay as they
are. -/
theorem realloc_spec (h : Reachable a base ⟨st, live⟩) (hl : l ∈ live)
    (hsize : newSize + a.headerSize < 2 ^ a.wordBits)
    (hre : realloc a base (some l.ptr) newSize st = some (newMem, st')) :
    Reachable a base ⟨st', ⟨newMem, newSize⟩ :: live.erase l⟩ ∧
    (∀ i < min (l.userSize a base) newSize,
      st'.arena (newMem - base + i) = st.arena (l.ptr - base + i)) ∧
    (∀ l' ∈ (⟨newMem, newSize⟩ : Live) :: live.erase l, l'.ptr ≠ l.ptr) ∧
    ∀ l' ∈ live, ∀ i, l'.Owns a base i → st'.arena i = st.arena i := by
  obtain ⟨st1, s1, s2, hmalloc, hs1, hs2, hfree⟩ := realloc_eq_some hre
  obtain ⟨hnew, hapart⟩ := malloc_new h hsize hmalloc
  have hok := reachable_ok hnew
  have hmem : ⟨newMem, newSize⟩ ∈ (⟨newMem, newSize⟩ : Live) :: live := List.mem_cons_self
  have hne : ∀ l' ∈ live, (⟨newMem, newSize⟩ : Live) ≠ l' := by
    rintro l' hl' rfl
    exact ptr_ne_of_apart (hapart _ hl') rfl
  obtain rfl := Option.some.inj (hs1.symm.trans (hok.userSize_eq hmem))
  obtain rfl := Option.some.inj (hs2.symm.trans (hok.userSize_eq (List.mem_cons_of_mem _ hl)))
  have hframe : ∀ l' ∈ live, ∀ i, l'.Owns a base i → st1.arena i = st.arena i := fun l' hl' i =>
    alloc_frame (reachable_ok h) (by decide) hsize hmalloc hl'
  have hcopy := store_reachable 0
    (load st1.arena (l.ptr - base)
      (min (Live.userSize a base ⟨newMem, newSize⟩) (l.userSize a base)))
    hnew hmem (by rw [length_load]; omega)
  have harena := free_arena hfree
  refine ⟨?_, ?_, ?_, ?_⟩
  · have hreleased := hcopy.tail (.free l (List.mem_cons_of_mem _ hl) hfree)
    rwa [List.erase_cons_tail (by simpa using hne l hl)] at hreleased
  · intro i hi
    have hlt : i < min (Live.userSize a base ⟨newMem, newSize⟩) (l.userSize a base) := by
      have hle : newSize ≤ Live.userSize a base ⟨newMem, newSize⟩ :=
        Live.size_le_userSize a base ⟨newMem, newSize⟩
      omega
    rw [harena, ← hframe l hl _ ((reachable_ok h).owns hl (by omega))]
    simp only [memcpy, store, if_pos (Nat.le_add_right _ _), Nat.add_sub_cancel_left, load,
      List.getElem?_map, List.getElem?_range hlt, Option.map_some, Option.getD_some]
  · intro l' hl'
    rcases List.mem_cons.mp hl' with rfl | hl'
    · exact ptr_ne_of_apart (hapart l hl)
    · have hperm := (List.perm_cons_erase hl).map (Live.extent a base)
      have hlayout := (reachable_ok h).layout.perm hperm
      have hapart' := (List.pairwise_cons.mp hlayout.apart).1 _ (List.mem_map_of_mem hl')
      exact (ptr_ne_of_apart hapart').symm
  · intro l' hl' i hi
    rw [harena, ← hframe l' hl' i hi]
    exact store_frame 0 hok (List.mem_cons_of_mem _ hl') hmem (hne l' hl') hi
      (by rw [length_load]; omega)

end

-- ---------------------------------------------------------------------------
-- Runs of the clients
-- ---------------------------------------------------------------------------

/-- What the clients do: a block is released, grown or written to by the one that has it. -/
inductive Op where
  | malloc (size : Nat)
  | free (l : Live)
  | realloc (l : Live) (newSize : Nat)
  | write (l : Live) (offset : Nat) (value : UInt8)

/-- It is `none` where the memory runs out, and for what no client does. -/
def clientStep (a : Arch) (base : Nat) (heap : Heap) : Op → Option Heap
  | .malloc size =>
    if size + a.headerSize < 2 ^ a.wordBits then
      (malloc a base size heap.state).map fun (ptr, st) => ⟨st, ⟨ptr, size⟩ :: heap.live⟩
    else none
  | .free l =>
    if l ∈ heap.live then
      (free a base l.ptr heap.state).map fun st => ⟨st, heap.live.erase l⟩
    else none
  | .realloc l newSize =>
    if l ∈ heap.live ∧ newSize + a.headerSize < 2 ^ a.wordBits then
      (realloc a base (some l.ptr) newSize heap.state).map fun (ptr, st) =>
        ⟨st, ⟨ptr, newSize⟩ :: heap.live.erase l⟩
    else none
  | .write l offset value =>
    if l ∈ heap.live ∧ offset < l.userSize a base then
      some ⟨{ heap.state with arena := store heap.state.arena (l.ptr - base + offset) [value] },
        heap.live⟩
    else none

/-- The block of `l` is not given up. -/
def Op.Keeps (l : Live) : Op → Prop
  | .free l' => l' ≠ l
  | .realloc l' _ => l' ≠ l
  | _ => True

instance (l : Live) : (op : Op) → Decidable (op.Keeps l)
  | .malloc _ => isTrue trivial
  | .free l' => inferInstanceAs (Decidable (l' ≠ l))
  | .realloc l' _ => inferInstanceAs (Decidable (l' ≠ l))
  | .write .. => isTrue trivial

/-- What the owner of `l` does to its bytes. -/
def Op.ownWrite (l : Live) (bytes : List UInt8) : Op → List UInt8
  | .write l' offset value => if l' = l then bytes.set offset value else bytes
  | _ => bytes

section
variable {a : Arch} {base : Nat} {heap : Heap}

theorem clientStep_keeps (h : Reachable a base heap) (hl : l ∈ heap.live) (hkeeps : op.Keeps l)
    (hstep : clientStep a base heap op = some heap') :
    Reachable a base heap' ∧ l ∈ heap'.live ∧
      l.userBytes a base heap'.state = op.ownWrite l (l.userBytes a base heap.state) := by
  have hok := reachable_ok h
  cases op with
  | malloc size =>
    simp only [clientStep] at hstep
    split at hstep
    · next hsize =>
      obtain ⟨⟨ptr, st⟩, hmalloc, rfl⟩ := Option.map_eq_some_iff.mp hstep
      refine ⟨(malloc_new h hsize hmalloc).1, List.mem_cons_of_mem _ hl, ?_⟩
      exact userBytes_congr hok hl fun i hi =>
        alloc_frame hok (by decide) hsize hmalloc hl hi
    · cases hstep
  | free l' =>
    simp only [clientStep] at hstep
    split at hstep
    · next hl' =>
      obtain ⟨st, hfree, rfl⟩ := Option.map_eq_some_iff.mp hstep
      refine ⟨h.tail (.free l' hl' hfree), (List.mem_erase_of_ne hkeeps.symm).mpr hl, ?_⟩
      exact userBytes_congr hok hl fun i _ => congrFun (free_arena hfree) i
    · cases hstep
  | realloc l' newSize =>
    simp only [clientStep] at hstep
    split at hstep
    · next hcan =>
      obtain ⟨⟨ptr, st⟩, hre, rfl⟩ := Option.map_eq_some_iff.mp hstep
      obtain ⟨hreachable, -, -, hothers⟩ := realloc_spec h hcan.1 hcan.2 hre
      refine ⟨hreachable, List.mem_cons_of_mem _ ((List.mem_erase_of_ne hkeeps.symm).mpr hl), ?_⟩
      exact userBytes_congr hok hl (hothers l hl)
    · cases hstep
  | write l' offset value =>
    simp only [clientStep] at hstep
    split at hstep
    · next hcan =>
      obtain rfl := Option.some.inj hstep
      refine ⟨h.tail (.write l' hcan.1 (hok.userSize_eq hcan.1) offset hcan.2 value), hl, ?_⟩
      rw [Op.ownWrite]
      split
      · next heq =>
        subst heq
        exact load_store_set ..
      · next hne =>
        exact userBytes_congr hok hl fun i hi => store_frame _ hok hl hcan.1 hne hi hcan.2
    · cases hstep

theorem run_keeps (ops : List Op) (h : Reachable a base heap) (hl : l ∈ heap.live)
    (hrun : Runs.run (clientStep a base) (fun _ op => op.Keeps l) heap ops = some heap') :
    l ∈ heap'.live ∧
      l.userBytes a base heap'.state =
      ops.foldl (Op.ownWrite l) (l.userBytes a base heap.state) := by
  induction ops generalizing heap with
  | nil =>
    obtain rfl := Option.some.inj hrun
    exact ⟨hl, rfl⟩
  | cons op ops ih =>
    rw [Runs.run] at hrun
    split at hrun
    · next hkeeps =>
      obtain ⟨heap1, hstep, hrest⟩ := Option.bind_eq_some_iff.mp hrun
      obtain ⟨hreachable, hlive, hbytes⟩ := clientStep_keeps h hl hkeeps hstep
      rw [List.foldl_cons, ← hbytes]
      exact ih hreachable hlive hrest
    · cases hrun

/-- `realloc` keeps the data and touches nothing else, and the bytes of a block that is not given up
are what its owner wrote, whatever the clients do. -/
theorem realloc_keeps_data (a : Arch) (base : Nat) (heap : Heap) (h : Reachable a base heap)
    (l : Live) (hl : l ∈ heap.live) :
    (∀ newSize newMem st', newSize + a.headerSize < 2 ^ a.wordBits →
      realloc a base (some l.ptr) newSize heap.state = some (newMem, st') →
      Reachable a base ⟨st', ⟨newMem, newSize⟩ :: heap.live.erase l⟩ ∧
      load st'.arena (newMem - base) (min (l.userSize a base) newSize) =
        load heap.state.arena (l.ptr - base) (min (l.userSize a base) newSize) ∧
      (∀ l' ∈ (⟨newMem, newSize⟩ : Live) :: heap.live.erase l, l'.ptr ≠ l.ptr) ∧
      ∀ l' ∈ heap.live.erase l,
        l'.userBytes a base st' = l'.userBytes a base heap.state ∧
        word a.wordBits st'.arena (l'.ptr - base - a.headerSize) =
          word a.wordBits heap.state.arena (l'.ptr - base - a.headerSize)) ∧
    ∀ ops heap', Runs.run (clientStep a base) (fun _ op => op.Keeps l) heap ops = some heap' →
      l ∈ heap'.live ∧
        l.userBytes a base heap'.state =
        ops.foldl (Op.ownWrite l) (l.userBytes a base heap.state) := by
  have hok := reachable_ok h
  refine ⟨fun newSize newMem st' hsize hre => ?_, fun ops heap' => run_keeps ops h hl⟩
  obtain ⟨hreachable, hdata, hgone, hothers⟩ := realloc_spec h hl hsize hre
  refine ⟨hreachable, ?_, hgone, fun l' hl' => ?_⟩
  · exact List.map_congr_left fun i hi => hdata i (List.mem_range.mp hi)
  · have hmem := List.mem_of_mem_erase hl'
    refine ⟨userBytes_congr hok hmem (hothers l' hmem), ?_⟩
    rw [hok.headerOffset hmem]
    exact headerWord_congr a _ fun i hi hi' => hothers l' hmem i (l'.owns_header hi hi')

end

/-- The block of the first allocation is grown to 200 bytes, from a search at the start of the
scripts' part of the arena. -/
theorem oneAllocation_realloc : ∃ newMem st',
    realloc .amd64 0x10000 (some 0x10010) 200 oneAllocation = some (newMem, st') ∧
    load st'.arena (newMem - 0x10000) 112 = load oneAllocation.arena 0x10 112 ∧
    newMem ≠ 0x10010 := by
  have hreachable : Reachable .amd64 0x10000 ⟨oneAllocation, [⟨0x10010, 100⟩]⟩ :=
    .single (.alloc 0 100 (by decide) (by decide) alloc_oneAllocation)
  obtain ⟨⟨newMem, st'⟩, hre⟩ : ∃ r, realloc .amd64 0x10000 (some 0x10010) 200 oneAllocation =
      some r :=
    ⟨_, rfl⟩
  obtain ⟨-, hdata, hgone, -⟩ := (realloc_keeps_data .amd64 0x10000 _ hreachable ⟨0x10010, 100⟩
    List.mem_cons_self).1 200 newMem st' (by decide) hre
  exact ⟨newMem, st', hre, hdata, hgone _ List.mem_cons_self⟩

end BugChecker.Allocator
