import BugChecker.Allocator.Heap

/-!
# The bytes of the bitmap that are touched

Each routine of `SerenityOSBitmap` beside the indices of the bytes that it reads
or writes. `set_range` addresses the byte of the bit after its range even when
its mask for that byte is empty, and `count_in_range` does not if that byte lies
past the end.
-/

namespace BugChecker.Allocator

open Bytes

def Arch.bitmapSize (a : Arch) : Nat := a.blocksNum / 8

-- ---------------------------------------------------------------------------
-- The search
-- ---------------------------------------------------------------------------

def searchBucket (w : Nat) (m : Memory) (minLength maxLength bucketIndex startBucketBit : Nat)
    (s : Search) : Scan :=
  let bucket := word w m (bucketIndex * (w / 8))
  if bucket = BitVec.allOnes w then
    if s.freeChunks ≥ minLength then .found (min s.freeChunks maxLength) s.from_
    else .more ⟨s.from_, 0⟩
  else if bucket = 0#w then
    let s : Search := ⟨s.startAt (bucketIndex * w), s.freeChunks + w⟩
    if s.freeChunks ≥ maxLength then .found maxLength s.from_ else .more s
  else
    scanBucket minLength maxLength (bucketIndex * w) w (bucket >>> startBucketBit) startBucketBit s

theorem searchBuckets_succ : searchBuckets w m minLength maxLength (count + 1) i startBit s =
    match searchBucket w m minLength maxLength i startBit s with
    | .found length from_ => .found length from_
    | .more s => searchBuckets w m minLength maxLength count (i + 1) 0 s := by
  simp only [searchBuckets, searchBucket]
  split_ifs <;> rfl

/-- The words that `searchBuckets` reads. -/
def searchBucketsBytes (w : Nat) (m : Memory) (minLength maxLength : Nat) :
    (count : Nat) → (bucketIndex startBucketBit : Nat) → Search → List Nat
  | 0, _, _, _ => []
  | count + 1, bucketIndex, startBucketBit, s =>
    List.range' (bucketIndex * (w / 8)) (w / 8) ++
      match searchBucket w m minLength maxLength bucketIndex startBucketBit s with
      | .found _ _ => []
      | .more s => searchBucketsBytes w m minLength maxLength count (bucketIndex + 1) 0 s

/-- The bytes that `searchTrailing` reads. -/
def searchTrailingBytes (m : Memory) (minLength : Nat) :
    (count : Nat) → (pos : Nat) → Search → List Nat
  | 0, _, _ => []
  | count + 1, pos, s =>
    pos / 8 ::
      if bit m pos then searchTrailingBytes m minLength count (pos + 1) ⟨s.from_, 0⟩
      else
        let s : Search := ⟨s.startAt pos, s.freeChunks + 1⟩
        if s.freeChunks ≥ minLength then [] else searchTrailingBytes m minLength count (pos + 1) s

def findNextRangeOfUnsetBitsBytes (w : Nat) (m : Memory) (size from_ minLength maxLength : Nat) :
    List Nat :=
  if minLength > maxLength then []
  else
    searchBucketsBytes w m minLength maxLength (size / w - from_ / w) (from_ / w) (from_ % w)
        ⟨from_, 0⟩ ++
      match searchBuckets w m minLength maxLength (size / w - from_ / w) (from_ / w) (from_ % w)
        ⟨from_, 0⟩ with
      | .found _ _ => []
      | .more s =>
        if s.freeChunks < minLength then
          searchTrailingBytes m minLength (size % w) (size / w * w) s
        else []

theorem word_congr (h : ∀ b ∈ List.range' pos (w / 8), m b = m' b) :
    word w m pos = word w m' pos := by
  rw [word, word, load_congr fun b hb hb' => h b (List.mem_range'_1.mpr ⟨hb, hb'⟩)]

theorem searchBuckets_congr
    (h : ∀ b ∈ searchBucketsBytes w m minLength maxLength count i startBit s, m b = m' b) :
    searchBuckets w m minLength maxLength count i startBit s =
      searchBuckets w m' minLength maxLength count i startBit s := by
  induction count generalizing i startBit s with
  | zero => rfl
  | succ count ih =>
    obtain ⟨hword, hrest⟩ := List.forall_mem_append.mp h
    have hbucket : searchBucket w m minLength maxLength i startBit s =
        searchBucket w m' minLength maxLength i startBit s := by
      simp only [searchBucket, word_congr hword]
    rw [searchBuckets_succ, searchBuckets_succ, ← hbucket]
    split
    · rfl
    · next s' hmore =>
      rw [hmore] at hrest
      exact ih hrest

theorem searchTrailing_congr
    (h : ∀ b ∈ searchTrailingBytes m minLength count pos s, m b = m' b) :
    searchTrailing m minLength maxLength count pos s =
      searchTrailing m' minLength maxLength count pos s := by
  induction count generalizing pos s with
  | zero => rfl
  | succ count ih =>
    obtain ⟨hbyte, hrest⟩ := List.forall_mem_cons.mp h
    have hbit : bit m pos = bit m' pos := by rw [bit, bit, hbyte]
    rw [searchTrailing, searchTrailing, ← hbit]
    split
    · next hset =>
      rw [if_pos hset] at hrest
      exact ih hrest
    · next hset =>
      rw [if_neg hset] at hrest
      dsimp only at hrest ⊢
      split
      · rfl
      · next hshort =>
        rw [if_neg hshort] at hrest
        exact ih hrest

theorem findNextRangeOfUnsetBits_congr
    (h : ∀ b ∈ findNextRangeOfUnsetBitsBytes w m size from_ minLength maxLength, m b = m' b) :
    findNextRangeOfUnsetBits w m size from_ minLength maxLength =
      findNextRangeOfUnsetBits w m' size from_ minLength maxLength := by
  unfold findNextRangeOfUnsetBitsBytes at h
  unfold findNextRangeOfUnsetBits
  split
  · rfl
  · next hle =>
    rw [if_neg hle] at h
    obtain ⟨hbuckets, htrailing⟩ := List.forall_mem_append.mp h
    rw [← searchBuckets_congr hbuckets]
    split
    · rfl
    · next s hmore =>
      rw [hmore] at htrailing
      dsimp only at htrailing
      split
      · next hshort =>
        rw [if_pos hshort] at htrailing
        rw [searchTrailing_congr htrailing]
      · rfl

theorem lt_of_mem_searchBucketsBytes
    (h : b ∈ searchBucketsBytes w m minLength maxLength count i startBit s) :
    b < (i + count) * (w / 8) := by
  induction count generalizing i startBit s with
  | zero => simp [searchBucketsBytes] at h
  | succ count ih =>
    rcases List.mem_append.mp h with hword | hrest
    · obtain ⟨-, hb⟩ := List.mem_range'_1.mp hword
      calc b < i * (w / 8) + w / 8 := hb
        _ = (i + 1) * (w / 8) := (Nat.succ_mul _ _).symm
        _ ≤ (i + (count + 1)) * (w / 8) := Nat.mul_le_mul_right _ (by omega)
    · split at hrest
      · cases hrest
      · have hb := ih hrest
        rwa [show i + 1 + count = i + (count + 1) by omega] at hb

theorem le_of_mem_searchTrailingBytes (h : b ∈ searchTrailingBytes m minLength count pos s) :
    8 * b < pos + count := by
  induction count generalizing pos s with
  | zero => simp [searchTrailingBytes] at h
  | succ count ih =>
    rcases List.mem_cons.mp h with rfl | hrest
    · omega
    · have hnext : ∀ s, b ∈ searchTrailingBytes m minLength count (pos + 1) s →
          8 * b < pos + (count + 1) := fun s hb => by
        have := ih hb
        omega
      split at hrest
      · exact hnext _ hrest
      · dsimp only at hrest
        split at hrest
        · cases hrest
        · exact hnext _ hrest

theorem lt_of_mem_findNextRangeOfUnsetBitsBytes (hw : 8 ∣ w) (hsize : 8 ∣ size)
    (hfrom : from_ / w ≤ size / w)
    (h : b ∈ findNextRangeOfUnsetBitsBytes w m size from_ minLength maxLength) : b < size / 8 := by
  have hbytes : 8 * (w / 8) = w := Nat.mul_div_cancel' hw
  have hsplit : size / w * w + size % w = size := Nat.div_add_mod' size w
  unfold findNextRangeOfUnsetBitsBytes at h
  split at h
  · cases h
  · rcases List.mem_append.mp h with hword | htrailing
    · have hb := lt_of_mem_searchBucketsBytes hword
      rw [Nat.add_sub_cancel' hfrom] at hb
      have heq : 8 * (size / w * (w / 8)) = size / w * w := by rw [Nat.mul_left_comm, hbytes]
      omega
    · split at htrailing
      · cases htrailing
      · split at htrailing
        · have hb := le_of_mem_searchTrailingBytes htrailing
          omega
        · cases htrailing

-- ---------------------------------------------------------------------------
-- set_range and count_in_range
-- ---------------------------------------------------------------------------

/-- The bytes that `set_range` reads and writes. The end of the range is a `size_t`. -/
def setRangeBytes (w start len : Nat) : List Nat :=
  if len = 0 then []
  else
    let first := start / 8
    let last := (start + len) % 2 ^ w / 8
    if first = last then [first]
    else first :: last :: List.range' (first + 1) (last - (first + 1))

/-- The bytes that `countMiddle` reads. -/
def countMiddleBytes (w base first last : Nat) : List Nat :=
  let p := ptrLarge w base first last
  let words := largeWords w base first last
  let rest := p + w / 8 * words
  List.range' first (p - first) ++
    (List.range words).flatMap (fun j => List.range' (p + w / 8 * j) (w / 8)) ++
    List.range' rest (last - rest)

/-- The bytes that `count_in_range` reads. -/
def countInRangeBytes (w base size start len : Nat) : List Nat :=
  if len = 0 then []
  else
    let first := start / 8
    let last := (start + len) / 8
    if first = last then [first]
    else
      first :: ((if last < size / 8 then [last] else []) ++
        if first + 1 < last then countMiddleBytes w base (first + 1) last else [])

theorem setMasked_of_ne (hne : i ≠ j) : setMasked value m j mask i = m i :=
  Function.update_of_ne hne _ _

theorem setRange_of_not_mem (hend : start + len < 2 ^ w) (h : i ∉ setRangeBytes w start len) :
    setRange value start len m i = m i := by
  rw [setRangeBytes, Nat.mod_eq_of_lt hend] at h
  simp only [setRange]
  split
  · rfl
  · next hlen =>
    rw [if_neg hlen] at h
    dsimp only at h
    split
    · next hsame =>
      rw [if_pos hsame, List.mem_singleton] at h
      exact setMasked_of_ne h
    · next hdiff =>
      rw [if_neg hdiff, List.mem_cons, List.mem_cons, List.mem_range'_1, not_or, not_or] at h
      obtain ⟨hfirst, hlast, hmiddle⟩ := h
      split
      · rw [store_of_not_mem (by rw [List.length_replicate]; omega), setMasked_of_ne hlast,
          setMasked_of_ne hfirst]
      · rw [setMasked_of_ne hlast, setMasked_of_ne hfirst]

theorem countMiddle_congr (h : ∀ b ∈ countMiddleBytes w base first last, m b = m' b) :
    countMiddle w base m first last = countMiddle w base m' first last := by
  simp only [countMiddleBytes, List.forall_mem_append, List.forall_mem_flatMap] at h
  obtain ⟨⟨hbytes, hwords⟩, hrest⟩ := h
  have hmap : ∀ pos n, (∀ b ∈ List.range' pos n, m b = m' b) →
      (List.range n).map (fun j => popcount (m (pos + j)).toBitVec) =
        (List.range n).map fun j => popcount (m' (pos + j)).toBitVec := by
    intro pos n hagree
    refine List.map_congr_left fun j hj => ?_
    rw [hagree _ (List.mem_range'_1.mpr ⟨Nat.le_add_right _ _, by simpa using hj⟩)]
  have hword : (List.range (largeWords w base first last)).map (fun j =>
        popcount (word w m (ptrLarge w base first last + w / 8 * j))) =
      (List.range (largeWords w base first last)).map fun j =>
        popcount (word w m' (ptrLarge w base first last + w / 8 * j)) :=
    List.map_congr_left fun j hj => by rw [word_congr (hwords j hj)]
  simp only [ptrLarge, largeWords] at hbytes hrest hword
  simp only [countMiddle, hmap _ _ hbytes, hmap _ _ hrest, hword]

theorem countInRange_congr (h : ∀ b ∈ countInRangeBytes w base size start len, m b = m' b) :
    countInRange w base m size start len value = countInRange w base m' size start len value := by
  unfold countInRangeBytes at h
  simp only [countInRange]
  split
  · rfl
  · next hlen =>
    rw [if_neg hlen] at h
    dsimp only at h
    by_cases hsame : start / 8 = (start + len) / 8
    · rw [if_pos hsame] at h
      rw [if_pos hsame, if_pos hsame, h _ List.mem_cons_self]
    · rw [if_neg hsame, List.forall_mem_cons, List.forall_mem_append] at h
      obtain ⟨hfirst, hlast, hmiddle⟩ := h
      have hlastByte : (if (start + len) / 8 < size / 8 then
            popcount (m ((start + len) / 8) &&& maskLast ((start + len) % 8)).toBitVec else 0) =
          if (start + len) / 8 < size / 8 then
            popcount (m' ((start + len) / 8) &&& maskLast ((start + len) % 8)).toBitVec else 0 := by
        split
        · next hlt =>
          rw [if_pos hlt] at hlast
          rw [hlast _ List.mem_cons_self]
        · rfl
      have hmiddleBytes : (if start / 8 + 1 < (start + len) / 8 then
            countMiddle w base m (start / 8 + 1) ((start + len) / 8) else 0) =
          if start / 8 + 1 < (start + len) / 8 then
            countMiddle w base m' (start / 8 + 1) ((start + len) / 8) else 0 := by
        split
        · next hlt =>
          rw [if_pos hlt] at hmiddle
          rw [countMiddle_congr hmiddle]
        · rfl
      rw [if_neg hsame, if_neg hsame, hfirst, hlastByte, hmiddleBytes]

theorem setRangeBytes_inside (w len : Nat) (hsize : 8 ∣ size) (hstart : start < size)
    (hlen : len ≠ 0)
    (hend : (start + len) % 2 ^ w ≤ size) :
    (∀ b ∈ setRangeBytes w start len, b < size / 8) ↔ (start + len) % 2 ^ w ≠ size := by
  simp only [setRangeBytes, if_neg hlen]
  split
  · next hsame =>
    constructor
    · rintro - heq
      omega
    · intro _ b hb
      obtain rfl := List.mem_singleton.mp hb
      omega
  · constructor
    · intro hinside heq
      have hlast := hinside _ (List.mem_cons_of_mem _ List.mem_cons_self)
      omega
    · intro hne b hb
      rcases List.mem_cons.mp hb with rfl | hb
      · omega
      rcases List.mem_cons.mp hb with rfl | hb
      · omega
      obtain ⟨-, hb⟩ := List.mem_range'_1.mp hb
      omega

theorem lt_of_mem_countMiddleBytes (hw : 8 ∣ w) (hpos : 0 < w) (hle : first ≤ last)
    (h : b ∈ countMiddleBytes w base first last) : b < last := by
  obtain ⟨hfirst, hrest⟩ := ptrLarge_bounds hw hpos base hle
  simp only [countMiddleBytes] at h
  generalize ptrLarge w base first last = p at *
  generalize largeWords w base first last = words at *
  rcases List.mem_append.mp h with h | h
  · rcases List.mem_append.mp h with h | h
    · obtain ⟨-, hb⟩ := List.mem_range'_1.mp h
      omega
    · obtain ⟨j, hj, h⟩ := List.mem_flatMap.mp h
      obtain ⟨-, hb⟩ := List.mem_range'_1.mp h
      have hwords : w / 8 * (j + 1) ≤ w / 8 * words :=
        Nat.mul_le_mul_left _ (List.mem_range.mp hj)
      rw [Nat.mul_succ] at hwords
      omega
  · obtain ⟨-, hb⟩ := List.mem_range'_1.mp h
    omega

theorem lt_of_mem_countInRangeBytes (hw : 8 ∣ w) (hpos : 0 < w) (hsize : 8 ∣ size)
    (hfits : start + len ≤ size) (h : b ∈ countInRangeBytes w base size start len) :
    b < size / 8 := by
  unfold countInRangeBytes at h
  split at h
  · cases h
  · dsimp only at h
    split at h
    · obtain rfl := List.mem_singleton.mp h
      omega
    · rcases List.mem_cons.mp h with rfl | h
      · omega
      rcases List.mem_append.mp h with h | h
      · split at h
        · obtain rfl := List.mem_singleton.mp h
          assumption
        · cases h
      · split at h
        · next hlt =>
          have hb := lt_of_mem_countMiddleBytes hw hpos (Nat.le_of_lt hlt) h
          omega
        · cases h

-- ---------------------------------------------------------------------------
-- The calls
-- ---------------------------------------------------------------------------

section
variable (a : Arch) (base bitmapBase : Nat)

/-- `Allocator::GetPoolMap`: a letter for each part of the arena, from `A` for an empty one on. -/
def getPoolMap (num : Nat) (st : State) : List Char :=
  let bitsNum := a.blocksNum / num
  (List.range num).map fun i =>
    let bitsTrue :=
      countInRange a.wordBits bitmapBase st.bitmap a.blocksNum (i * bitsNum) bitsNum true
    if bitsTrue = 0 then 'A'
      else Char.ofNat (('Z'.toNat - 'B'.toNat) * bitsTrue / bitsNum + 'B'.toNat)

theorem mapLetter_bounds : ∀ k < 25, 'A' ≤ Char.ofNat (k + 'B'.toNat) ∧
    Char.ofNat (k + 'B'.toNat) ≤ 'Z' ∧ Char.ofNat (k + 'B'.toNat) ≠ 'A' := by
  decide

/-- The letters of the map go from `A` to `Z`, and `A` is that of the parts that are empty. -/
theorem getPoolMap_getElem? {num i : Nat} (hi : i < num) (st : State) :
    ∃ c, (getPoolMap a bitmapBase num st)[i]? = some c ∧ 'A' ≤ c ∧ c ≤ 'Z' ∧
      (c = 'A' ↔
        setBits st.bitmap (i * (a.blocksNum / num)) ((i + 1) * (a.blocksNum / num)) = ∅) := by
  obtain ⟨n, hn⟩ : ∃ n, a.blocksNum / num = n := ⟨_, rfl⟩
  have hfits : i * n + n ≤ a.blocksNum :=
    calc i * n + n = (i + 1) * n := (Nat.succ_mul _ _).symm
      _ ≤ num * n := Nat.mul_le_mul_right _ hi
      _ ≤ a.blocksNum := hn ▸ Nat.mul_div_le _ _
  have hcount : countInRange _ bitmapBase st.bitmap _ _ _ true = _ :=
    countInRange_eq a.dvd_wordBits a.wordBits_pos a.dvd_blocksNum hfits
  have hle : (setBits st.bitmap (i * n) (i * n + n)).card ≤ n := by
    simpa [setBits] using
      Finset.card_filter_le (Finset.Ico (i * n) (i * n + n)) (bit st.bitmap · = true)
  have hget : (getPoolMap a bitmapBase num st)[i]? = some
      (if (setBits st.bitmap (i * n) (i * n + n)).card = 0 then 'A'
      else Char.ofNat (('Z'.toNat - 'B'.toNat) * (setBits st.bitmap (i * n) (i * n + n)).card / n +
        'B'.toNat)) := by
    simp [getPoolMap, hi, hn, hcount]
  rw [hn, Nat.succ_mul, hget]
  refine ⟨_, rfl, ?_⟩
  by_cases hempty : setBits st.bitmap (i * n) (i * n + n) = ∅
  · simp [hempty]
  · have hk : ('Z'.toNat - 'B'.toNat) * (setBits st.bitmap (i * n) (i * n + n)).card / n < 25 :=
      Nat.lt_succ_of_le (Nat.div_le_of_le_mul (Nat.mul_comm n 24 ▸ Nat.mul_le_mul_left 24 hle))
    obtain ⟨hlow, hhigh, hne⟩ := mapLetter_bounds _ hk
    rw [if_neg (mt Finset.card_eq_zero.mp hempty)]
    exact ⟨hlow, hhigh, iff_of_false hne hempty⟩

inductive Call where
  | alloc (start0to99 size : Nat)
  | free (ptr : Nat)
  | getSetBitsNumInBitmap
  | getPoolMap (num : Nat)

/-- The bytes of the bitmap that a call touches. It is `none` for one that ends in `FatalError`. -/
def Call.bitmapBytes (st : State) : Call → Option (List Nat)
  | .alloc start0to99 size =>
    let n := sizeInBits a ((size + a.headerSize) % 2 ^ a.wordBits)
    let from_ := a.blocksNum * start0to99 / 100
    let block := (findNextRangeOfUnsetBits a.wordBits st.bitmap a.blocksNum from_ n n).2
    (Allocator.alloc a base start0to99 size st).map fun _ =>
      findNextRangeOfUnsetBitsBytes a.wordBits st.bitmap a.blocksNum from_ n n ++
        setRangeBytes a.wordBits block n
  | .free ptr => (header a base ptr st).map fun (block, n) => setRangeBytes a.wordBits block n
  | .getSetBitsNumInBitmap =>
    some (countInRangeBytes a.wordBits bitmapBase a.blocksNum 0 a.blocksNum)
  | .getPoolMap num =>
    some ((List.range num).flatMap fun i =>
      countInRangeBytes a.wordBits bitmapBase a.blocksNum (i * (a.blocksNum / num))
        (a.blocksNum / num))

/-- What is taken or released does not end with the last block of the arena. -/
def Call.EndsBefore (st : State) : Call → Prop
  | .alloc start0to99 size =>
    let n := sizeInBits a ((size + a.headerSize) % 2 ^ a.wordBits)
    ∀ q, FirstRun st.bitmap n (searchStart a.wordBits st.bitmap
      (a.blocksNum * start0to99 / 100)) q →
      q + n ≠ a.blocksNum
  | .free ptr =>
    ((ptr - base) / a.blockSize + (word a.wordBits st.arena (ptr - base - a.headerSize)).toNat) %
      2 ^ a.wordBits ≠ a.blocksNum
  | _ => True

/-- `Start0to99` is at most 99. -/
def Call.Valid : Call → Prop
  | .alloc start0to99 _ => start0to99 ≤ 99
  | _ => True

end

section
variable {a : Arch} {base bitmapBase : Nat} {st : State}

theorem FirstRun.unique (h : FirstRun m n s q) (h' : FirstRun m n s q') : q = q' := by
  rcases Nat.lt_trichotomy q q' with hlt | heq | hgt
  · exact absurd h.run (h'.first q h.le hlt)
  · exact heq
  · exact absurd h'.run (h.first q' h'.le hgt)

theorem searchStart_le (w : Nat) (m : Memory) (from_ : Nat) : searchStart w m from_ ≤ from_ := by
  unfold searchStart
  split
  · exact Nat.div_mul_le_self _ _
  · exact Nat.le_refl _

theorem from_lt (a : Arch) (h : start0to99 ≤ 99) :
    a.blocksNum * start0to99 / 100 < a.blocksNum := by
  cases a <;> simp only [Arch.blocksNum, Arch.arenaSize, Arch.blockSize] <;> omega

theorem bitmapBytes_alloc (hstart : start0to99 ≤ 99)
    (hn : 1 ≤ sizeInBits a ((size + a.headerSize) % 2 ^ a.wordBits))
    (h : Call.bitmapBytes a base bitmapBase st (.alloc start0to99 size) = some bytes) :
    let n := sizeInBits a ((size + a.headerSize) % 2 ^ a.wordBits)
    let from_ := a.blocksNum * start0to99 / 100
    ∃ q, FirstRun st.bitmap n (searchStart a.wordBits st.bitmap from_) q ∧ q + n ≤ a.blocksNum ∧
      bytes = findNextRangeOfUnsetBitsBytes a.wordBits st.bitmap a.blocksNum from_ n n ++
        setRangeBytes a.wordBits q n := by
  intro n from_
  obtain ⟨_, halloc, rfl⟩ := Option.map_eq_some_iff.mp h
  rcases findNextRangeOfUnsetBits_ok hn a.dvd_wordBits a.wordBits_pos
    (searchFrom_lt a hstart) (m := st.bitmap) with ⟨q, hfind, hrun, hle⟩ | ⟨-, hno⟩
  · exact ⟨q, hrun, hle, by rw [hfind]⟩
  · rcases alloc_cases a base st hstart hn with ⟨q, hrun, hle, -⟩ | ⟨hnone, -⟩
    · exact absurd hrun.run (hno q hrun.le hle)
    · rw [hnone] at halloc
      cases halloc

theorem bitmapBytes_alloc_inside (hstart : start0to99 ≤ 99)
    (h : Call.bitmapBytes a base bitmapBase st (.alloc start0to99 size) = some bytes) :
    (∀ b ∈ bytes, b < a.bitmapSize) ↔ Call.EndsBefore a base st (.alloc start0to99 size) := by
  have hreads : ∀ n, ∀ b ∈ findNextRangeOfUnsetBitsBytes a.wordBits st.bitmap a.blocksNum
      (a.blocksNum * start0to99 / 100) n n, b < a.bitmapSize := fun n b hb =>
    lt_of_mem_findNextRangeOfUnsetBitsBytes a.dvd_wordBits a.dvd_blocksNum
      (Nat.le_of_lt (searchFrom_lt a hstart)) hb
  simp only [Call.EndsBefore]
  rcases Nat.eq_zero_or_pos (sizeInBits a ((size + a.headerSize) % 2 ^ a.wordBits)) with hzero | hn
  · obtain ⟨_, -, rfl⟩ := Option.map_eq_some_iff.mp h
    rw [hzero]
    constructor
    · intro _ q hrun
      -- an empty run is where the search starts
      have hq : FirstRun st.bitmap 0 (searchStart a.wordBits st.bitmap
          (a.blocksNum * start0to99 / 100)) (searchStart a.wordBits st.bitmap
          (a.blocksNum * start0to99 / 100)) :=
        ⟨Nat.le_refl _, fun i hi hi' => absurd hi' (Nat.not_lt_of_le hi),
          fun q' hq hq' => absurd hq' (Nat.not_lt_of_le hq)⟩
      have hle := searchStart_le a.wordBits st.bitmap (a.blocksNum * start0to99 / 100)
      have hlt := from_lt a hstart
      rw [hrun.unique hq]
      omega
    · intro _ b hb
      simp only [setRangeBytes, if_true, List.append_nil] at hb
      exact hreads 0 b hb
  · obtain ⟨q, hrun, hle, rfl⟩ := bitmapBytes_alloc hstart hn h
    generalize sizeInBits a ((size + a.headerSize) % 2 ^ a.wordBits) = n at *
    have hmod : (q + n) % 2 ^ a.wordBits = q + n := by
      refine Nat.mod_eq_of_lt (Nat.lt_of_le_of_lt hle ?_)
      rw [← a.pow_wordBits]
      exact a.blocksNum_lt
    have hset := setRangeBytes_inside a.wordBits n a.dvd_blocksNum
      (show q < a.blocksNum by omega) (by omega) (by omega)
    rw [hmod] at hset
    constructor
    · intro hinside q' hrun'
      rw [hrun'.unique hrun]
      exact hset.mp fun b hb => hinside b (List.mem_append_right _ hb)
    · intro hends b hb
      rcases List.mem_append.mp hb with hb | hb
      · exact hreads n b hb
      · exact hset.mpr (hends q hrun) b hb

theorem bitmapBytes_free_inside
    (h : Call.bitmapBytes a base bitmapBase st (.free ptr) = some bytes) :
    (∀ b ∈ bytes, b < a.bitmapSize) ↔ Call.EndsBefore a base st (.free ptr) := by
  obtain ⟨⟨block, n⟩, hheader, rfl⟩ := Option.map_eq_some_iff.mp h
  simp only [header] at hheader
  split at hheader
  · cases hheader
  · next hrange =>
    split at hheader
    · cases hheader
    · next hword =>
      simp only [Option.some.injEq, Prod.mk.injEq] at hheader
      obtain ⟨rfl, rfl⟩ := hheader
      have hblock : (ptr - base) / a.blockSize < a.blocksNum := by
        cases a <;> simp only [Arch.blockSize, Arch.blocksNum, Arch.arenaSize] at hrange ⊢ <;> omega
      exact setRangeBytes_inside _ _ a.dvd_blocksNum hblock (by omega) (by omega)

/-- A call touches only bytes of the bitmap if and only if what it takes or releases does not end
with the last block. -/
theorem bitmap_accesses_inside (a : Arch) (base bitmapBase : Nat) (st : State) (call : Call)
    (bytes : List Nat) (hvalid : call.Valid)
    (h : call.bitmapBytes a base bitmapBase st = some bytes) :
    (∀ b ∈ bytes, b < a.bitmapSize) ↔ call.EndsBefore a base st := by
  cases call with
  | alloc start0to99 size => exact bitmapBytes_alloc_inside hvalid h
  | free ptr => exact bitmapBytes_free_inside h
  | getSetBitsNumInBitmap =>
    obtain rfl := Option.some.inj h
    refine ⟨fun _ => trivial, fun _ b hb => ?_⟩
    exact lt_of_mem_countInRangeBytes a.dvd_wordBits a.wordBits_pos a.dvd_blocksNum (by omega) hb
  | getPoolMap num =>
    obtain rfl := Option.some.inj h
    refine ⟨fun _ => trivial, fun _ b hb => ?_⟩
    obtain ⟨i, hi, hb⟩ := List.mem_flatMap.mp hb
    refine lt_of_mem_countInRangeBytes a.dvd_wordBits a.wordBits_pos a.dvd_blocksNum ?_ hb
    calc i * (a.blocksNum / num) + a.blocksNum / num = (i + 1) * (a.blocksNum / num) :=
          (Nat.succ_mul _ _).symm
      _ ≤ num * (a.blocksNum / num) := Nat.mul_le_mul_right _ (List.mem_range.mp hi)
      _ ≤ a.blocksNum := Nat.mul_div_le _ _

end

theorem oneAllocation_inside :
    Call.bitmapBytes .amd64 0x10000 0 init (.alloc 0 100) = some [0, 1, 2, 3, 4, 5, 6, 7, 0] ∧
      Call.EndsBefore .amd64 0x10000 init (.alloc 0 100) := by
  have hbytes : Call.bitmapBytes .amd64 0x10000 0 init (.alloc 0 100) =
      some [0, 1, 2, 3, 4, 5, 6, 7, 0] := by rfl
  have hvalid : (Call.alloc 0 100).Valid := Nat.zero_le 99
  exact ⟨hbytes, (bitmap_accesses_inside .amd64 0x10000 0 init _ _ hvalid hbytes).mp (by decide)⟩

theorem firstRun_init (n : Nat) : FirstRun init.bitmap n (searchStart w init.bitmap 0) 0 where
  le := searchStart_le w init.bitmap 0
  run _ _ _ := BitVec.getLsbD_zero
  first q' _ hq' := absurd hq' (Nat.not_lt_zero q')

/-- An allocation of all blocks of an empty arena touches the byte after the bitmap. -/
theorem wholeArena_outside :
    Reachable .amd64 0x10000 ⟨init, []⟩ ∧
    ∃ bytes, Call.bitmapBytes .amd64 0x10000 0 init (.alloc 0 (Arch.arenaSize - 16)) = some bytes ∧
      ∃ b ∈ bytes, ¬ b < Arch.bitmapSize .amd64 := by
  refine ⟨.refl, ?_⟩
  have hn : sizeInBits .amd64 ((Arch.arenaSize - 16 + Arch.headerSize .amd64) %
      2 ^ Arch.wordBits .amd64) = Arch.blocksNum .amd64 := by decide
  have hpos : 1 ≤ sizeInBits .amd64 ((Arch.arenaSize - 16 + Arch.headerSize .amd64) %
      2 ^ Arch.wordBits .amd64) := by
    rw [hn]
    decide
  have hrun := firstRun_init (w := 64) (Arch.blocksNum .amd64)
  cases hbytes : Call.bitmapBytes .amd64 0x10000 0 init (.alloc 0 (Arch.arenaSize - 16)) with
  | none =>
    simp only [Call.bitmapBytes, Option.map_eq_none_iff] at hbytes
    rcases alloc_cases .amd64 0x10000 init (Nat.zero_le 99) hpos with
      ⟨q, -, -, heq⟩ | ⟨-, hno⟩
    · rw [hbytes] at heq
      cases heq
    · have hfree := hno 0 hrun.le
      rw [hn] at hfree
      exact absurd hrun.run (hfree (Nat.le_refl _))
  | some bytes =>
    refine ⟨bytes, rfl, ?_⟩
    by_contra hinside
    push Not at hinside
    have hends := (bitmapBytes_alloc_inside (Nat.zero_le 99) hbytes).mp hinside
    simp only [Call.EndsBefore, hn] at hends
    exact hends 0 hrun (Nat.zero_add _)

end BugChecker.Allocator
