import BugChecker.Lib.Bytes

/-!
# The bitmap of the allocator

`SerenityOSBitmap`: the search for a run of unset bits goes a word at a time,
`set_range` and `count_in_range` work on masked bytes. Each is brought down to
what it says bit by bit. `w` is the number of bits of a `size_t`.
-/

namespace BugChecker.Allocator

open Bytes

-- ---------------------------------------------------------------------------
-- find_next_range_of_unset_bits
-- ---------------------------------------------------------------------------

/-- `*start_of_free_chunks` and `free_chunks`. -/
structure Search where
  from_ : Nat
  freeChunks : Nat
deriving DecidableEq, Repr

/-- A part of the search either returns, with the length and the start, or goes on. -/
inductive Scan where
  | found (length from_ : Nat)
  | more (s : Search)
deriving DecidableEq, Repr

/-- Where a run starts that the bit at `pos` may extend. -/
def Search.startAt (s : Search) (pos : Nat) : Nat := if s.freeChunks = 0 then pos else s.from_

/-- The loop over the bits of a bucket that is neither full nor empty. Every
pass views a bit, so `fuel` is the number of bits not viewed yet. -/
def scanBucket (minLength maxLength base : Nat) :
    (fuel : Nat) → (bucket : BitVec w) → (viewedBits : Nat) → Search → Scan
  | 0, _, _, s => .more s
  | fuel + 1, bucket, viewedBits, s =>
    if viewedBits < w then
      let start := s.startAt (base + viewedBits)
      if bucket = 0#w then .more ⟨start, s.freeChunks + (w - viewedBits)⟩
      else
        let trailingZeroes := bucket.ctz.toNat
        let bucket := bucket >>> trailingZeroes
        let freeChunks := s.freeChunks + trailingZeroes
        let viewedBits := viewedBits + trailingZeroes
        if freeChunks ≥ minLength then .found (min freeChunks maxLength) start
        else
          let trailingOnes := (~~~bucket).ctz.toNat
          scanBucket minLength maxLength base fuel (bucket >>> trailingOnes)
            (viewedBits + trailingOnes) ⟨start, 0⟩
    else .more s

def searchBuckets (w : Nat) (m : Memory) (minLength maxLength : Nat) :
    (count : Nat) → (bucketIndex startBucketBit : Nat) → Search → Scan
  | 0, _, _, s => .more s
  | count + 1, bucketIndex, startBucketBit, s =>
    let bucket := word w m (bucketIndex * (w / 8))
    if bucket = BitVec.allOnes w then
      if s.freeChunks ≥ minLength then .found (min s.freeChunks maxLength) s.from_
      else searchBuckets w m minLength maxLength count (bucketIndex + 1) 0 ⟨s.from_, 0⟩
    else if bucket = 0#w then
      let s : Search := ⟨s.startAt (bucketIndex * w), s.freeChunks + w⟩
      if s.freeChunks ≥ maxLength then .found maxLength s.from_
      else searchBuckets w m minLength maxLength count (bucketIndex + 1) 0 s
    else
      match scanBucket minLength maxLength (bucketIndex * w) w (bucket >>> startBucketBit)
        startBucketBit s with
      | .found length from_ => .found length from_
      | .more s => searchBuckets w m minLength maxLength count (bucketIndex + 1) 0 s

def searchTrailing (m : Memory) (minLength maxLength : Nat) :
    (count : Nat) → (pos : Nat) → Search → Scan
  | 0, _, s => .more s
  | count + 1, pos, s =>
    if bit m pos then searchTrailing m minLength maxLength count (pos + 1) ⟨s.from_, 0⟩
    else
      let s : Search := ⟨s.startAt pos, s.freeChunks + 1⟩
      if s.freeChunks ≥ minLength then .found (min s.freeChunks maxLength) s.from_
      else searchTrailing m minLength maxLength count (pos + 1) s

/-- `find_next_range_of_unset_bits`: the returned length, and `from` as it is
left behind. -/
def findNextRangeOfUnsetBits (w : Nat) (m : Memory) (size from_ minLength maxLength : Nat) :
    Nat × Nat :=
  if minLength > maxLength then (2 ^ w - 1, from_)
  else
    match searchBuckets w m minLength maxLength (size / w - from_ / w) (from_ / w) (from_ % w)
      ⟨from_, 0⟩ with
    | .found length from_ => (length, from_)
    | .more s =>
      if s.freeChunks < minLength then
        match searchTrailing m minLength maxLength (size % w) (size / w * w) s with
        | .found length from_ => (length, from_)
        | .more s => (0, s.from_)
      else (min s.freeChunks maxLength, s.from_)

/-- `n` unset bits from `q` on. -/
def FreeRun (m : Memory) (n q : Nat) : Prop := ∀ i, q ≤ i → i < q + n → bit m i = false

/-- The lowest run of `n` unset bits that starts at `s` or later. -/
structure FirstRun (m : Memory) (n s q : Nat) : Prop where
  le : s ≤ q
  run : FreeRun m n q
  first : ∀ q', s ≤ q' → q' < q → ¬FreeRun m n q'

/-- The bits from `s` to `pos` have been looked at: the last `freeChunks` of them
are unset, and no run of `n` starts before those. -/
structure Scanned (m : Memory) (n s pos : Nat) (search : Search) : Prop where
  le : s + search.freeChunks ≤ pos
  free : ∀ i, pos - search.freeChunks ≤ i → i < pos → bit m i = false
  start : 0 < search.freeChunks → search.from_ = pos - search.freeChunks
  none_before : ∀ q, s ≤ q → q < pos - search.freeChunks → ¬FreeRun m n q

/-- What a part of the search that ends at `pos` says. -/
def ScanOk (m : Memory) (n s pos : Nat) : Scan → Prop
  | .found length q => length = n ∧ FirstRun m n s q ∧ q + n ≤ pos
  | .more search => Scanned m n s pos search

theorem Scanned.init (m : Memory) (n s from_ : Nat) : Scanned m n s s ⟨from_, 0⟩ where
  le := Nat.le_refl s
  free _ hi hi' := absurd hi' (Nat.not_lt_of_le hi)
  start h := absurd h (Nat.lt_irrefl 0)
  none_before _ hq hq' := absurd hq' (Nat.not_lt_of_le hq)

theorem Scanned.zeros (h : Scanned m n s pos search)
    (hz : ∀ i, pos ≤ i → i < pos + z → bit m i = false) :
    Scanned m n s (pos + z) ⟨search.startAt pos, search.freeChunks + z⟩ := by
  have hle := h.le
  have hsub : pos + z - (search.freeChunks + z) = pos - search.freeChunks := by omega
  refine ⟨by simp only; omega, fun i hi hi' => ?_, fun _ => ?_, fun q hq hq' => ?_⟩
  · rcases Nat.lt_or_ge i pos with hlt | hge
    · exact h.free i (by simpa only [hsub] using hi) hlt
    · exact hz i hge hi'
  · simp only [Search.startAt, hsub]
    split
    · next hzero => omega
    · next hpos => exact h.start (Nat.pos_of_ne_zero hpos)
  · exact h.none_before q hq (by simpa only [hsub] using hq')

theorem Scanned.ones (h : Scanned m n s pos search) (hshort : search.freeChunks < n) (hk : 0 < k)
    (hones : ∀ i, pos ≤ i → i < pos + k → bit m i = true) :
    Scanned m n s (pos + k) ⟨from_, 0⟩ := by
  have hle := h.le
  refine ⟨by simp only; omega, fun i hi hi' => ?_, fun hpos => ?_, fun q hq hq' hrun => ?_⟩
  · simp only at hi
    omega
  · exact absurd hpos (Nat.lt_irrefl 0)
  · simp only [Nat.sub_zero] at hq'
    -- a run from `q` on runs into the first set bit it does not start behind
    rcases Nat.lt_or_ge q (pos - search.freeChunks) with hbefore | hafter
    · exact h.none_before q hq hbefore hrun
    · have hset := hones (max q pos) (by omega) (by omega)
      rw [hrun (max q pos) (by omega) (by omega)] at hset
      cases hset

theorem Scanned.found (h : Scanned m n s pos search) (hn : 1 ≤ n) (hlong : n ≤ search.freeChunks) :
    FirstRun m n s search.from_ ∧ search.from_ + n ≤ pos := by
  have hle := h.le
  have hstart := h.start (by omega)
  refine ⟨⟨by omega, fun i hi hi' => h.free i (by omega) (by omega), fun q hq hq' => ?_⟩, by omega⟩
  exact h.none_before q hq (by omega)

theorem Scanned.none (h : Scanned m n s size search) (hshort : search.freeChunks < n)
    (hq : s ≤ q) (hfits : q + n ≤ size) : ¬FreeRun m n q := by
  refine h.none_before q hq ?_
  omega

/-- A bucket from which `viewedBits` bits have been shifted out shows the rest. -/
structure Shows (m : Memory) (base viewedBits : Nat) (bucket : BitVec w) : Prop where
  bits : ∀ j < w - viewedBits, bucket.getLsbD j = bit m (base + viewedBits + j)
  high : ∀ j, w - viewedBits ≤ j → bucket.getLsbD j = false

theorem Shows.shift {bucket : BitVec w} (h : Shows m base viewedBits bucket) (k : Nat) :
    Shows m base (viewedBits + k) (bucket >>> k) where
  bits j hj := by
    rw [BitVec.getLsbD_ushiftRight, h.bits _ (by omega), Nat.add_assoc base, Nat.add_assoc base,
      Nat.add_assoc viewedBits]
  high j hj := by
    rw [BitVec.getLsbD_ushiftRight]
    exact h.high _ (by omega)

theorem Shows.ctz_le {bucket : BitVec w} (h : Shows m base viewedBits bucket) (hne : bucket ≠ 0#w) :
    bucket.ctz.toNat < w - viewedBits := by
  have hset := BitVec.getLsbD_true_ctz_of_ne_zero hne
  by_contra hlt
  rw [h.high _ (Nat.le_of_not_lt hlt)] at hset
  cases hset

theorem toNat_ctz_zero : (0#w).ctz.toNat = w := by
  have hreverse : (0#w).reverse = 0#w := by
    refine BitVec.eq_of_getLsbD_eq fun i hi => ?_
    simp [BitVec.getLsbD_reverse]
  have hclz : (0#w).clz = BitVec.ofNat w w := BitVec.clz_eq_iff_eq_zero.mpr rfl
  rw [BitVec.ctz, hreverse, hclz, BitVec.toNat_ofNat]
  exact Nat.mod_eq_of_lt Nat.lt_two_pow_self

/-- The ones a bucket starts with: at least one if its lowest bit is set, and no
more than it shows. -/
theorem Shows.trailingOnes {bucket : BitVec w} (h : Shows m base viewedBits bucket)
    (hlow : bucket.getLsbD 0 = true) :
    0 < (~~~bucket).ctz.toNat ∧ viewedBits + (~~~bucket).ctz.toNat ≤ w ∧
      ∀ j < (~~~bucket).ctz.toNat, bit m (base + viewedBits + j) = true := by
  have hwidth : (~~~bucket).ctz.toNat ≤ w := by
    rcases eq_or_ne (~~~bucket) 0#w with hzero | hne
    · rw [hzero, toNat_ctz_zero]
    · by_contra hlt
      have hset := BitVec.getLsbD_true_ctz_of_ne_zero hne
      rw [BitVec.getLsbD_of_ge _ _ (Nat.le_of_not_le hlt)] at hset
      cases hset
  have hones : ∀ j < (~~~bucket).ctz.toNat, bucket.getLsbD j = true := by
    intro j hj
    have hset := BitVec.getLsbD_false_of_lt_ctz hj
    rw [BitVec.getLsbD_not, decide_eq_true (by omega)] at hset
    simpa using hset
  have hshown : ∀ j < (~~~bucket).ctz.toNat, j < w - viewedBits := by
    intro j hj
    by_contra hge
    have hset := hones j hj
    rw [h.high j (Nat.le_of_not_lt hge)] at hset
    cases hset
  have hpos : 0 < (~~~bucket).ctz.toNat := by
    refine Nat.pos_of_ne_zero fun hzero => ?_
    rcases eq_or_ne (~~~bucket) 0#w with hall | hne
    · rw [hall, toNat_ctz_zero] at hzero
      subst hzero
      rw [BitVec.getLsbD_of_ge _ _ (Nat.le_refl 0)] at hlow
      cases hlow
    · have hset := BitVec.getLsbD_true_ctz_of_ne_zero hne
      rw [hzero, BitVec.getLsbD_not, hlow, Bool.not_true, Bool.and_false] at hset
      cases hset
  refine ⟨hpos, ?_, fun j hj => ?_⟩
  · have hlast := hshown ((~~~bucket).ctz.toNat - 1) (by omega)
    omega
  · rw [← h.bits j (hshown j hj)]
    exact hones j hj

theorem scanBucket_ok (hn : 1 ≤ n) (fuel : Nat) {bucket : BitVec w}
    (hfuel : w - viewedBits ≤ fuel) (hviewed : viewedBits ≤ w)
    (hshows : Shows m base viewedBits bucket) (h : Scanned m n s (base + viewedBits) search) :
    ScanOk m n s (base + w) (scanBucket n n base fuel bucket viewedBits search) := by
  induction fuel generalizing bucket viewedBits search with
  | zero =>
    have heq : viewedBits = w := by omega
    subst heq
    exact h
  | succ fuel ih =>
    simp only [scanBucket]
    split
    · next hlt =>
      split
      · next hzero =>
        have hz := h.zeros (z := w - viewedBits) fun i hi hi' => by
          have hbit := hshows.bits (i - (base + viewedBits)) (by omega)
          rw [hzero, BitVec.getLsbD_zero, show base + viewedBits + (i - (base + viewedBits)) = i by
            omega] at hbit
          exact hbit.symm
        rwa [show base + viewedBits + (w - viewedBits) = base + w by omega] at hz
      · next hne =>
        have hctz := hshows.ctz_le hne
        have hz := h.zeros (z := bucket.ctz.toNat) fun i hi hi' => by
          have hbit := hshows.bits (i - (base + viewedBits)) (by omega)
          rw [BitVec.getLsbD_false_of_lt_ctz (by omega), show base + viewedBits +
            (i - (base + viewedBits)) = i by omega] at hbit
          exact hbit.symm
        rw [Nat.add_assoc] at hz
        split
        · next hfound =>
          obtain ⟨hrun, hle⟩ := hz.found hn hfound
          exact ⟨Nat.min_eq_right hfound, hrun, by simp only at hle; omega⟩
        · next hshort =>
          have hlow : (bucket >>> bucket.ctz.toNat).getLsbD 0 = true := by
            rw [BitVec.getLsbD_ushiftRight, Nat.add_zero]
            exact BitVec.getLsbD_true_ctz_of_ne_zero hne
          have hshows' := hshows.shift bucket.ctz.toNat
          obtain ⟨hpos, hle, hones⟩ := hshows'.trailingOnes hlow
          refine ih (by omega) hle (hshows'.shift _) ?_
          rw [← Nat.add_assoc]
          refine hz.ones (Nat.lt_of_not_le hshort) hpos fun i hi hi' => ?_
          have hbit := hones (i - (base + (viewedBits + bucket.ctz.toNat))) (by omega)
          rwa [show base + (viewedBits + bucket.ctz.toNat) +
            (i - (base + (viewedBits + bucket.ctz.toNat))) = i by omega] at hbit
    · next hge =>
      have heq : viewedBits = w := by omega
      subst heq
      exact h

theorem shows_word (hw : 8 ∣ w) (m : Memory) (i : Nat) :
    Shows m (i * w) 0 (word w m (i * (w / 8))) where
  bits j hj := by
    rw [getLsbD_word hw (by omega), Nat.mul_left_comm, Nat.mul_div_cancel' hw, Nat.add_zero]
  high j hj := BitVec.getLsbD_of_ge _ _ (by omega)

/-- Only an empty bucket is searched from its start when the search begins inside
it, so there it has to be another one. -/
theorem searchBuckets_ok (hn : 1 ≤ n) (hw : 8 ∣ w) (count : Nat) (hbit : startBit < w)
    (hstart : startBit = 0 ∨ 0 < count ∧ word w m (i * (w / 8)) ≠ 0#w)
    (h : Scanned m n s (i * w + startBit) search) :
    ScanOk m n s ((i + count) * w) (searchBuckets w m n n count i startBit search) := by
  induction count generalizing i startBit search with
  | zero =>
    obtain rfl : startBit = 0 := by omega
    exact h
  | succ count ih =>
    have hbits := (shows_word hw m i).bits
    have hnext : ∀ {search}, Scanned m n s (i * w + w) search →
        ScanOk m n s ((i + (count + 1)) * w) (searchBuckets w m n n count (i + 1) 0 search) := by
      intro search h'
      rw [← Nat.succ_mul, ← Nat.add_zero (i.succ * w)] at h'
      have hrest := ih (by omega) (.inl rfl) h'
      rwa [show i.succ + count = i + (count + 1) by omega] at hrest
    simp only [searchBuckets]
    split
    · next hfull =>
      have hones : ∀ j, i * w + startBit ≤ j → j < i * w + startBit + (w - startBit) →
          bit m j = true := by
        intro j hj hj'
        have hset := hbits (j - i * w) (by omega)
        rw [hfull, BitVec.getLsbD_allOnes, decide_eq_true (by omega),
          show i * w + 0 + (j - i * w) = j by omega] at hset
        exact hset.symm
      split
      · next hfound =>
        obtain ⟨hrun, hle⟩ := h.found hn hfound
        refine ⟨Nat.min_eq_right hfound, hrun, hle.trans ?_⟩
        rw [Nat.add_mul, Nat.succ_mul]
        omega
      · next hshort =>
        have h' : Scanned m n s _ ⟨search.from_, 0⟩ :=
          h.ones (Nat.lt_of_not_le hshort) (by omega) hones
        rw [show i * w + startBit + (w - startBit) = i * w + w by omega] at h'
        exact hnext h'
    · split
      · next hempty =>
        obtain rfl : startBit = 0 := by
          rcases hstart with hstart | ⟨-, hne⟩
          · exact hstart
          · exact absurd hempty hne
        have h' := h.zeros (z := w) fun j hj hj' => by
          have hset := hbits (j - i * w) (by omega)
          rw [hempty, BitVec.getLsbD_zero, show i * w + 0 + (j - i * w) = j by omega] at hset
          exact hset.symm
        split
        · next hfound =>
          obtain ⟨hrun, hle⟩ := h'.found hn hfound
          refine ⟨rfl, hrun, hle.trans ?_⟩
          rw [Nat.add_mul, Nat.succ_mul]
          omega
        · exact hnext h'
      · have hscan := scanBucket_ok hn w (Nat.sub_le ..) (by omega)
          ((shows_word hw m i).shift startBit) (by rwa [Nat.zero_add])
        rw [Nat.zero_add] at hscan
        split
        · next length from_ heq =>
          rw [heq] at hscan
          obtain ⟨hlength, hrun, hle⟩ := hscan
          refine ⟨hlength, hrun, hle.trans ?_⟩
          rw [Nat.add_mul, Nat.succ_mul]
          omega
        · next search' heq =>
          rw [heq] at hscan
          exact hnext hscan

theorem searchTrailing_ok (hn : 1 ≤ n) (count : Nat) (hshort : search.freeChunks < n)
    (h : Scanned m n s pos search) :
    ScanOk m n s (pos + count) (searchTrailing m n n count pos search) ∧
      ∀ search', searchTrailing m n n count pos search = .more search' →
        search'.freeChunks < n := by
  induction count generalizing pos search with
  | zero => exact ⟨h, fun _ heq => Scan.more.inj heq ▸ hshort⟩
  | succ count ih =>
    simp only [searchTrailing]
    rw [← Nat.succ_add_eq_add_succ]
    split
    · next hset =>
      refine ih hn (h.ones hshort Nat.one_pos fun i hi hi' => ?_)
      rwa [show i = pos by omega]
    · next hunset =>
      have h' := h.zeros (z := 1) fun i hi hi' => by
        rw [show i = pos by omega]
        simpa using hunset
      split
      · next hfound =>
        obtain ⟨hrun, hle⟩ := h'.found hn hfound
        exact ⟨⟨Nat.min_eq_right hfound, hrun, hle.trans (by omega)⟩, nofun⟩
      · next hmore => exact ih (Nat.lt_of_not_le hmore) h'

/-- Where the search really starts: a bucket without a set bit is taken whole. -/
def searchStart (w : Nat) (m : Memory) (from_ : Nat) : Nat :=
  if word w m (from_ / w * (w / 8)) = 0#w then from_ / w * w else from_

theorem searchBuckets_empty (hempty : word w m (i * (w / 8)) = 0#w) :
    searchBuckets w m n n (count + 1) i startBit search =
      searchBuckets w m n n (count + 1) i 0 search := by
  simp only [searchBuckets, hempty, if_true]

theorem searchBuckets_from_ok (hn : 1 ≤ n) (hw : 8 ∣ w) (hpos : 0 < w)
    (hfrom : from_ / w < size / w) :
    ScanOk m n (searchStart w m from_) (size / w * w)
      (searchBuckets w m n n (size / w - from_ / w) (from_ / w) (from_ % w) ⟨from_, 0⟩) := by
  have hcount : from_ / w + (size / w - from_ / w) = size / w := by omega
  have hsplit : from_ / w * w + from_ % w = from_ := Nat.div_add_mod' from_ w
  rw [← hcount, Nat.add_sub_cancel_left]
  simp only [searchStart]
  split
  · next hempty =>
    obtain ⟨count, hsucc⟩ : ∃ count, size / w - from_ / w = count + 1 :=
      Nat.exists_eq_add_one.mpr (by omega)
    rw [hsucc, searchBuckets_empty hempty]
    exact searchBuckets_ok hn hw _ hpos (.inl rfl) (Scanned.init ..)
  · next hne =>
    refine searchBuckets_ok hn hw _ (Nat.mod_lt _ hpos) (.inr ⟨by omega, hne⟩) ?_
    rw [hsplit]
    exact Scanned.init ..

/-- The search returns the lowest run of `n` unset bits from `searchStart` on, or
nothing if there is none. -/
theorem findNextRangeOfUnsetBits_ok (hn : 1 ≤ n) (hw : 8 ∣ w) (hpos : 0 < w)
    (hfrom : from_ / w < size / w) :
    (∃ q, findNextRangeOfUnsetBits w m size from_ n n = (n, q) ∧
      FirstRun m n (searchStart w m from_) q ∧ q + n ≤ size) ∨
    (∃ q, findNextRangeOfUnsetBits w m size from_ n n = (0, q)) ∧
      ∀ q, searchStart w m from_ ≤ q → q + n ≤ size → ¬FreeRun m n q := by
  have hbuckets := searchBuckets_from_ok (m := m) hn hw hpos hfrom
  have hsize : size / w * w + size % w = size := Nat.div_add_mod' size w
  simp only [findNextRangeOfUnsetBits, if_neg (Nat.lt_irrefl n)]
  cases hsearch : searchBuckets w m n n (size / w - from_ / w) (from_ / w) (from_ % w)
      ⟨from_, 0⟩ with
  | found length q =>
    rw [hsearch] at hbuckets
    obtain ⟨rfl, hrun, hle⟩ := hbuckets
    exact .inl ⟨q, rfl, hrun, by omega⟩
  | more search =>
    rw [hsearch] at hbuckets
    simp only
    split
    · next hshort =>
      obtain ⟨htrailing, hmore⟩ := searchTrailing_ok hn (size % w) hshort hbuckets
      rw [hsize] at htrailing
      split
      · next length q heq =>
        rw [heq] at htrailing
        obtain ⟨rfl, hrun, hle⟩ := htrailing
        exact .inl ⟨q, rfl, hrun, hle⟩
      · next search' heq =>
        rw [heq] at htrailing
        refine .inr ⟨⟨_, rfl⟩, fun q hq hfits => ?_⟩
        exact htrailing.none (hmore _ heq) hq hfits
    · next hlong =>
      have hlong : n ≤ search.freeChunks := Nat.le_of_not_lt hlong
      obtain ⟨hrun, hle⟩ := hbuckets.found hn hlong
      exact .inl ⟨_, by rw [Nat.min_eq_right hlong], hrun, by omega⟩

-- ---------------------------------------------------------------------------
-- set_range
-- ---------------------------------------------------------------------------

def bitmaskFirstByte : List UInt8 := [0xFF, 0xFE, 0xFC, 0xF8, 0xF0, 0xE0, 0xC0, 0x80]
def bitmaskLastByte : List UInt8 := [0x00, 0x1, 0x3, 0x7, 0xF, 0x1F, 0x3F, 0x7F]

def maskFirst (i : Nat) : UInt8 := bitmaskFirstByte.getD i 0
def maskLast (i : Nat) : UInt8 := bitmaskLastByte.getD i 0

/-- `*p |= mask` or `*p &= ~mask`. -/
def setMasked (value : Bool) (m : Memory) (i : Nat) (mask : UInt8) : Memory :=
  Function.update m i (if value then m i ||| mask else m i &&& ~~~mask)

/-- `set_range<VALUE>`. -/
def setRange (value : Bool) (start len : Nat) (m : Memory) : Memory :=
  if len = 0 then m
  else
    let first := start / 8
    let last := (start + len) / 8
    if first = last then
      setMasked value m first (maskFirst (start % 8) &&& maskLast ((start + len) % 8))
    else
      let m := setMasked value m first (maskFirst (start % 8))
      let m := setMasked value m last (maskLast ((start + len) % 8))
      if first + 1 < last then
        store m (first + 1) (List.replicate (last - (first + 1)) (if value then 0xFF else 0))
      else m

theorem getLsbD_maskFirst (hi : i < 8) (hk : k < 8) :
    (maskFirst i).toBitVec.getLsbD k = decide (i ≤ k) := by
  have h : ∀ i < 8, ∀ k < 8, (maskFirst i).toBitVec.getLsbD k = decide (i ≤ k) := by decide
  exact h i hi k hk

theorem getLsbD_maskLast (hi : i < 8) (hk : k < 8) :
    (maskLast i).toBitVec.getLsbD k = decide (k < i) := by
  have h : ∀ i < 8, ∀ k < 8, (maskLast i).toBitVec.getLsbD k = decide (k < i) := by decide
  exact h i hi k hk

theorem bit_setMasked (value : Bool) (m : Memory) (j : Nat) (mask : UInt8) (i : Nat) :
    bit (setMasked value m j mask) i =
      if i / 8 = j ∧ mask.toBitVec.getLsbD (i % 8) = true then value else bit m i := by
  have hlt : i % 8 < 8 := Nat.mod_lt i (by decide)
  by_cases hj : i / 8 = j
  · subst hj
    rw [bit, setMasked, Function.update_self]
    cases value with
    | true =>
      simp only [if_true, UInt8.toBitVec_or, BitVec.getLsbD_or, bit]
      cases mask.toBitVec.getLsbD (i % 8) <;> simp
    | false =>
      simp only [Bool.false_eq_true, if_false, UInt8.toBitVec_and, UInt8.toBitVec_not,
        BitVec.getLsbD_and, BitVec.getLsbD_not, decide_eq_true hlt, bit]
      cases mask.toBitVec.getLsbD (i % 8) <;> simp
  · rw [bit, setMasked, Function.update_of_ne hj, if_neg (fun h => hj h.1), bit]

theorem bit_store_replicate (m : Memory) (pos n : Nat) (value : Bool) (i : Nat) :
    bit (store m pos (List.replicate n (if value then 0xFF else 0))) i =
      if pos ≤ i / 8 ∧ i / 8 < pos + n then value else bit m i := by
  have hlt : i % 8 < 8 := Nat.mod_lt i (by decide)
  have hones : ∀ k < 8, (0xFF : UInt8).toBitVec.getLsbD k = true := by decide
  by_cases h : pos ≤ i / 8 ∧ i / 8 < pos + n
  · have hget : (List.replicate n (if value then (0xFF : UInt8) else 0))[i / 8 - pos]? =
        some (if value then 0xFF else 0) := by
      rw [List.getElem?_replicate, if_pos (by omega)]
    rw [bit, store, if_pos h.1, hget, Option.getD_some, if_pos h]
    cases value with
    | true => exact hones _ hlt
    | false => exact BitVec.getLsbD_zero
  · rw [bit, store_of_not_mem (by rw [List.length_replicate]; omega), if_neg h, bit]

theorem bit_setRange (value : Bool) (start len : Nat) (m : Memory) (i : Nat) :
    bit (setRange value start len m) i =
      if start ≤ i ∧ i < start + len then value else bit m i := by
  have hlt : i % 8 < 8 := Nat.mod_lt i (by decide)
  have hfirst := getLsbD_maskFirst (Nat.mod_lt start (by decide)) hlt
  have hlast := getLsbD_maskLast (Nat.mod_lt (start + len) (by decide)) hlt
  simp only [setRange]
  split
  · rw [if_neg (by omega)]
  · split
    · next hsame =>
      rw [bit_setMasked]
      refine if_congr ?_ rfl rfl
      simp only [UInt8.toBitVec_and, BitVec.getLsbD_and, hfirst, hlast, Bool.and_eq_true,
        decide_eq_true_eq]
      omega
    · split
      · rw [bit_store_replicate, bit_setMasked, bit_setMasked]
        simp only [hfirst, hlast, decide_eq_true_eq]
        split_ifs <;> first | rfl | omega
      · rw [bit_setMasked, bit_setMasked]
        simp only [hfirst, hlast, decide_eq_true_eq]
        split_ifs <;> first | rfl | omega

-- ---------------------------------------------------------------------------
-- count_in_range
-- ---------------------------------------------------------------------------

/-- The bytes from `first` on up to `last`, in whole words where the addresses
allow it; `base` is the address of the bitmap. -/
def countMiddle (w base : Nat) (m : Memory) (first last : Nat) : Nat :=
  let n := w / 8
  let aligned := (base + first + n - 1) / n * n - base
  let ptrLarge := if aligned > last then last else aligned
  let lastLarge := (base + last) / n * n - base
  let words := (lastLarge - ptrLarge + (n - 1)) / n
  let rest := ptrLarge + n * words
  ((List.range (ptrLarge - first)).map fun j => popcount (m (first + j)).toBitVec).sum +
    ((List.range words).map fun j => popcount (word w m (ptrLarge + n * j))).sum +
    ((List.range (last - rest)).map fun j => popcount (m (rest + j)).toBitVec).sum

/-- `count_in_range`. -/
def countInRange (w base : Nat) (m : Memory) (size start len : Nat) (value : Bool) : Nat :=
  if len = 0 then 0
  else
    let first := start / 8
    let last := (start + len) / 8
    let byte := m first &&& maskFirst (start % 8)
    let count :=
      if first = last then popcount (byte &&& maskLast ((start + len) % 8)).toBitVec
      else
        popcount byte.toBitVec +
          (if last < size / 8 then popcount (m last &&& maskLast ((start + len) % 8)).toBitVec
            else 0) +
          (if first + 1 < last then countMiddle w base m (first + 1) last else 0)
    if value then count else len - count

theorem sum_popcount_words (hw : 8 ∣ w) (m : Memory) (pos k : Nat) :
    ((List.range k).map fun j => popcount (word w m (pos + w / 8 * j))).sum =
      (setBits m (8 * pos) (8 * (pos + w / 8 * k))).card := by
  induction k with
  | zero => simp [setBits]
  | succ k ih =>
    have hbytes : 8 * (w / 8) = w := Nat.mul_div_cancel' hw
    have hend : 8 * (pos + w / 8 * (k + 1)) = 8 * (pos + w / 8 * k) + w := by
      rw [Nat.mul_succ, ← Nat.add_assoc, Nat.mul_add 8 (pos + w / 8 * k), hbytes]
    rw [List.range_succ, List.map_append, List.sum_append, ih, List.map_singleton,
      List.sum_singleton, popcount_word hw,
      card_setBits_add (b := 8 * (pos + w / 8 * k)) (c := 8 * (pos + w / 8 * (k + 1)))
        (by simp only [Nat.mul_add]; omega) (by omega), hend]

/-- The whole words between an aligned start and the last aligned address end at
that address. -/
theorem words_le (hn : 0 < n) (hP : base + P = q * n) (hL : base + L = q' * n) (hlt : P < L) :
    P + n * ((L - P + (n - 1)) / n) = L := by
  have hmul : q * n < q' * n := by omega
  have hq : q < q' := Nat.lt_of_mul_lt_mul_right hmul
  have hdiff : L - P = (q' - q) * n := by
    rw [Nat.sub_mul]
    omega
  have hdiv : (L - P + (n - 1)) / n = q' - q := by
    rw [hdiff, Nat.add_comm, Nat.add_mul_div_right _ _ hn, Nat.div_eq_of_lt (by omega),
      Nat.zero_add]
  rw [hdiv, Nat.mul_comm, ← hdiff]
  omega

/-- Where the whole words of `countMiddle` start. -/
def ptrLarge (w base first last : Nat) : Nat :=
  let aligned := (base + first + w / 8 - 1) / (w / 8) * (w / 8) - base
  if aligned > last then last else aligned

def largeWords (w base first last : Nat) : Nat :=
  ((base + last) / (w / 8) * (w / 8) - base - ptrLarge w base first last + (w / 8 - 1)) / (w / 8)

theorem ptrLarge_bounds (hw : 8 ∣ w) (hpos : 0 < w) (base : Nat) (hle : first ≤ last) :
    first ≤ ptrLarge w base first last ∧
      ptrLarge w base first last + w / 8 * largeWords w base first last ≤ last := by
  have hn : 0 < w / 8 := Nat.div_pos (Nat.le_of_dvd hpos hw) (by decide)
  have hup : base + first ≤ (base + first + w / 8 - 1) / (w / 8) * (w / 8) := by
    have hmod := Nat.mod_lt (base + first + w / 8 - 1) hn
    have hdiv := Nat.div_add_mod' (base + first + w / 8 - 1) (w / 8)
    omega
  have hdown : (base + last) / (w / 8) * (w / 8) ≤ base + last := Nat.div_mul_le_self ..
  simp only [largeWords, ptrLarge]
  generalize hA : (base + first + w / 8 - 1) / (w / 8) * (w / 8) = A at hup ⊢
  generalize hB : (base + last) / (w / 8) * (w / 8) = B at hdown ⊢
  generalize hP : (if A - base > last then last else A - base) = P
  generalize hL : B - base = L
  have hfirst : first ≤ P ∧ P ≤ last := by
    subst hP
    split <;> omega
  refine ⟨hfirst.1, ?_⟩
  rcases Nat.lt_or_ge P L with hlt | hge
  · have hfits : ¬A - base > last := fun hgt => by
      rw [if_pos hgt] at hP
      omega
    rw [if_neg hfits] at hP
    have hPbase : base + P = (base + first + w / 8 - 1) / (w / 8) * (w / 8) := by omega
    have hLbase : base + L = (base + last) / (w / 8) * (w / 8) := by omega
    rw [words_le hn hPbase hLbase hlt]
    omega
  · have hshort : L - P + (w / 8 - 1) < w / 8 := by omega
    rw [Nat.div_eq_of_lt hshort, Nat.mul_zero]
    exact hfirst.2

theorem countMiddle_eq (hw : 8 ∣ w) (hpos : 0 < w) (hle : first ≤ last) :
    countMiddle w base m first last = (setBits m (8 * first) (8 * last)).card := by
  obtain ⟨hfirst, hrest⟩ := ptrLarge_bounds hw hpos base hle
  have hdef : countMiddle w base m first last =
      ((List.range (ptrLarge w base first last - first)).map fun j =>
          popcount (m (first + j)).toBitVec).sum +
        ((List.range (largeWords w base first last)).map fun j =>
          popcount (word w m (ptrLarge w base first last + w / 8 * j))).sum +
        ((List.range (last - (ptrLarge w base first last +
            w / 8 * largeWords w base first last))).map fun j =>
          popcount (m (ptrLarge w base first last + w / 8 * largeWords w base first last +
            j)).toBitVec).sum :=
    rfl
  rw [hdef]
  generalize ptrLarge w base first last = P at *
  generalize largeWords w base first last = k at *
  have hgrow : P ≤ P + w / 8 * k := Nat.le_add_right ..
  rw [sum_popcount, sum_popcount_words hw, sum_popcount, Nat.add_sub_cancel' hfirst,
    Nat.add_sub_cancel' hrest, ← card_setBits_add (by omega) (by omega),
    ← card_setBits_add (by omega) (by omega)]

theorem popcount_masked (m : Memory) (j lo : Nat) (hhi : hi ≤ 8)
    (h : ∀ k < 8, mask.toBitVec.getLsbD k = decide (lo ≤ k ∧ k < hi)) :
    popcount (m j &&& mask).toBitVec = (setBits m (8 * j + lo) (8 * j + hi)).card := by
  refine popcount_eq_card (8 * j) lo hhi fun k hk => ?_
  rw [UInt8.toBitVec_and, BitVec.getLsbD_and, h k hk, bit, show (8 * j + k) / 8 = j by omega,
    show (8 * j + k) % 8 = k by omega, Bool.and_comm]

theorem countInRange_eq (hw : 8 ∣ w) (hpos : 0 < w) (hsize : 8 ∣ size)
    (hfits : start + len ≤ size) :
    countInRange w base m size start len true = (setBits m start (start + len)).card := by
  have hs : start % 8 < 8 := Nat.mod_lt start (by decide)
  have he : (start + len) % 8 < 8 := Nat.mod_lt (start + len) (by decide)
  have hstart : 8 * (start / 8) + start % 8 = start := Nat.div_add_mod start 8
  have hend : 8 * ((start + len) / 8) + (start + len) % 8 = start + len := Nat.div_add_mod ..
  simp only [countInRange, if_true]
  split
  · next hzero => simp [hzero, setBits]
  · split
    · next hsame =>
      have hmask : ∀ k < 8,
          (maskFirst (start % 8) &&& maskLast ((start + len) % 8)).toBitVec.getLsbD k =
          decide (start % 8 ≤ k ∧ k < (start + len) % 8) := fun k hk => by
        rw [UInt8.toBitVec_and, BitVec.getLsbD_and, getLsbD_maskFirst hs hk, getLsbD_maskLast he hk,
          Bool.decide_and]
      have hcount := popcount_masked m (start / 8) (start % 8) (Nat.le_of_lt he) hmask
      rw [hstart, hsame, hend] at hcount
      rw [hsame, UInt8.and_assoc, hcount]
    · next hdiff =>
      have hmaskFirst : ∀ k < 8, (maskFirst (start % 8)).toBitVec.getLsbD k =
          decide (start % 8 ≤ k ∧ k < 8) := fun k hk => by
        rw [getLsbD_maskFirst hs hk]
        simp [hk]
      have hmaskLast : ∀ k < 8, (maskLast ((start + len) % 8)).toBitVec.getLsbD k =
          decide (0 ≤ k ∧ k < (start + len) % 8) := fun k hk => by
        rw [getLsbD_maskLast he hk]
        simp
      have hfirst := popcount_masked m (start / 8) (start % 8) (Nat.le_refl 8) hmaskFirst
      have hlast := popcount_masked m ((start + len) / 8) 0 (Nat.le_of_lt he) hmaskLast
      rw [hstart] at hfirst
      rw [Nat.add_zero, hend] at hlast
      have hlastCount : (if (start + len) / 8 < size / 8 then
          popcount (m ((start + len) / 8) &&& maskLast ((start + len) % 8)).toBitVec else 0) =
          (setBits m (8 * ((start + len) / 8)) (start + len)).card := by
        split
        · exact hlast
        · -- past the end of the bitmap there are no bits left
          have hnone : start + len = 8 * ((start + len) / 8) := by omega
          rw [← hnone]
          simp [setBits]
      have hmiddle : (if start / 8 + 1 < (start + len) / 8 then
          countMiddle w base m (start / 8 + 1) ((start + len) / 8) else 0) =
          (setBits m (8 * (start / 8) + 8) (8 * ((start + len) / 8))).card := by
        split
        · next hlt => exact countMiddle_eq hw hpos (Nat.le_of_lt hlt)
        · rw [show 8 * (start / 8) + 8 = 8 * ((start + len) / 8) by omega]
          simp [setBits]
      rw [hfirst, hlastCount, hmiddle, Nat.add_right_comm, ← card_setBits_add (by omega) (by omega),
        ← card_setBits_add (by omega) (by omega)]

end BugChecker.Allocator
