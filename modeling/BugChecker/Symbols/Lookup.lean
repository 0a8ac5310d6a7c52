import BugChecker.Symbols.RoundTrip

/-!
# The symbol at an address

`Symbols::GetNameOfPublic` looks for a public symbol whose range has an address.
The table is sorted by address, but the ranges may nest, overlap or be empty, and
an entry whose range does not have the address is taken to say on which side the
others are.
-/

namespace BugChecker.Symbols

open Bytes Strings

/-- The address is compared with a symbol; the end of the range is a 32-bit sum. -/
def comparePublic (rva : UInt32) (c : BcsPublicSymbol) : Int :=
  if rva ≥ c.address ∧ rva < c.address + c.length then 0
  else if rva > c.address then 1
  else -1

/-- `Symbols::GetNameOfPublic`: the name, and the symbol that it leaves in `symbolPtrPtr`. -/
def getNameOfPublic (m : Memory) (symbols : Nat) (rva : UInt32) : Option (Nat × Nat) :=
  if hasPublics m symbols then
    let pubsNum := publicsNum m symbols
    let pred := fun i => comparePublic rva (BcsPublicSymbol.at m (publicPtr m symbols i))
    (binarySearch pred 0 (pubsNum - 1)).map fun search =>
      (publicName m symbols search, publicPtr m symbols search)
  else none

/-- The range of a symbol has the address. -/
def BcsPublicSymbol.Contains (c : BcsPublicSymbol) (rva : UInt32) : Prop :=
  c.address.toNat ≤ rva.toNat ∧ rva.toNat < c.address.toNat + c.length.toNat

instance (c : BcsPublicSymbol) (rva : UInt32) : Decidable (c.Contains rva) :=
  inferInstanceAs (Decidable (_ ∧ _))

-- ---------------------------------------------------------------------------
-- The way to an entry
-- ---------------------------------------------------------------------------

/-- The positions that a search looks at before it comes to `i`. They depend on nothing but the
size of the table. -/
def probes (start_index end_index : Int) (i : Nat) : List Nat :=
  if start_index ≤ end_index then
    let middle := start_index + (end_index - start_index) / 2
    if middle.toNat = i then []
    else if middle.toNat < i then middle.toNat :: probes (middle + 1) end_index i
    else middle.toNat :: probes start_index (middle - 1) i
  else []
termination_by (end_index + 1 - start_index).toNat

/-- The entry at `p` does not send the search away from `i`. -/
def LeadsTo (pred : Nat → Int) (i p : Nat) : Prop :=
  pred p = 0 ∨ p < i ∧ 0 < pred p ∨ i < p ∧ pred p < 0

theorem binarySearch_leads (hs : 0 ≤ s) (h : binarySearch pred s e = some i) :
    ∀ p ∈ probes s e i, LeadsTo pred i p := by
  fun_induction binarySearch pred s e with
  | case1 s e hle middle comp hcomp =>
    obtain rfl : middle.toNat = i := Option.some.inj h
    rw [probes, if_pos hle]
    simp [middle]
  | case2 s e hle middle comp hne hpos ih =>
    obtain ⟨hlo, -, -⟩ := binarySearch_found (by omega) h
    have hlt : middle.toNat < i := by omega
    have hprobes : probes s e i = middle.toNat :: probes (middle + 1) e i := by
      rw [probes, if_pos hle]
      dsimp only
      rw [if_neg (by omega), if_pos hlt]
    rw [hprobes, List.forall_mem_cons]
    exact ⟨.inr (.inl ⟨hlt, hpos⟩), ih (by omega) h⟩
  | case3 s e hle middle comp hne hpos ih =>
    obtain ⟨-, hhi, -⟩ := binarySearch_found hs h
    have hlt : i < middle.toNat := by omega
    have hprobes : probes s e i = middle.toNat :: probes s (middle - 1) i := by
      rw [probes, if_pos hle]
      dsimp only
      rw [if_neg (by omega), if_neg (by omega)]
    rw [hprobes, List.forall_mem_cons]
    refine ⟨.inr (.inr ⟨hlt, ?_⟩), ih hs h⟩
    show pred middle.toNat < 0
    omega
  | case4 => cases h

theorem binarySearch_of_leads (pred : Nat → Int) {s e : Int} {i : Nat} (hs : 0 ≤ s) (hsi : s ≤ i)
    (hie : i ≤ e) (hi : pred i = 0) (hleads : ∀ p ∈ probes s e i, LeadsTo pred i p) :
    ∃ j, binarySearch pred s e = some j := by
  fun_induction binarySearch pred s e with
  | case1 s e hle middle comp hcomp => exact ⟨_, rfl⟩
  | case2 s e hle middle comp hne hpos ih =>
    have hmiddle : middle.toNat ≠ i := by
      intro heq
      exact hne (show pred middle.toNat = 0 by rw [heq, hi])
    rw [probes, if_pos hle] at hleads
    dsimp only at hleads
    rw [if_neg hmiddle] at hleads
    split at hleads
    · next hlt =>
      obtain ⟨-, hrest⟩ := List.forall_mem_cons.mp hleads
      exact ih (by omega) (by omega) hie hrest
    · next hlt =>
      obtain ⟨hzero | ⟨hlt', -⟩ | ⟨-, hneg⟩, -⟩ := List.forall_mem_cons.mp hleads
      · exact absurd hzero hne
      · exact absurd hlt' hlt
      · exact absurd hneg (Int.not_lt.mpr (Int.le_of_lt hpos))
  | case3 s e hle middle comp hne hpos ih =>
    have hmiddle : middle.toNat ≠ i := by
      intro heq
      exact hne (show pred middle.toNat = 0 by rw [heq, hi])
    rw [probes, if_pos hle] at hleads
    dsimp only at hleads
    rw [if_neg hmiddle] at hleads
    split at hleads
    · next hlt =>
      obtain ⟨hzero | ⟨-, hpos'⟩ | ⟨hgt, -⟩, -⟩ := List.forall_mem_cons.mp hleads
      · exact absurd hzero hne
      · exact absurd hpos' hpos
      · exact absurd hgt (Nat.not_lt.mpr (Nat.le_of_lt hlt))
    · obtain ⟨-, hrest⟩ := List.forall_mem_cons.mp hleads
      exact ih hs hsi (by omega) hrest
  | case4 => omega

-- ---------------------------------------------------------------------------
-- Public symbols
-- ---------------------------------------------------------------------------

theorem comparePublic_eq_zero (hfits : c.address.toNat + c.length.toNat < 2 ^ 32) :
    comparePublic rva c = 0 ↔ c.Contains rva := by
  have hsum : (c.address + c.length).toNat = c.address.toNat + c.length.toNat := by
    rw [UInt32.toNat_add, Nat.mod_eq_of_lt hfits]
  unfold comparePublic BcsPublicSymbol.Contains
  rw [← hsum, ← UInt32.lt_iff_toNat_lt, ← UInt32.le_iff_toNat_le]
  split
  · next hin => exact ⟨fun _ => hin, fun _ => rfl⟩
  · next hout =>
    split
    · exact ⟨by rintro ⟨⟩, fun hin => absurd hin hout⟩
    · exact ⟨by rintro ⟨⟩, fun hin => absurd hin hout⟩

theorem comparePublic_pos (h : comparePublic rva c ≠ 0) :
    (0 < comparePublic rva c ↔ c.address < rva) ∧ (comparePublic rva c < 0 ↔ rva ≤ c.address) := by
  unfold comparePublic at h ⊢
  split
  · next hin => exact absurd (if_pos hin) h
  · split
    · next hgt => simp [hgt, UInt32.not_le.mpr hgt]
    · next hle => simp [hle, UInt32.not_lt.mp hle]

/-- The search goes away from the entry at `i` when it sees the one at `p`: an empty or an
overlapping symbol before it that starts at the address or later, or a symbol after it that ends
at the address or earlier. -/
def TurnsAway (rva : UInt32) (c : BcsPublicSymbol) (i p : Nat) : Prop :=
  ¬c.Contains rva ∧ (p < i ∧ rva ≤ c.address ∨ i < p ∧ c.address < rva)

instance (rva : UInt32) (c : BcsPublicSymbol) (i p : Nat) : Decidable (TurnsAway rva c i p) :=
  inferInstanceAs (Decidable (_ ∧ _))

theorem leadsTo_iff (entry : Nat → BcsPublicSymbol)
    (hfits : (entry p).address.toNat + (entry p).length.toNat < 2 ^ 32) (hne : p ≠ i) :
    LeadsTo (fun i => comparePublic rva (entry i)) i p ↔ ¬TurnsAway rva (entry p) i p := by
  unfold LeadsTo TurnsAway
  rw [comparePublic_eq_zero hfits]
  by_cases hin : (entry p).Contains rva
  · simp [hin]
  · have hcomp : comparePublic rva (entry p) ≠ 0 :=
      fun h => hin ((comparePublic_eq_zero hfits).mp h)
    obtain ⟨hpos, hneg⟩ := comparePublic_pos hcomp
    rw [hpos, hneg]
    rcases Nat.lt_or_gt_of_ne hne with hlt | hgt
    · simp [hin, hlt, Nat.not_lt_of_gt hlt]
    · simp [hin, hgt, Nat.not_lt_of_gt hgt]

theorem mem_probes (hs : 0 ≤ s) (h : p ∈ probes s e i) : s ≤ p ∧ p ≤ e ∧ p ≠ i := by
  fun_induction probes s e i with
  | case1 => cases h
  | case2 s e hle middle hne hlt ih =>
    rcases List.mem_cons.mp h with rfl | h
    · exact ⟨by omega, by omega, hne⟩
    · obtain ⟨hlo, hhi, hp⟩ := ih (by omega) h
      exact ⟨by omega, hhi, hp⟩
  | case3 s e hle middle hne hlt ih =>
    rcases List.mem_cons.mp h with rfl | h
    · exact ⟨by omega, by omega, hne⟩
    · obtain ⟨hlo, hhi, hp⟩ := ih hs h
      exact ⟨hlo, by omega, hp⟩
  | case4 => cases h

section
variable (m : Memory) (symbols : Nat)

def publicAt (i : Nat) : BcsPublicSymbol := BcsPublicSymbol.at m (publicPtr m symbols i)

def FindsPublic (rva : UInt32) : Prop :=
  ∃ name symbolPtr, getNameOfPublic m symbols rva = some (name, symbolPtr) ∧
    (BcsPublicSymbol.at m symbolPtr).Contains rva

/-- Some symbol has the address and is not hidden: nothing that the search looks at before it comes
to its position sends it away from there. -/
def Reached (rva : UInt32) : Prop :=
  ∃ i < publicsNum m symbols, (publicAt m symbols i).Contains rva ∧
    ∀ p ∈ probes 0 (publicsNum m symbols - 1) i, ¬TurnsAway rva (publicAt m symbols p) i p

end

section
variable {m : Memory} {symbols : Nat} (hvalid : isBcsValid m symbols = true)
  (hfits : ∀ i < publicsNum m symbols,
    (publicAt m symbols i).address.toNat + (publicAt m symbols i).length.toNat < 2 ^ 32)
include hvalid

theorem hasPublics_of_lt (hi : i < publicsNum m symbols) : hasPublics m symbols = true := by
  cases hhas : hasPublics m symbols with
  | true => rfl
  | false =>
    rw [hasPublics, hvalid, Bool.true_and, bne_eq_false_iff_eq] at hhas
    rw [publicsNum, hhas] at hi
    cases hi

include hfits

theorem findsPublic_iff (rva : UInt32) : FindsPublic m symbols rva ↔ Reached m symbols rva := by
  constructor
  · rintro ⟨name, symbolPtr, hfound, -⟩
    unfold getNameOfPublic at hfound
    split at hfound
    · obtain ⟨i, hsearch, -⟩ := Option.map_eq_some_iff.mp hfound
      obtain ⟨-, hi, hcomp⟩ := binarySearch_found (Int.le_refl 0) hsearch
      have hlt : i < publicsNum m symbols := by omega
      refine ⟨i, hlt, (comparePublic_eq_zero (hfits i hlt)).mp hcomp, fun p hp => ?_⟩
      obtain ⟨-, hpe, hne⟩ := mem_probes (Int.le_refl 0) hp
      have hleads := binarySearch_leads (Int.le_refl 0) hsearch p hp
      exact (leadsTo_iff (publicAt m symbols) (hfits p (by omega)) hne).mp hleads
    · cases hfound
  · rintro ⟨i, hlt, hin, hway⟩
    have hcomp := (comparePublic_eq_zero (hfits i hlt)).mpr hin
    obtain ⟨j, hsearch⟩ := binarySearch_of_leads
      (fun i => comparePublic rva (publicAt m symbols i)) (Int.le_refl 0)
      (e := publicsNum m symbols - 1) (i := i) (by omega) (by omega) hcomp fun p hp => by
        obtain ⟨-, hpe, hne⟩ := mem_probes (Int.le_refl 0) hp
        exact (leadsTo_iff (publicAt m symbols) (hfits p (by omega)) hne).mpr (hway p hp)
    obtain ⟨-, hj, hzero⟩ := binarySearch_found (Int.le_refl 0) hsearch
    refine ⟨publicName m symbols j, publicPtr m symbols j, ?_,
      (comparePublic_eq_zero (hfits j (by omega))).mp hzero⟩
    have heq : getNameOfPublic m symbols rva =
        (binarySearch (fun i => comparePublic rva (publicAt m symbols i)) 0
          (publicsNum m symbols - 1)).map fun search =>
            (publicName m symbols search, publicPtr m symbols search) :=
      if_pos (hasPublics_of_lt hvalid hlt)
    rw [heq, hsearch, Option.map_some]

end

/-- The lookup is complete for an address if and only if a symbol that has it is reached, where
there is one at all. -/
theorem lookup_complete_iff (m : Memory) (symbols : Nat) (hvalid : isBcsValid m symbols = true)
    (hfits : ∀ i < publicsNum m symbols,
      (publicAt m symbols i).address.toNat + (publicAt m symbols i).length.toNat < 2 ^ 32)
    (rva : UInt32) :
    (FindsPublic m symbols rva ↔ ∃ i < publicsNum m symbols, (publicAt m symbols i).Contains rva) ↔
      ((∃ i < publicsNum m symbols, (publicAt m symbols i).Contains rva) →
        Reached m symbols rva) := by
  rw [findsPublic_iff hvalid hfits]
  constructor
  · exact fun h hex => h.mpr hex
  · intro h
    refine ⟨?_, h⟩
    rintro ⟨i, hlt, hin, -⟩
    exact ⟨i, hlt, hin⟩

-- ---------------------------------------------------------------------------
-- Nested symbols
-- ---------------------------------------------------------------------------

theorem letterA_ok : (0 : UInt8) ∉ [97] := by decide

theorem letterB_ok : (0 : UInt8) ∉ [98] := by decide

theorem letterC_ok : (0 : UInt8) ∉ [99] := by decide

def nestedCalls : List Call :=
  [.publicSymbol ⟨[97], letterA_ok⟩ 0 100, .publicSymbol ⟨[98], letterB_ok⟩ 10 5,
    .publicSymbol ⟨[99], letterC_ok⟩ 20 5]

def nestedBuilder : Builder :=
  { Builder.start with
    names := [⟨[97], letterA_ok⟩, ⟨[98], letterB_ok⟩, ⟨[99], letterC_ok⟩]
    publicSymbols := [⟨0, 0, 100⟩, ⟨1, 10, 5⟩, ⟨2, 20, 5⟩] }

def nestedFile : Memory := store (fun _ => 0) 1 (nestedBuilder.writeFile (.merge _) (.merge _))

theorem nestedFile_laid :
    Laid nestedBuilder.publicSymbols
      (nestedBuilder.sortedTypes (.merge _)) nestedBuilder nestedFile 1 := by
  have hsorted : nestedBuilder.sortedPublics (.merge _) = nestedBuilder.publicSymbols :=
    List.mergeSort_of_pairwise (by decide)
  rw [← hsorted]
  exact laid_writeFile holds_store

theorem nestedFile_num : publicsNum nestedFile 1 = 3 :=
  publicsNum_eq nestedFile_laid ⟨by decide, by decide, by decide, by decide⟩

theorem nestedFile_valid : isBcsValid nestedFile 1 = true := by
  rw [isBcsValid, nestedFile_laid.header]
  decide

theorem nestedFile_publicAt (hi : i < nestedBuilder.publicSymbols.length) :
    publicAt nestedFile 1 i = ⟨pos nestedBuilder.names nestedBuilder.publicSymbols[i].name,
      nestedBuilder.publicSymbols[i].address, nestedBuilder.publicSymbols[i].length⟩ := by
  have hbytes := holds_flatMap _ (fun _ => PublicSymbol.length_bytes) nestedFile_laid.publics hi
  rw [publicAt, publicPtr_eq nestedFile_laid]
  exact publicSymbol_at hbytes

theorem nestedFile_fits : ∀ i < publicsNum nestedFile 1,
    (publicAt nestedFile 1 i).address.toNat + (publicAt nestedFile 1 i).length.toNat < 2 ^ 32 := by
  rw [nestedFile_num]
  intro i hi
  rw [nestedFile_publicAt hi]
  revert i
  decide

theorem nestedFile_not_reached : ¬Reached nestedFile 1 50 := by
  rintro ⟨i, hi, hin, hway⟩
  rw [nestedFile_num] at hi hway
  have hfirst : i = 0 := by
    rw [nestedFile_publicAt hi] at hin
    clear hway
    revert i
    decide
  subst hfirst
  have hprobes : 1 ∈ probes 0 ((3 : Nat) - 1) 0 := by simp [probes]
  have hturns := hway 1 hprobes
  rw [nestedFile_publicAt (by decide)] at hturns
  revert hturns
  decide

/-- The symbol that has the address is not found: the search goes past it. -/
theorem nestedFile_misses :
    build nestedCalls = some nestedBuilder ∧
    nestedFile = store (fun _ => 0) 1 (nestedBuilder.writeFile (.merge _) (.merge _)) ∧
    (∀ i < publicsNum nestedFile 1,
      (publicAt nestedFile 1 i).address.toNat + (publicAt nestedFile 1 i).length.toNat < 2 ^ 32) ∧
    ¬(FindsPublic nestedFile 1 50 ↔
      ∃ i < publicsNum nestedFile 1, (publicAt nestedFile 1 i).Contains 50) := by
  refine ⟨rfl, rfl, nestedFile_fits, fun hcomplete => ?_⟩
  have hexists : ∃ i < publicsNum nestedFile 1, (publicAt nestedFile 1 i).Contains 50 := by
    refine ⟨0, by rw [nestedFile_num]; decide, ?_⟩
    rw [nestedFile_publicAt (by decide)]
    decide
  have hfound := hcomplete.mpr hexists
  exact nestedFile_not_reached ((findsPublic_iff nestedFile_valid nestedFile_fits 50).mp hfound)

theorem nestedFile_finds : FindsPublic nestedFile 1 12 ↔
    ∃ i < publicsNum nestedFile 1, (publicAt nestedFile 1 i).Contains 12 := by
  refine (lookup_complete_iff nestedFile 1 nestedFile_valid nestedFile_fits 12).mpr fun _ => ?_
  refine ⟨1, by rw [nestedFile_num]; decide, ?_, ?_⟩
  · rw [nestedFile_publicAt (by decide)]
    decide
  · rw [nestedFile_num]
    simp [probes]

end BugChecker.Symbols
