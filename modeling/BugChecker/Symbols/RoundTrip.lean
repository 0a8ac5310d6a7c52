import BugChecker.Symbols.Catalog
import BugChecker.Symbols.Reader

/-!
# What is written is read back

A file of the converter in the memory of the driver answers the driver's
searches with what was added. The header's offsets are 32-bit sums, so this
holds of files whose records end before 2^32; past that the names are looked
for in the wrong place.
-/

namespace BugChecker.Symbols

open Bytes Strings Sorting

-- ---------------------------------------------------------------------------
-- The sections of a file
-- ---------------------------------------------------------------------------

theorem length_flatMap_const (f : α → List UInt8) (hf : ∀ x, (f x).length = n) (xs : List α) :
    (xs.flatMap f).length = n * xs.length := by
  induction xs with
  | nil => rfl
  | cons x xs ih => rw [List.flatMap_cons, List.length_append, hf, ih, List.length_cons,
    Nat.mul_succ, Nat.add_comm]

theorem length_ulongs (ws : List UInt32) : (ws.flatMap ulongBytes).length = 4 * ws.length :=
  length_flatMap_const ulongBytes length_ulongBytes ws

@[simp] theorem Header.length_bytes (h : Header) : h.bytes.length = 60 := by
  simp [Header.bytes, h.guid.length_bytes]

@[simp] theorem PublicSymbol.length_bytes :
    (PublicSymbol.bytes names s).length = 12 := length_ulongs _

@[simp] theorem DataType.length_bytes : (DataType.bytes names t).length = 24 := length_ulongs _

@[simp] theorem DataTypeMember.length_bytes : (DataTypeMember.bytes names t).length = 16 :=
  length_ulongs _

theorem header_at (h : Holds m p (Header.bytes hdr)) :
    BcsHeader.at m p = ⟨signature, version, hdr.publicSymbols, hdr.publicSymbolsSize, hdr.datatypes,
      hdr.datatypesSize, hdr.datatypeMembers, hdr.datatypeMembersSize, hdr.names⟩ := by
  rw [Header.bytes, holds_append, holds_append] at h
  obtain ⟨⟨hfirst, -⟩, hrest⟩ := h
  rw [List.length_append, length_ulongs, hdr.guid.length_bytes] at hrest
  rw [BcsHeader.at, BcsHeader.mk.injEq]
  exact ⟨holds_ulongs hfirst 0 rfl, holds_ulongs hfirst 1 rfl,
    holds_ulongs hrest 1 rfl, holds_ulongs hrest 2 rfl, holds_ulongs hrest 3 rfl,
    holds_ulongs hrest 4 rfl,
    holds_ulongs hrest 5 rfl, holds_ulongs hrest 6 rfl, holds_ulongs hrest 7 rfl⟩

theorem publicSymbol_at (h : Holds m p (PublicSymbol.bytes names s)) :
    BcsPublicSymbol.at m p = ⟨pos names s.name, s.address, s.length⟩ := by
  rw [BcsPublicSymbol.at, BcsPublicSymbol.mk.injEq]
  exact ⟨holds_ulongs h 0 rfl, holds_ulongs h 1 rfl, holds_ulongs h 2 rfl⟩

theorem dataType_at (h : Holds m p (DataType.bytes names t)) :
    BcsDatatype.at m p =
      ⟨pos names t.name, pos names t.kind, t.length, t.pdbIndex, t.firstMember,
        t.numOfMembers⟩ := by
  rw [BcsDatatype.at, BcsDatatype.mk.injEq]
  exact ⟨holds_ulongs h 0 rfl, holds_ulongs h 1 rfl, holds_ulongs h 2 rfl, holds_ulongs h 3 rfl,
    holds_ulongs h 4 rfl, holds_ulongs h 5 rfl⟩

theorem dataTypeMember_at (h : Holds m p (DataTypeMember.bytes names t)) :
    BcsDatatypeMember.at m p =
      ⟨pos names t.name, pos names t.datatype, t.offset, t.pdbDatatypeIndex⟩ := by
  rw [BcsDatatypeMember.at, BcsDatatypeMember.mk.injEq]
  exact ⟨holds_ulongs h 0 rfl, holds_ulongs h 1 rfl, holds_ulongs h 2 rfl, holds_ulongs h 3 rfl⟩

theorem holds_name (h : Holds m base (namesBuff names)) (hlt : (namesBuff names).length < 2 ^ 32)
    (hi : names[i]? = some s) : Holds m (base + (pos names i).toNat) s.terminated := by
  obtain ⟨hlt', rfl⟩ := List.getElem?_eq_some_iff.mp hi
  have hsplit : namesBuff names = namesBuff (names.take i) ++ (names[i].terminated ++
      namesBuff (names.drop (i + 1))) := by
    simp only [namesBuff]
    rw [← List.flatMap_cons, ← List.drop_eq_getElem_cons hlt', ← List.flatMap_append,
      List.take_append_drop]
  rw [hsplit] at h hlt
  rw [List.length_append] at hlt
  rw [pos, UInt32.toNat_ofNat_of_lt' (by simp only [UInt32.size]; omega)]
  exact (holds_append.mp (holds_append.mp h).2).1

-- ---------------------------------------------------------------------------
-- The tables
-- ---------------------------------------------------------------------------

/-- Each section is less than 2^31 bytes. -/
structure Builder.SectionsFit (b : Builder) : Prop where
  publics : 12 * b.publicSymbols.length < 2 ^ 31
  types : 24 * b.dataTypes.length < 2 ^ 31
  members : 16 * b.dataTypeMembers.length < 2 ^ 31
  names : (namesBuff b.names).length < 2 ^ 31

def Builder.namesStart (b : Builder) : Nat :=
  60 + 12 * b.publicSymbols.length + 24 * b.dataTypes.length + 16 * b.dataTypeMembers.length

structure Laid (publics : List PublicSymbol) (types : List DataType) (b : Builder) (m : Memory)
    (symbols : Nat) : Prop where
  header : BcsHeader.at m symbols = ⟨signature, version, b.header.publicSymbols,
    b.header.publicSymbolsSize, b.header.datatypes, b.header.datatypesSize,
    b.header.datatypeMembers,
    b.header.datatypeMembersSize, b.header.names⟩
  publics : Holds m (symbols + 60) (publics.flatMap (PublicSymbol.bytes b.names))
  types : Holds m (symbols + 60 + 12 * b.publicSymbols.length)
    (types.flatMap (DataType.bytes b.names))
  members : Holds m (symbols + 60 + 12 * b.publicSymbols.length + 24 * b.dataTypes.length)
    (b.dataTypeMembers.flatMap (DataTypeMember.bytes b.names))
  names : Holds m (symbols + b.namesStart) (namesBuff b.names)

theorem laid_writeFile (h : Holds m symbols (Builder.writeFile publicSort typeSort b)) :
    Laid (b.sortedPublics publicSort) (b.sortedTypes typeSort) b m symbols := by
  have hp : (b.sortedPublics publicSort).length = b.publicSymbols.length :=
    (publicSort.perm _ _).length_eq
  have ht : (b.sortedTypes typeSort).length = b.dataTypes.length := (typeSort.perm _ _).length_eq
  simp only [Builder.writeFile, holds_append, List.length_append, Header.length_bytes,
    length_flatMap_const _ (fun _ => PublicSymbol.length_bytes),
    length_flatMap_const _ (fun _ => DataType.length_bytes),
    length_flatMap_const _ (fun _ => DataTypeMember.length_bytes), hp, ht] at h
  obtain ⟨⟨⟨⟨hheader, hpublics⟩, htypes⟩, hmembers⟩, hnames⟩ := h
  simp only [← Nat.add_assoc] at hpublics htypes hmembers hnames
  exact ⟨header_at hheader, hpublics, htypes, hmembers,
    by simpa only [Builder.namesStart, ← Nat.add_assoc] using hnames⟩

theorem hasPublics_eq (h : Laid publics types b m symbols) (hsymbols : symbols ≠ 0) :
    hasPublics m symbols = (b.header.publicSymbolsSize != 0) := by
  simp [hasPublics, isBcsValid, h.header, hsymbols, signature, version]

theorem hasDatatypes_eq (h : Laid publics types b m symbols) (hsymbols : symbols ≠ 0) :
    hasDatatypes m symbols =
      (b.header.datatypesSize != 0 && b.header.datatypeMembersSize != 0) := by
  simp [hasDatatypes, isBcsValid, h.header, hsymbols, signature, version]

theorem ofNat_bne_zero (h : n < 2 ^ 32) : (UInt32.ofNat n != 0) = decide (n ≠ 0) := by
  have hiff : UInt32.ofNat n = 0 ↔ n = 0 := by
    rw [← UInt32.toNat_inj, UInt32.toNat_ofNat_of_lt' h]
    rfl
  simp only [bne, beq_eq_decide, hiff, ne_eq, decide_not]

-- ---------------------------------------------------------------------------
-- Records read from the file
-- ---------------------------------------------------------------------------

section
variable (m : Memory) (symbols : Nat)

/-- The record at a pointer is that of the public symbol. -/
structure PublicAt (p : Nat) (s : Public) : Prop where
  name : Holds m (getNameFromOffset m symbols (BcsPublicSymbol.at m p).name) s.name.terminated
  address : (BcsPublicSymbol.at m p).address = s.address
  length : (BcsPublicSymbol.at m p).length = s.length

structure TypeAt (p : Nat) (t : Datatype) : Prop where
  name : Holds m (getNameFromOffset m symbols (BcsDatatype.at m p).name) t.name.terminated
  kind : Holds m (getNameFromOffset m symbols (BcsDatatype.at m p).kind) t.kind.terminated
  length : (BcsDatatype.at m p).length = t.length
  index : (BcsDatatype.at m p).pdbIndex = t.index

structure MemberAt (p : Nat) (mb : Member) : Prop where
  name : Holds m (getNameFromOffset m symbols (BcsDatatypeMember.at m p).name) mb.name.terminated
  datatype : Holds m (getNameFromOffset m symbols (BcsDatatypeMember.at m p).datatype)
    mb.datatype.terminated
  offset : (BcsDatatypeMember.at m p).offset = mb.offset
  index : (BcsDatatypeMember.at m p).pdbDatatypeIndex = mb.index

end

section
variable {b : Builder} {publics : List PublicSymbol} {types : List DataType}
  (h : Laid publics types b m symbols) (hfit : b.SectionsFit) (hend : b.namesStart < 2 ^ 32)
include h

theorem publicPtr_eq (i : Nat) : publicPtr m symbols i = symbols + 60 + 12 * i := by
  simp [publicPtr, publicsAt, h.header, Builder.header]

include hfit

theorem publicsNum_eq : publicsNum m symbols = b.publicSymbols.length := by
  have := hfit.publics
  simp only [publicsNum, h.header, Builder.header, UInt32.toNat_ofNat']
  omega

theorem datatypesNum_eq : datatypesNum m symbols = b.dataTypes.length := by
  have := hfit.types
  simp only [datatypesNum, h.header, Builder.header, UInt32.toNat_ofNat']
  omega

include hend

omit hfit in
theorem datatypePtr_eq (i : Nat) :
    datatypePtr m symbols i = symbols + 60 + 12 * b.publicSymbols.length + 24 * i := by
  rw [Builder.namesStart] at hend
  simp only [datatypePtr, datatypesAt, h.header, Builder.header, UInt32.toNat_add,
    UInt32.toNat_ofNat', UInt32.reduceToNat]
  omega

omit hfit in
theorem memberPtr_eq (i : Nat) : memberPtr m symbols i =
    symbols + 60 + 12 * b.publicSymbols.length + 24 * b.dataTypes.length + 16 * i := by
  rw [Builder.namesStart] at hend
  simp only [memberPtr, membersAt, h.header, Builder.header, UInt32.toNat_add, UInt32.toNat_ofNat',
    UInt32.reduceToNat]
  omega

theorem holds_nameAt (hi : b.names[i]? = some s) :
    Holds m (getNameFromOffset m symbols (pos b.names i)) s.terminated := by
  have hnames : b.header.names.toNat = b.namesStart := by
    rw [Builder.namesStart] at hend ⊢
    simp only [Builder.header, UInt32.toNat_add, UInt32.toNat_ofNat', UInt32.reduceToNat]
    omega
  rw [getNameFromOffset, h.header, hnames]
  exact holds_name h.names (by have := hfit.names; omega) hi

theorem publicAt_of_describes (hi : i < publics.length)
    (hs : DescribesPublic b.names publics[i] s) :
    PublicAt m symbols (publicPtr m symbols i) s := by
  have hrec := publicSymbol_at (holds_flatMap _ (fun _ => PublicSymbol.length_bytes) h.publics hi)
  rw [← publicPtr_eq h] at hrec
  refine ⟨?_, by rw [hrec, hs.address], by rw [hrec, hs.length]⟩
  rw [hrec]
  exact holds_nameAt h hfit hend hs.name

theorem typeAt_of_describes (hi : i < types.length)
    (ht : DescribesType b.names b.dataTypeMembers first types[i] t) :
    TypeAt m symbols (datatypePtr m symbols i) t := by
  have hrec := dataType_at (holds_flatMap _ (fun _ => DataType.length_bytes) h.types hi)
  rw [← datatypePtr_eq h hend] at hrec
  refine ⟨?_, ?_, by rw [hrec, ht.length], by rw [hrec, ht.index]⟩
  · rw [hrec]
    exact holds_nameAt h hfit hend ht.name
  · rw [hrec]
    exact holds_nameAt h hfit hend ht.kind

theorem memberAt_of_describes (hi : b.dataTypeMembers[i]? = some r)
    (hr : DescribesMember b.names r mb) : MemberAt m symbols (memberPtr m symbols i) mb := by
  obtain ⟨hlt, rfl⟩ := List.getElem?_eq_some_iff.mp hi
  have hrec :=
    dataTypeMember_at (holds_flatMap _ (fun _ => DataTypeMember.length_bytes) h.members hlt)
  rw [← memberPtr_eq h hend] at hrec
  refine ⟨?_, ?_, by rw [hrec, hr.offset], by rw [hrec, hr.index]⟩
  · rw [hrec]
    exact holds_nameAt h hfit hend hr.name
  · rw [hrec]
    exact holds_nameAt h hfit hend hr.datatype

end

-- ---------------------------------------------------------------------------
-- The searches over the tables
-- ---------------------------------------------------------------------------

theorem find?_rel (h : List.Forall₂ R l l') (hR : ∀ a b, R a b → p a = q b) :
    Option.Rel R (l.find? p) (l'.find? q) := by
  induction h with
  | nil => exact .none
  | @cons a b l l' hab _ ih =>
    rw [List.find?_cons, List.find?_cons, hR a b hab]
    cases q b with
    | true => exact .some hab
    | false => exact ih

theorem rel_map_left {f : α → γ} (h : Option.Rel (fun a b => R (f a) b) o o') :
    Option.Rel R (o.map f) o' := by
  cases h with
  | some h => exact .some h
  | none => exact .none

theorem found_iff_of_rel {l : List β} (h : Option.Rel R o (l.find? q)) :
    (o.isSome ↔ ∃ b ∈ l, q b) ∧ ∀ a, o = some a → ∃ b ∈ l, q b ∧ R a b := by
  cases hfind : l.find? q with
  | none =>
    rw [hfind] at h
    cases h
    refine ⟨iff_of_false (by simp) ?_, fun a ha => by cases ha⟩
    rintro ⟨b, hb, hq⟩
    exact List.find?_eq_none.mp hfind b hb hq
  | some b =>
    rw [hfind] at h
    cases h with
    | some hab =>
      have hb := List.mem_of_find?_eq_some hfind
      have hq := List.find?_some hfind
      refine ⟨iff_of_true rfl ⟨b, hb, hq⟩, ?_⟩
      rintro a ⟨⟩
      exact ⟨b, hb, hq, hab⟩

def Member.matches (name : CString) (expected : Option CString) (mb : Member) : Bool :=
  mb.name = name && expected.all (mb.datatype = ·)

/-- The file gives back the catalog. The table of types has an order of its own; a type is known
by the pointer to its record. -/
structure RoundTrip (c : Catalog) (m : Memory) (symbols : Nat) : Prop where
  enumPublics : ∃ visited : List (Nat × Public), (visited.map Prod.snd).Perm c.publics ∧
    visited.Pairwise (fun v w => v.2.address ≤ w.2.address) ∧
    (∀ v ∈ visited, Holds m v.1 v.2.name.terminated) ∧
    ∀ (σ : Type) (context : σ) callback, enumPublics m symbols context callback =
      visit callback context (visited.map fun v => (v.1, v.2.address, v.2.length))
  getPublicByName : ∀ name,
    ((getPublicByName m symbols name).isSome ↔ ∃ s ∈ c.publics, s.name = name) ∧
    ∀ p, getPublicByName m symbols name = some p →
      ∃ s ∈ c.publics, s.name = name ∧ PublicAt m symbols p s
  getDatatype : ∃ table : List Datatype, table.Perm c.types ∧
    (∀ i (hi : i < table.length), TypeAt m symbols (datatypePtr m symbols i) table[i]) ∧
    (c.members ≠ [] → ∀ name,
      ((getDatatype m symbols name).isSome ↔ ∃ t ∈ c.types, t.name = name) ∧
      ∀ p, getDatatype m symbols name = some p →
        ∃ i, ∃ hi : i < table.length, p = datatypePtr m symbols i ∧ table[i].name = name ∧
          ∀ t ∈ c.types, t.name = name → t.length ≤ table[i].length) ∧
    ∀ i (hi : i < table.length) name expected,
      Option.Rel (MemberAt m symbols)
        (getDatatypeMember m symbols (some (datatypePtr m symbols i)) name expected)
        (table[i].members.find? (Member.matches name expected))

section
variable {b : Builder} {c : Catalog} {publics : List PublicSymbol} {types : List DataType}
  (h : Laid publics types b m symbols) (hsymbols : symbols ≠ 0) (hfit : b.SectionsFit)
  (hend : b.namesStart < 2 ^ 32) (hdesc : b.Describes c)

include h hfit hend

theorem publics_forall₂ (hnum : publics.length = b.publicSymbols.length)
    (htable : List.Forall₂ (DescribesPublic b.names) publics table) :
    List.Forall₂ (fun i s => PublicAt m symbols (publicPtr m symbols i) s)
      (List.range (publicsNum m symbols)) table := by
  rw [publicsNum_eq h hfit, ← hnum]
  rw [List.forall₂_iff_get] at htable ⊢
  refine ⟨by simpa using htable.1, fun i hi hi' => ?_⟩
  simp only [List.get_eq_getElem, List.getElem_range]
  exact publicAt_of_describes h hfit hend (by simpa using hi) (htable.2 i _ hi')

include hsymbols

omit hfit hend in
theorem publicsNum_of_not_hasPublics (hno : hasPublics m symbols = false) :
    publicsNum m symbols = 0 := by
  rw [hasPublics_eq h hsymbols, bne_eq_false_iff_eq] at hno
  simp [publicsNum, h.header, hno]

theorem getPublicByName_rel (hnum : publics.length = b.publicSymbols.length)
    (htable : List.Forall₂ (DescribesPublic b.names) publics table) (name : CString) :
    Option.Rel (PublicAt m symbols) (getPublicByName m symbols name)
      (table.find? (·.name = name)) := by
  have hrel := find?_rel (q := fun s : Public => decide (s.name = name))
    (p := fun i => decide (strcmp name m (publicName m symbols i) = 0))
    (publics_forall₂ h hfit hend hnum htable) fun i s hs => by
      simp only [decide_eq_decide]
      exact (strcmp_eq_zero hs.name).trans eq_comm
  rw [getPublicByName]
  split
  · exact rel_map_left hrel
  · next hno =>
    rw [publicsNum_of_not_hasPublics h hsymbols (by simpa using hno)] at hrel
    cases hs : table.find? (·.name = name) with
    | none => exact .none
    | some s =>
      rw [hs] at hrel
      cases hrel

theorem enumPublics_eq (hnum : publics.length = b.publicSymbols.length)
    (htable : List.Forall₂ (DescribesPublic b.names) publics table)
    (context : σ) (callback : σ → Nat × UInt32 × UInt32 → σ × Bool) :
    enumPublics m symbols context callback = visit callback context
      ((table.mapIdx fun i s => (publicName m symbols i, s)).map
        fun v => (v.1, v.2.address, v.2.length)) := by
  have hall := publics_forall₂ h hfit hend hnum htable
  have hlist : ((List.range (publicsNum m symbols)).map fun i =>
      (publicName m symbols i, (BcsPublicSymbol.at m (publicPtr m symbols i)).address,
        (BcsPublicSymbol.at m (publicPtr m symbols i)).length)) =
      (table.mapIdx fun i s => (publicName m symbols i, s)).map
        fun v => (v.1, v.2.address, v.2.length) := by
    rw [List.forall₂_iff_get] at hall
    refine List.ext_getElem (by simpa using hall.1) fun i hi hi' => ?_
    have hs := hall.2 i (by simpa using hi) (by simpa using hi')
    simp only [List.get_eq_getElem, List.getElem_range] at hs
    simp [hs.address, hs.length]
  rw [enumPublics, ← hlist]
  split
  · rfl
  · next hno =>
    rw [publicsNum_of_not_hasPublics h hsymbols (by simpa using hno)]
    rfl

omit hsymbols in
theorem typeAt_table {table : List Datatype}
    (htable : List.Forall₂ (fun r t => ∃ first, DescribesType b.names b.dataTypeMembers first r t)
      types table) (i : Nat) (hi : i < table.length) :
    TypeAt m symbols (datatypePtr m symbols i) table[i] := by
  rw [List.forall₂_iff_get] at htable
  obtain ⟨first, ht⟩ := htable.2 i (htable.1 ▸ hi) hi
  exact typeAt_of_describes h hfit hend (htable.1 ▸ hi) ht

omit h hsymbols hfit hend in
theorem compareDatatype_ordered {table : List Datatype} (name : CString)
    (hat : ∀ i (hi : i < table.length), TypeAt m symbols (datatypePtr m symbols i) table[i])
    (hsorted : table.Pairwise fun t u => ¬ u.name < t.name) :
    Ordered (compareDatatype m symbols name) table.length := by
  have hle : ∀ i j (hi : i < table.length) (hj : j < table.length), i < j →
      ¬ table[j].name < table[i].name := fun i j hi hj hij =>
    List.pairwise_iff_getElem.mp hsorted i j hi hj hij
  refine ⟨fun {i j} hij hj hpos => ?_, fun {i j} hij hj hneg => ?_⟩
  · have hi := hij.trans hj
    have hj' := (strcmp_pos (hat j hj).name).mp hpos
    refine (strcmp_pos (hat i hi).name).mpr ?_
    by_contra hni
    by_cases hlt : name < table[i].name
    · exact hle i j hi hj hij (CString.lt_trans hj' hlt)
    · rw [CString.eq_of_not_lt hlt hni] at hj'
      exact hle i j hi hj hij hj'
  · have hi := hij.trans hj
    have hi' := (strcmp_neg (hat i hi).name).mp hneg
    refine (strcmp_neg (hat j hj).name).mpr ?_
    by_contra hnj
    by_cases hlt : table[j].name < name
    · exact hle i j hi hj hij (CString.lt_trans hlt hi')
    · rw [CString.eq_of_not_lt hnj hlt] at hi'
      exact hle i j hi hj hij hi'

omit hend in
theorem getDatatype_spec {table : List Datatype} (name : CString)
    (hnum : table.length = b.dataTypes.length) (hmem : b.dataTypeMembers ≠ [])
    (hat : ∀ i (hi : i < table.length), TypeAt m symbols (datatypePtr m symbols i) table[i])
    (hsorted : table.Pairwise fun t u => ¬ u.name < t.name) :
    ((getDatatype m symbols name).isSome ↔ ∃ t ∈ table, t.name = name) ∧
      ∀ p, getDatatype m symbols name = some p →
        ∃ i, ∃ hi : i < table.length, p = datatypePtr m symbols i ∧ table[i].name = name ∧
          ∀ t ∈ table, t.name = name → t.length ≤ table[i].length := by
  have hord := compareDatatype_ordered name hat hsorted
  have hzero : ∀ i (hi : i < table.length), compareDatatype m symbols name i = 0 ↔
      table[i].name = name := fun i hi => (strcmp_eq_zero (hat i hi).name).trans eq_comm
  have hhas : hasDatatypes m symbols = decide (table.length ≠ 0) := by
    have hm : b.dataTypeMembers.length ≠ 0 := fun h0 => hmem (List.eq_nil_of_length_eq_zero h0)
    have hfm := hfit.members
    have hft := hfit.types
    rw [hasDatatypes_eq h hsymbols, Builder.header, ofNat_bne_zero (by omega),
      ofNat_bne_zero (by omega), hnum, ← Bool.decide_and, decide_eq_decide]
    omega
  rw [getDatatype, hhas, datatypesNum_eq h hfit, ← hnum]
  by_cases hempty : table.length = 0
  · have hnil : table = [] := List.eq_nil_of_length_eq_zero hempty
    subst hnil
    simp
  rw [if_pos (by simpa using hempty)]
  dsimp only
  cases hs : binarySearch (compareDatatype m symbols name) 0 ((table.length : Int) - 1) with
  | none =>
    refine ⟨iff_of_false (by simp) ?_, fun p hp => by simp at hp⟩
    rintro ⟨t, ht, hname⟩
    obtain ⟨i, hi, rfl⟩ := List.mem_iff_getElem.mp ht
    obtain ⟨j, hj⟩ := binarySearch_finds hord (Int.le_refl 0) (by omega) (Int.natCast_nonneg i)
      (show (i : Int) ≤ (table.length : Int) - 1 by omega) ((hzero i hi).mpr hname)
    rw [hs] at hj
    cases hj
  | some search =>
    obtain ⟨r, hr, hlt, hr0, hmax⟩ := binarySearch_mostComplete
      (fun i => (BcsDatatype.at m (datatypePtr m symbols i)).length) hord hs
    have hname := (hzero r hlt).mp hr0
    refine ⟨iff_of_true rfl ⟨table[r], List.getElem_mem hlt, hname⟩, fun p hp => ?_⟩
    simp only [hr, Option.some.injEq] at hp
    refine ⟨r, hlt, hp.symm, hname, fun t ht htname => ?_⟩
    obtain ⟨j, hj, rfl⟩ := List.mem_iff_getElem.mp ht
    have hle := hmax j hj ((hzero j hj).mpr htname)
    rwa [(hat j hj).length, (hat r hlt).length] at hle

omit hsymbols in
theorem members_forall₂ (ht : DescribesType b.names b.dataTypeMembers first r t) :
    List.Forall₂ (MemberAt m symbols)
      ((List.range t.members.length).map fun j => memberPtr m symbols (first + j)) t.members := by
  obtain ⟨before, mine, after, hsplit, rfl, hmine⟩ := ht.members
  have hlen := hmine.length_eq
  rw [List.forall₂_iff_get] at hmine ⊢
  refine ⟨by simp, fun j hj hj' => ?_⟩
  simp only [List.get_eq_getElem, List.getElem_map, List.getElem_range]
  refine memberAt_of_describes h hfit hend ?_ (hmine.2 j (by omega) hj')
  rw [hsplit, List.append_assoc, List.getElem?_append_right (by omega), Nat.add_sub_cancel_left,
    List.getElem?_append_left (by omega)]
  exact List.getElem?_eq_getElem _

omit h hsymbols hfit hend in
theorem memberMatches_eq (expected : Option CString) (hp : MemberAt m symbols p mb) :
    memberMatches m symbols name expected p = mb.matches name expected := by
  have hname := (strcmp_eq_zero (s := name) hp.name).trans eq_comm
  cases expected with
  | none => simp [memberMatches, Member.matches, hname]
  | some e =>
    have hdatatype := (strcmp_eq_zero (s := e) hp.datatype).trans eq_comm
    simp [memberMatches, Member.matches, hname, hdatatype]

theorem getDatatypeMember_rel {table : List Datatype} (hnum : types.length = b.dataTypes.length)
    (htable : List.Forall₂ (fun r t => ∃ first, DescribesType b.names b.dataTypeMembers first r t)
      types table) (i : Nat) (hi : i < table.length) (name : CString) (expected : Option CString) :
    Option.Rel (MemberAt m symbols)
      (getDatatypeMember m symbols (some (datatypePtr m symbols i)) name expected)
      (table[i].members.find? (Member.matches name expected)) := by
  rw [List.forall₂_iff_get] at htable
  have hi' : i < types.length := htable.1 ▸ hi
  obtain ⟨first, ht⟩ := htable.2 i hi' hi
  simp only [List.get_eq_getElem] at ht
  have hrange : first + table[i].members.length ≤ b.dataTypeMembers.length := by
    obtain ⟨before, mine, after, hsplit, rfl, hmine⟩ := ht.members
    rw [hsplit, List.length_append, List.length_append, hmine.length_eq]
    omega
  have hfm := hfit.members
  have hrec := dataType_at (holds_flatMap _ (fun _ => DataType.length_bytes) h.types hi')
  rw [← datatypePtr_eq h hend] at hrec
  have hfirst : types[i].firstMember.toNat = first := by
    rw [ht.firstMember, UInt32.toNat_ofNat']
    omega
  have hcount : types[i].numOfMembers.toNat = table[i].members.length := by
    rw [ht.numOfMembers, UInt32.toNat_ofNat']
    omega
  simp only [getDatatypeMember, hrec, hfirst, hcount]
  split
  · exact find?_rel (members_forall₂ h hfit hend ht) fun p mb => memberMatches_eq expected
  · next hno =>
    -- the type is there, so there are no members at all
    have hft := hfit.types
    rw [hasDatatypes_eq h hsymbols, Builder.header, ofNat_bne_zero (by omega),
      ofNat_bne_zero (by omega), ← Bool.decide_and, decide_eq_true_eq] at hno
    have hnil : table[i].members = [] := List.eq_nil_of_length_eq_zero (by omega)
    rw [hnil]
    exact .none

end

-- ---------------------------------------------------------------------------
-- The round trip
-- ---------------------------------------------------------------------------

theorem publics_sorted (b : Builder) (publicSort : StdSort PublicSymbol) :
    (b.sortedPublics publicSort).Pairwise fun s t => s.address ≤ t.address := by
  refine (publicSort.sorted _ _ (StrictWeak.ofKey PublicSymbol.address UInt32.lt_irrefl
    (fun _ _ _ => UInt32.lt_trans) fun s t hst hts => ?_)).imp fun hst => ?_
  · exact UInt32.le_antisymm (UInt32.not_lt.mp hts) (UInt32.not_lt.mp hst)
  · exact UInt32.not_lt.mp (by simpa using hst)

theorem types_sorted (b : Builder) (typeSort : StdSort DataType) :
    (b.sortedTypes typeSort).Pairwise fun r s =>
      ¬ nameOf b.names s.name < nameOf b.names r.name := by
  refine (typeSort.sorted _ _ (StrictWeak.ofKey (fun r : DataType => nameOf b.names r.name)
    CString.lt_irrefl (fun _ _ _ => CString.lt_trans) fun _ _ => CString.eq_of_not_lt)).imp
    fun hrs => by simpa using hrs

theorem pairwise_of_forall₂ {R : α → β → Prop} {P : α → α → Prop} {Q : β → β → Prop}
    (h : List.Forall₂ R l l') (hl : l.Pairwise P)
    (hPQ : ∀ {a a' b b'}, R a b → R a' b' → P a a' → Q b b') : l'.Pairwise Q := by
  rw [List.forall₂_iff_get] at h
  rw [List.pairwise_iff_getElem] at hl ⊢
  intro i j hi hj hij
  have hi' : i < l.length := h.1 ▸ hi
  have hj' : j < l.length := h.1 ▸ hj
  exact hPQ (h.2 i hi' hi) (h.2 j hj' hj) (hl i j hi' hj' hij)

theorem nameOf_eq (h : names[i]? = some s) : nameOf names i = s := by
  rw [nameOf, List.getD_eq_getElem?_getD, h, Option.getD_some]

section
variable {b : Builder} {c : Catalog} (hsymbols : symbols ≠ 0) (hfit : b.SectionsFit)
  (hend : b.namesStart < 2 ^ 32) (hdesc : b.Describes c)
include hsymbols hfit hend hdesc

theorem writeFile_roundTrip (hm : Holds m symbols (b.writeFile publicSort typeSort)) :
    RoundTrip c m symbols := by
  have h := laid_writeFile hm
  have hpublicPerm : (b.sortedPublics publicSort).Perm b.publicSymbols := publicSort.perm _ _
  have htypePerm : (b.sortedTypes typeSort).Perm b.dataTypes := typeSort.perm _ _
  -- each sorted table of records has the table of what the records describe beside it
  obtain ⟨publics, hpublics, hpublics'⟩ := List.perm_comp_forall₂ hpublicPerm hdesc.publics
  obtain ⟨types, htypes, htypes'⟩ := List.perm_comp_forall₂ htypePerm hdesc.types
  have hall := publics_forall₂ h hfit hend hpublicPerm.length_eq hpublics
  have hat := typeAt_table h hfit hend htypes
  have hsorted : types.Pairwise fun t u => ¬ u.name < t.name :=
    pairwise_of_forall₂ htypes (types_sorted b typeSort) fun ⟨_, ht⟩ ⟨_, hu⟩ hlt => by
      rwa [nameOf_eq ht.name, nameOf_eq hu.name] at hlt
  have hmap : (publics.mapIdx fun i s => (publicName m symbols i, s)).map Prod.snd = publics :=
    List.ext_getElem (by simp) (by simp)
  refine ⟨⟨publics.mapIdx fun i s => (publicName m symbols i, s), by rwa [hmap], ?_, ?_, ?_⟩, ?_,
    types, htypes', hat, ?_, ?_⟩
  · have hsortedPublics : publics.Pairwise fun s t => s.address ≤ t.address :=
      pairwise_of_forall₂ hpublics (publics_sorted b publicSort) fun hs ht hle => by
        rwa [hs.address, ht.address] at hle
    rwa [← hmap, List.pairwise_map] at hsortedPublics
  · intro v hv
    obtain ⟨i, hi, rfl⟩ := List.mem_mapIdx.mp hv
    rw [List.forall₂_iff_get] at hall
    have hi' : i < (List.range (publicsNum m symbols)).length := hall.1 ▸ hi
    simpa [publicName] using (hall.2 i hi' hi).name
  · exact fun σ => enumPublics_eq h hsymbols hfit hend hpublicPerm.length_eq hpublics
  · intro name
    have hfound :=
      found_iff_of_rel
        (getPublicByName_rel h hsymbols hfit hend hpublicPerm.length_eq hpublics name)
    simpa [hpublics'.mem_iff] using hfound
  · intro hmem name
    have hne : b.dataTypeMembers ≠ [] := fun hnil => hmem (by
      have := hdesc.count
      rw [hnil] at this
      exact List.eq_nil_of_length_eq_zero this.symm)
    have hlen : types.length = b.dataTypes.length := htypes.length_eq.symm.trans htypePerm.length_eq
    simpa [htypes'.mem_iff] using getDatatype_spec h hsymbols hfit name hlen hne hat hsorted
  · exact getDatatypeMember_rel h hsymbols hfit hend htypePerm.length_eq htypes

end

theorem bcs_roundTrip (calls : List Call) (hcalls : MembersFollowTypes calls) :
    ∃ b, build calls = some b ∧ (b.SectionsFit → b.namesStart < 2 ^ 32 →
      ∀ publicSort typeSort m symbols, symbols ≠ 0 →
        Holds m symbols (b.writeFile publicSort typeSort) →
          RoundTrip (catalog calls) m symbols) := by
  obtain ⟨b, hb, hdesc⟩ := build_describes calls hcalls
  exact ⟨b, hb,
    fun hfit hend _ _ _ _ hsymbols hm => writeFile_roundTrip hsymbols hfit hend hdesc hm⟩

-- ---------------------------------------------------------------------------
-- Past 2^32
-- ---------------------------------------------------------------------------

/-- Many times the same public symbol, one type and many times the same member of it. -/
def manyCalls (p n : Nat) : List Call :=
  List.replicate (p + 1) (.publicSymbol ⟨[97], by decide⟩ 0 0) ++
    .dataType ⟨[116], by decide⟩ ⟨[107], by decide⟩ 0 0 ::
      List.replicate (n + 1) (.dataTypeMember ⟨[109], by decide⟩ ⟨[100], by decide⟩ 0 0)

def manyBuilder (p n : Nat) : Builder :=
  { Builder.start with
    names := [⟨[97], by decide⟩, ⟨[116], by decide⟩, ⟨[107], by decide⟩, ⟨[109], by decide⟩,
      ⟨[100], by decide⟩]
    publicSymbols := List.replicate (p + 1) ⟨0, 0, 0⟩
    dataTypes := [⟨1, 2, 0, 0, 0, UInt32.ofNat (n + 1)⟩]
    dataTypeMembers := List.replicate (n + 1) ⟨3, 4, 0, 0⟩ }

theorem manyCalls_follow (p n : Nat) : MembersFollowTypes (manyCalls p n) := by
  refine membersFollowTypes_of_first (fun call hcall => ?_) (by simp) (by simp)
  rw [List.eq_of_mem_replicate hcall]
  exact id

theorem build_replicate_public (p : Nat) :
    build (List.replicate (p + 1) (.publicSymbol ⟨[97], by decide⟩ 0 0)) =
      some { Builder.start with
        names := [⟨[97], by decide⟩], publicSymbols := List.replicate (p + 1) ⟨0, 0, 0⟩ } := by
  induction p with
  | zero => rfl
  | succ p ih =>
    rw [List.replicate_succ', build_concat, ih, List.replicate_succ' (n := p + 1)]
    rfl

theorem build_manyCalls (p n : Nat) : build (manyCalls p n) = some (manyBuilder p n) := by
  induction n with
  | zero =>
    rw [manyCalls, build, List.foldlM_append]
    have h := build_replicate_public p
    rw [build] at h
    rw [h]
    rfl
  | succ n ih =>
    have hcalls : manyCalls p (n + 1) =
        manyCalls p n ++ [.dataTypeMember ⟨[109], by decide⟩ ⟨[100], by decide⟩ 0 0] := by
      simp [manyCalls, List.replicate_succ' (n := n + 1)]
    have hmany : manyBuilder p (n + 1) = { manyBuilder p n with
        dataTypes := [⟨1, 2, 0, 0, 0, UInt32.ofNat (n + 1) + 1⟩]
        dataTypeMembers := List.replicate (n + 1) ⟨3, 4, 0, 0⟩ ++ [⟨3, 4, 0, 0⟩] } := by
      simp [manyBuilder, List.replicate_succ' (n := n + 1), UInt32.ofNat_add]
    rw [hcalls, build_concat, ih, hmany]
    rfl

theorem smallCalls_roundTrip :
    RoundTrip (catalog (manyCalls 0 0))
      (store (fun _ => 0) 1 ((manyBuilder 0 0).writeFile (.merge _) (.merge _))) 1 := by
  obtain ⟨b, hb, hread⟩ := bcs_roundTrip (manyCalls 0 0) (manyCalls_follow 0 0)
  obtain rfl : manyBuilder 0 0 = b := Option.some.inj ((build_manyCalls 0 0).symm.trans hb)
  exact hread ⟨by decide, by decide, by decide, by decide⟩ (by decide) (.merge _) (.merge _) _ 1
    (by decide) holds_store

theorem manyBuilder_lengths (p n : Nat) : (manyBuilder p n).publicSymbols.length = p + 1 ∧
    (manyBuilder p n).dataTypeMembers.length = n + 1 :=
  ⟨List.length_replicate, List.length_replicate⟩

theorem manyBuilder_names (p n : Nat) : (manyBuilder p n).header.names =
    60 + UInt32.ofNat (12 * (p + 1)) + UInt32.ofNat 24 + UInt32.ofNat (16 * (n + 1)) := by
  simp only [Builder.header, manyBuilder_lengths]
  rfl

theorem manyCalls_public (p n : Nat) :
    ∃ s ∈ (catalog (manyCalls p n)).publics, s.name = ⟨[97], by decide⟩ := by
  obtain ⟨b, hb, hdesc⟩ := build_describes _ (manyCalls_follow p n)
  obtain rfl : manyBuilder p n = b := Option.some.inj ((build_manyCalls p n).symm.trans hb)
  have hpublics := hdesc.publics
  rw [manyBuilder, List.replicate_succ] at hpublics
  generalize (catalog (manyCalls p n)).publics = publics at hpublics
  cases hpublics with
  | @cons _ s _ _ hs _ => exact ⟨s, List.mem_cons_self, (Option.some.inj hs.name).symm⟩

/-- When the offset of the names wraps around to the public symbols, the first of which is all
zeros, every name reads as the empty string. -/
theorem getPublicByName_wrapped (hwrap : (manyBuilder p n).header.names = 60)
    (hfit : (manyBuilder p n).SectionsFit)
    (hm : Holds m symbols ((manyBuilder p n).writeFile publicSort typeSort)) (c : UInt8)
    (rest : List UInt8) (hname : 0 ∉ c :: rest) :
    getPublicByName m symbols ⟨c :: rest, hname⟩ = none := by
  have h := laid_writeFile hm
  have hperm : ((manyBuilder p n).sortedPublics publicSort).Perm
      (List.replicate (p + 1) ⟨0, 0, 0⟩) :=
    publicSort.perm _ _
  rw [List.perm_replicate.mp hperm] at h
  have hzero : m (symbols + 60) = 0 := by
    have hfirst := h.publics
    rw [List.replicate_succ, List.flatMap_cons, holds_append] at hfirst
    exact (holds_cons.mp hfirst.1).1
  have hat : ∀ i < p + 1, publicName m symbols i = symbols + 60 := by
    intro i hi
    have hrec := publicSymbol_at (holds_flatMap _ (fun _ => PublicSymbol.length_bytes) h.publics
      (i := i) (by simpa using hi))
    rw [← publicPtr_eq h, List.getElem_replicate] at hrec
    rw [publicName, hrec, getNameFromOffset, h.header, hwrap]
    rfl
  have hc : c ≠ 0 := fun hc => hname (hc ▸ List.mem_cons_self)
  have hnum : publicsNum m symbols = p + 1 := by
    rw [publicsNum_eq h hfit]
    exact List.length_replicate
  rw [getPublicByName]
  split
  · rw [Option.map_eq_none_iff, List.find?_eq_none, hnum]
    intro i hi
    rw [hat i (List.mem_range.mp hi)]
    simp only [strcmp, strcmpAt, hzero, hc]
    simp
  · rfl

/-- Each table is below 2^31 bytes, and they end 60 bytes past 2^32. -/
def wrappingCalls : List Call := manyCalls 178956969 134217726

theorem wrappingCalls_lost : MembersFollowTypes wrappingCalls ∧
    ∃ b, build wrappingCalls = some b ∧ b.SectionsFit ∧
      (∃ s ∈ (catalog wrappingCalls).publics, s.name = ⟨[97], by decide⟩) ∧
      getPublicByName (store (fun _ => 0) 1 (b.writeFile (.merge _) (.merge _))) 1
        ⟨[97], by decide⟩ = none := by
  have hfit : (manyBuilder 178956969 134217726).SectionsFit := by
    obtain ⟨hp, hn⟩ := manyBuilder_lengths 178956969 134217726
    refine ⟨?_, by decide, ?_, by decide⟩
    · rw [hp]
      decide
    · rw [hn]
      decide
  refine ⟨manyCalls_follow _ _, _, build_manyCalls _ _, hfit, manyCalls_public _ _, ?_⟩
  exact getPublicByName_wrapped ((manyBuilder_names _ _).trans (by decide)) hfit holds_store 97 []
    (by decide)

end BugChecker.Symbols
