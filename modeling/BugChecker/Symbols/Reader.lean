import BugChecker.Lib.Strings

/-!
# Reading a BCS file

The driver keeps a symbol file in memory and reads it in place, by pointers to
the header, to the records and to the names. A pointer is a position of the
memory; `none` is the null pointer that the searches return.
-/

namespace BugChecker.Symbols

open Bytes Strings

-- ---------------------------------------------------------------------------
-- The layout
-- ---------------------------------------------------------------------------

/-- `BCSFILE_HEADER` at a pointer. -/
structure BcsHeader where
  magic : UInt32
  version : UInt32
  publicSymbols : UInt32
  publicSymbolsSize : UInt32
  datatypes : UInt32
  datatypesSize : UInt32
  datatypeMembers : UInt32
  datatypeMembersSize : UInt32
  names : UInt32

def BcsHeader.at (m : Memory) (p : Nat) : BcsHeader where
  magic := ulong m p
  version := ulong m (p + 4)
  -- the GUID and the age, which no reader looks at
  publicSymbols := ulong m (p + 28)
  publicSymbolsSize := ulong m (p + 32)
  datatypes := ulong m (p + 36)
  datatypesSize := ulong m (p + 40)
  datatypeMembers := ulong m (p + 44)
  datatypeMembersSize := ulong m (p + 48)
  names := ulong m (p + 52)

/-- `BCSFILE_PUBLIC_SYMBOL`. -/
structure BcsPublicSymbol where
  name : UInt32
  address : UInt32
  length : UInt32

def BcsPublicSymbol.at (m : Memory) (p : Nat) : BcsPublicSymbol :=
  ⟨ulong m p, ulong m (p + 4), ulong m (p + 8)⟩

/-- `BCSFILE_DATATYPE`. -/
structure BcsDatatype where
  name : UInt32
  kind : UInt32
  length : UInt32
  pdbIndex : UInt32
  firstMember : UInt32
  numOfMembers : UInt32

def BcsDatatype.at (m : Memory) (p : Nat) : BcsDatatype :=
  ⟨ulong m p, ulong m (p + 4), ulong m (p + 8), ulong m (p + 12), ulong m (p + 16),
    ulong m (p + 20)⟩

/-- `BCSFILE_DATATYPE_MEMBER`. -/
structure BcsDatatypeMember where
  name : UInt32
  datatype : UInt32
  offset : UInt32
  pdbDatatypeIndex : UInt32

def BcsDatatypeMember.at (m : Memory) (p : Nat) : BcsDatatypeMember :=
  ⟨ulong m p, ulong m (p + 4), ulong m (p + 8), ulong m (p + 12)⟩

-- ---------------------------------------------------------------------------
-- The searches
-- ---------------------------------------------------------------------------

/-- The position found, with `pred` the comparison of the key with the entry there. -/
def binarySearch (pred : Nat → Int) (start_index end_index : Int) : Option Nat :=
  if start_index ≤ end_index then
    let middle := start_index + (end_index - start_index) / 2
    let comp := pred middle.toNat
    if comp = 0 then some middle.toNat
    else if comp > 0 then binarySearch pred (middle + 1) end_index
    else binarySearch pred start_index (middle - 1)
  else none
termination_by (end_index + 1 - start_index).toNat

/-- The first entry of the run of equal names that ends before `i`. -/
def runStart (comp : Nat → Int) : Nat → Nat
  | 0 => 0
  | i + 1 => if comp i ≠ 0 then i + 1 else runStart comp i

/-- The forward walk over a run of equal names, keeping the longest type seen. -/
def mostComplete (comp : Nat → Int) (length : Nat → UInt32) (num i search : Nat) : Nat :=
  if i < num ∧ comp i = 0 then
    mostComplete comp length num (i + 1) (if length i > length search then i else search)
  else search
termination_by num - i

/-- The key is compared with a sorted table. -/
structure Ordered (comp : Nat → Int) (num : Nat) : Prop where
  before : ∀ {i j}, i < j → j < num → 0 < comp j → 0 < comp i
  after : ∀ {i j}, i < j → j < num → comp i < 0 → comp j < 0

theorem Ordered.between (h : Ordered comp num) (hij : i ≤ j) (hjk : j ≤ k) (hk : k < num)
    (hi : comp i = 0) (hk0 : comp k = 0) : comp j = 0 := by
  rcases Nat.eq_or_lt_of_le hij with rfl | hij
  · exact hi
  rcases Nat.eq_or_lt_of_le hjk with rfl | hjk
  · exact hk0
  rcases lt_trichotomy (comp j) 0 with hneg | hzero | hpos
  · have := h.after hjk hk hneg
    omega
  · exact hzero
  · have := h.before hij (hjk.trans hk) hpos
    omega

theorem binarySearch_found (hs : 0 ≤ s) (h : binarySearch pred s e = some i) :
    s ≤ i ∧ i ≤ e ∧ pred i = 0 := by
  fun_induction binarySearch pred s e with
  | case1 s e hle middle comp hcomp =>
    obtain rfl : middle.toNat = i := Option.some.inj h
    exact ⟨by omega, by omega, hcomp⟩
  | case2 s e hle middle comp hne hpos ih =>
    obtain ⟨hlo, hhi, hi⟩ := ih (by omega) h
    exact ⟨by omega, hhi, hi⟩
  | case3 s e hle middle comp hne hpos ih =>
    obtain ⟨hlo, hhi, hi⟩ := ih hs h
    exact ⟨hlo, by omega, hi⟩
  | case4 => cases h

theorem binarySearch_finds {s e : Int} {i : Nat} (hord : Ordered pred num) (hs : 0 ≤ s)
    (he : e < num) (hsi : s ≤ i)
    (hie : i ≤ e) (hi : pred i = 0) : ∃ j, binarySearch pred s e = some j := by
  fun_induction binarySearch pred s e with
  | case1 s e hle middle comp hcomp => exact ⟨_, rfl⟩
  | case2 s e hle middle comp hne hpos ih =>
    -- the entries up to the middle are below the key
    refine ih (by omega) he ?_ hie
    by_contra hlt
    rcases Nat.eq_or_lt_of_le (show i ≤ middle.toNat by omega) with rfl | hlt'
    · exact hne hi
    · have := hord.before hlt' (by omega) hpos
      omega
  | case3 s e hle middle comp hne hpos ih =>
    refine ih hs (by omega) hsi ?_
    by_contra hlt
    rcases Nat.eq_or_lt_of_le (show middle.toNat ≤ i by omega) with rfl | hlt'
    · exact hne hi
    · have := hord.after hlt' (by omega) (show pred middle.toNat < 0 by omega)
      omega
  | case4 => omega

theorem runStart_eq_zero (comp : Nat → Int) (i : Nat) (hi : comp i = 0) :
    ∀ j, runStart comp i ≤ j → j ≤ i → comp j = 0 := by
  induction i with
  | zero =>
    intro j _ hj
    rwa [Nat.le_zero.mp hj]
  | succ i ih =>
    intro j hj hji
    rw [runStart] at hj
    rcases Nat.eq_or_lt_of_le hji with rfl | hlt
    · exact hi
    · split at hj
      · omega
      · next heq => exact ih (not_not.mp heq) j hj (Nat.le_of_lt_succ hlt)

theorem runStart_le_of_eq (hord : Ordered comp num) (hs : search < num) (hsearch : comp search = 0)
    (his : i ≤ search) (hrun : ∀ k, i ≤ k → k < search → comp k = 0) (hj : comp j = 0) :
    runStart comp i ≤ j := by
  induction i with
  | zero => exact Nat.zero_le j
  | succ i ih =>
    rw [runStart]
    split
    · next hne =>
      by_contra hlt
      exact hne (hord.between (by omega) (by omega) hs hj hsearch)
    · next heq =>
      refine ih (by omega) fun k hik hk => ?_
      rcases Nat.eq_or_lt_of_le hik with rfl | hik
      · exact not_not.mp heq
      · exact hrun k hik hk

theorem mostComplete_spec (length : Nat → UInt32) (hord : Ordered comp num) (hs : search < num)
    (hsearch : comp search = 0) (hrun : ∀ j, i ≤ j → j ≤ search → comp j = 0) :
    mostComplete comp length num i search < num ∧
      comp (mostComplete comp length num i search) = 0 ∧
      length search ≤ length (mostComplete comp length num i search) ∧
      ∀ j, i ≤ j → j < num → comp j = 0 →
        length j ≤ length (mostComplete comp length num i search) := by
  fun_induction mostComplete comp length num i search with
  | case1 i search hi ih =>
    have hnext : ∀ k, (if length i > length search then i else search) = k →
        k < num ∧ comp k = 0 ∧ (∀ j, i + 1 ≤ j → j ≤ k → comp j = 0) ∧
          length search ≤ length k ∧ length i ≤ length k := by
      intro k hk
      split at hk
      · next hgt =>
        subst hk
        exact ⟨hi.1, hi.2, fun j hj hj' => by omega, UInt32.le_of_lt hgt, UInt32.le_refl _⟩
      · next hle =>
        subst hk
        exact ⟨hs, hsearch, fun j hj => hrun j (by omega), UInt32.le_refl _, UInt32.not_lt.mp hle⟩
    obtain ⟨hk, hk0, hkrun, hsk, hik⟩ := hnext _ rfl
    obtain ⟨hr, hr0, hkr, hall⟩ := ih hk hk0 hkrun
    refine ⟨hr, hr0, UInt32.le_trans hsk hkr, fun j hij hj hj0 => ?_⟩
    rcases Nat.eq_or_lt_of_le hij with rfl | hij
    · exact UInt32.le_trans hik hkr
    · exact hall j hij hj hj0
  | case2 i search hstop =>
    refine ⟨hs, hsearch, UInt32.le_refl _, fun j hij hj hj0 => ?_⟩
    -- the walk stops past the run: an equal name after it would make the entry at `i` equal too
    rcases Nat.lt_or_ge search i with hlt | hge
    · exact absurd ⟨by omega, hord.between (Nat.le_of_lt hlt) hij hj hsearch hj0⟩ hstop
    · exact absurd ⟨by omega, hrun i (Nat.le_refl i) hge⟩ hstop

theorem binarySearch_mostComplete {search : Nat} (length : Nat → UInt32) (hord : Ordered comp num)
    (h : binarySearch comp 0 ((num : Int) - 1) = some search) :
    ∃ r, mostComplete comp length num (runStart comp search) search = r ∧ r < num ∧ comp r = 0 ∧
      ∀ j < num, comp j = 0 → length j ≤ length r := by
  obtain ⟨-, hs, hsearch⟩ := binarySearch_found (Int.le_refl 0) h
  have hs : search < num := by omega
  have hstart : ∀ j, comp j = 0 → runStart comp search ≤ j := fun j =>
    runStart_le_of_eq hord hs hsearch (Nat.le_refl _) fun k hk hk' => by omega
  obtain ⟨hr, hr0, -, hall⟩ := mostComplete_spec length hord hs hsearch
    (runStart_eq_zero comp search hsearch)
  exact ⟨_, rfl, hr, hr0, fun j hj hj0 => hall j (hstart j hj0) hj hj0⟩

section
variable (m : Memory) (symbols : Nat)

def isBcsValid (header : Nat) : Bool :=
  header ≠ 0 && (BcsHeader.at m header).magic == 0x00534342 && (BcsHeader.at m header).version == 2

def publicsAt : Nat := symbols + (BcsHeader.at m symbols).publicSymbols.toNat

def publicsNum : Nat := (BcsHeader.at m symbols).publicSymbolsSize.toNat / 12

def datatypesAt : Nat := symbols + (BcsHeader.at m symbols).datatypes.toNat

def datatypesNum : Nat := (BcsHeader.at m symbols).datatypesSize.toNat / 24

def membersAt : Nat := symbols + (BcsHeader.at m symbols).datatypeMembers.toNat

def getNameFromOffset (offset : UInt32) : Nat :=
  symbols + (BcsHeader.at m symbols).names.toNat + offset.toNat

/-- `pubs + i`, `dts + i` and `mbs + i` step by the size of a record. -/
def publicPtr (i : Nat) : Nat := publicsAt m symbols + 12 * i

def datatypePtr (i : Nat) : Nat := datatypesAt m symbols + 24 * i

def memberPtr (i : Nat) : Nat := membersAt m symbols + 16 * i

def hasPublics : Bool :=
  isBcsValid m symbols && (BcsHeader.at m symbols).publicSymbolsSize != 0

def hasDatatypes : Bool :=
  isBcsValid m symbols && (BcsHeader.at m symbols).datatypesSize != 0 &&
    (BcsHeader.at m symbols).datatypeMembersSize != 0

def publicName (i : Nat) : Nat :=
  getNameFromOffset m symbols (BcsPublicSymbol.at m (publicPtr m symbols i)).name

def compareDatatype (typeName : CString) (i : Nat) : Int :=
  strcmp typeName m (getNameFromOffset m symbols (BcsDatatype.at m (datatypePtr m symbols i)).name)

def getDatatype (typeName : CString) : Option Nat :=
  if hasDatatypes m symbols then
    let dtsNum := datatypesNum m symbols
    let comp := compareDatatype m symbols typeName
    let length := fun i => (BcsDatatype.at m (datatypePtr m symbols i)).length
    match binarySearch comp 0 (dtsNum - 1) with
    | none => none
    | some search =>
      some (datatypePtr m symbols (mostComplete comp length dtsNum (runStart comp search) search))
  else none

def memberMatches (memberName : CString) (expectedType : Option CString) (p : Nat) : Bool :=
  strcmp memberName m (getNameFromOffset m symbols (BcsDatatypeMember.at m p).name) = 0 &&
    match expectedType with
    | none => true
    | some expected =>
      strcmp expected m (getNameFromOffset m symbols (BcsDatatypeMember.at m p).datatype) = 0

def getDatatypeMember (datatype : Option Nat) (memberName : CString)
    (expectedType : Option CString) : Option Nat :=
  match datatype with
  | none => none
  | some datatype =>
    if hasDatatypes m symbols then
      let first := (BcsDatatype.at m datatype).firstMember.toNat
      let num := (BcsDatatype.at m datatype).numOfMembers.toNat
      ((List.range num).map fun i => memberPtr m symbols (first + i)).find?
        (memberMatches m symbols memberName expectedType)
    else none

/-- The arguments of `strcmp` are the other way around; only equality is asked for. -/
def getPublicByName (name : CString) : Option Nat :=
  if hasPublics m symbols then
    ((List.range (publicsNum m symbols)).find? fun i =>
      strcmp name m (publicName m symbols i) = 0).map (publicPtr m symbols)
  else none

/-- The callbacks of a run, each with the context the one before left, until one declines. -/
def visit (callback : σ → α → σ × Bool) (context : σ) : List α → σ
  | [] => context
  | x :: xs =>
    match callback context x with
    | (context, true) => visit callback context xs
    | (context, false) => context

def enumPublics (context : σ) (callback : σ → Nat × UInt32 × UInt32 → σ × Bool) : σ :=
  if hasPublics m symbols then
    visit callback context ((List.range (publicsNum m symbols)).map fun i =>
      let pub := BcsPublicSymbol.at m (publicPtr m symbols i)
      (publicName m symbols i, pub.address, pub.length))
  else context

end

end BugChecker.Symbols
