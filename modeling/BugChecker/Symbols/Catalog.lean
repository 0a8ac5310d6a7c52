import BugChecker.Symbols.Format

/-!
# What was added

A catalog is what a sequence of calls is for: the public symbols, and the data
types with their own members, by name. The tables of the converter describe it:
they hold the same symbols in the same order, names by index, and the members
of all types in one table of which each type has a range.
-/

namespace BugChecker.Symbols

open Strings

structure Public where
  name : CString
  address : UInt32
  length : UInt32

structure Member where
  name : CString
  datatype : CString
  offset : UInt32
  index : UInt32

structure Datatype where
  name : CString
  kind : CString
  length : UInt32
  index : UInt32
  members : List Member

structure Catalog where
  publics : List Public
  types : List Datatype

def Datatype.addMember (t : Datatype) (mb : Member) : Datatype :=
  { t with members := t.members ++ [mb] }

/-- Symbols without a name, a kind or a datatype are not taken. A member goes to the last type. -/
def Catalog.add (c : Catalog) : Call → Catalog
  | .savePdbInfo .. => c
  | .publicSymbol name address length =>
    if name.bytes = [] then c else { c with publics := c.publics ++ [⟨name, address, length⟩] }
  | .dataType name kind length index =>
    if name.bytes = [] ∨ kind.bytes = [] then c
    else { c with types := c.types ++ [⟨name, kind, length, index, []⟩] }
  | .dataTypeMember name datatype offset index =>
    if name.bytes = [] ∨ datatype.bytes = [] then c
    else
      match c.types.getLast? with
      | none => c
      | some t =>
        { c with types := c.types.dropLast ++ [t.addMember ⟨name, datatype, offset, index⟩] }

def catalog (calls : List Call) : Catalog := calls.foldl Catalog.add ⟨[], []⟩

def Catalog.members (c : Catalog) : List Member := c.types.flatMap Datatype.members

def Call.IsMember : Call → Prop
  | .dataTypeMember name datatype _ _ => name.bytes ≠ [] ∧ datatype.bytes ≠ []
  | _ => False

/-- Every member is added after some accepted type. -/
def MembersFollowTypes (calls : List Call) : Prop :=
  ∀ before call after, calls = before ++ call :: after → call.IsMember →
    (catalog before).types ≠ []

@[simp] theorem catalog_nil : catalog [] = ⟨[], []⟩ := rfl

@[simp] theorem catalog_concat : catalog (calls ++ [call]) = (catalog calls).add call := by
  simp [catalog]

@[simp] theorem build_nil : build [] = some Builder.start := rfl

@[simp] theorem build_concat : build (calls ++ [call]) = (build calls).bind (·.call call) := by
  simp [build]

theorem add_types_ne_nil (call : Call) (h : c.types ≠ []) : (Catalog.add c call).types ≠ [] := by
  cases call with
  | savePdbInfo guid age => exact h
  | publicSymbol name address length =>
    simp only [Catalog.add]
    split
    · exact h
    · exact h
  | dataType name kind length index =>
    simp only [Catalog.add]
    split
    · exact h
    · simp
  | dataTypeMember name datatype offset index =>
    simp only [Catalog.add]
    split
    · exact h
    · split
      · exact h
      · simp

theorem foldl_types_ne_nil (calls : List Call) (h : c.types ≠ []) :
    (calls.foldl Catalog.add c).types ≠ [] := by
  induction calls generalizing c with
  | nil => exact h
  | cons call calls ih => exact ih (add_types_ne_nil call h)

theorem membersFollowTypes_of_first (hbefore : ∀ call ∈ before, ¬ Call.IsMember call)
    (hname : name.bytes ≠ []) (hkind : kind.bytes ≠ []) :
    MembersFollowTypes (before ++ .dataType name kind length index :: after) := by
  intro front call rest heq hmember
  rcases List.append_eq_append_iff.mp heq with ⟨mid, rfl, hrest⟩ | ⟨mid, rfl, hrest⟩
  · cases mid with
    | nil =>
      cases hrest
      exact hmember.elim
    | cons first mid =>
      cases hrest
      rw [catalog, List.foldl_append]
      exact foldl_types_ne_nil mid (by simp [Catalog.add, hname, hkind])
  · cases mid with
    | nil =>
      cases hrest
      exact hmember.elim
    | cons first mid =>
      cases hrest
      exact absurd hmember (hbefore call (by simp))

-- ---------------------------------------------------------------------------
-- Names by index
-- ---------------------------------------------------------------------------

theorem addName_spec (names : List CString) (name : CString) :
    names <+: (addName names name).2 ∧
      (addName names name).2[(addName names name).1]? = some name := by
  unfold addName
  cases h : names.findIdx? (· == name) with
  | none => simp
  | some i =>
    obtain ⟨hi, heq, -⟩ := List.findIdx?_eq_some_iff_getElem.mp h
    refine ⟨List.prefix_rfl, ?_⟩
    rw [List.getElem?_eq_getElem hi]
    exact congrArg some (beq_iff_eq.mp heq)

theorem getElem?_mono {l l' : List α} {i : Nat} (h : l <+: l') (hi : l[i]? = some a) :
    l'[i]? = some a := by
  obtain ⟨rest, rfl⟩ := h
  rw [List.getElem?_append_left (List.getElem?_eq_some_iff.mp hi).1, hi]

structure DescribesPublic (names : List CString) (s : PublicSymbol) (p : Public) : Prop where
  name : names[s.name]? = some p.name
  address : s.address = p.address
  length : s.length = p.length

structure DescribesMember (names : List CString) (r : DataTypeMember) (mb : Member) : Prop where
  name : names[r.name]? = some mb.name
  datatype : names[r.datatype]? = some mb.datatype
  offset : r.offset = mb.offset
  index : r.pdbDatatypeIndex = mb.index

/-- The members of the type are those from `first` on. -/
structure DescribesType (names : List CString) (members : List DataTypeMember) (first : Nat)
    (r : DataType) (t : Datatype) : Prop where
  name : names[r.name]? = some t.name
  kind : names[r.kind]? = some t.kind
  length : r.length = t.length
  index : r.pdbIndex = t.index
  firstMember : r.firstMember = UInt32.ofNat first
  numOfMembers : r.numOfMembers = UInt32.ofNat t.members.length
  members : ∃ before mine after, members = before ++ mine ++ after ∧ before.length = first ∧
    List.Forall₂ (DescribesMember names) mine t.members

section
variable {names names' : List CString} {members members' : List DataTypeMember}

theorem DescribesPublic.mono (hn : names <+: names') (h : DescribesPublic names s p) :
    DescribesPublic names' s p :=
  ⟨getElem?_mono hn h.name, h.address, h.length⟩

theorem DescribesMember.mono (hn : names <+: names') (h : DescribesMember names r mb) :
    DescribesMember names' r mb :=
  ⟨getElem?_mono hn h.name, getElem?_mono hn h.datatype, h.offset, h.index⟩

theorem DescribesType.mono (hn : names <+: names') (hm : members <+: members')
    (h : DescribesType names members first r t) : DescribesType names' members' first r t := by
  obtain ⟨before, mine, after, rfl, hfirst, hmine⟩ := h.members
  obtain ⟨rest, rfl⟩ := hm
  exact ⟨getElem?_mono hn h.name, getElem?_mono hn h.kind, h.length, h.index,
    h.firstMember, h.numOfMembers,
    before, mine, after ++ rest, by simp, hfirst, hmine.imp fun _ _ => DescribesMember.mono hn⟩

end

-- ---------------------------------------------------------------------------
-- The tables describe the catalog
-- ---------------------------------------------------------------------------

structure Builder.Describes (b : Builder) (c : Catalog) : Prop where
  publics : List.Forall₂ (DescribesPublic b.names) b.publicSymbols c.publics
  types : List.Forall₂ (fun r t => ∃ first, DescribesType b.names b.dataTypeMembers first r t)
    b.dataTypes c.types
  /-- The range of the last type is the end of the table. -/
  open_end : ∀ r ∈ b.dataTypes.getLast?, ∀ t ∈ c.types.getLast?,
    ∃ before mine, b.dataTypeMembers = before ++ mine ∧
      r.firstMember = UInt32.ofNat before.length ∧
      List.Forall₂ (DescribesMember b.names) mine t.members
  count : b.dataTypeMembers.length = c.members.length

theorem start_describes : Builder.start.Describes ⟨[], []⟩ :=
  ⟨.nil, .nil, by simp [Builder.start], rfl⟩

theorem forall₂_concat (h : List.Forall₂ R l l') (hab : R a b) :
    List.Forall₂ R (l ++ [a]) (l' ++ [b]) :=
  List.rel_append h (.cons hab .nil)

theorem forall₂_concat_right (h : List.Forall₂ R l (l' ++ [b])) :
    ∃ init a, l = init ++ [a] ∧ List.Forall₂ R init l' ∧ R a b := by
  induction l' generalizing l with
  | nil =>
    cases h with
    | cons hab hnil =>
      cases hnil
      exact ⟨[], _, rfl, .nil, hab⟩
  | cons y l' ih =>
    cases h with
    | cons hxy h =>
      obtain ⟨init, a, rfl, hinit, hab⟩ := ih h
      exact ⟨_ :: init, a, rfl, .cons hxy hinit, hab⟩

theorem addPublicSymbol_describes (h : b.Describes c) :
    (addPublicSymbol b name address length).Describes
      (c.add (.publicSymbol name address length)) := by
  by_cases hne : name.bytes = []
  · simpa only [addPublicSymbol, Catalog.add, if_pos hne] using h
  · obtain ⟨hn, hname⟩ := addName_spec b.names name
    simp only [addPublicSymbol, Catalog.add, if_neg hne]
    refine ⟨forall₂_concat (h.publics.imp fun _ _ => DescribesPublic.mono hn) ⟨hname, rfl, rfl⟩,
      h.types.imp fun _ _ ⟨first, ht⟩ => ⟨first, ht.mono hn List.prefix_rfl⟩, ?_, h.count⟩
    intro r hr t ht
    obtain ⟨before, mine, hsplit, hfirst, hmine⟩ := h.open_end r hr t ht
    exact ⟨before, mine, hsplit, hfirst, hmine.imp fun _ _ => DescribesMember.mono hn⟩

theorem addDataType_describes (h : b.Describes c) :
    (addDataType b name kind length index).Describes
      (c.add (.dataType name kind length index)) := by
  by_cases hne : name.bytes = [] ∨ kind.bytes = []
  · simpa only [addDataType, Catalog.add, if_pos hne] using h
  · obtain ⟨hn, hname⟩ := addName_spec b.names name
    obtain ⟨hn', hkind⟩ := addName_spec (addName b.names name).2 kind
    have hnn := hn.trans hn'
    simp only [addDataType, Catalog.add, if_neg hne]
    refine ⟨h.publics.imp fun _ _ => DescribesPublic.mono hnn,
      forall₂_concat (h.types.imp fun _ _ ⟨first, ht⟩ => ⟨first, ht.mono hnn List.prefix_rfl⟩)
        ⟨b.dataTypeMembers.length, getElem?_mono hn' hname, hkind, rfl, rfl, rfl, rfl,
          b.dataTypeMembers, [], [], by simp, rfl, .nil⟩, ?_, ?_⟩
    · intro r hr t ht
      simp only [List.getLast?_append, List.getLast?_singleton, Option.some_or,
        Option.mem_some_iff] at hr ht
      subst hr ht
      exact ⟨b.dataTypeMembers, [], by simp, rfl, .nil⟩
    · simpa [Catalog.members] using h.count

theorem addDataTypeMember_describes (h : b.Describes c)
    (hlast : name.bytes ≠ [] ∧ datatype.bytes ≠ [] → c.types ≠ []) :
    ∃ b', addDataTypeMember b name datatype offset index = some b' ∧
      b'.Describes (c.add (.dataTypeMember name datatype offset index)) := by
  by_cases hne : name.bytes = [] ∨ datatype.bytes = []
  · exact ⟨b, by rw [addDataTypeMember, if_pos hne], by rwa [Catalog.add, if_pos hne]⟩
  · obtain ⟨hn, hname⟩ := addName_spec b.names name
    obtain ⟨hn', hdatatype⟩ := addName_spec (addName b.names name).2 datatype
    have hnn := hn.trans hn'
    obtain ⟨ts, t, hts⟩ := (List.eq_nil_or_concat c.types).resolve_left (hlast (not_or.mp hne))
    rw [List.concat_eq_append] at hts
    obtain ⟨rs, r, hrs, hfront, first, hback⟩ := forall₂_concat_right (hts ▸ h.types)
    obtain ⟨before, mine, hsplit, hfirst, hmine⟩ := h.open_end r (by simp [hrs]) t (by simp [hts])
    -- the new member extends the range of the last type, the end of the table
    have hnew : List.Forall₂ (DescribesMember (addName (addName b.names name).2 datatype).2)
        (mine ++ [⟨(addName b.names name).1, (addName (addName b.names name).2 datatype).1,
          offset, index⟩]) (t.addMember ⟨name, datatype, offset, index⟩).members :=
      forall₂_concat (hmine.imp fun _ _ => DescribesMember.mono hnn)
        ⟨getElem?_mono hn' hname, hdatatype, rfl, rfl⟩
    simp only [addDataTypeMember, Catalog.add, if_neg hne, hrs, hts, List.getLast?_append,
      List.getLast?_singleton, Option.some_or, List.dropLast_concat]
    refine ⟨_, rfl, h.publics.imp fun _ _ => DescribesPublic.mono hnn, ?_, ?_, ?_⟩
    · refine forall₂_concat (hfront.imp fun _ _ ⟨first, ht⟩ =>
        ⟨first, ht.mono hnn (List.prefix_append _ _)⟩) ⟨before.length, ?_⟩
      have hback' := hback.mono hnn (List.prefix_append b.dataTypeMembers [])
      exact ⟨hback'.name, hback'.kind, hback.length, hback.index, hfirst,
        by simp [hback.numOfMembers, Datatype.addMember, UInt32.ofNat_add],
        before, _, [], by rw [hsplit, List.append_nil, List.append_assoc], rfl, hnew⟩
    · intro r' hr' t' ht'
      simp only [List.getLast?_append, List.getLast?_singleton, Option.some_or,
        Option.mem_some_iff] at hr' ht'
      subst hr' ht'
      exact ⟨before, _, by rw [hsplit, List.append_assoc], hfirst, hnew⟩
    · have hcount := h.count
      simp only [Catalog.members, hts, List.flatMap_append, List.flatMap_singleton,
        List.length_append, Datatype.addMember, List.length_singleton] at hcount ⊢
      omega

theorem call_describes {b : Builder} {c : Catalog} {call : Call} (h : b.Describes c)
    (hcall : call.IsMember → c.types ≠ []) :
    ∃ b', b.call call = some b' ∧ b'.Describes (c.add call) := by
  cases call with
  | savePdbInfo guid age => exact ⟨_, rfl, h.publics, h.types, h.open_end, h.count⟩
  | publicSymbol name address length => exact ⟨_, rfl, addPublicSymbol_describes h⟩
  | dataType name kind length index => exact ⟨_, rfl, addDataType_describes h⟩
  | dataTypeMember name datatype offset index => exact addDataTypeMember_describes h hcall

theorem build_describes (calls : List Call) (h : MembersFollowTypes calls) :
    ∃ b, build calls = some b ∧ b.Describes (catalog calls) := by
  induction calls using List.reverseRecOn with
  | nil => exact ⟨_, rfl, start_describes⟩
  | append_singleton calls call ih =>
    obtain ⟨b, hb, hdesc⟩ := ih fun before call' after heq =>
      h before call' (after ++ [call]) (by simp [heq])
    obtain ⟨b', hb', hdesc'⟩ := call_describes hdesc (h calls call [] rfl)
    exact ⟨b', by rw [build_concat, hb, Option.bind_some, hb'], by rwa [catalog_concat]⟩

end BugChecker.Symbols
