import BugChecker.Lib.Sorting
import BugChecker.Lib.Strings

/-!
# Writing a BCS file

The symbol converter collects public symbols, data types and their members in
growing tables that refer to names by index, and writes them as one file: a
header, three tables of records, and the names. Every number in the file is a
32-bit one. This is the converter's side; it shares nothing with the driver
but the layout.
-/

namespace BugChecker.Symbols

open Bytes Strings Sorting

structure PublicSymbol where
  name : Nat
  address : UInt32
  length : UInt32
  deriving DecidableEq

structure DataType where
  name : Nat
  kind : Nat
  length : UInt32
  pdbIndex : UInt32
  firstMember : UInt32
  numOfMembers : UInt32
  deriving DecidableEq

structure DataTypeMember where
  name : Nat
  datatype : Nat
  offset : UInt32
  pdbDatatypeIndex : UInt32
  deriving DecidableEq

structure Guid where
  bytes : List UInt8
  length_bytes : bytes.length = 16

structure Builder where
  publicSymbols : List PublicSymbol
  names : List CString
  dataTypes : List DataType
  dataTypeMembers : List DataTypeMember
  guid : Guid
  age : UInt32

def Builder.start : Builder :=
  { publicSymbols := [], names := [], dataTypes := [], dataTypeMembers := [],
    guid := ⟨List.replicate 16 0, rfl⟩, age := 0 }

-- ---------------------------------------------------------------------------
-- Adding symbols
-- ---------------------------------------------------------------------------

/-- The index of a name, saved at the end unless it is there already. -/
def addName (names : List CString) (name : CString) : Nat × List CString :=
  match names.findIdx? (· == name) with
  | some i => (i, names)
  | none => (names.length, names ++ [name])

def savePdbInfo (b : Builder) (guid : Guid) (age : UInt32) : Builder :=
  { b with guid := guid, age := age }

def addPublicSymbol (b : Builder) (name : CString) (address length : UInt32) : Builder :=
  if name.bytes = [] then b
  else
    let (nameIndex, names) := addName b.names name
    { b with
      names := names
      publicSymbols := b.publicSymbols ++ [⟨nameIndex, address, length⟩] }

def addDataType (b : Builder) (name kind : CString) (length index : UInt32) : Builder :=
  if name.bytes = [] ∨ kind.bytes = [] then b
  else
    let (nameIndex, names) := addName b.names name
    let (kindIndex, names) := addName names kind
    { b with
      names := names
      dataTypes := b.dataTypes ++
        [⟨nameIndex, kindIndex, length, index, UInt32.ofNat b.dataTypeMembers.length, 0⟩] }

/-- `none` is `DataTypes.back()` of an empty vector, which is undefined. -/
def addDataTypeMember (b : Builder) (name datatype : CString) (offset datatypeIndex : UInt32) :
    Option Builder :=
  if name.bytes = [] ∨ datatype.bytes = [] then some b
  else
    let (nameIndex, names) := addName b.names name
    let (datatypeNameIndex, names) := addName names datatype
    match b.dataTypes.getLast? with
    | none => none
    | some back =>
      some { b with
        names := names
        dataTypeMembers := b.dataTypeMembers ++
          [⟨nameIndex, datatypeNameIndex, offset, datatypeIndex⟩]
        dataTypes := b.dataTypes.dropLast ++ [{ back with numOfMembers := back.numOfMembers + 1 }] }

inductive Call where
  | savePdbInfo (guid : Guid) (age : UInt32)
  | publicSymbol (name : CString) (address length : UInt32)
  | dataType (name kind : CString) (length index : UInt32)
  | dataTypeMember (name datatype : CString) (offset datatypeIndex : UInt32)

def Builder.call (b : Builder) : Call → Option Builder
  | .savePdbInfo guid age => some (savePdbInfo b guid age)
  | .publicSymbol name address length => some (addPublicSymbol b name address length)
  | .dataType name kind length index => some (addDataType b name kind length index)
  | .dataTypeMember name datatype offset datatypeIndex =>
    addDataTypeMember b name datatype offset datatypeIndex

def build (calls : List Call) : Option Builder := calls.foldlM Builder.call Builder.start

-- ---------------------------------------------------------------------------
-- The file
-- ---------------------------------------------------------------------------

def namesBuff (names : List CString) : List UInt8 := names.flatMap CString.terminated

/-- `Names[i].pos`: how many bytes the names before it take. -/
def pos (names : List CString) (i : Nat) : UInt32 := UInt32.ofNat (namesBuff (names.take i)).length

structure Header where
  guid : Guid
  age : UInt32
  publicSymbols : UInt32
  publicSymbolsSize : UInt32
  datatypes : UInt32
  datatypesSize : UInt32
  datatypeMembers : UInt32
  datatypeMembersSize : UInt32
  names : UInt32
  namesSize : UInt32

def signature : UInt32 := 0x00534342

def version : UInt32 := 2

def Header.bytes (h : Header) : List UInt8 :=
  [signature, version].flatMap ulongBytes ++ h.guid.bytes ++
    [h.age, h.publicSymbols, h.publicSymbolsSize, h.datatypes, h.datatypesSize, h.datatypeMembers,
      h.datatypeMembersSize, h.names, h.namesSize].flatMap ulongBytes

def PublicSymbol.bytes (names : List CString) (s : PublicSymbol) : List UInt8 :=
  [pos names s.name, s.address, s.length].flatMap ulongBytes

def DataType.bytes (names : List CString) (t : DataType) : List UInt8 :=
  [pos names t.name, pos names t.kind, t.length, t.pdbIndex, t.firstMember,
    t.numOfMembers].flatMap ulongBytes

def DataTypeMember.bytes (names : List CString) (t : DataTypeMember) : List UInt8 :=
  [pos names t.name, pos names t.datatype, t.offset, t.pdbDatatypeIndex].flatMap ulongBytes

/-- The sizes are cast to 32 bits and each offset is a 32-bit sum. -/
def Builder.header (b : Builder) : Header :=
  let publicSymbols : UInt32 := 60
  let publicSymbolsSize := UInt32.ofNat (12 * b.publicSymbols.length)
  let datatypes := publicSymbols + publicSymbolsSize
  let datatypesSize := UInt32.ofNat (24 * b.dataTypes.length)
  let datatypeMembers := datatypes + datatypesSize
  let datatypeMembersSize := UInt32.ofNat (16 * b.dataTypeMembers.length)
  { guid := b.guid, age := b.age, publicSymbols, publicSymbolsSize, datatypes, datatypesSize,
    datatypeMembers, datatypeMembersSize,
    names := datatypeMembers + datatypeMembersSize
    namesSize := UInt32.ofNat (namesBuff b.names).length }

section
variable (publicSort : StdSort PublicSymbol) (typeSort : StdSort DataType)

def Builder.sortedPublics (b : Builder) : List PublicSymbol :=
  publicSort.sort (fun ls rs => ls.address < rs.address) b.publicSymbols

def nameOf (names : List CString) (i : Nat) : CString := names.getD i ⟨[], by simp⟩

def Builder.sortedTypes (b : Builder) : List DataType :=
  typeSort.sort (fun ls rs => nameOf b.names ls.name < nameOf b.names rs.name) b.dataTypes

def Builder.writeFile (b : Builder) : List UInt8 :=
  b.header.bytes ++ (b.sortedPublics publicSort).flatMap (PublicSymbol.bytes b.names) ++
    (b.sortedTypes typeSort).flatMap (DataType.bytes b.names) ++
    b.dataTypeMembers.flatMap (DataTypeMember.bytes b.names) ++ namesBuff b.names

end

end BugChecker.Symbols
