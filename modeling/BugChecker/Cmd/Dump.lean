import BugChecker.Cmd.Registers
import BugChecker.Lib.Runs

/-!
# Memory dumps

`DB`, `DW`, `DD` and `DQ` share an address and a length, which they keep for the
next dump. Both are assigned while the arguments are read, before it is known
whether the command can be carried out.
-/

namespace BugChecker.Cmd

open Step (Context low32)

/-- The commands, by the size of their values. -/
inductive DumpCmd where
  | db | dw | dd | dq
  deriving DecidableEq

def DumpCmd.id : DumpCmd → Text
  | .db => "DB".toList
  | .dw => "DW".toList
  | .dd => "DD".toList
  | .dq => "DQ".toList

def DumpCmd.size : DumpCmd → Nat
  | .db => 1
  | .dw => 2
  | .dd => 4
  | .dq => 8

/-- The static variables. -/
structure Statics where
  address : UInt64 := 0
  length : UInt64 := 16 * 4
  deriving DecidableEq

/-- A command as it is given, with what its arguments and the memory are at that time. A script in
an argument may change what the next argument is. -/
structure DumpInput where
  dump : DumpCmd
  cmd : Text
  context : Nat → Context
  segDs : UInt16
  evaluate : Nat → Text → Except String UInt64
  read : UInt64 → Nat → Option (Nat → UInt8)

def DumpInput.args (i : DumpInput) : List Text := tokenizeVec i.cmd [i.dump.id, "-l".toList]

/-- A line of a dump. -/
structure DumpLine where
  address : UInt64
  bytes : List UInt8
  text : Text

/-- `Utils::HexToString`. -/
def hexToString (hex : UInt64) (size : Nat) : Text :=
  (List.range (2 * size)).reverse.map fun k =>
    "0123456789ABCDEF".toList.getD (hex.toNat / 16 ^ k % 16) '0'

def littleEndian (bytes : List UInt8) : UInt64 :=
  .ofNat (bytes.foldr (fun byte n => byte.toNat + 256 * n) 0)

def isLengthOption (arg : Text) : Bool := areStringsEqualI arg "-l".toList

def wholeLines (length : UInt64) : UInt64 := length / 16 * 16 + if length % 16 ≠ 0 then 16 else 0

section
variable (build : Build)

def DumpInput.resolve (i : DumpInput) (n : Nat) (arg : Text) : Except String UInt64 :=
  resolveArg build (i.evaluate n) arg (i.context n)

/-- The loop over the arguments behind `args[n - 1]`. -/
def readDumpArgs (resolve : Nat → Text → Except String UInt64) :
    Nat → Text → Bool → Statics → List Text → Statics × Option String
  | _, _, _, s, [] => (s, none)
  | n, prev, addressSet, s, arg :: args =>
    if isLengthOption arg then readDumpArgs resolve (n + 1) arg addressSet s args
    else
      match resolve n arg with
      | .error e => (s, some e)
      | .ok val =>
        if isLengthOption prev then readDumpArgs resolve (n + 1) arg addressSet
          { s with length := val } args
        else if addressSet then (s, some "Syntax error.")
        else readDumpArgs resolve (n + 1) arg true { s with address := val } args

def pointer (address : UInt64) : UInt64 :=
  match build with
  | .x86 => low32 address
  | .x64 => address

def printLine (size : Nat) (segDs : UInt16) (address : UInt64) (bytes : List UInt8) : DumpLine where
  address := address
  bytes := bytes
  text :=
    hexToString segDs.toUInt64 2 ++ [':'] ++
      hexToString address (build.pointerBits / 8) ++ "  ".toList ++
      ((List.range (16 / size)).flatMap fun j =>
        hexToString (littleEndian ((bytes.drop (size * j)).take size)) size ++
          [if size * j + size = 8 then '-' else ' ']) ++
      [' '] ++ bytes.map fun byte => if byte < 32 || byte ≥ 128 then '.' else Char.ofNat byte.toNat

/-- The loop over the lines: line `i` and the following ones, and the address behind them. -/
def printLines (size : Nat) (segDs : UInt16) (ptr : Nat → UInt8) :
    Nat → Nat → UInt64 → List DumpLine × UInt64
  | 0, _, address => ([], address)
  | n + 1, i, address =>
    let (lines, next) := printLines size segDs ptr n (i + 1) (address + 16)
    (printLine build size segDs address ((List.range 16).map fun j => ptr (16 * i + j)) :: lines,
      next)

/-- `D<T>`, with the message or what is shown. -/
def d (s : Statics) (i : DumpInput) : Statics × Except String (List DumpLine) :=
  if i.args.length > 4 then (s, .error "Too many arguments.")
  else
    match readDumpArgs (i.resolve build) 1 (i.args.headD []) false s i.args.tail with
    | (s, some e) => (s, .error e)
    | (s, none) =>
      if s.length = 0 then (s, .error "\"len-in-bytes\" cannot be 0.")
      else if s.length > 8 * 1024 then (s, .error "\"len-in-bytes\" too large.")
      else
        let s := { s with length := wholeLines s.length }
        match i.read (pointer build s.address) s.length.toNat with
        | none => (s, .error "Unable to read memory.")
        | some ptr =>
          let (lines, address) :=
            printLines build i.dump.size i.segDs ptr (s.length / 16).toNat 0 s.address
          ({ s with address := address }, .ok lines)

def Statics.next (s : Statics) (i : DumpInput) : Statics := (d build s i).1

-- ---------------------------------------------------------------------------
-- What is asked for
-- ---------------------------------------------------------------------------

/-- A command that fails changes nothing. -/
def LeavesAlone (s : Statics) (i : DumpInput) : Prop :=
  ∀ e, (d build s i).2 = .error e → (d build s i).1 = s

def Succeeds (s : Statics) (i : DumpInput) : Prop := ∃ lines, (d build s i).2 = .ok lines

def shown : Statics → List DumpInput → List DumpLine
  | _, [] => []
  | s, i :: is =>
    (match (d build s i).2 with
      | .error _ => []
      | .ok lines => lines) ++ shown (s.next build i) is

def lineAddresses (address : UInt64) (n : Nat) : List UInt64 :=
  (List.range n).map fun k => address + 16 * .ofNat k

/-- Commands without arguments that succeed one after the other show contiguous memory. -/
def ShowsContiguous (s : Statics) (is : List DumpInput) : Prop :=
  ∀ before dumps after, is = before ++ dumps ++ after → (∀ i ∈ dumps, i.args.tail = []) →
    Runs.Each (Statics.next build) (Succeeds build) (before.foldl (Statics.next build) s) dumps →
    let lines := shown build (before.foldl (Statics.next build) s) dumps
    lines.map DumpLine.address = lineAddresses
      (before.foldl (Statics.next build) s).address lines.length

-- ---------------------------------------------------------------------------
-- What the arguments give
-- ---------------------------------------------------------------------------

inductive Setting where
  | address (val : UInt64)
  | length (val : UInt64)

/-- What the arguments set before one of them fails, and with which message it does. -/
def settings (resolve : Nat → Text → Except String UInt64) :
    Nat → Text → Bool → List Text → List Setting × Option String
  | _, _, _, [] => ([], none)
  | n, prev, addressSet, arg :: args =>
    if isLengthOption arg then settings resolve (n + 1) arg addressSet args
    else
      match resolve n arg with
      | .error e => ([], some e)
      | .ok val =>
        if isLengthOption prev then
          let rest := settings resolve (n + 1) arg addressSet args
          (.length val :: rest.1, rest.2)
        else if addressSet then ([], some "Syntax error.")
        else
          let rest := settings resolve (n + 1) arg true args
          (.address val :: rest.1, rest.2)

def Statics.set (s : Statics) : Setting → Statics
  | .address val => { s with address := val }
  | .length val => { s with length := val }

def DumpInput.settings (i : DumpInput) : List Setting × Option String :=
  Cmd.settings (i.resolve build) 1 (i.args.headD []) false i.args.tail

/-- The address and the length that the arguments give, and else those that are remembered. -/
def DumpInput.given (i : DumpInput) (s : Statics) : Statics :=
  (i.settings build).1.foldl Statics.set s

/-- The memory has to be read. -/
def DumpInput.Reads (i : DumpInput) (s : Statics) : Prop :=
  (i.settings build).2 = none ∧ (i.given build s).length ≠ 0 ∧ (i.given build s).length ≤ 8 * 1024

instance (i : DumpInput) (s : Statics) : Decidable (i.Reads build s) := by
  unfold DumpInput.Reads
  infer_instance

def DumpInput.Readable (i : DumpInput) (s : Statics) : Prop :=
  i.read (pointer build (i.given build s).address) (wholeLines (i.given build s).length).toNat ≠
    none

/-- Arguments in front of a failure give what is remembered anyhow. -/
def Undisturbed (s : Statics) (i : DumpInput) : Prop :=
  i.args.length ≤ 4 → ¬ (i.Reads build s ∧ i.Readable build s) →
    (i.given build s).address = s.address ∧
      (if i.Reads build s then wholeLines (i.given build s).length
        else (i.given build s).length) = s.length

theorem readDumpArgs_eq (resolve : Nat → Text → Except String UInt64) (n : Nat) (prev : Text)
    (addressSet : Bool) (s : Statics) (args : List Text) :
    readDumpArgs resolve n prev addressSet s args =
      ((settings resolve n prev addressSet args).1.foldl Statics.set s,
        (settings resolve n prev addressSet args).2) := by
  induction args generalizing n prev addressSet s with
  | nil => rfl
  | cons arg args ih =>
    rw [readDumpArgs, settings]
    by_cases hoption : isLengthOption arg = true
    · rw [if_pos hoption, if_pos hoption, ih]
    · rw [if_neg hoption, if_neg hoption]
      cases resolve n arg with
      | error e => rfl
      | ok val =>
        dsimp only
        by_cases hprev : isLengthOption prev = true
        · rw [if_pos hprev, if_pos hprev, ih]
          rfl
        · rw [if_neg hprev, if_neg hprev]
          cases addressSet with
          | false =>
            rw [if_neg Bool.false_ne_true, if_neg Bool.false_ne_true, ih]
            rfl
          | true => rfl

-- ---------------------------------------------------------------------------
-- What a command does
-- ---------------------------------------------------------------------------

variable {build} {s : Statics} {i : DumpInput}

theorem readDumpArgs_given :
    readDumpArgs (i.resolve build) 1 (i.args.headD []) false s i.args.tail =
      (i.given build s, (i.settings build).2) := readDumpArgs_eq _ _ _ _ _ _

theorem d_of_long (h : 4 < i.args.length) : d build s i = (s, .error "Too many arguments.") := by
  rw [d, if_pos h]

theorem d_of_not_reads (hargs : i.args.length ≤ 4) (h : ¬ i.Reads build s) :
    ∃ e, d build s i = (i.given build s, .error e) := by
  rw [d, if_neg (Nat.not_lt_of_le hargs), readDumpArgs_given]
  cases hsettings : (i.settings build).2 with
  | some e => exact ⟨e, rfl⟩
  | none =>
    dsimp only
    by_cases hzero : (i.given build s).length = 0
    · rw [if_pos hzero]
      exact ⟨_, rfl⟩
    · rw [if_neg hzero, if_pos (UInt64.not_le.mp fun hle => h ⟨hsettings, hzero, hle⟩)]
      exact ⟨_, rfl⟩

theorem d_of_reads (hargs : i.args.length ≤ 4) (h : i.Reads build s) :
    d build s i =
      match i.read (pointer build (i.given build s).address)
        (wholeLines (i.given build s).length).toNat with
      | none => ({ i.given build s with length := wholeLines (i.given build s).length },
          .error "Unable to read memory.")
      | some ptr =>
        let (lines, address) := printLines build i.dump.size i.segDs ptr
          (wholeLines (i.given build s).length / 16).toNat 0 (i.given build s).address
        (⟨address, wholeLines (i.given build s).length⟩, .ok lines) := by
  obtain ⟨hsettings, hzero, hle⟩ := h
  rw [d, if_neg (Nat.not_lt_of_le hargs), readDumpArgs_given, hsettings]
  dsimp only
  rw [if_neg hzero, if_neg (UInt64.not_lt.mpr hle)]

/-- One command changes nothing when it fails exactly if its arguments do not disturb. -/
theorem leavesAlone_iff (s : Statics) (i : DumpInput) :
    LeavesAlone build s i ↔ Undisturbed build s i := by
  have hpair : ∀ t : Statics, t = s ↔ t.address = s.address ∧ t.length = s.length := fun t =>
    ⟨fun h => h ▸ ⟨rfl, rfl⟩, fun h => by
      cases t
      cases s
      simp_all⟩
  unfold LeavesAlone Undisturbed
  rcases Nat.lt_or_ge 4 i.args.length with hlong | hargs
  · rw [d_of_long hlong]
    exact iff_of_true (fun _ _ => rfl) fun hle => absurd hle (Nat.not_le_of_lt hlong)
  · by_cases hreads : i.Reads build s
    · rw [d_of_reads hargs hreads, if_pos hreads, DumpInput.Readable]
      cases i.read (pointer build (i.given build s).address)
        (wholeLines (i.given build s).length).toNat with
      | none =>
        dsimp only
        rw [hpair]
        exact ⟨fun h _ _ => h _ rfl, fun h _ _ => h hargs fun hread => hread.2 rfl⟩
      | some ptr =>
        refine iff_of_true (fun e he => ?_) fun _ hnot => absurd ⟨hreads,
          Option.some_ne_none ptr⟩ hnot
        cases he
    · obtain ⟨e, he⟩ := d_of_not_reads hargs hreads
      rw [he, if_neg hreads, hpair]
      exact ⟨fun h _ _ => h e rfl, fun h _ _ => h hargs fun hread => hreads hread.1⟩

-- ---------------------------------------------------------------------------
-- What is shown
-- ---------------------------------------------------------------------------

theorem lineAddresses_succ (address : UInt64) (n : Nat) :
    lineAddresses address (n + 1) = address :: lineAddresses (address + 16) n := by
  rw [lineAddresses, lineAddresses, List.range_succ_eq_map, List.map_cons, List.map_map]
  congr 1
  · simp
  · refine List.map_congr_left fun k _ => ?_
    have hsucc : UInt64.ofNat (k + 1) = UInt64.ofNat k + 1 := UInt64.ofNat_add k 1
    rw [Function.comp_apply, Nat.succ_eq_add_one, hsucc]
    grind

theorem lineAddresses_add (address : UInt64) (m n : Nat) :
    lineAddresses address (m + n) =
    lineAddresses address m ++ lineAddresses (address + 16 * .ofNat m) n := by
  rw [lineAddresses, lineAddresses, lineAddresses, List.range_add, List.map_append, List.map_map]
  congr 1
  refine List.map_congr_left fun k _ => ?_
  rw [Function.comp_apply, UInt64.ofNat_add]
  grind

theorem printLines_spec (size : Nat) (segDs : UInt16) (ptr : Nat → UInt8) (n k : Nat)
    (address : UInt64) :
    (printLines build size segDs ptr n k address).1.map DumpLine.address = lineAddresses address n ∧
      (printLines build size segDs ptr n k address).2 = address + 16 * .ofNat n := by
  induction n generalizing k address with
  | zero => simp [printLines, lineAddresses]
  | succ n ih =>
    obtain ⟨hlines, hnext⟩ := ih (k + 1) (address + 16)
    have hsucc : UInt64.ofNat (n + 1) = UInt64.ofNat n + 1 := UInt64.ofNat_add n 1
    refine ⟨?_, ?_⟩
    · rw [lineAddresses_succ, ← hlines]
      rfl
    · rw [hsucc]
      refine hnext.trans ?_
      grind

theorem d_of_no_args (hargs : i.args.tail = []) (h : (d build s i).2 = .ok lines) :
    lines.map DumpLine.address = lineAddresses s.address lines.length ∧
      (s.next build i).address = s.address + 16 * .ofNat lines.length := by
  have hlength : i.args.length ≤ 4 := by
    have htail := congrArg List.length hargs
    rw [List.length_tail, List.length_nil] at htail
    omega
  have hgiven : i.given build s = s := by
    rw [DumpInput.given, DumpInput.settings, hargs]
    rfl
  rw [Statics.next]
  by_cases hreads : i.Reads build s
  · rw [d_of_reads hlength hreads, hgiven] at h ⊢
    cases hread : i.read (pointer build s.address) (wholeLines s.length).toNat with
    | none =>
      rw [hread] at h
      cases h
    | some ptr =>
      obtain ⟨hlines, hnext⟩ := printLines_spec i.dump.size i.segDs ptr
        (wholeLines s.length / 16).toNat 0 s.address
      rw [hread] at h
      cases h
      have hcount := congrArg List.length hlines
      rw [List.length_map, lineAddresses, List.length_map, List.length_range] at hcount
      dsimp only
      rw [hcount]
      exact ⟨hlines, hnext⟩
  · obtain ⟨e, he⟩ := d_of_not_reads hlength hreads
    rw [he] at h
    cases h

theorem shown_contiguous (is : List DumpInput) (hargs : ∀ i ∈ is, i.args.tail = []) (s : Statics)
    (h : Runs.Each (Statics.next build) (Succeeds build) s is) :
    (shown build s is).map DumpLine.address = lineAddresses s.address
      (shown build s is).length := by
  induction is generalizing s with
  | nil => rfl
  | cons i is ih =>
    obtain ⟨⟨lines, hlines⟩, hrest⟩ := h
    obtain ⟨haddresses, hnext⟩ := d_of_no_args (hargs i List.mem_cons_self) hlines
    have hshown : shown build s (i :: is) = lines ++ shown build (s.next build i) is := by
      rw [shown, hlines]
    rw [hshown, List.map_append, List.length_append, lineAddresses_add, haddresses, ← hnext,
      ih (fun i hi => hargs i (List.mem_cons_of_mem _ hi)) _ hrest]

theorem showsContiguous (s : Statics) (is : List DumpInput) : ShowsContiguous build s is := by
  intro before dumps after _ hargs h
  exact shown_contiguous dumps hargs _ h

end

def dbInput (cmd : String) : DumpInput where
  dump := .db
  cmd := cmd.toList
  context _ := ⟨fun _ => 0, 0⟩
  segDs := 0
  evaluate _ _ := .error "Unable to convert javascript result to ULONG64."
  read _ _ := none

end BugChecker.Cmd
