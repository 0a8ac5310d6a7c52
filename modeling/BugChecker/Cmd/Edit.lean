import BugChecker.Cmd.HexArgs
import BugChecker.Cmd.Indexes
import BugChecker.Kd.ChunkedRead

/-!
# Editing memory

`EB`, `EW`, `ED` and `EQ` write a list of values, each cut off to its size, with
one request. The buffer of the request may be smaller than the list, and then
the command fails after a part of it was written. What it wrote when it did not
fail is what a dump shows, as far as the read of the dump can be relied on.
-/

namespace BugChecker.Cmd

open Bytes (leBytes leNat)

/-- The commands, by the size of their values. -/
inductive EditCmd where
  | eb | ew | ed | eq
  deriving DecidableEq

def EditCmd.id : EditCmd → Text
  | .eb => "EB".toList
  | .ew => "EW".toList
  | .ed => "ED".toList
  | .eq => "EQ".toList

def EditCmd.size : EditCmd → Nat
  | .eb => 1
  | .ew => 2
  | .ed => 4
  | .eq => 8

abbrev Target := UInt64 → UInt8

/-- The answer to `DbgKdWriteVirtualMemoryApi`. -/
structure WriteAnswer where
  success : Bool
  actualBytesWritten : Nat
  memory : Target

/-- A command as it is given, with what its arguments are at that time, and the room in the second
buffer, if there is one. -/
structure EditInput where
  edit : EditCmd
  cmd : Text
  context : Nat → Step.Context
  evaluate : Nat → Text → Except String UInt64
  maxLength : Option Nat

def EditInput.args (i : EditInput) : List Text := tokenizeVec i.cmd [i.edit.id, "-v".toList]

structure EditResult where
  messages : List String
  memory : Target
  refresh : Bool

section
variable (build : Build) (write : Target → UInt64 → List UInt8 → Nat → WriteAnswer)

def writeMemory (maxLength : Option Nat) (memory : Target) (dest : UInt64) (src : List UInt8) :
    Target × Bool :=
  let count := src.length % 2 ^ 32
  let length := match maxLength with
    | none => 0
    | some maxLength => min maxLength count
  let answer := write memory dest (src.take length) count
  (answer.memory, answer.success && answer.actualBytesWritten = count)

def EditInput.resolve (i : EditInput) (n : Nat) (arg : Text) : Except String UInt64 :=
  resolveArg build (i.evaluate n) arg (i.context n)

/-- The values of the arguments from `dataList[n]` on. -/
def EditInput.readDataList (i : EditInput) : Nat → List Text → Except String (List UInt64)
  | _, [] => .ok []
  | n, arg :: args => do
    let value64 ← i.resolve build n arg
    let values ← i.readDataList (n + 1) args
    return value64 :: values

def EditInput.parse (i : EditInput) : Except String (UInt64 × List UInt64) :=
  if i.args.length < 4 then .error "Too few arguments."
  else if i.args.length > 4 then .error "Too many arguments."
  else if !areStringsEqualI (i.args.getD 2 []) "-v".toList then .error "Syntax error."
  else
    let dataList := tokenizeStr (i.args.getD 3 []) [' ']
    if dataList = [] then .error "Syntax error."
    else do
      let address ← i.resolve build 0 (i.args.getD 1 [])
      let values ← i.readDataList build 1 dataList
      return (address, values)

def dataBytes (size : Nat) (values : List UInt64) : List UInt8 :=
  values.flatMap fun value64 => leBytes size (value64.toNat % 256 ^ size)

/-- `E<T>`. -/
def e (memory : Target) (i : EditInput) : EditResult :=
  match i.parse build with
  | .error message => ⟨[message], memory, false⟩
  | .ok (address, values) =>
    let warnings := if values.any fun value64 =>
        value64.toNat % 256 ^ i.edit.size ≠ value64.toNat then
      ["WARNING: one or more arguments in \"data-list\" have been truncated."] else []
    let (memory, res) := writeMemory write i.maxLength memory address (dataBytes i.edit.size values)
    if res then ⟨warnings, memory, true⟩ else ⟨warnings ++ ["Error writing memory."], memory, false⟩

end

-- ---------------------------------------------------------------------------
-- Memory
-- ---------------------------------------------------------------------------

def writeBytes (memory : Target) (dest : UInt64) (bytes : List UInt8) : Target := fun address =>
  (bytes[(address - dest).toNat]?).getD (memory address)

/-- What the kernel says of a write: how much of the buffer was written. -/
def Reports (write : Target → UInt64 → List UInt8 → Nat → WriteAnswer) : Prop :=
  ∀ memory dest buffer count,
    (write memory dest buffer count).actualBytesWritten ≤ buffer.length ∧
      (write memory dest buffer count).memory =
        writeBytes memory dest (buffer.take (write memory dest buffer count).actualBytesWritten)

variable {build : Build} {write : Target → UInt64 → List UInt8 → Nat → WriteAnswer}
  {memory : Target}
  {i : EditInput}

theorem writeMemory_eq (hw : Reports write) (maxLength : Option Nat)
    (memory : Target) (dest : UInt64)
    {src : List UInt8} (hsrc : src.length < 2 ^ 32) :
    ∃ n ≤ src.length, (writeMemory write maxLength memory dest src).1 =
      writeBytes memory dest (src.take n) ∧
      ((writeMemory write maxLength memory dest src).2 = true → n = src.length) := by
  have hcount : src.length % 2 ^ 32 = src.length := Nat.mod_eq_of_lt hsrc
  simp only [writeMemory, hcount]
  generalize hlength : (match maxLength with
    | none => 0
    | some maxLength => min maxLength src.length) = length
  obtain ⟨hle, hmemory⟩ := hw memory dest (src.take length) src.length
  rw [List.length_take] at hle
  refine ⟨_, hle.trans (Nat.min_le_right ..), ?_, fun h => ?_⟩
  · rw [hmemory, List.take_take, Nat.min_eq_left (hle.trans (Nat.min_le_left ..))]
  · rw [Bool.and_eq_true, decide_eq_true_eq] at h
    exact h.2

theorem length_dataBytes (size : Nat) (values : List UInt64) :
    (dataBytes size values).length = size * values.length := by
  simp [dataBytes, List.length_flatMap, Nat.mul_comm]

/-- The memory is only changed at the address, to a part of the values, and to all of them when the
command succeeds. -/
theorem e_memory (hw : Reports write) (memory : Target)
    (hparse : i.parse build = .ok (address, values))
    (hlen : i.edit.size * values.length < 2 ^ 32) :
    ∃ n ≤ i.edit.size * values.length,
      (e build write memory i).memory =
      writeBytes memory address ((dataBytes i.edit.size values).take n) ∧
      ((e build write memory i).refresh = true → n = i.edit.size * values.length) := by
  rw [← length_dataBytes] at hlen ⊢
  obtain ⟨n, hle, hmemory, hall⟩ := writeMemory_eq hw i.maxLength memory address hlen
  refine ⟨n, hle, ?_, ?_⟩
  · rw [e, hparse, ← hmemory]
    dsimp only
    split <;> rfl
  · intro h
    apply hall
    rw [e, hparse] at h
    dsimp only at h
    split at h
    · assumption
    · cases h

-- ---------------------------------------------------------------------------
-- What a dump shows
-- ---------------------------------------------------------------------------

theorem take_drop_flatMap {f : α → List β} (hf : ∀ x, (f x).length = n) {xs : List α}
    {k : Nat} {x : α}
    (h : xs[k]? = some x) (rest : List β) : ((xs.flatMap f ++ rest).drop (n * k)).take n = f x := by
  induction xs generalizing k with
  | nil => simp at h
  | cons y xs ih =>
    rw [List.flatMap_cons, List.append_assoc]
    cases k with
    | zero =>
      obtain rfl := Option.some.inj h
      rw [Nat.mul_zero, List.drop_zero, List.take_left' (hf y)]
    | succ k =>
      rw [Nat.mul_succ, Nat.add_comm, ← List.drop_drop, List.drop_left' (hf y)]
      exact ih h

theorem littleEndian_eq (bytes : List UInt8) : littleEndian bytes = .ofNat (leNat bytes) := by
  have hfold : bytes.foldr (fun byte n => byte.toNat + 256 * n) 0 = leNat bytes := by
    induction bytes with
    | nil => rfl
    | cons byte bytes ih => rw [List.foldr_cons, ih, leNat]
  rw [littleEndian, hfold]

theorem hexToString_mod (v : UInt64) (size : Nat) :
    hexToString (.ofNat (v.toNat % 256 ^ size)) size = hexToString v size := by
  have hv := v.toNat_lt
  apply List.map_congr_left
  intro k hk
  have hk : k < 2 * size := by simpa using hk
  have hlt : v.toNat % 256 ^ size < 2 ^ 64 := Nat.lt_of_le_of_lt (Nat.mod_le ..) hv
  have hpow : 256 ^ size = 16 ^ k * 16 * 16 ^ (2 * size - k - 1) := by
    rw [← Nat.pow_succ, ← Nat.pow_add, show k.succ + (2 * size - k - 1) =
      2 * size by omega, Nat.pow_mul]
  rw [UInt64.toNat_ofNat_of_lt' hlt, ← Nat.mod_mul_right_div_self, hpow, Nat.mod_mul_right_mod,
    Nat.mod_mul_right_div_self]

theorem printLines_getElem? (build : Build) (size : Nat) (segDs : UInt16) (ptr : Nat → UInt8)
    (n k : Nat) (address : UInt64)
    (hm : m < n) : ∃ a, (printLines build size segDs ptr n k address).1[m]? =
      some (printLine build size segDs a
        ((List.range 16).map fun j => ptr (16 * (k + m) + j))) := by
  induction n generalizing k m address with
  | zero => omega
  | succ n ih =>
    cases m with
    | zero => exact ⟨address, rfl⟩
    | succ m =>
      obtain ⟨a, ha⟩ := ih (k + 1) (address + 16) (Nat.lt_of_succ_lt_succ hm)
      refine ⟨a, ?_⟩
      rw [printLines, List.getElem?_cons_succ, ha, Nat.add_right_comm]
      rfl

def textColumn (build : Build) (size m : Nat) : Nat :=
  7 + 2 * (build.pointerBits / 8) + (2 * size + 1) * m

def DumpLine.shown (build : Build) (size m : Nat) (line : DumpLine) : Text :=
  (line.text.drop (textColumn build size m)).take (2 * size)

theorem shown_printLine (segDs : UInt16) (address : UInt64) (bytes : List UInt8)
    (hm : m < 16 / size) :
    (printLine build size segDs address bytes).shown build size m =
      hexToString (littleEndian ((bytes.drop (size * m)).take size)) size := by
  generalize hfield :
      (fun j => hexToString (littleEndian ((bytes.drop (size * j)).take size)) size ++
    [if size * j + size = 8 then '-' else ' ']) = field
  have hfieldlen : ∀ j, (field j).length = 2 * size + 1 := by
    intro j
    simp [← hfield]
  have htext : (printLine build size segDs address bytes).text =
      (hexToString segDs.toUInt64 2 ++ [':'] ++
        hexToString address (build.pointerBits / 8) ++ "  ".toList) ++
        ((List.range (16 / size)).flatMap field ++ ([' '] ++ bytes.map fun byte =>
          if byte < 32 || byte ≥ 128 then '.' else Char.ofNat byte.toNat)) := by
    rw [← hfield]
    simp [printLine]
  have hrange : (List.range (16 / size))[m]? = some m := by simp [hm]
  rw [DumpLine.shown, textColumn, ← List.drop_drop, htext, List.drop_left' (by simp; omega),
    show 2 * size = min (2 * size) (2 * size + 1) by omega, ← List.take_take,
    show min (2 * size) (2 * size + 1) = 2 * size by
      omega, take_drop_flatMap hfieldlen hrange, ← hfield]
  exact List.take_left' (length_hexToString ..)

theorem line_bytes {bytes : List UInt8} (hsize : size ∣ 16) (hpos : 0 < size)
    (h : size * k + size ≤ bytes.length)
    {ptr : Nat → UInt8} (hptr : ∀ t < bytes.length, bytes[t]? = some (ptr t)) :
    (((List.range 16).map fun j => ptr (16 * (size * k / 16) + j)).drop
      (size * (size * k % 16 / size))).take size =
      (bytes.drop (size * k)).take size := by
  obtain ⟨q, hq⟩ := hsize
  -- the value does not go over the end of the line
  have hcol : size * (size * k % 16 / size) = size * k % 16 := by
    rw [hq, Nat.mul_mod_mul_left, Nat.mul_div_cancel_left _ hpos]
  have hfit : size * k % 16 + size ≤ 16 := by
    have hlt : k % q < q := Nat.mod_lt _ (Nat.pos_of_ne_zero (by rintro rfl; omega))
    rw [hq, Nat.mul_mod_mul_left, ← Nat.mul_succ]
    exact Nat.mul_le_mul_left size hlt
  rw [hcol]
  have hline := Nat.div_add_mod (size * k) 16
  apply List.ext_getElem?
  intro t
  rw [List.getElem?_take, List.getElem?_take, List.getElem?_drop, List.getElem?_drop]
  by_cases ht : t < size
  · rw [if_pos ht, if_pos ht, hptr _ (by omega), List.getElem?_map, List.getElem?_range (by omega)]
    simp only [Option.map_some, ← Nat.add_assoc, hline]
  · rw [if_neg ht, if_neg ht]

theorem length_printLines (size : Nat) (segDs : UInt16) (ptr : Nat → UInt8) (n k : Nat)
    (address : UInt64) :
    (printLines build size segDs ptr n k address).1.length = n := by
  have hlines : (printLines build size segDs ptr n k address).1.map DumpLine.address =
      lineAddresses address n :=
    (printLines_spec size segDs ptr n k address).1
  have hlength := congrArg List.length hlines
  rwa [List.length_map, lineAddresses, List.length_map, List.length_range] at hlength

def DumpInput.count (build : Build) (j : DumpInput) (s : Statics) : Nat :=
  (wholeLines (j.given build s).length).toNat

theorem wholeLines_bounds {length : UInt64} (h : length ≠ 0) (hle : length ≤ 8 * 1024) :
    1 ≤ (wholeLines length).toNat ∧ (wholeLines length).toNat ≤ 8 * 1024 := by
  have hpos : length.toNat ≠ 0 := fun hzero => h (UInt64.toNat_inj.mp hzero)
  have hbound : length.toNat ≤ 8 * 1024 := hle
  have hlines : (length / 16 * 16).toNat = length.toNat / 16 * 16 := by
    rw [UInt64.toNat_mul, UInt64.toNat_div]
    exact Nat.mod_eq_of_lt (by simp; omega)
  have hmod : length % 16 ≠ 0 ↔ length.toNat % 16 ≠ 0 := by
    rw [Ne, ← UInt64.toNat_inj, UInt64.toNat_mod]
    rfl
  rw [wholeLines, UInt64.toNat_add, hlines]
  by_cases hrest : length.toNat % 16 ≠ 0
  · rw [if_pos (hmod.mpr hrest)]
    simp
    omega
  · rw [if_neg (mt hmod.mp hrest)]
    simp
    omega

theorem lines_of_d {s : Statics} {j : DumpInput} (hd : (d build s j).2 = .ok lines) :
    1 ≤ j.count build s ∧ j.count build s ≤ 8 * 1024 ∧ 16 * lines.length ≤ j.count build s ∧
      ∃ ptr, j.read (pointer build (j.given build s).address) (j.count build s) = some ptr ∧
        lines =
          (printLines build j.dump.size j.segDs ptr lines.length 0
            (j.given build s).address).1 := by
  rcases Nat.lt_or_ge 4 j.args.length with hlong | hargs
  · rw [d_of_long hlong] at hd
    cases hd
  · by_cases hreads : j.Reads build s
    · obtain ⟨hpos, hle⟩ := wholeLines_bounds hreads.2.1 hreads.2.2
      rw [d_of_reads hargs hreads] at hd
      cases hread : j.read (pointer build (j.given build s).address)
        (wholeLines (j.given build s).length).toNat with
      | none =>
        rw [hread] at hd
        cases hd
      | some ptr =>
        rw [hread] at hd
        cases hd
        refine ⟨hpos, hle, ?_, ptr, hread, ?_⟩
        · rw [length_printLines, UInt64.toNat_div]
          exact Nat.mul_div_le _ 16
        · rw [length_printLines]
    · obtain ⟨message, hmessage⟩ := d_of_not_reads hargs hreads
      rw [hmessage] at hd
      cases hd

theorem writeBytes_getElem? {bytes : List UInt8} (hlen : bytes.length ≤ 2 ^ 64) {t : Nat}
    (ht : t < bytes.length) :
    bytes[t]? = some (writeBytes memory dest bytes (dest + .ofNat t)) := by
  have hoffset : (dest + UInt64.ofNat t - dest).toNat = t := by
    rw [UInt64.add_comm, UInt64.add_sub_cancel]
    exact UInt64.toNat_ofNat_of_lt' (Nat.lt_of_lt_of_le ht hlen)
  rw [writeBytes, hoffset, List.getElem?_eq_getElem ht, Option.getD_some]

theorem shown_of_written {s : Statics} {j : DumpInput} {size : Nat} (hpos : 0 < size)
    (hdvd : size ∣ 16)
    (hsize : j.dump.size = size) (hlen : size * values.length < 2 ^ 32)
    (hread : ∀ ptr, j.read address (j.count build s) = some ptr → ∀ t < j.count build s,
      ptr t = writeBytes memory address (dataBytes size values) (address + .ofNat t))
    (haddress : pointer build (j.given build s).address = address)
      (hd : (d build s j).2 = .ok lines)
    {k : Nat} (hk : values[k]? = some value64) (hin : size * k / 16 < lines.length) :
    ∃ line, lines[size * k / 16]? = some line ∧
      line.shown build size (size * k % 16 / size) = hexToString value64 size := by
  obtain ⟨-, -, hcount, ptr, hptr, hlines⟩ := lines_of_d hd
  rw [haddress] at hptr
  have hbytes := length_dataBytes size values
  obtain ⟨hlt, -⟩ := List.getElem?_eq_some_iff.mp hk
  have hlast : size * k + size ≤ (dataBytes size values).length := by
    rw [hbytes, ← Nat.mul_succ]
    exact Nat.mul_le_mul_left size hlt
  have hlong : (dataBytes size values).length ≤ 2 ^ 64 := by
    rw [hbytes]
    omega
  obtain ⟨a, hline⟩ := printLines_getElem? build j.dump.size j.segDs ptr lines.length 0
    (j.given build s).address hin
  rw [← hlines] at hline
  refine ⟨_, hline, ?_⟩
  -- the bytes of the line are those of the memory
  have hmap : ((List.range 16).map fun t => ptr (16 * (0 + size * k / 16) + t)) =
      (List.range 16).map fun t => writeBytes memory address (dataBytes size values)
        (address + .ofNat (16 * (size * k / 16) + t)) := by
    apply List.map_congr_left
    intro t ht
    have ht : t < 16 := List.mem_range.mp ht
    rw [Nat.zero_add, hread _ hptr _ (by omega)]
  have hm : size * k % 16 / size < 16 / size := by
    obtain ⟨q, hq⟩ := hdvd
    rw [hq, Nat.mul_mod_mul_left, Nat.mul_div_cancel_left _ hpos, Nat.mul_div_cancel_left _ hpos]
    exact Nat.mod_lt _ (Nat.pos_of_ne_zero (by rintro rfl; omega))
  have hvalue : ((dataBytes size values).drop (size * k)).take size =
      leBytes size (value64.toNat % 256 ^ size) := by
    have hpiece :=
      take_drop_flatMap (f := fun value64 : UInt64 => leBytes size (value64.toNat % 256 ^ size))
      (fun _ => Bytes.length_leBytes ..) hk []
    rwa [List.append_nil] at hpiece
  have hget : ∀ t < (dataBytes size values).length, (dataBytes size values)[t]? =
      some (writeBytes memory address (dataBytes size values) (address + .ofNat t)) := by
    intro t ht
    exact writeBytes_getElem? hlong ht
  have hgroup := line_bytes hdvd hpos hlast hget
  have hnat : leNat (leBytes size (value64.toNat % 256 ^ size)) = value64.toNat % 256 ^ size :=
    Bytes.leNat_leBytes (Nat.mod_lt _ (Nat.pow_pos (by decide)))
  rw [hsize, shown_printLine _ _ _ hm, hmap, hgroup, hvalue, littleEndian_eq, hnat]
  exact hexToString_mod value64 size

/-- A value that was written is what a dump of the same size shows at its place, if no chunk of the
read falls short before a last one that does not. -/
theorem edit_then_dump (hw : Reports write) (hparse : i.parse build = .ok (address, values))
    (hlen : i.edit.size * values.length < 2 ^ 32) (he : (e build write memory i).refresh = true)
    {s : Statics} {j : DumpInput} (hsize : j.dump.size = i.edit.size) {w : Kd.World G S}
    (hread : j.read = w.read answers pState)
    (htells : Kd.Tells (e build write memory i).memory answers w.answered address (j.count build s))
    (hworst : Kd.LastIsWorst answers w.answered (j.count build s))
    (haddress : pointer build (j.given build s).address = address)
    (hd : (d build s j).2 = .ok lines) {k : Nat} (hk : values[k]? = some value64)
    (hin : i.edit.size * k / 16 < lines.length) :
    ∃ line, lines[i.edit.size * k / 16]? = some line ∧
      line.shown build i.edit.size (i.edit.size * k % 16 / i.edit.size) =
        hexToString value64 i.edit.size := by
  obtain ⟨n, -, hmemory, hall⟩ := e_memory hw memory hparse hlen
  rw [hall he, ← length_dataBytes, List.take_length] at hmemory
  obtain ⟨hpos, hdvd⟩ : 0 < i.edit.size ∧ i.edit.size ∣ 16 := by cases i.edit <;> decide
  obtain ⟨hcount, hcount', -⟩ := lines_of_d hd
  rw [hmemory] at htells
  have hbytes : ∀ ptr, j.read address (j.count build s) = some ptr → ∀ t < j.count build s,
      ptr t = writeBytes memory address (dataBytes i.edit.size values) (address + .ofNat t) := by
    intro ptr hptr t ht
    rw [hread] at hptr
    exact Kd.read_tells hcount (by omega) htells hworst hptr ht
  exact shown_of_written hpos hdvd hsize hlen hbytes haddress hd hk hin

def writeAll (memory : Target) (dest : UInt64) (buffer : List UInt8) (_ : Nat) : WriteAnswer :=
  ⟨true, buffer.length, writeBytes memory dest buffer⟩

theorem reports_writeAll : Reports writeAll := by
  intro memory dest buffer count
  refine ⟨Nat.le_refl _, ?_⟩
  rw [writeAll, List.take_length]

def ewInput : EditInput where
  edit := .ew
  cmd := "EW 1000 -v 1234 5ABCD".toList
  context _ := ⟨fun _ => 0, 0⟩
  evaluate _ _ := .error "Unable to convert javascript result to ULONG64."
  maxLength := some 4096

def ewWorld : Kd.World Unit Unit where
  memory := ⟨(), fun _ => 0, false⟩

def ewAnswers (_ : Nat) : Kd.Packet where
  state := { apiNumber := Kd.dbgKdReadVirtualMemoryApi, actualBytesRead := 64 }
  second := some ((List.range 64).map fun t =>
    (e .x64 writeAll (fun _ => 0) ewInput).memory (0x1000 + .ofNat t))

def dwInput : DumpInput where
  dump := .dw
  cmd := "DW 1000".toList
  context _ := ⟨fun _ => 0, 0⟩
  segDs := 0
  evaluate _ _ := .error "Unable to convert javascript result to ULONG64."
  read := ewWorld.read ewAnswers {}

theorem ewInput_parse : ewInput.parse .x64 = .ok (0x1000, [0x1234, 0x5ABCD]) := by
  have h : (ewInput.parse .x64).toOption = some (0x1000, [0x1234, 0x5ABCD]) := by decide +kernel
  cases hparse : ewInput.parse .x64 with
  | error message => simp [hparse, Except.toOption] at h
  | ok parsed =>
    rw [hparse] at h
    rw [Option.some.inj h]

theorem dwInput_lines : ∃ lines, (d .x64 {} dwInput).2 = .ok lines ∧ lines.length = 4 := by
  have h : (d .x64 {} dwInput).2.toOption.map List.length = some 4 := by decide +kernel
  generalize (d .x64 {} dwInput).2 = result at h ⊢
  cases result with
  | error message => cases h
  | ok lines => exact ⟨lines, rfl, Option.some.inj h⟩

theorem dwInput_count : dwInput.count .x64 {} = 64 := by decide +kernel

theorem ewAnswers_tell :
    Kd.Tells (e .x64 writeAll (fun _ => 0) ewInput).memory ewAnswers 0 0x1000 64 := by
  intro i hi
  obtain rfl : i = 0 := by
    simp only [Kd.lastChunk, Kd.chunkSize] at hi
    omega
  refine ⟨⟨rfl, fun _ => ⟨_, rfl, ?_⟩⟩, ?_⟩
  · simp [ewAnswers, Kd.chunkCount, Kd.chunkSize]
  · have hbytes : (ewAnswers 0).bytes = (List.range 64).map fun t =>
      (e .x64 writeAll (fun _ => 0) ewInput).memory (0x1000 + .ofNat t) := rfl
    simp [hbytes]

/-- The second value, without what was cut off. -/
theorem edit_then_dump_ew : ∃ lines, (d .x64 {} dwInput).2 = .ok lines ∧
    ∃ line, lines[0]? = some line ∧ line.shown .x64 2 1 = hexToString 0x5ABCD 2 := by
  obtain ⟨lines, hd, hlength⟩ := dwInput_lines
  refine ⟨lines, hd, ?_⟩
  have hrefresh : (e .x64 writeAll (fun _ => 0) ewInput).refresh = true := by decide +kernel
  have htells := ewAnswers_tell
  rw [← dwInput_count] at htells
  have hworst : Kd.LastIsWorst ewAnswers ewWorld.answered (dwInput.count .x64 {}) :=
    Kd.lastIsWorst_of_oneChunk (by rw [dwInput_count]; decide)
  exact edit_then_dump (k := 1) reports_writeAll ewInput_parse (by decide) hrefresh rfl rfl htells
    hworst (by decide +kernel) hd rfl (by rw [hlength]; decide)

end BugChecker.Cmd
