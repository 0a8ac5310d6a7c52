import BugChecker.Crt.Strtoxq
import BugChecker.Lib.Bytes
import BugChecker.Lib.Tokens
import BugChecker.Step.Context

/-!
# Requests from scripts

`ReadMem`, `WriteMem` and `WriteReg` check their arguments and leave a text in
`_bc_eval_.async_args`. `QJS_Eval` copies it to a buffer, and
`QuickJSCppInterface::Eval` cuts it into its parts again. Long lists of contents
do not fit in the buffer.
-/

namespace BugChecker.Script

open Bytes Tokens
open Crt (decimal dollar_not_mem_decimal strtoui64 strtoui64_decimal
  strtoui64_take_decimal_eq_iff)

-- ---------------------------------------------------------------------------
-- The built-ins
-- ---------------------------------------------------------------------------

/-- A number or a BigInt that is an integer, or something else. -/
inductive JsValue where
  | number : Int → JsValue
  | bigint : Int → JsValue
  | undefined
  | other
  deriving DecidableEq

def JsValue.toNat : JsValue → Nat
  | .number a => a.toNat
  | .bigint a => a.toNat
  | .undefined => 0
  | .other => 0

inductive JsError where
  | thrown : String → JsError
  | typeError
  deriving DecidableEq

abbrev Js := Except JsError

def throwEx (e : String) : Js α := .error (.thrown e)

def JsValue.mul : JsValue → JsValue → Js Int
  | .number a, .number b => .ok (a * b)
  | .bigint a, .bigint b => .ok (a * b)
  | _, _ => .error .typeError

def checkIntArg (a : JsValue) (n : String) : Js Nat :=
  match a with
  | .number a =>
    if a > 0x20000000000000 then
      throwEx ("Argument '" ++ n ++
        "' is too big, it must be a BigInt (0x1234n instead of 0x1234).")
    else if a < 0 then throwEx ("Argument '" ++ n ++ "' must be positive.")
    else .ok a.toNat
  | .bigint a =>
    if a > 0xFFFFFFFFFFFFFFFF then throwEx ("Argument '" ++ n ++ "' is too big.")
    else if a < 0 then throwEx ("Argument '" ++ n ++ "' must be positive.")
    else .ok a.toNat
  | _ => throwEx ("Argument '" ++ n ++ "' must be an integer.")

def delim : List Char := '$' :: "delim$".toList

def validDataSize (dataSize : Nat) : Bool :=
  dataSize = 1 ∨ dataSize = 2 ∨ dataSize = 4 ∨ dataSize = 8

def readMem (address size dataSize : JsValue) : Js (List Char) := do
  let dataSize := if dataSize = .undefined then .number 1 else dataSize
  let a ← checkIntArg address "address"
  let s ← checkIntArg size "size"
  let d ← checkIntArg dataSize "dataSize"
  if s = 0 then throwEx "Argument 'size' is 0."
  else if !validDataSize d then throwEx "Argument 'dataSize' must be 1, 2, 4 or 8."
  else
    let total ← dataSize.mul size
    if total > 2 * 1024 then throwEx "Argument 'size' is too big."
    else
      .ok ("ReadMem".toList ++ (delim ++ (decimal a ++ (delim ++ (decimal s ++
        (delim ++ decimal d))))))

/-- The loop over the contents, from item `i`. -/
def contentsText (i : Nat) : List JsValue → Js (List Char)
  | [] => .ok []
  | item :: contents => do
    let n ← checkIntArg item ("item #" ++ toString i ++ " in contents")
    let c ← contentsText (i + 1) contents
    .ok (decimal n ++ ((if contents.isEmpty then [] else delim) ++ c))

/-- The contents are `none` when they are not an array. -/
def writeMem (address dataSize : JsValue) (contents : Option (List JsValue)) : Js (List Char) := do
  let a ← checkIntArg address "address"
  let d ← checkIntArg dataSize "dataSize"
  if !validDataSize d then throwEx "Argument 'dataSize' must be 1, 2, 4 or 8."
  else
    match contents with
    | none => throwEx "Argument 'contents' must be an array."
    | some contents =>
      if contents.isEmpty then throwEx "Argument 'contents' is empty."
      else
        let total ← dataSize.mul (.number contents.length)
        if total > 2 * 1024 then throwEx "Argument 'contents' is too big."
        else
          let c ← contentsText 0 contents
          .ok ("WriteMem".toList ++ (delim ++
            (decimal a ++ (delim ++ (decimal d ++ (delim ++ c))))))

def validRegs : List (List Char) :=
  ["RAX", "RBX", "RCX", "RDX", "RSI", "RDI", "RSP",
   "RBP", "R8", "R9", "R10", "R11", "R12", "R13",
   "R14", "R15", "RIP", "EAX", "EBX", "ECX", "EDX",
   "ESI", "EDI", "ESP", "EBP", "EIP"].map String.toList

/-- The name is `none` when it is not a string. -/
def writeReg (toUpperCase : List Char → List Char) (regName : Option (List Char))
    (value : JsValue) :
    Js (List Char) := do
  let v ← checkIntArg value "value"
  match regName with
  | none => throwEx "Argument 'regName' must be a string."
  | some regName =>
    let regName := toUpperCase regName
    if regName ∉ validRegs then throwEx "Argument 'regName' must be a valid register name."
    else .ok ("WriteReg".toList ++ (delim ++ (regName ++ (delim ++ decimal v))))

-- ---------------------------------------------------------------------------
-- The buffer and the driver
-- ---------------------------------------------------------------------------

/-- `eastl::vector<CHAR> asyncArgs(512, 0)`. -/
def asyncArgsSize : Nat := 512

/-- What is in a buffer of `n` characters after `_bc_snprintf` with `"%s"`. -/
def snprintf (n : Nat) (str : List Char) : List Char := str.take (n - 1)

/-- What the driver is asked to do. `sz` is handed to `BcAwaiter_ReadMemory`, and `data` to
`Cmd::WriteMemory`. -/
inductive Request where
  | readMem (address size dataSz sz : Nat)
  | writeMem (address dataSz : Nat) (items : List Nat) (data : List UInt8)
  | writeReg (regName : List Char) (val : Nat)
  deriving DecidableEq

def itemBytes (dataSz : Nat) (items : List Nat) : List UInt8 := items.flatMap (leBytes dataSz)

/-- How `QuickJSCppInterface::Eval` reads its buffer. -/
def decode (build : Build) (asyncArgs : List Char) : Option Request :=
  let v := tokenize delim asyncArgs
  let number i := strtoui64 (v.getD i []) 10
  let pointer i := number i % 2 ^ build.pointerBits
  if v.getD 0 [] = "ReadMem".toList ∧ v.length = 4 then
    let dataSz := pointer 3
    if validDataSize dataSz then
      let sz := dataSz * pointer 2 % 2 ^ build.pointerBits
      if sz ≠ 0 then some (.readMem (pointer 1) (pointer 2) dataSz sz) else none
    else none
  else if v.getD 0 [] = "WriteMem".toList ∧ v.length > 3 then
    let dataSz := pointer 2
    if validDataSize dataSz then
      let items := (v.drop 3).map (strtoui64 · 10)
      some (.writeMem (pointer 1) dataSz items (itemBytes dataSz items))
    else none
  else if v.getD 0 [] = "WriteReg".toList ∧ v.length = 3 then
    some (.writeReg (v.getD 1 []) (number 2))
  else none

-- ---------------------------------------------------------------------------
-- Calls
-- ---------------------------------------------------------------------------

inductive Call where
  | readMem (address size dataSize : JsValue)
  | writeMem (address dataSize : JsValue) (contents : Option (List JsValue))
  | writeReg (regName : Option (List Char)) (value : JsValue)

/-- The text that a call leaves in `_bc_eval_.async_args`. -/
def Call.asyncArgs (toUpperCase : List Char → List Char) : Call → Js (List Char)
  | .readMem address size dataSize => Script.readMem address size dataSize
  | .writeMem address dataSize contents => Script.writeMem address dataSize contents
  | .writeReg regName value => Script.writeReg toUpperCase regName value

def Call.request (toUpperCase : List Char → List Char) : Call → Request
  | .readMem address size dataSize =>
    let dataSize := if dataSize = .undefined then 1 else dataSize.toNat
    .readMem address.toNat size.toNat dataSize (dataSize * size.toNat)
  | .writeMem address dataSize contents =>
    let items := (contents.getD []).map JsValue.toNat
    .writeMem address.toNat dataSize.toNat items (itemBytes dataSize.toNat items)
  | .writeReg regName value => .writeReg (toUpperCase (regName.getD [])) value.toNat

-- ---------------------------------------------------------------------------
-- What is accepted
-- ---------------------------------------------------------------------------

theorem bind_eq_ok {x : Js α} {f : α → Js β} {r : β} :
    x >>= f = .ok r ↔ ∃ a, x = .ok a ∧ f a = .ok r := by
  cases x with
  | error e => simp [bind, Except.bind]
  | ok a => simp [bind, Except.bind]

theorem checkIntArg_ok (h : checkIntArg a n = .ok k) :
    k < 2 ^ 64 ∧ (a = .number k ∨ a = .bigint k) := by
  unfold checkIntArg at h
  split at h
  · next a =>
    split at h
    · cases h
    · split at h
      · cases h
      · cases h
        exact ⟨by omega, .inl (congrArg _ (by omega))⟩
  · next a =>
    split at h
    · cases h
    · split at h
      · cases h
      · cases h
        exact ⟨by omega, .inr (congrArg _ (by omega))⟩
  · cases h

theorem toNat_of_checkIntArg (h : checkIntArg a n = .ok k) : a.toNat = k := by
  rcases (checkIntArg_ok h).2 with rfl | rfl
  · exact Int.toNat_natCast k
  · exact Int.toNat_natCast k

theorem mul_ok (ha : checkIntArg a n = .ok k) (hb : checkIntArg b n' = .ok k')
    (h : JsValue.mul a b = .ok total) : total = (k * k' : Nat) := by
  obtain ⟨-, rfl | rfl⟩ := checkIntArg_ok ha <;> obtain ⟨-, rfl | rfl⟩ := checkIntArg_ok hb <;>
    cases h <;> exact (Int.natCast_mul k k').symm

theorem readMem_ok (h : readMem address size dataSize = .ok text) :
    ∃ a s d, address.toNat = a ∧ size.toNat = s ∧
      (if dataSize = .undefined then 1 else dataSize.toNat) = d ∧ a < 2 ^ 64 ∧ s ≠ 0 ∧
      validDataSize d ∧ d * s ≤ 2 * 1024 ∧
      text = "ReadMem".toList ++ (delim ++ (decimal a ++ (delim ++ (decimal s ++
        (delim ++ decimal d))))) := by
  simp only [readMem, bind_eq_ok] at h
  obtain ⟨a, ha, s, hs, d, hd, h⟩ := h
  split at h
  · cases h
  · next hs0 =>
    split at h
    · cases h
    · next hvalid =>
      obtain ⟨total, htotal, h⟩ := bind_eq_ok.mp h
      split at h
      · cases h
      · next hle =>
        cases h
        have hmul := mul_ok hd hs htotal
        refine ⟨a, s, d, toNat_of_checkIntArg ha, toNat_of_checkIntArg hs, ?_,
          (checkIntArg_ok ha).1,
          hs0, by simpa using hvalid, by omega, rfl⟩
        rw [← toNat_of_checkIntArg hd]
        split
        · rfl
        · rfl

def joinItems : List Nat → List Char
  | [] => []
  | n :: items => decimal n ++ ((if items.isEmpty then [] else delim) ++ joinItems items)

theorem contentsText_ok (h : contentsText i contents = .ok c) :
    (∀ n ∈ contents.map JsValue.toNat, n < 2 ^ 64) ∧ c = joinItems
      (contents.map JsValue.toNat) := by
  induction contents generalizing i c with
  | nil =>
    cases h
    exact ⟨nofun, rfl⟩
  | cons item contents ih =>
    simp only [contentsText, bind_eq_ok] at h
    obtain ⟨n, hn, c', hc, h⟩ := h
    cases h
    obtain ⟨hlt, rfl⟩ := ih hc
    have hitem := toNat_of_checkIntArg hn
    refine ⟨?_, ?_⟩
    · rw [List.map_cons, List.forall_mem_cons, hitem]
      exact ⟨(checkIntArg_ok hn).1, hlt⟩
    · rw [List.map_cons, joinItems, List.isEmpty_map, hitem]

theorem writeMem_ok (h : writeMem address dataSize contents = .ok text) :
    ∃ a d cs, address.toNat = a ∧ dataSize.toNat = d ∧
      (contents.getD []).map JsValue.toNat = cs ∧ a < 2 ^ 64 ∧ validDataSize d ∧ cs ≠ [] ∧
      (∀ n ∈ cs, n < 2 ^ 64) ∧
      text = "WriteMem".toList ++ (delim ++ (decimal a ++ (delim ++ (decimal d ++
        (delim ++ joinItems cs))))) := by
  simp only [writeMem, bind_eq_ok] at h
  obtain ⟨a, ha, d, hd, h⟩ := h
  split at h
  · cases h
  · next hvalid =>
    cases contents with
    | none => cases h
    | some contents =>
      dsimp only at h
      split at h
      · cases h
      · next hne =>
        obtain ⟨total, -, h⟩ := bind_eq_ok.mp h
        split at h
        · cases h
        · obtain ⟨c, hc, h⟩ := bind_eq_ok.mp h
          cases h
          obtain ⟨hlt, rfl⟩ := contentsText_ok hc
          exact ⟨a, d, _, toNat_of_checkIntArg ha, toNat_of_checkIntArg hd, rfl,
            (checkIntArg_ok ha).1, by simpa using hvalid, by simpa using hne, hlt, rfl⟩

theorem writeReg_ok (h : writeReg toUpperCase regName value = .ok text) :
    ∃ reg v, toUpperCase (regName.getD []) = reg ∧ value.toNat = v ∧ v < 2 ^ 64 ∧
      reg ∈ validRegs ∧ text = "WriteReg".toList ++ (delim ++ (reg ++ (delim ++ decimal v))) := by
  simp only [writeReg, bind_eq_ok] at h
  obtain ⟨v, hv, h⟩ := h
  cases regName with
  | none => cases h
  | some regName =>
    dsimp only at h
    split at h
    · cases h
    · next hreg =>
      cases h
      exact ⟨_, v, rfl, toNat_of_checkIntArg hv, (checkIntArg_ok hv).1, not_not.mp hreg, rfl⟩

-- ---------------------------------------------------------------------------
-- What crosses the buffer
-- ---------------------------------------------------------------------------

theorem length_decimal_pos : 0 < (decimal n).length := Nat.length_toDigits_pos

theorem length_decimal_le (h : n < 10 ^ k) (hk : 0 < k) : (decimal n).length ≤ k :=
  (Nat.length_toDigits_le_iff (by decide) hk).mpr h

def argsLength (ns : List Nat) : Nat := (ns.map fun n => delim.length + (decimal n).length).sum

theorem argsLength_cons (n : Nat) (ns : List Nat) :
    argsLength (n :: ns) = 7 + (decimal n).length + argsLength ns := by
  rw [argsLength, List.map_cons, List.sum_cons]
  rfl

theorem tokenize_decimal (n : Nat) (s : List Char) :
    tokenize delim (decimal n ++ (delim ++ s)) = decimal n :: tokenize delim s :=
  tokenize_cons _ _ dollar_not_mem_decimal

theorem tokenize_take_decimal (n k : Nat) (s : List Char) (h : s.length < delim.length) :
    tokenize delim ((decimal n).take k ++ s) = [(decimal n).take k ++ s] :=
  tokenize_last _ _ (fun hmem => dollar_not_mem_decimal (List.mem_of_mem_take hmem))
    (Nat.le_of_lt_succ h)

/-- The items that are read from the first `k` characters of their text. They are the items when
the text fits, and also when only the last item is cut off and is `0`. -/
theorem items_of_take_iff (items : List Nat) (k : Nat) (hne : items ≠ [])
    (h : ∀ n ∈ items, n < 2 ^ 64) :
    (tokenize delim ((joinItems items).take k)).map (strtoui64 · 10) = items ↔
      argsLength items ≤ k + 7 ∨ (argsLength items = k + 8 ∧ items.getLast? = some 0) := by
  induction items generalizing k with
  | nil => exact absurd rfl hne
  | cons n items ih =>
    obtain ⟨hn, hitems⟩ := List.forall_mem_cons.mp h
    have hpos := @length_decimal_pos n
    rw [joinItems, argsLength_cons]
    cases items with
    | nil =>
      have htok := tokenize_take_decimal n k [] (by decide)
      rw [List.append_nil] at htok
      have hzero : n = 0 → (decimal n).length = 1 := by
        rintro rfl
        rfl
      simp only [List.isEmpty_nil, if_true, joinItems, List.append_nil, htok, List.map_cons,
        List.map_nil, List.cons.injEq, and_true, strtoui64_take_decimal_eq_iff n k hn, argsLength,
        List.sum_nil, List.getLast?_singleton, Option.some.injEq]
      constructor
      · rintro (hk | rfl)
        · left
          omega
        · have := hzero rfl
          omega
      · rintro (hk | ⟨-, rfl⟩)
        · left
          omega
        · exact .inr rfl
    | cons n' items =>
      have hrest := argsLength_cons n' items
      have hpos' := @length_decimal_pos n'
      simp only [List.isEmpty_cons, Bool.false_eq_true, if_false]
      rcases Nat.lt_or_ge k ((decimal n).length + 7) with hk | hk
      · -- The first delimiter is cut, and there is one item.
        have htake : (decimal n ++ (delim ++ joinItems (n' :: items))).take k =
            (decimal n).take k ++ delim.take (k - (decimal n).length) := by
          rw [List.take_append, List.take_append_of_le_length]
          have hdelim : delim.length = 7 := rfl
          omega
        have hshort : (delim.take (k - (decimal n).length)).length < delim.length := by
          have hdelim : delim.length = 7 := rfl
          rw [List.length_take]
          omega
        rw [htake, tokenize_take_decimal n k _ hshort]
        constructor
        · intro heq
          exact absurd (congrArg List.length heq) (by simp)
        · intro hlong
          omega
      · obtain ⟨k', rfl⟩ := Nat.exists_eq_add_of_le hk
        have htake : (decimal n ++ (delim ++ joinItems (n' :: items))).take
            ((decimal n).length + 7 + k') =
            decimal n ++ (delim ++ (joinItems (n' :: items)).take k') := by
          rw [Nat.add_assoc, List.take_length_add_append]
          rw [show 7 = delim.length from rfl, List.take_length_add_append]
        rw [htake, tokenize_decimal, List.map_cons, strtoui64_decimal n hn, List.cons.injEq,
          ih k' (List.cons_ne_nil _ _) hitems, List.getLast?_cons_cons]
        rw [eq_self, true_and]
        exact or_congr (by omega) (and_congr_left' (by omega))

theorem snprintf_of_short (h : str.length < n) : snprintf n str = str :=
  List.take_of_length_le (by omega)

theorem validDataSize_iff : validDataSize d ↔ d = 1 ∨ d = 2 ∨ d = 4 ∨ d = 8 := decide_eq_true_iff

theorem strtoui64_mod_pointer (build : Build) (h : n < 2 ^ 32) :
    strtoui64 (decimal n) 10 % 2 ^ build.pointerBits = n := by
  rw [strtoui64_decimal n (by omega)]
  cases build with
  | x86 => exact Nat.mod_eq_of_lt h
  | x64 => exact Nat.mod_eq_of_lt (Nat.lt_trans h (by decide))

theorem decode_readMem (build : Build) (ha : a < 2 ^ 64) (hs : s ≠ 0) (hd : validDataSize d)
    (hle : d * s ≤ 2 * 1024) :
    decode build (snprintf asyncArgsSize ("ReadMem".toList ++ (delim ++ (decimal a ++ (delim ++
      (decimal s ++ (delim ++ decimal d))))))) =
      some (.readMem (a % 2 ^ build.pointerBits) s d (d * s)) := by
  have hd' := validDataSize_iff.mp hd
  have hs' : s ≤ 2 * 1024 := by
    rcases hd' with rfl | rfl | rfl | rfl <;> omega
  have hlenA := length_decimal_le (n := a) (k := 20) (by omega) (by decide)
  have hlenS := length_decimal_le (n := s) (k := 20) (by omega) (by decide)
  have hlenD := length_decimal_le (n := d) (k := 20) (by omega) (by decide)
  have htok : tokenize delim ("ReadMem".toList ++ (delim ++ (decimal a ++ (delim ++
      (decimal s ++ (delim ++ decimal d)))))) =
      ["ReadMem".toList, decimal a, decimal s, decimal d] := by
    have hlast := tokenize_take_decimal d (decimal d).length [] (by decide)
    rw [List.append_nil, List.take_length] at hlast
    rw [delim, tokenize_cons _ _ (by decide), ← delim, tokenize_decimal, tokenize_decimal, hlast]
  rw [snprintf_of_short, decode, htok]
  · simp only [List.getD_cons_zero, List.getD_cons_succ, List.length_cons,
      List.length_nil, true_and,
      if_true, strtoui64_decimal a ha, strtoui64_mod_pointer build (show s < 2 ^ 32 by omega),
      strtoui64_mod_pointer build (show d < 2 ^ 32 by omega), hd]
    have hmod : d * s % 2 ^ build.pointerBits = d * s := by
      cases build with
      | x86 => exact Nat.mod_eq_of_lt (Nat.lt_of_le_of_lt hle (by decide))
      | x64 => exact Nat.mod_eq_of_lt (Nat.lt_of_le_of_lt hle (by decide))
    have hne : d * s ≠ 0 := Nat.mul_ne_zero (by omega) hs
    simp only [hmod, hne, ne_eq, not_false_eq_true, if_true]
  · have hdelim : delim.length = 7 := rfl
    have hname : "ReadMem".toList.length = 7 := rfl
    simp only [List.length_append, hdelim, hname, asyncArgsSize]
    omega

theorem decode_writeReg (build : Build) (hv : v < 2 ^ 64) (hreg : reg ∈ validRegs) :
    decode build (snprintf asyncArgsSize
      ("WriteReg".toList ++ (delim ++ (reg ++ (delim ++ decimal v))))) =
      some (.writeReg reg v) := by
  have hplain : '$' ∉ reg ∧ reg.length ≤ 3 := by
    have hall : ∀ reg ∈ validRegs, '$' ∉ reg ∧ reg.length ≤ 3 := by decide
    exact hall reg hreg
  have hlenV := length_decimal_le (n := v) (k := 20) (by omega) (by decide)
  have htok : tokenize delim ("WriteReg".toList ++ (delim ++ (reg ++ (delim ++ decimal v)))) =
      ["WriteReg".toList, reg, decimal v] := by
    have hlast := tokenize_take_decimal v (decimal v).length [] (by decide)
    rw [List.append_nil, List.take_length] at hlast
    rw [delim, tokenize_cons _ _ (by decide), tokenize_cons _ _ hplain.1, ← delim, hlast]
  rw [snprintf_of_short, decode, htok]
  · simp [strtoui64_decimal v hv]
  · have hdelim : delim.length = 7 := rfl
    have hname : "WriteReg".toList.length = 8 := rfl
    simp only [List.length_append, hdelim, hname, asyncArgsSize]
    omega

theorem decode_writeMem (build : Build) (ha : a < 2 ^ 64) (hd : validDataSize d) (c : List Char) :
    decode build (snprintf asyncArgsSize ("WriteMem".toList ++ (delim ++ (decimal a ++ (delim ++
      (decimal d ++ (delim ++ c))))))) =
      some (.writeMem (a % 2 ^ build.pointerBits) d
        ((tokenize delim (c.take (481 - (decimal a).length))).map (strtoui64 · 10))
        (itemBytes d
          ((tokenize delim (c.take (481 - (decimal a).length))).map (strtoui64 · 10)))) := by
  have hd' := validDataSize_iff.mp hd
  have hlenA := length_decimal_le (n := a) (k := 20) (by omega) (by decide)
  have hlenD : (decimal d).length = 1 := by
    rcases hd' with rfl | rfl | rfl | rfl <;> rfl
  have hsplit : 511 = "WriteMem".toList.length + (delim.length + ((decimal a).length +
      (delim.length + ((decimal d).length + (delim.length + (481 - (decimal a).length)))))) := by
    have hdelim : delim.length = 7 := rfl
    have hname : "WriteMem".toList.length = 8 := rfl
    omega
  have htake : snprintf asyncArgsSize ("WriteMem".toList ++ (delim ++ (decimal a ++ (delim ++
      (decimal d ++ (delim ++ c)))))) = "WriteMem".toList ++ (delim ++ (decimal a ++ (delim ++
      (decimal d ++ (delim ++ c.take (481 - (decimal a).length)))))) := by
    rw [snprintf, asyncArgsSize, show 512 - 1 = 511 from rfl, hsplit]
    simp only [List.take_length_add_append]
  have htok : tokenize delim ("WriteMem".toList ++ (delim ++ (decimal a ++ (delim ++
      (decimal d ++ (delim ++ c.take (481 - (decimal a).length))))))) =
      "WriteMem".toList :: decimal a :: decimal d ::
        tokenize delim (c.take (481 - (decimal a).length)) := by
    rw [delim, tokenize_cons _ _ (by decide), ← delim, tokenize_decimal, tokenize_decimal]
  have hpos : 0 < (tokenize delim (c.take (481 - (decimal a).length))).length :=
    List.length_pos_iff.mpr (tokensFrom_ne_nil _ _ _ _)
  have hname : "WriteMem".toList ≠ "ReadMem".toList := by decide
  rw [htake, decode, htok]
  simp only [List.getD_cons_zero, List.getD_cons_succ, List.length_cons, hname, false_and, if_false,
    true_and, List.drop_succ_cons, List.drop_zero, strtoui64_decimal a ha,
    strtoui64_mod_pointer build (show d < 2 ^ 32 by omega), hd]
  rw [if_pos (by omega), if_pos trivial]

/-- The address is a pointer of the driver, and the text fits in the buffer, except for a last
digit that is `0` alone. -/
def Call.Fits (build : Build) : Call → Prop
  | .readMem address _ _ => address.toNat < 2 ^ build.pointerBits
  | .writeMem address dataSize contents =>
    let ns := address.toNat :: dataSize.toNat :: (contents.getD []).map JsValue.toNat
    address.toNat < 2 ^ build.pointerBits ∧
      ("WriteMem".length + argsLength ns < asyncArgsSize ∨
        ("WriteMem".length + argsLength ns = asyncArgsSize ∧ ns.getLast? = some 0))
  | .writeReg _ _ => True

theorem asyncArgs_lossless_iff (toUpperCase : List Char → List Char) (build : Build) (call : Call)
    (text : List Char) (h : call.asyncArgs toUpperCase = .ok text) :
    decode build (snprintf asyncArgsSize text) = some (call.request toUpperCase) ↔
      call.Fits build := by
  cases call with
  | readMem address size dataSize =>
    obtain ⟨a, s, d, hA, hS, hD, ha, hs, hd, hle, rfl⟩ := readMem_ok h
    rw [decode_readMem build ha hs hd hle]
    simp only [Call.request, Call.Fits, hA, hS, hD, Option.some.injEq, Request.readMem.injEq,
      and_true]
    exact Nat.mod_eq_iff_lt (by positivity)
  | writeMem address dataSize contents =>
    obtain ⟨a, d, cs, hA, hD, hC, ha, hd, hne, hcs, rfl⟩ := writeMem_ok h
    have hlenA := length_decimal_le (n := a) (k := 20) (by omega) (by decide)
    have hlenD : (decimal d).length = 1 := by
      rcases validDataSize_iff.mp hd with rfl | rfl | rfl | rfl <;> rfl
    have hitems := items_of_take_iff cs (481 - (decimal a).length) hne hcs
    have hlast : (a :: d :: cs).getLast? = cs.getLast? := by
      cases cs with
      | nil => exact absurd rfl hne
      | cons n cs => rfl
    have hlen : "WriteMem".length + argsLength (a :: d :: cs) =
        8 + (14 + (decimal a).length + 1 + argsLength cs) := by
      rw [argsLength_cons, argsLength_cons, hlenD, show "WriteMem".length = 8 from rfl]
      omega
    rw [decode_writeMem build ha hd]
    simp only [Call.request, Call.Fits, hA, hD, hC, hlen, hlast, Option.some.injEq,
      Request.writeMem.injEq, true_and]
    refine and_congr (Nat.mod_eq_iff_lt (by positivity)) ?_
    constructor
    · rintro ⟨heq, -⟩
      rcases hitems.mp heq with hle | ⟨hle, hzero⟩
      · left
        rw [asyncArgsSize]
        omega
      · refine .inr ⟨?_, hzero⟩
        rw [asyncArgsSize]
        omega
    · intro hfits
      have heq := hitems.mpr <| by
        rcases hfits with hle | ⟨hle, hzero⟩
        · left
          rw [asyncArgsSize] at hle
          omega
        · refine .inr ⟨?_, hzero⟩
          rw [asyncArgsSize] at hle
          omega
      exact ⟨heq, by rw [heq]⟩
  | writeReg regName value =>
    obtain ⟨reg, v, hR, hV, hv, hreg, rfl⟩ := writeReg_ok h
    rw [decode_writeReg build hv hreg]
    simp only [Call.request, Call.Fits, hR, hV]

/-- Four bytes at an address. -/
theorem patchCall_lossless :
    decode .x64 (snprintf asyncArgsSize
      "WriteMem$delim$18446735282216914944$delim$1$delim$72$delim$184$delim$0$delim$255".toList) =
      some (.writeMem 0xFFFFF80112345000 1 [72, 184, 0, 255] [72, 184, 0, 255]) := by
  have h := (asyncArgs_lossless_iff id .x64
    (.writeMem (.bigint 0xFFFFF80112345000) (.number 1)
      (some [.number 72, .number 184, .number 0, .number 255]))
    "WriteMem$delim$18446735282216914944$delim$1$delim$72$delim$184$delim$0$delim$255".toList
    (by decide +kernel)).mpr ⟨by decide, .inl (by decide +kernel)⟩
  exact h

/-- Of 64 bytes that are filled with `NOP`, 48 are written. -/
theorem fillCall_truncated :
    ¬ ∀ (call : Call) (text : List Char), call.asyncArgs id = .ok text →
      decode .x64 (snprintf asyncArgsSize text) = some (call.request id) := by
  intro hall
  have hfill := hall (.writeMem (.number 0x1000) (.number 1) (some (.replicate 64 (.number 0x90))))
    ("WriteMem$delim$4096$delim$1$delim$".toList ++ joinItems (.replicate 64 144))
      (by decide +kernel)
  have hwritten : decode .x64 (snprintf asyncArgsSize
      ("WriteMem$delim$4096$delim$1$delim$".toList ++ joinItems (.replicate 64 144))) =
      some (.writeMem 4096 1 (.replicate 48 144) (.replicate 48 144)) := by
    decide +kernel
  rw [hwritten] at hfill
  exact absurd hfill (by decide +kernel)

end BugChecker.Script
