import BugChecker.Cmd.Dump
import BugChecker.Crt.Strtoxq
import Mathlib.Data.List.GetD

/-!
# Numbers that are shown as arguments

`HexToString` writes addresses and values for dumps, lists and the texts of
breakpoints. What is shown can be given to a command again: it is never taken
for a register, a symbol or a script.
-/

namespace BugChecker.Cmd

open Crt (digits digval strtoui64 value)

def hexChars : Text := "0123456789ABCDEF".toList

theorem mem_hexToString (h : c ∈ hexToString v size) : c ∈ hexChars := by
  obtain ⟨k, -, rfl⟩ := List.mem_map.mp h
  have hlt : v.toNat / 16 ^ k % 16 < hexChars.length := Nat.mod_lt _ (by decide)
  change hexChars.getD _ '0' ∈ hexChars
  rw [List.getD_eq_getElem _ _ hlt]
  exact List.getElem_mem hlt

@[simp] theorem length_hexToString (v : UInt64) (size : Nat) :
    (hexToString v size).length = 2 * size := by simp [hexToString]

theorem hexChars_forall {p : Char → Bool} (h : hexChars.all p = true) (hc : c ∈ hexChars) :
    p c = true :=
  List.all_eq_true.mp h c hc

-- ---------------------------------------------------------------------------
-- The number
-- ---------------------------------------------------------------------------

theorem digval_hexChar (h : n < 16) : digval ("0123456789ABCDEF".toList.getD n '0') = some n := by
  interval_cases n <;> rfl

theorem value_hexDigits (acc n v : Nat) :
    value 16 acc ((List.range n).reverse.map fun k => v / 16 ^ k % 16) =
    acc * 16 ^ n + v % 16 ^ n := by
  induction n generalizing acc with
  | zero => simp [Nat.mod_one]
  | succ n ih =>
    rw [List.range_succ, List.reverse_append, List.reverse_singleton, List.singleton_append,
      List.map_cons, Crt.value_cons, ih]
    calc (acc * 16 + v / 16 ^ n % 16) * 16 ^ n + v % 16 ^ n
        = acc * 16 ^ (n + 1) + (v % 16 ^ n + 16 ^ n * (v / 16 ^ n % 16)) := by ring
      _ = acc * 16 ^ (n + 1) + v % 16 ^ (n + 1) := by rw [Nat.pow_succ, ← Nat.mod_mul]

theorem filterMap_hexToString (v : UInt64) (size : Nat) :
    (hexToString v size).filterMap digval = (List.range (2 * size)).reverse.map fun k =>
      v.toNat / 16 ^ k % 16 := by
  rw [hexToString, List.filterMap_map]
  rw [← List.filterMap_eq_map]
  apply List.filterMap_congr
  intro k _
  exact digval_hexChar (Nat.mod_lt _ (by decide))

theorem digval_of_mem_hexChars (h : c ∈ hexChars) : ∃ n, digval c = some n ∧ n < 16 := by
  have hall : hexChars.all (fun c => (digval c).any (· < 16)) = true := by decide
  have hc := hexChars_forall hall h
  cases hdigval : digval c with
  | none => simp [hdigval] at hc
  | some n => exact ⟨n, rfl, by simpa [hdigval] using hc⟩

theorem strtoui64_hexToString (v : UInt64) (size : Nat) :
    strtoui64 (hexToString v size) 16 = v.toNat % 256 ^ size := by
  have hvalue : value 16 0 ((hexToString v size).filterMap digval) = v.toNat % 256 ^ size := by
    rw [filterMap_hexToString, value_hexDigits, Nat.zero_mul, Nat.zero_add, Nat.pow_mul]
  have hlt : v.toNat % 256 ^ size < 2 ^ 64 := lt_of_le_of_lt (Nat.mod_le _ _) v.toNat_lt
  rw [Crt.strtoui64_of_forall (fun c hc => digval_of_mem_hexChars (mem_hexToString hc))
    (by decide), hvalue]
  exact Nat.min_eq_left (Nat.le_sub_one_of_lt hlt)

-- ---------------------------------------------------------------------------
-- The argument
-- ---------------------------------------------------------------------------

theorem stringToZydisReg_hex (hpre : pre = [] ∨ pre = "0x".toList) (hcs : ∀ c ∈ cs, c ∈ hexChars) :
    stringToZydisReg (pre ++ cs) = .none := by
  have hnames : regNames.all (fun name => !(toLower name.1.toList).all fun c =>
      (hexChars.map Char.toLower).contains c) = true := by
    decide +kernel
  have hfirst : regNames.all (fun name => (toLower name.1.toList).head? ≠ some '0') = true := by
    decide +kernel
  have hfind : regNames.find? (fun name => areStringsEqualI name.1.toList (pre ++ cs)) = none := by
    rw [List.find?_eq_none]
    intro name hname heq
    have heq : toLower name.1.toList = toLower (pre ++ cs) := by simpa [areStringsEqualI] using heq
    rcases hpre with rfl | rfl
    · have hname := List.all_eq_true.mp hnames name hname
      simp only [heq, List.nil_append, Bool.not_eq_true', List.all_eq_false] at hname
      obtain ⟨c, hc, hnot⟩ := hname
      obtain ⟨c', hc', rfl⟩ := List.mem_map.mp hc
      exact hnot (List.contains_iff_mem.mpr (List.mem_map_of_mem (hcs c' hc')))
    · have hname := List.all_eq_true.mp hfirst name hname
      rw [heq] at hname
      exact absurd rfl (of_decide_eq_true hname)
  rw [stringToZydisReg, hfind]

/-- A number that is shown means itself as an argument, with or without `0x` in front of it. -/
theorem resolveArg_hexToString (build : Build) (evaluate : Text → Except String UInt64)
    (ctx : Step.Context) (v : UInt64) (hsize : size = 1 ∨ size = 2 ∨ size = 4 ∨ size = 8)
    (hpre : pre = [] ∨ pre = "0x".toList) :
      resolveArg build evaluate (pre ++ hexToString v size) ctx =
        .ok (UInt64.ofNat (v.toNat % 256 ^ size)) := by
  have hsize' : 0 < size ∧ size ≤ 8 := by omega
  have hdigits : hexDigits (pre ++ hexToString v size) = some (hexToString v size) := by
    have hpart : (if "0x".toList.isPrefixOf (pre ++ hexToString v size)
        then (pre ++ hexToString v size).drop 2
        else pre ++ hexToString v size) = hexToString v size := by
      rcases hpre with rfl | rfl
      · rw [List.nil_append, if_neg]
        intro h
        have hx : 'x' ∈ hexToString v size := (List.isPrefixOf_iff_prefix.mp h).subset (by decide)
        exact absurd (mem_hexToString hx) (by decide)
      · rfl
    have hall : (hexToString v size).all isHexDigit = true :=
      List.all_eq_true.mpr fun c hc => hexChars_forall (by decide) (mem_hexToString hc)
    rw [hexDigits, hpart, hall, length_hexToString, decide_eq_true (by omega),
      decide_eq_true (by omega)]
    rfl
  rw [resolveArg, stringToZydisReg_hex hpre fun c => mem_hexToString, hdigits]
  dsimp only [Step.Context.value, Step.zydisRegToCtxRegValuePtr, Option.map_none]
  rw [strtoui64_hexToString v]

theorem resolveArg_hexToString_long :
    resolveArg .x64 (fun _ => .error "") ("0x".toList ++ hexToString 0xFFFFF80012345678 8)
      ⟨fun _ => 0, 0x202⟩ =
      .ok (UInt64.ofNat ((0xFFFFF80012345678 : UInt64).toNat % 256 ^ 8)) :=
  resolveArg_hexToString .x64 (fun _ => .error "") ⟨fun _ => 0, 0x202⟩ 0xFFFFF80012345678
    (.inr (.inr (.inr rfl))) (.inr rfl)

end BugChecker.Cmd
