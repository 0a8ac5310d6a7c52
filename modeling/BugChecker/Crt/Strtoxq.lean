import Mathlib.Data.Nat.Digits.Defs
import Mathlib.Tactic.IntervalCases

/-!
# Texts to numbers

`strtoxq` is behind `BC_strtoi64` and `BC_strtoui64`. A signed number that does
not fit is the nearest one that does. An unsigned one is negated after it was
cut to what fits, so that a sign in front of too many digits leaves `1`. Both
read back what is printed.
-/

namespace BugChecker.Crt

-- ---------------------------------------------------------------------------
-- The conversion
-- ---------------------------------------------------------------------------

def digval (c : Char) : Option Nat :=
  if '0' ≤ c ∧ c ≤ '9' then some (c.toNat - '0'.toNat)
  else if 'a' ≤ c ∧ c ≤ 'z' then some (c.toNat - 'a'.toNat + 10)
  else if 'A' ≤ c ∧ c ≤ 'Z' then some (c.toNat - 'A'.toNat + 10)
  else none

def readSign : List Char → Bool × List Char
  | '-' :: s => (true, s)
  | '+' :: s => (false, s)
  | s => (false, s)

def skipBase (ibase : Nat) : List Char → List Char
  | '0' :: c :: s => if ibase = 16 ∧ (c = 'x' ∨ c = 'X') then s else '0' :: c :: s
  | s => s

/-- `_UI64_MAX`. -/
def ui64Max : UInt64 := 0xFFFFFFFFFFFFFFFF

/-- The number so far and the flags of the loop. -/
structure Scan where
  number : UInt64
  overflow : Bool
  readDigit : Bool

def determineBase (ibase : Nat) (s : List Char) : Nat :=
  if ibase = 0 then
    match s with
    | '0' :: c :: _ => if c = 'x' ∨ c = 'X' then 16 else 8
    | ['0'] => 8
    | _ => 10
  else ibase

def convert (ibase : Nat) (endptr : Bool) (scan : Scan) : List Char → Scan × List Char
  | [] => (scan, [])
  | c :: s =>
    match digval c with
    | none => (scan, c :: s)
    | some digval =>
      if digval ≥ ibase then (scan, c :: s)
      else if scan.number < ui64Max / UInt64.ofNat ibase ∨
          scan.number = ui64Max / UInt64.ofNat ibase ∧
          UInt64.ofNat digval ≤ ui64Max % UInt64.ofNat ibase then
        convert ibase endptr
          { scan with
            number := scan.number * UInt64.ofNat ibase + UInt64.ofNat digval, readDigit := true } s
      else if endptr then convert ibase endptr { scan with overflow := true, readDigit := true } s
      else ({ scan with overflow := true, readDigit := true }, c :: s)

/-- The number and the place that stopped the scan, which the caller gets for an `endptr`. -/
def strtoxq (nptr : List Char) (endptr : Bool) (ibase : Nat) (unsigned : Bool) :
    UInt64 × List Char :=
  let (neg, s) := readSign (nptr.dropWhile (· = ' '))
  let ibase := determineBase ibase s
  let (scan, p) := convert ibase endptr ⟨0, false, false⟩ (skipBase ibase s)
  if scan.readDigit = false then (0, if endptr then nptr else p)
  else
    let number :=
      if scan.overflow = true ∨ (unsigned = false ∧
          ((neg = true ∧ scan.number > 0x8000000000000000) ∨
            (neg = false ∧ scan.number > 0x7FFFFFFFFFFFFFFF))) then
        if unsigned then ui64Max else if neg then 0x8000000000000000 else 0x7FFFFFFFFFFFFFFF
      else scan.number
    (if neg then -number else number, p)

def strtoi64 (nptr : List Char) (endptr : Bool) (ibase : Nat) : Int64 × List Char :=
  let (number, p) := strtoxq nptr endptr ibase false
  (number.toInt64, p)

/-- Callers pass no end pointer. -/
def strtoui64 (nptr : List Char) (ibase : Nat) : Nat := (strtoxq nptr false ibase true).1.toNat

-- ---------------------------------------------------------------------------
-- The digits of a text
-- ---------------------------------------------------------------------------

def digits (ibase : Nat) : List Char → List Nat
  | [] => []
  | c :: s =>
    match digval c with
    | none => []
    | some digval => if digval ≥ ibase then [] else digval :: digits ibase s

def value (ibase number : Nat) (ds : List Nat) : Nat :=
  ds.foldl (fun number d => number * ibase + d) number

theorem value_zero (ibase : Nat) (ds : List Nat) :
    value ibase 0 ds = Nat.ofDigits ibase ds.reverse := by
  rw [Nat.ofDigits_eq_foldr, List.foldr_reverse, value]
  congr 1
  funext number d
  simp only [Nat.cast_id]
  ring

@[simp] theorem value_nil (ibase number : Nat) : value ibase number [] = number := rfl

@[simp] theorem value_cons (ibase number d : Nat) (ds : List Nat) :
    value ibase number (d :: ds) = value ibase (number * ibase + d) ds := rfl

theorem value_append (ibase number : Nat) (ds es : List Nat) :
    value ibase number (ds ++ es) = value ibase (value ibase number ds) es := List.foldl_append

theorem le_value (hbase : 1 ≤ ibase) (number : Nat) (ds : List Nat) :
    number ≤ value ibase number ds := by
  induction ds generalizing number with
  | nil => exact Nat.le_refl _
  | cons d ds ih =>
    calc number ≤ number * ibase + d := Nat.le_add_right_of_le (Nat.le_mul_of_pos_right _ hbase)
      _ ≤ value ibase (number * ibase + d) ds := ih _

theorem fits_iff (hbase : 0 < ibase) (hd : d < ibase) (number max : Nat) :
    (number < max / ibase ∨ number = max / ibase ∧ d ≤ max % ibase) ↔ number * ibase + d ≤ max := by
  have hmax := Nat.div_add_mod max ibase
  have hmod := Nat.mod_lt max hbase
  rw [Nat.mul_comm] at hmax
  rcases Nat.lt_trichotomy number (max / ibase) with hlt | heq | hgt
  · have := Nat.mul_le_mul_right ibase (Nat.succ_le_of_lt hlt)
    rw [Nat.succ_mul] at this
    exact iff_of_true (.inl hlt) (by omega)
  · rw [heq]
    omega
  · have := Nat.mul_le_mul_right ibase (Nat.succ_le_of_lt hgt)
    rw [Nat.succ_mul] at this
    exact iff_of_false (by omega) (by omega)

-- ---------------------------------------------------------------------------
-- The loop
-- ---------------------------------------------------------------------------

section
variable {ibase : Nat} (endptr : Bool) (scan : Scan) (s : List Char)

theorem convert_cases (hbase : 0 < ibase) (hbase' : ibase < 2 ^ 64) :
    (digits ibase s = [] ∧ convert ibase endptr scan s = (scan, s)) ∨
      ∃ c d s', s = c :: s' ∧ d < ibase ∧ digits ibase s = d :: digits ibase s' ∧
        ((scan.number.toNat * ibase + d < 2 ^ 64 ∧
          convert ibase endptr scan s = convert ibase endptr
            { scan with number := UInt64.ofNat (scan.number.toNat * ibase + d), readDigit := true }
              s') ∨
          (2 ^ 64 ≤ scan.number.toNat * ibase + d ∧ convert ibase endptr scan s =
            if endptr then convert ibase endptr { scan with overflow := true, readDigit := true } s'
            else ({ scan with overflow := true, readDigit := true }, s))) := by
  cases s with
  | nil => exact .inl ⟨rfl, rfl⟩
  | cons c s =>
    rw [digits, convert]
    cases hc : digval c with
    | none => exact .inl ⟨rfl, rfl⟩
    | some d =>
      dsimp only
      by_cases hd : d ≥ ibase
      · rw [if_pos hd, if_pos hd]
        exact .inl ⟨rfl, rfl⟩
      · rw [if_neg hd, if_neg hd]
        refine .inr ⟨c, d, s, rfl, by omega, rfl, ?_⟩
        have hlt := scan.number.toNat_lt
        have hfits : (scan.number < ui64Max / UInt64.ofNat ibase ∨
            scan.number = ui64Max / UInt64.ofNat ibase ∧
            UInt64.ofNat d ≤ ui64Max % UInt64.ofNat ibase) ↔
            scan.number.toNat * ibase + d < 2 ^ 64 := by
          rw [UInt64.lt_iff_toNat_lt, ← UInt64.toNat_inj, UInt64.le_iff_toNat_le, UInt64.toNat_div,
            UInt64.toNat_mod, UInt64.toNat_ofNat_of_lt' hbase',
            UInt64.toNat_ofNat_of_lt' (lt_trans (Nat.lt_of_not_le hd) hbase'),
            show ui64Max.toNat = 2 ^ 64 - 1 from rfl, fits_iff hbase (by omega)]
          omega
        have hnumber : scan.number * UInt64.ofNat ibase + UInt64.ofNat d =
            UInt64.ofNat (scan.number.toNat * ibase + d) := by
          rw [UInt64.ofNat_add, UInt64.ofNat_mul, UInt64.ofNat_toNat]
        by_cases h : scan.number.toNat * ibase + d < 2 ^ 64
        · rw [if_pos (hfits.mpr h), hnumber]
          exact .inl ⟨h, rfl⟩
        · rw [if_neg (mt hfits.mp h)]
          exact .inr ⟨by omega, rfl⟩

theorem convert_readDigit (hbase : 0 < ibase) (hbase' : ibase < 2 ^ 64) :
    (convert ibase endptr scan s).1.readDigit = (scan.readDigit || !(digits ibase s).isEmpty) := by
  induction s generalizing scan with
  | nil => simp [convert, digits]
  | cons c s ih =>
    rcases convert_cases endptr scan (c :: s) hbase hbase' with
      ⟨hnil, heq⟩ | ⟨c', d, s', hs, -, hds, ⟨-, heq⟩ | ⟨-, heq⟩⟩
    · simp [hnil, heq]
    · cases hs
      rw [heq, ih, hds]
      simp
    · cases hs
      rw [heq, hds]
      cases endptr with
      | true => simp [ih]
      | false => simp

theorem convert_end (hbase : 0 < ibase) (hbase' : ibase < 2 ^ 64) :
    (convert ibase true scan s).2 = s.drop (digits ibase s).length := by
  induction s generalizing scan with
  | nil => simp [convert]
  | cons c s ih =>
    rcases convert_cases true scan (c :: s) hbase hbase' with
      ⟨hnil, heq⟩ | ⟨c', d, s', hs, -, hds, ⟨-, heq⟩ | ⟨-, heq⟩⟩
    · simp [hnil, heq]
    · cases hs
      rw [heq, ih, hds, List.length_cons, List.drop_succ_cons]
    · cases hs
      rw [heq, if_pos rfl, ih, hds, List.length_cons, List.drop_succ_cons]

theorem convert_of_overflow (hbase : 0 < ibase) (hbase' : ibase < 2 ^ 64)
    (h : scan.overflow = true) :
    (convert ibase endptr scan s).1.overflow = true := by
  induction s generalizing scan with
  | nil => simp [convert, h]
  | cons c s ih =>
    rcases convert_cases endptr scan (c :: s) hbase hbase' with
      ⟨-, heq⟩ | ⟨c', d, s', hs, -, -, ⟨-, heq⟩ | ⟨-, heq⟩⟩
    · rw [heq, h]
    · cases hs
      rw [heq, ih]
      exact h
    · cases hs
      rw [heq]
      cases endptr with
      | true => exact ih _ rfl
      | false => rfl

theorem convert_number (hbase : 0 < ibase) (hbase' : ibase < 2 ^ 64) (h : scan.overflow = false) :
    (value ibase scan.number.toNat (digits ibase s) < 2 ^ 64 →
        (convert ibase endptr scan s).1.overflow = false ∧
          (convert ibase endptr scan s).1.number.toNat =
          value ibase scan.number.toNat (digits ibase s)) ∧
      (2 ^ 64 ≤ value ibase scan.number.toNat (digits ibase s) →
        (convert ibase endptr scan s).1.overflow = true) := by
  induction s generalizing scan with
  | nil =>
    have hlt := scan.number.toNat_lt
    rw [convert, digits, value_nil]
    exact ⟨fun _ => ⟨h, rfl⟩, fun hle => absurd hlt (Nat.not_lt.mpr hle)⟩
  | cons c s ih =>
    have hlt := scan.number.toNat_lt
    rcases convert_cases endptr scan (c :: s) hbase hbase' with
      ⟨hnil, heq⟩ | ⟨c', d, s', hs, -, hds, ⟨hfits, heq⟩ | ⟨hover, heq⟩⟩
    · rw [heq, hnil, value_nil]
      exact ⟨fun _ => ⟨h, rfl⟩, fun hle => absurd hlt (Nat.not_lt.mpr hle)⟩
    · cases hs
      have := ih { scan with
        number := UInt64.ofNat (scan.number.toNat * ibase + d), readDigit := true } h
      rw [UInt64.toNat_ofNat_of_lt' hfits] at this
      rw [heq, hds, value_cons]
      exact this
    · cases hs
      rw [heq, hds, value_cons]
      have hle := le_value hbase (scan.number.toNat * ibase + d) (digits ibase s)
      refine ⟨fun hlt => by omega, fun _ => ?_⟩
      cases endptr with
      | true => exact convert_of_overflow _ _ _ hbase hbase' rfl
      | false => rfl

end

-- ---------------------------------------------------------------------------
-- The number of a text
-- ---------------------------------------------------------------------------

def parts (nptr : List Char) (ibase : Nat) : Bool × Nat × List Char :=
  let (neg, s) := readSign (nptr.dropWhile (· = ' '))
  (neg, determineBase ibase s, skipBase (determineBase ibase s) s)

def signed (neg : Bool) (number : Nat) : Int := if neg then -number else number

/-- What is left of a number: of a signed one the nearest that fits, of an unsigned one the
magnitude that is saturated, which is negated afterwards. -/
def saturated (unsigned neg : Bool) (number : Nat) : Int :=
  if unsigned then signed neg (min number (2 ^ 64 - 1))
  else max (-2 ^ 63) (min (signed neg number) (2 ^ 63 - 1))

theorem determineBase_bounds (h : ibase = 0 ∨ 2 ≤ ibase ∧ ibase ≤ 36) (s : List Char) :
    2 ≤ determineBase ibase s ∧ determineBase ibase s ≤ 36 := by
  unfold determineBase
  split
  · split
    · split <;> simp
    · simp
    · simp
  · rcases h with rfl | h
    · contradiction
    · exact h

theorem ofInt_natCast (n : Nat) : UInt64.ofInt n = UInt64.ofNat n := by
  apply UInt64.toNat_inj.mp
  rw [UInt64.ofInt, UInt64.toNat_ofNat', UInt64.toNat_ofNat']
  omega

theorem ofInt_signed (neg : Bool) (n : Nat) :
    UInt64.ofInt (signed neg n) = if neg then -UInt64.ofNat n else UInt64.ofNat n := by
  cases neg
  · exact ofInt_natCast n
  · simp [signed, ofInt_natCast]

theorem number_eq (unsigned neg : Bool) {number : UInt64} {overflow : Bool} {v : Nat}
    (hfits : v < 2 ^ 64 → overflow = false ∧ number.toNat = v)
      (hover : 2 ^ 64 ≤ v → overflow = true) :
    (let number' :=
      if overflow = true ∨ (unsigned = false ∧
          ((neg = true ∧ number > 0x8000000000000000) ∨
            (neg = false ∧ number > 0x7FFFFFFFFFFFFFFF))) then
        if unsigned then ui64Max else if neg then 0x8000000000000000 else 0x7FFFFFFFFFFFFFFF
      else number
    if neg then -number' else number') = UInt64.ofInt (saturated unsigned neg v) := by
  have hnumber : v < 2 ^ 64 → number = UInt64.ofNat v := fun h =>
    UInt64.toNat_inj.mp (by rw [(hfits h).2, UInt64.toNat_ofNat_of_lt' h])
  cases unsigned with
  | true =>
    simp only [saturated, Bool.true_eq_false, false_and, or_false, if_true, ofInt_signed]
    rcases Nat.lt_or_ge v (2 ^ 64) with h | h
    · rw [(hfits h).1, hnumber h, Nat.min_eq_left (by omega)]
      simp
    · rw [hover h, if_pos rfl, Nat.min_eq_right (by omega)]
      rfl
  | false =>
    simp only [saturated, true_and, Bool.false_eq_true, if_false]
    cases neg with
    | true =>
      simp only [true_and, Bool.true_eq_false, false_and, or_false, if_true, signed]
      by_cases h : v ≤ 2 ^ 63
      · rw [(hfits (by omega)).1, if_neg]
        · rw [hnumber (by omega), Int.min_eq_left (by omega), Int.max_eq_right (by omega),
            UInt64.ofInt_neg, ofInt_natCast]
        · simp only [Bool.false_eq_true, false_or, gt_iff_lt, UInt64.lt_iff_toNat_lt,
            (hfits (by omega)).2]
          exact Nat.not_lt.mpr h
      · rw [if_pos, Int.min_eq_left (by omega), Int.max_eq_left (by omega)]
        · rfl
        · rcases Nat.lt_or_ge v (2 ^ 64) with hlt | hge
          · refine .inr ?_
            rw [gt_iff_lt, UInt64.lt_iff_toNat_lt, (hfits hlt).2]
            exact Nat.lt_of_not_le h
          · exact .inl (hover hge)
    | false =>
      simp only [Bool.false_eq_true, false_and, false_or, true_and, if_false, signed]
      by_cases h : v ≤ 2 ^ 63 - 1
      · rw [(hfits (by omega)).1, if_neg]
        · rw [hnumber (by omega), Int.min_eq_left (by omega), Int.max_eq_right (by omega),
            ofInt_natCast]
        · simp only [Bool.false_eq_true, false_or, gt_iff_lt, UInt64.lt_iff_toNat_lt,
            (hfits (by omega)).2]
          exact Nat.not_lt.mpr h
      · rw [if_pos, Int.min_eq_right (by omega), Int.max_eq_right (by omega)]
        · rfl
        · rcases Nat.lt_or_ge v (2 ^ 64) with hlt | hge
          · refine .inr ?_
            rw [gt_iff_lt, UInt64.lt_iff_toNat_lt, (hfits hlt).2]
            exact Nat.lt_of_not_le h
          · exact .inl (hover hge)

section
variable (h : ibase = 0 ∨ 2 ≤ ibase ∧ ibase ≤ 36) (hparts : parts nptr ibase = (neg, base, s))
include h hparts

theorem parts_cases : readSign (nptr.dropWhile (· = ' ')) =
    (neg, (readSign (nptr.dropWhile (· = ' '))).2) ∧
    determineBase ibase (readSign (nptr.dropWhile (· = ' '))).2 = base ∧
    skipBase base (readSign (nptr.dropWhile (· = ' '))).2 = s ∧ 0 < base ∧ base < 2 ^ 64 := by
  simp only [parts, Prod.mk.injEq] at hparts
  obtain ⟨rfl, rfl, rfl⟩ := hparts
  obtain ⟨hlo, hhi⟩ := determineBase_bounds h (readSign (nptr.dropWhile (· = ' '))).2
  exact ⟨rfl, rfl, rfl, Nat.lt_of_lt_of_le (by simp) hlo, Nat.lt_of_le_of_lt hhi (by simp)⟩

theorem strtoxq_number (unsigned endptr : Bool) : (strtoxq nptr endptr ibase unsigned).1 =
    UInt64.ofInt (saturated unsigned neg (Nat.ofDigits base (digits base s).reverse)) := by
  obtain ⟨hsign, hb, hs, hbase, hbase'⟩ := parts_cases h hparts
  unfold strtoxq
  rw [hsign]
  dsimp only
  rw [hb, hs, ← value_zero]
  have hread : (convert base endptr ⟨0, false, false⟩ s).1.readDigit =
      !(digits base s).isEmpty := by
    simp [convert_readDigit endptr ⟨0, false, false⟩ s hbase hbase']
  rw [hread]
  cases hds : digits base s with
  | nil => cases unsigned <;> cases neg <;> rfl
  | cons d ds =>
    rw [← hds]
    have hnumber := convert_number endptr ⟨0, false, false⟩ s hbase hbase' rfl
    simpa [hds] using number_eq unsigned neg hnumber.1 hnumber.2

theorem strtoxq_end (unsigned : Bool) : (strtoxq nptr true ibase unsigned).2 =
    if digits base s = [] then nptr else s.drop (digits base s).length := by
  obtain ⟨hsign, hb, hs, hbase, hbase'⟩ := parts_cases h hparts
  unfold strtoxq
  rw [hsign]
  dsimp only
  rw [hb, hs]
  have hread : (convert base true ⟨0, false, false⟩ s).1.readDigit = !(digits base s).isEmpty := by
    simp [convert_readDigit true ⟨0, false, false⟩ s hbase hbase']
  rw [hread, convert_end _ _ hbase hbase']
  cases digits base s with
  | nil => simp
  | cons d ds => simp

end

/-- Every text is read as its number, saturated, and the scan ends behind its digits: at its start,
if there are none. -/
theorem strtoxq_eq (h : ibase = 0 ∨ 2 ≤ ibase ∧ ibase ≤ 36)
    (hparts : parts nptr ibase = (neg, base, s))
    (unsigned : Bool) :
    (∀ endptr, (strtoxq nptr endptr ibase unsigned).1 =
        UInt64.ofInt (saturated unsigned neg (Nat.ofDigits base (digits base s).reverse))) ∧
      (strtoxq nptr true ibase unsigned).2 =
        if digits base s = [] then nptr else s.drop (digits base s).length := by
  constructor
  · exact strtoxq_number h hparts unsigned
  · exact strtoxq_end h hparts unsigned

theorem strtoxq_neg_overflow :
    (∀ endptr, (strtoxq "  -0x8000000000000000F g".toList endptr 0 false).1 =
      UInt64.ofInt (saturated false true
        (Nat.ofDigits 16 (digits 16 "8000000000000000F g".toList).reverse))) ∧
      (strtoxq "  -0x8000000000000000F g".toList true 0 false).2 =
        if digits 16 "8000000000000000F g".toList = [] then "  -0x8000000000000000F g".toList
        else "8000000000000000F g".toList.drop (digits 16 "8000000000000000F g".toList).length :=
  have hparts : parts "  -0x8000000000000000F g".toList 0 =
      (true, 16, "8000000000000000F g".toList) := rfl
  strtoxq_eq (.inl rfl) hparts false

example : strtoxq "  -0x8000000000000000F g".toList true 0 false =
    (0x8000000000000000, " g".toList) := by
  decide +kernel

example : (strtoxq "-99999999999999999999".toList false 10 true).1 = 1 := by decide +kernel

-- ---------------------------------------------------------------------------
-- Numbers that are printed
-- ---------------------------------------------------------------------------

theorem digits_append_of_forall (h : ∀ c ∈ cs, ∃ d, digval c = some d ∧ d < ibase)
    (rest : List Char)
    (hrest : digits ibase rest = []) :
    digits ibase (cs ++ rest) = cs.filterMap digval := by
  induction cs with
  | nil => exact hrest
  | cons c cs ih =>
    obtain ⟨⟨d, hd, hlt⟩, hcs⟩ := List.forall_mem_cons.mp h
    rw [List.cons_append, digits, hd, List.filterMap_cons, hd]
    dsimp only
    rw [if_neg (Nat.not_le.mpr hlt), ih hcs]

theorem length_filterMap_digval {cs : List Char}
    (h : ∀ c ∈ cs, ∃ d, digval c = some d ∧ d < ibase) :
    (cs.filterMap digval).length = cs.length := by
  induction cs with
  | nil => rfl
  | cons c cs ih =>
    obtain ⟨⟨d, hd, -⟩, hcs⟩ := List.forall_mem_cons.mp h
    rw [List.filterMap_cons, hd, List.length_cons, List.length_cons, ih hcs]

theorem parts_of_digit {c : Char} (hc : digval c = some d)
    (hx : ibase = 16 → ∀ x ∈ s.head?, x ≠ 'x' ∧ x ≠ 'X') (hbase : ibase ≠ 0) :
      parts (c :: s) ibase = (false, ibase, c :: s) := by
  have hblank : (c :: s).dropWhile (· = ' ') = c :: s := by
    rw [List.dropWhile_cons_of_neg]
    simp only [decide_eq_true_eq]
    rintro rfl
    cases hc
  have hsign : readSign (c :: s) = (false, c :: s) := by
    unfold readSign
    split
    · next heq =>
      cases heq
      cases hc
    · next heq =>
      cases heq
      cases hc
    · rfl
  have hskip : skipBase ibase (c :: s) = c :: s := by
    unfold skipBase
    split
    · next heq =>
      cases heq
      rw [if_neg]
      rintro ⟨h16, hcx⟩
      have := hx h16 _ rfl
      tauto
    · rfl
  rw [parts, hblank, hsign]
  simp only [determineBase, if_neg hbase, hskip]

def decimal (n : Nat) : List Char := Nat.toDigits 10 n

theorem isDigit_of_mem_decimal (h : c ∈ decimal n) : c.isDigit = true :=
  Nat.isDigit_of_mem_toDigits (by decide) (by decide) h

theorem dollar_not_mem_decimal : '$' ∉ decimal n := by
  intro h
  exact absurd (isDigit_of_mem_decimal h) (by decide)

theorem digval_digitChar (h : n < 10) : digval n.digitChar = some n := by
  interval_cases n <;> rfl

/-- `Utils::I64ToString`. -/
def i64ToString (i64 : Int64) : List Char :=
  if i64.toInt < 0 then '-' :: decimal i64.toInt.natAbs else decimal i64.toInt.natAbs

theorem value_decimal (n : Nat) : value 10 0 ((decimal n).filterMap digval) = n := by
  induction n using Nat.strongRecOn with
  | ind n ih =>
    rcases Nat.lt_or_ge n 10 with hlt | hge
    · rw [decimal, Nat.toDigits_of_lt_base hlt, List.filterMap_cons, digval_digitChar hlt]
      simp
    · have hdiv := ih (n / 10) (by omega)
      rw [decimal] at hdiv
      rw [decimal, Nat.toDigits_of_base_le (by decide) hge, List.filterMap_append, value_append,
        hdiv, List.filterMap_cons, digval_digitChar (Nat.mod_lt n (by decide))]
      simp only [List.filterMap_nil, value_cons, value_nil]
      omega

theorem digval_of_isDigit (h : c.isDigit = true) : ∃ d, digval c = some d ∧ d < 10 := by
  simp only [Char.isDigit, ge_iff_le, Bool.and_eq_true, decide_eq_true_eq,
    UInt32.le_iff_toNat_le] at h
  refine ⟨_, if_pos h, ?_⟩
  have := h.2
  change c.toNat ≤ 57 at this
  change c.toNat - 48 < 10
  omega

theorem decimal_eq_cons (n : Nat) : ∃ c cs, decimal n = c :: cs := by
  cases h : decimal n with
  | nil =>
    have := congrArg List.length h
    have := Nat.length_toDigits_pos (b := 10) (n := n)
    simp_all [decimal]
  | cons c cs => exact ⟨c, cs, rfl⟩

theorem toInt64_ofInt (i : Int) : (UInt64.ofInt i).toInt64 = Int64.ofInt i := by
  apply Int64.toBitVec_inj.mp
  apply BitVec.eq_of_toNat_eq
  simp [UInt64.ofInt, BitVec.toNat_ofInt]
  omega

/-- An integer that is printed is read back, whatever is behind it. -/
theorem strtoi64_i64ToString (i64 : Int64) (rest : List Char) (hrest : digits 10 rest = []) :
    strtoi64 (i64ToString i64 ++ rest) true 10 = (i64, rest) := by
  obtain ⟨c, cs, hcs⟩ := decimal_eq_cons i64.toInt.natAbs
  have hall : ∀ c ∈ decimal i64.toInt.natAbs, ∃ d, digval c = some d ∧ d < 10 := fun c hc =>
    digval_of_isDigit (isDigit_of_mem_decimal hc)
  obtain ⟨d, hd, -⟩ := hall c (by rw [hcs]; exact List.mem_cons_self)
  have hparts : parts (i64ToString i64 ++ rest) 10 =
      (decide (i64.toInt < 0), 10, decimal i64.toInt.natAbs ++ rest) := by
    unfold i64ToString
    split
    · next hneg =>
      have hbase : ∀ t, skipBase 10 t = t := fun t => by
        unfold skipBase
        split
        · simp
        · rfl
      simp [parts, readSign, determineBase, hbase, hneg]
    · next hneg =>
      rw [hcs, List.cons_append, parts_of_digit hd (fun h => absurd h (by decide)) (by decide),
        decide_eq_false hneg]
  have hne : (decimal i64.toInt.natAbs).filterMap digval ≠ [] := by
    rw [hcs, List.filterMap_cons, hd]
    exact List.cons_ne_nil _ _
  have hnumber := strtoxq_number (.inr ⟨(by decide : 2 ≤ 10), by decide⟩) hparts false true
  rw [digits_append_of_forall hall rest hrest, ← value_zero, value_decimal] at hnumber
  have hend := strtoxq_end (.inr ⟨(by decide : 2 ≤ 10), by decide⟩) hparts false
  rw [digits_append_of_forall hall rest hrest, if_neg hne, length_filterMap_digval hall,
    List.drop_left] at hend
  have hsaturated : saturated false (decide (i64.toInt < 0)) i64.toInt.natAbs = i64.toInt := by
    have := i64.le_toInt
    have := i64.toInt_lt
    simp only [saturated, signed, Bool.false_eq_true, if_false, decide_eq_true_eq]
    split <;> omega
  have hxq : strtoxq (i64ToString i64 ++ rest) true 10 false = (UInt64.ofInt i64.toInt, rest) :=
    Prod.ext (hnumber.trans (congrArg UInt64.ofInt hsaturated)) hend
  rw [strtoi64, hxq]
  dsimp only
  rw [toInt64_ofInt, Int64.ofInt_toInt]

theorem strtoi64_i64ToString_neg :
    strtoi64 (i64ToString (-9223372036854775808) ++ ".5".toList) true 10 =
    (-9223372036854775808, ".5".toList) :=
  strtoi64_i64ToString (-9223372036854775808) ".5".toList (by decide)

-- ---------------------------------------------------------------------------
-- Unsigned numbers without an end
-- ---------------------------------------------------------------------------

/-- A text of digits is its value, saturated. -/
theorem strtoui64_of_forall (hall : ∀ c ∈ cs, ∃ d, digval c = some d ∧ d < ibase)
    (hbase : 2 ≤ ibase ∧ ibase ≤ 33) :
    strtoui64 cs ibase = min (value ibase 0 (cs.filterMap digval)) (2 ^ 64 - 1) := by
  have hparts : parts cs ibase = (false, ibase, cs) := by
    cases cs with
    | nil => simp [parts, readSign, determineBase, skipBase, show ibase ≠ 0 by omega]
    | cons c s =>
      obtain ⟨⟨d, hd, -⟩, hs⟩ := List.forall_mem_cons.mp hall
      refine parts_of_digit hd (fun _ x hx => ?_) (by omega)
      obtain ⟨d', hd', hlt'⟩ := hs x (List.mem_of_head? hx)
      constructor
      · rintro rfl
        obtain rfl : 33 = d' := Option.some.inj hd'
        omega
      · rintro rfl
        obtain rfl : 33 = d' := Option.some.inj hd'
        omega
  have hdigits : digits ibase cs = cs.filterMap digval := by
    simpa using digits_append_of_forall hall [] rfl
  have hnumber := strtoxq_number (.inr ⟨hbase.1, by omega⟩) hparts true false
  rw [← value_zero, hdigits, saturated, if_pos rfl, ofInt_signed, if_neg Bool.false_ne_true]
    at hnumber
  rw [strtoui64, hnumber, UInt64.toNat_ofNat_of_lt']
  exact Nat.lt_of_le_of_lt (Nat.min_le_right _ _) (by decide)

theorem strtoui64_decimal (n : Nat) (h : n < 2 ^ 64) : strtoui64 (decimal n) 10 = n := by
  rw [strtoui64_of_forall (fun c hc => digval_of_isDigit (isDigit_of_mem_decimal hc)) (by decide),
    value_decimal]
  exact Nat.min_eq_left (Nat.le_sub_one_of_lt h)

theorem strtoui64_take_decimal (n k : Nat) (h : n < 2 ^ 64) (hk : k < (decimal n).length) :
    strtoui64 ((decimal n).take k) 10 ≤ n / 10 := by
  induction n using Nat.strongRecOn with
  | ind n ih =>
    rcases Nat.lt_or_ge n 10 with hlt | hge
    · rw [decimal, Nat.toDigits_of_lt_base hlt, List.length_singleton] at hk
      obtain rfl : k = 0 := by omega
      exact Nat.zero_le _
    · have hdigits : decimal n = decimal (n / 10) ++ [(n % 10).digitChar] :=
        Nat.toDigits_of_base_le (by decide) hge
      rw [hdigits, List.length_append, List.length_singleton] at hk
      rw [hdigits, List.take_append_of_le_length (by omega)]
      rcases Nat.lt_or_ge k (decimal (n / 10)).length with hk' | hk'
      · have := ih (n / 10) (by omega) (by omega) hk'
        omega
      · rw [List.take_of_length_le hk', strtoui64_decimal _ (by omega)]

theorem strtoui64_take_decimal_eq_iff (n k : Nat) (h : n < 2 ^ 64) :
    strtoui64 ((decimal n).take k) 10 = n ↔ (decimal n).length ≤ k ∨ n = 0 := by
  constructor
  · intro heq
    by_contra! hnot
    obtain ⟨hk, hn⟩ := hnot
    have := strtoui64_take_decimal n k h hk
    omega
  · rintro (hk | rfl)
    · rw [List.take_of_length_le hk, strtoui64_decimal n h]
    · rcases Nat.lt_or_ge k (decimal 0).length with hk | hk
      · have := strtoui64_take_decimal 0 k h hk
        omega
      · rw [List.take_of_length_le hk, strtoui64_decimal 0 h]

end BugChecker.Crt
