import BugChecker.Lib.Bytes

/-!
# Strings in memory

A string is a sequence of bytes without the byte zero, kept in memory with a
zero behind it. Strings are ordered byte by byte, a string before its
extensions. Comparing a string with one in memory follows that order.
-/

namespace Strings

open Bytes

structure CString where
  bytes : List UInt8
  nulFree : 0 ∉ bytes
  deriving DecidableEq

theorem CString.ext_bytes {s t : CString} (h : s.bytes = t.bytes) : s = t := by
  cases s
  cases t
  cases h
  rfl

def CString.terminated (s : CString) : List UInt8 := s.bytes ++ [0]

instance : LT CString := ⟨fun s t => s.bytes < t.bytes⟩

instance (s t : CString) : Decidable (s < t) := inferInstanceAs (Decidable (s.bytes < t.bytes))

def strcmpAt (m : Memory) : List UInt8 → Nat → Int
  | [], pos => if m pos = 0 then 0 else -1
  | c :: rest, pos =>
    if c = m pos then strcmpAt m rest (pos + 1) else if c < m pos then -1 else 1

/-- `strcmp` of a string with the one at a position of the memory. -/
def strcmp (s : CString) (m : Memory) (pos : Nat) : Int := strcmpAt m s.bytes pos

theorem strcmpAt_sign {s t : List UInt8} (hs : 0 ∉ s) (ht : 0 ∉ t) (h : Holds m pos (t ++ [0])) :
    (strcmpAt m s pos = 0 ↔ s = t) ∧ (0 < strcmpAt m s pos ↔ t < s) ∧
      (strcmpAt m s pos < 0 ↔ s < t) := by
  induction s generalizing t pos with
  | nil =>
    cases t with
    | nil => simp [strcmpAt, (holds_cons.mp h).1]
    | cons d t =>
      have hd : d ≠ 0 := fun hd => ht (hd ▸ List.mem_cons_self)
      simp [strcmpAt, (holds_cons.mp h).1, hd]
  | cons c s ih =>
    have hc : c ≠ 0 := fun hc => hs (hc ▸ List.mem_cons_self)
    cases t with
    | nil => simp [strcmpAt, (holds_cons.mp h).1, hc]
    | cons d t =>
      obtain ⟨hm, hrest⟩ := holds_cons.mp h
      rw [strcmpAt, hm, List.cons_lt_cons_iff, List.cons_lt_cons_iff, List.cons.injEq]
      rcases lt_trichotomy c.toNat d.toNat with hlt | heq | hgt
      · have hne : c ≠ d := fun he => by simp [he] at hlt
        have hcd : c < d := hlt
        have hdc : ¬ d < c := fun hd => by exact absurd (Nat.lt_trans hlt hd) (Nat.lt_irrefl _)
        simp [hne, hne.symm, hcd, hdc]
      · obtain rfl : c = d := UInt8.toNat_inj.mp heq
        have hirr : ¬ c < c := fun hd => Nat.lt_irrefl _ hd
        simpa [hirr] using ih (fun h0 => hs (List.mem_cons_of_mem _ h0))
          (fun h0 => ht (List.mem_cons_of_mem _ h0)) hrest
      · have hne : c ≠ d := fun he => by simp [he] at hgt
        have hdc : d < c := hgt
        have hcd : ¬ c < d := fun hd => absurd (Nat.lt_trans hgt hd) (Nat.lt_irrefl _)
        simp [hne, hne.symm, hcd, hdc]

section
variable {s t : CString} (h : Holds m pos t.terminated)
include h

theorem strcmp_eq_zero : strcmp s m pos = 0 ↔ s = t :=
  (strcmpAt_sign s.nulFree t.nulFree h).1.trans ⟨CString.ext_bytes, congrArg CString.bytes⟩

theorem strcmp_pos : 0 < strcmp s m pos ↔ t < s := (strcmpAt_sign s.nulFree t.nulFree h).2.1

theorem strcmp_neg : strcmp s m pos < 0 ↔ s < t := (strcmpAt_sign s.nulFree t.nulFree h).2.2

end

-- ---------------------------------------------------------------------------
-- The order
-- ---------------------------------------------------------------------------

theorem CString.lt_irrefl (s : CString) : ¬ s < s := List.lt_irrefl s.bytes

theorem CString.lt_trans {s t u : CString} (h : s < t) (h' : t < u) : s < u :=
  List.lt_trans h h'

theorem CString.lt_asymm {s t : CString} (h : s < t) : ¬ t < s := List.lt_asymm h

theorem CString.eq_of_not_lt {s t : CString} (h : ¬ s < t) (h' : ¬ t < s) : s = t :=
  CString.ext_bytes (Std.Trichotomous.trichotomous _ _ h h')

end Strings
