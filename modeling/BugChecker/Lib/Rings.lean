import Mathlib.Logic.Function.Basic

/-!
# Rings of cells

A part of a memory that is used as a ring: behind its last cell comes the first
one again. Values are stored one after the other from a cell on, and what lies
between two cells stays as it was unless it is reached.
-/

namespace Rings

/-- The cells from `lo` up to `hi`. -/
structure Ring where
  lo : Nat
  hi : Nat
  lo_lt_hi : lo < hi

namespace Ring

variable (r : Ring) {α : Type}

def size : Nat := r.hi - r.lo

def Has (i : Nat) : Prop := r.lo ≤ i ∧ i < r.hi

def next (i : Nat) : Nat := if i + 1 = r.hi then r.lo else i + 1

/-- The cell `k` places behind `i`, for no more places than there are. -/
def place (i k : Nat) : Nat := if i + k < r.hi then i + k else i + k - r.size

/-- The cells from `i` on up to `j`, none if they are the same. -/
def Range (i j n : Nat) : Prop :=
  if i ≤ j then i ≤ n ∧ n < j else i ≤ n ∧ n < r.hi ∨ r.lo ≤ n ∧ n < j

/-- The cells that are not in the range from `i` to `j`. -/
def free (i j : Nat) : Nat := if i ≤ j then r.size - (j - i) else i - j

def store (mem : Nat → α) (i : Nat) : List α → Nat → α
  | [] => mem
  | x :: xs => store (Function.update mem i x) (r.next i) xs

instance (i j n : Nat) : Decidable (r.Range i j n) := by
  unfold Range
  infer_instance

variable {r}

theorem Has.next (h : r.Has i) : r.Has (r.next i) := by
  unfold Ring.next
  obtain ⟨hlo, hhi⟩ := h
  have hlt := r.lo_lt_hi
  split
  · exact ⟨Nat.le_refl _, hlt⟩
  · exact ⟨by omega, by omega⟩

theorem place_zero (h : r.Has i) : r.place i 0 = i := if_pos h.2

theorem place_next (h : r.Has i) (hk : k < r.size) : r.place (r.next i) k = r.place i (k + 1) := by
  obtain ⟨hlo, hhi⟩ := h
  unfold size at hk
  unfold place next size
  split <;> split <;> split <;> omega

theorem place_ne (h : r.Has i) (hpos : 0 < k) (hk : k < r.size) : r.place i k ≠ i := by
  obtain ⟨hlo, hhi⟩ := h
  unfold size at hk
  unfold place size
  split <;> omega

theorem range_place_iff (hi : r.Has i) (hj : r.Has j) (hk : k < r.size) :
    r.Range i j (r.place j k) ↔ r.free i j ≤ k := by
  obtain ⟨hilo, hihi⟩ := hi
  obtain ⟨hjlo, hjhi⟩ := hj
  unfold size at hk
  unfold Range place free size
  split <;> split <;> omega

theorem store_of_not_placed {mem : Nat → α} {xs : List α} (h : r.Has i)
    (hlength : xs.length ≤ r.size)
    (hn : ∀ k < xs.length, r.place i k ≠ n) : r.store mem i xs n = mem n := by
  induction xs generalizing mem i with
  | nil => rfl
  | cons x xs ih =>
    rw [List.length_cons] at hlength hn
    have hfirst : n ≠ i := by
      have hzero := hn 0 (Nat.succ_pos _)
      rw [place_zero h] at hzero
      exact hzero.symm
    have hrest : ∀ k < xs.length, r.place (r.next i) k ≠ n := by
      intro k hk
      rw [place_next h (by omega)]
      exact hn (k + 1) (Nat.succ_lt_succ hk)
    rw [store, ih h.next (Nat.le_of_succ_le hlength) hrest, Function.update_of_ne hfirst]

theorem store_place {mem : Nat → α} {xs : List α} (h : r.Has i) (hlength : xs.length ≤ r.size)
    (hk : k < xs.length) : r.store mem i xs (r.place i k) = xs[k] := by
  induction xs generalizing mem i k with
  | nil => cases hk
  | cons x xs ih =>
    rw [List.length_cons] at hlength hk
    rw [store]
    cases k with
    | zero =>
      have hnot : ∀ k < xs.length, r.place (r.next i) k ≠ i := by
        intro k hk
        rw [place_next h (by omega)]
        exact place_ne h (Nat.succ_pos k) (by omega)
      rw [place_zero h, store_of_not_placed h.next (Nat.le_of_succ_le hlength) hnot,
        Function.update_self]
      rfl
    | succ k =>
      rw [← place_next h (by omega), ih h.next (Nat.le_of_succ_le hlength)
        (Nat.lt_of_succ_lt_succ hk)]
      rfl

/-- A range stays exactly if what is stored behind the free cells is what they hold. -/
theorem store_range_iff {mem : Nat → α} {xs : List α} (hi : r.Has i) (hj : r.Has j)
    (hlength : xs.length ≤ r.size) :
    (∀ n, r.Range i j n → r.store mem j xs n = mem n) ↔
      ∀ k (h : k < xs.length), r.free i j ≤ k → xs[k] = mem (r.place j k) := by
  constructor
  · intro hall k hk hfree
    rw [← hall _ ((range_place_iff hi hj (Nat.lt_of_lt_of_le hk hlength)).mpr hfree),
      store_place hj hlength hk]
  · intro hall n hn
    by_cases hplaced : ∃ k < xs.length, r.place j k = n
    · obtain ⟨k, hk, rfl⟩ := hplaced
      rw [store_place hj hlength hk]
      exact hall k hk ((range_place_iff hi hj (Nat.lt_of_lt_of_le hk hlength)).mp hn)
    · exact store_of_not_placed hj hlength fun k hk heq => hplaced ⟨k, hk, heq⟩

end Ring

end Rings
