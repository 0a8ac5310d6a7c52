import Mathlib.Algebra.BigOperators.Group.List.Basic
import Mathlib.Algebra.GroupWithZero.Nat

/-!
# Lists that are kept within a budget

Elements are pushed to a buffer that doubles when it is full, and are dropped
from the front while what they cost is over a limit. What is dropped is a
prefix, and the last element stays exactly if it alone is within the limit.
-/

namespace Budget

section
variable (cost : α → Nat) (limit : Int)

def total (xs : List α) : Nat := (xs.map cost).sum

/-- Drops elements while `held` is over the limit. -/
def trim : Int → List α → Int × List α
  | held, [] => (held, [])
  | held, x :: xs => if held > limit then trim (held - cost x) xs else (held, x :: xs)

end

section
variable {cost : α → Nat} {limit : Int}

@[simp] theorem total_nil : total cost [] = 0 := rfl

@[simp] theorem total_cons : total cost (x :: xs) = cost x + total cost xs := by
  simp [total]

@[simp] theorem total_append : total cost (xs ++ ys) = total cost xs + total cost ys := by
  simp [total]

theorem trim_suffix (held : Int) (xs : List α) : (trim cost limit held xs).2 <:+ xs := by
  induction xs generalizing held with
  | nil => exact List.suffix_refl []
  | cons x xs ih =>
    rw [trim]
    split
    · exact (ih _).trans (List.suffix_cons x xs)
    · exact List.suffix_refl _

theorem trim_of_le {held : Int} (h : held ≤ limit) (xs : List α) :
    trim cost limit held xs = (held, xs) := by
  cases xs with
  | nil => rfl
  | cons x xs => exact if_neg (Int.not_lt.mpr h)

theorem trim_held (held : Int) (xs : List α) :
    (trim cost limit held xs).1 =
      held - total cost xs + total cost (trim cost limit held xs).2 := by
  induction xs generalizing held with
  | nil => simp [trim]
  | cons x xs ih =>
    rw [trim]
    split
    · rw [ih, total_cons]
      omega
    · simp

theorem trim_le (held : Int) (xs : List α) (h : (trim cost limit held xs).2 ≠ []) :
    (trim cost limit held xs).1 ≤ limit := by
  induction xs generalizing held with
  | nil => exact absurd rfl h
  | cons x xs ih =>
    rw [trim] at h ⊢
    split
    · next hgt =>
      rw [if_pos hgt] at h
      exact ih _ h
    · next hle => exact Int.not_lt.mp hle

/-- Something is left exactly if the last element is within the limit on its own. -/
theorem trim_ne_nil_iff (held : Int) (xs : List α) (x : α) :
    (trim cost limit held (xs ++ [x])).2 ≠ [] ↔ held - total cost xs ≤ limit := by
  induction xs generalizing held with
  | nil =>
    rw [List.nil_append, trim, trim]
    split
    · next hgt => simpa using hgt
    · next hle => simpa using hle
  | cons y xs ih =>
    rw [List.cons_append, trim, total_cons]
    split
    · rw [ih]
      omega
    · next hle =>
      refine iff_of_true (List.cons_ne_nil _ _) ?_
      omega

end

-- ---------------------------------------------------------------------------
-- Buffers that double
-- ---------------------------------------------------------------------------

/-- The capacity after an element is pushed to `size` others. -/
def pushCapacity (capacity size : Nat) : Nat :=
  if size < capacity then capacity else if 0 < size then 2 * size else 1

/-- The capacity after `n` elements are pushed to `size` others. -/
def grow (capacity size : Nat) : Nat → Nat
  | 0 => capacity
  | n + 1 => pushCapacity (grow capacity size n) (size + n)

theorem lt_pushCapacity (capacity size : Nat) : size < pushCapacity capacity size := by
  unfold pushCapacity
  split
  · assumption
  · split
    · omega
    · omega

theorem grow_pushCapacity (capacity size n : Nat) :
    grow (pushCapacity capacity size) (size + 1) n = grow capacity size (n + 1) := by
  induction n with
  | zero => rfl
  | succ n ih =>
    rw [grow, ih, Nat.add_assoc, Nat.add_comm 1 n]
    rfl

theorem grow_le (h : size ≤ capacity) (n : Nat) : size + n ≤ grow capacity size n := by
  cases n with
  | zero => exact h
  | succ n => exact lt_pushCapacity _ _

end Budget
