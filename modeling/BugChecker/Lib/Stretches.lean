import Mathlib.Data.List.Basic
import Mathlib.Data.List.Infix

/-!
# Stretches of a list

A stretch is a longest part of a list in a row whose elements all meet a
condition. It is given by the position where it starts, and a pattern that
occurs in it occurs in the list at a position of the stretch.
-/

namespace Stretches

section
variable (p : α → Bool) (row : List α)

def holds (i : Nat) : Bool := row[i]?.any p

def starts (a : Nat) : Bool := holds p row a && (a == 0 || !holds p row (a - 1))

def stretch (a : Nat) : List α := (row.drop a).takeWhile p

end

section
variable {p : α → Bool} {row : List α}

theorem holds_lt (h : holds p row i = true) : i < row.length := by
  rw [holds, Option.any_eq_true] at h
  obtain ⟨x, hx, -⟩ := h
  exact (List.getElem?_eq_some_iff.mp hx).1

theorem starts_eq_false (h : holds p row a = true) : starts p row (a + 1) = false := by
  simp [starts, h]

theorem take_succ_prefix {text : List α} (h : text.take n <+: row) (hx : text[n]? = some x)
    (hrow : row[n]? = some x) : text.take (n + 1) <+: row := by
  obtain ⟨r, rfl⟩ := h
  have hlen : (text.take n).length = n := by
    have := (List.getElem?_eq_some_iff.mp hx).1
    rw [List.length_take]
    omega
  rw [List.getElem?_append_right (Nat.le_of_eq hlen), hlen, Nat.sub_self] at hrow
  cases r with
  | nil => cases hrow
  | cons y r =>
    obtain rfl : y = x := by simpa using hrow
    rw [List.take_add_one, hx]
    exact ⟨r, by simp⟩

theorem exists_end (ha : a ≤ row.length) :
    ∃ b, a ≤ b ∧ b ≤ row.length ∧ (∀ i, a ≤ i → i < b → holds p row i = true) ∧
      holds p row b = false := by
  induction hn : row.length - a generalizing a with
  | zero =>
    refine ⟨a, Nat.le_refl a, ha, fun i hi hi' => by omega, ?_⟩
    rw [holds, List.getElem?_eq_none (by omega), Option.any_none]
  | succ n ih =>
    cases hp : holds p row a with
    | false => exact ⟨a, Nat.le_refl a, ha, fun i hi hi' => by omega, hp⟩
    | true =>
      obtain ⟨b, hab, hb, hall, hend⟩ := ih (a := a + 1) (by omega) (by omega)
      refine ⟨b, by omega, hb, fun i hi hi' => ?_, hend⟩
      rcases Nat.eq_or_lt_of_le hi with rfl | hi
      · exact hp
      · exact hall i hi hi'

theorem stretch_eq (hab : a ≤ b) (h : ∀ i, a ≤ i → i < b → holds p row i = true)
    (hb : holds p row b = false) : stretch p row a = (row.drop a).take (b - a) := by
  obtain ⟨n, rfl⟩ := Nat.exists_eq_add_of_le hab
  clear hab
  rw [Nat.add_sub_cancel_left, stretch]
  induction n generalizing a with
  | zero =>
    rw [List.take_zero]
    cases hd : row.drop a with
    | nil => rfl
    | cons x s =>
      have hx : row[a]? = some x := by rw [← List.head?_drop, hd]; rfl
      have hp : p x = false := by simpa [holds, hx] using hb
      rw [List.takeWhile_cons_of_neg (by simp [hp])]
  | succ n ih =>
    have ha := h a (Nat.le_refl a) (by omega)
    have hlt := holds_lt ha
    have hp : p row[a] = true := by simpa [holds, List.getElem?_eq_getElem hlt] using ha
    rw [List.drop_eq_getElem_cons hlt, List.takeWhile_cons_of_pos hp, List.take_succ_cons,
      ih (fun i hi hi' => h i (by omega) (by omega)) (by rwa [Nat.add_right_comm])]

theorem infix_take_drop_iff (hab : a ≤ b) (hb : b ≤ row.length) (pat : List α) :
    pat <:+: (row.drop a).take (b - a) ↔ ∃ t, a ≤ t ∧ t + pat.length ≤ b ∧ pat <+: row.drop t := by
  constructor
  · rintro ⟨before, after, heq⟩
    have hlen := congrArg List.length heq
    simp only [List.length_append, List.length_take, List.length_drop] at hlen
    refine ⟨a + before.length, Nat.le_add_right _ _, by omega, ?_⟩
    have hdrop : row.drop a = before ++ (pat ++ (after ++ (row.drop a).drop (b - a))) := by
      rw [← List.append_assoc pat, ← List.append_assoc before, ← List.append_assoc before pat, heq,
        List.take_append_drop]
    rw [← List.drop_drop, hdrop, List.drop_left]
    exact List.prefix_append _ _
  · rintro ⟨t, hat, htb, hpat⟩
    obtain ⟨n, rfl⟩ := Nat.exists_eq_add_of_le hat
    rw [← List.drop_drop] at hpat
    have hpre : pat <+: ((row.drop a).take (b - a)).drop n := by
      rw [List.drop_take]
      exact List.prefix_take_iff.mpr ⟨hpat, by omega⟩
    exact hpre.isInfix.trans (List.drop_suffix n _).isInfix

end

end Stretches
