import Mathlib.Data.List.DropRight
import Mathlib.Data.List.Iterate

/-!
# A text of items with headings

Items follow each other, and each is written as a line, some with a heading
above it. A part of such a text begins with an item or behind its heading, and
ends with an item or with its heading.
-/

namespace Headings

variable {α β : Type} (next : α → α) (heading : α → Option β) (line : α → β)

def block (a : α) : List β := (heading a).toList ++ [line a]

def text (a : α) (n : Nat) : List β := (List.iterate next a n).flatMap (block heading line)

variable {next heading line}

theorem length_block (a : α) : (block heading line a).length = (heading a).isSome.toNat + 1 := by
  unfold block
  cases heading a <;> rfl

theorem text_succ (a : α) (n : Nat) : text next heading line a (n + 1) =
    block heading line a ++ text next heading line (next a) n := rfl

theorem text_add (a : α) (m n : Nat) : text next heading line a (m + n) =
    text next heading line a m ++ text next heading line (next^[m] a) n := by
  rw [text, List.iterate_add, List.flatMap_append, text, text]

theorem text_concat (a : α) (n : Nat) : text next heading line a (n + 1) =
    text next heading line a n ++ block heading line (next^[n] a) := by
  rw [text_add]
  simp [text]

theorem length_text_concat (a : α) (n : Nat) : (text next heading line a (n + 1)).length =
    (text next heading line a n).length + (heading (next^[n] a)).isSome.toNat + 1 := by
  rw [text_concat, List.length_append, length_block, Nat.add_assoc]

theorem length_text_add (a : α) (m n : Nat) : (text next heading line a (m + n)).length =
    (text next heading line a m).length + (text next heading line (next^[m] a) n).length := by
  rw [text_add, List.length_append]

theorem le_length_text (a : α) (n : Nat) : n ≤ (text next heading line a n).length := by
  induction n with
  | zero => exact Nat.zero_le _
  | succ n ih =>
    rw [length_text_concat]
    omega

theorem take_text (a : α) (hle : m ≤ n) (hk : k ≤ (text next heading line a m).length) :
    (text next heading line a n).take k = (text next heading line a m).take k := by
  obtain ⟨r, rfl⟩ := Nat.exists_eq_add_of_le hle
  rw [text_add, List.take_append_of_le_length hk]

theorem take_drop_text (a : α) (hle : m ≤ n) (hk : s + k ≤ (text next heading line a m).length) :
    ((text next heading line a n).drop s).take k =
    ((text next heading line a m).drop s).take k := by
  rw [List.take_drop, List.take_drop, take_text a hle hk]

theorem exists_end (a : α) (hpos : 0 < k) (hk : k ≤ (text next heading line a n).length) :
    ∃ d < n, k = (text next heading line a (d + 1)).length ∨
      k + 1 = (text next heading line a (d + 1)).length ∧ (heading (next^[d] a)).isSome = true := by
  induction n with
  | zero => exact absurd hk (Nat.not_le_of_lt hpos)
  | succ n ih =>
    rcases Nat.lt_or_ge (text next heading line a n).length k with hlt | hle
    · refine ⟨n, Nat.lt_succ_self n, ?_⟩
      rw [length_text_concat] at hk ⊢
      cases hsome : (heading (next^[n] a)).isSome with
      | false =>
        rw [hsome, Bool.toNat_false] at hk
        exact .inl (by rw [Bool.toNat_false]; omega)
      | true =>
        rw [hsome, Bool.toNat_true] at hk
        rw [Bool.toNat_true]
        rcases Nat.lt_or_ge k ((text next heading line a n).length + 1 + 1) with hlt' | hge
        · exact .inr ⟨by omega, rfl⟩
        · exact .inl (by omega)
    · obtain ⟨d, hd, hend⟩ := ih hle
      exact ⟨d, Nat.lt_succ_of_lt hd, hend⟩

theorem exists_start (a : α) (hk : k < (text next heading line a n).length) :
    ∃ j < n, ∃ s ≤ (heading (next^[j] a)).isSome.toNat,
      k = (text next heading line a j).length + s := by
  rcases Nat.eq_zero_or_pos k with rfl | hpos
  · have hn : 0 < n := by
      by_contra hzero
      obtain rfl : n = 0 := by omega
      exact absurd hk (Nat.not_lt_zero 0)
    exact ⟨0, hn, 0, Nat.zero_le _, rfl⟩
  · obtain ⟨d, hd, hend | ⟨hend, hsome⟩⟩ := exists_end a hpos (Nat.le_of_lt hk)
    · refine ⟨d + 1, ?_, 0, Nat.zero_le _, hend⟩
      by_contra hge
      obtain rfl : d + 1 = n := by omega
      omega
    · refine ⟨d, hd, 1, by rw [hsome]; exact Nat.le_refl 1, ?_⟩
      rw [length_text_concat, hsome, Bool.toNat_true] at hend
      omega

theorem drop_text (a : α) (hj : j ≤ n) (s : Nat) :
    (text next heading line a n).drop ((text next heading line a j).length + s) =
      (text next heading line (next^[j] a) (n - j)).drop s := by
  conv => lhs; rw [← Nat.add_sub_cancel' hj, text_add]
  rw [List.drop_append, List.drop_eq_nil_of_le (Nat.le_add_right _ s), List.nil_append,
    Nat.add_sub_cancel_left]

end Headings
