import Mathlib.Data.List.Sort
import Mathlib.Data.List.Perm.Basic

/-!
# Sorting with an unspecified order of equal elements

A library sort rearranges its input so that no element is less than one before
it. Which of two equivalent elements comes first is left open.
-/

namespace Sorting

/-- What a comparison handed to a sort has to be: a strict weak order. -/
structure StrictWeak (lt : α → α → Bool) : Prop where
  irrefl : ∀ a, lt a a = false
  trans : ∀ a b c, lt a b → lt b c → lt a c
  connected : ∀ a b c, lt a b → lt a c ∨ lt c b

structure StdSort (α : Type) where
  sort : (α → α → Bool) → List α → List α
  perm : ∀ lt l, (sort lt l).Perm l
  sorted : ∀ lt l, StrictWeak lt → (sort lt l).Pairwise fun a b => lt b a = false

theorem StrictWeak.ofKey [LT β] [DecidableLT β] (key : α → β) (hirr : ∀ b : β, ¬ b < b)
    (htrans : ∀ a b c : β, a < b → b < c → a < c) (htri : ∀ a b : β, ¬ a < b → ¬ b < a → a = b) :
    StrictWeak fun x y : α => decide (key x < key y) where
  irrefl a := by simpa using hirr (key a)
  trans a b c := by simpa using htrans (key a) (key b) (key c)
  connected a b c := by
    simp only [decide_eq_true_eq]
    intro hab
    by_cases hac : key a < key c
    · exact Or.inl hac
    · by_cases hca : key c < key a
      · exact Or.inr (htrans _ _ _ hca hab)
      · rw [htri _ _ hac hca] at hab
        exact Or.inr hab

def StdSort.merge (α : Type) : StdSort α where
  sort lt l := l.mergeSort fun a b => !lt b a
  perm lt l := List.mergeSort_perm l _
  sorted lt l h := by
    refine (List.pairwise_mergeSort ?_ ?_ l).imp fun hab => by simpa using hab
    · intro a b c hab hbc
      cases hca : lt c a with
      | false => rfl
      | true =>
        rcases h.connected c a b hca with hcb | hba
        · simp [hcb] at hbc
        · simp [hba] at hab
    · intro a b
      cases hba : lt b a with
      | false => rfl
      | true =>
        cases hab : lt a b with
        | false => rfl
        | true =>
          have haa := h.trans a b a hab hba
          rw [h.irrefl] at haa
          cases haa

end Sorting
