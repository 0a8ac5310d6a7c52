import Mathlib.Data.Tree.Basic
import Mathlib.Data.List.Pairwise
import Mathlib.Order.Lattice

/-!
# Trees of intervals

A binary tree whose nodes have disjoint intervals, in order from left to right.
The way down the tree to a key ends at the node whose interval has the key, or
at the first node that cannot be seen.
-/

namespace IntervalTree

variable {α : Type} {κ : Type}

def inorder : BinaryTree α → List α
  | .nil => []
  | .node a left right => inorder left ++ a :: inorder right

@[simp] theorem inorder_nil : inorder (.nil : BinaryTree α) = [] := rfl

@[simp] theorem inorder_node :
    inorder (.node a left right : BinaryTree α) = inorder left ++ a :: inorder right := rfl

/-- The nodes above a node, the root first. -/
inductive Above : BinaryTree α → List α → α → Prop
  | here : Above (.node a left right) [] a
  | left : Above left above b → Above (.node a left right) (a :: above) b
  | right : Above right above b → Above (.node a left right) (a :: above) b

theorem Above.mem {t : BinaryTree α} (h : Above t above a) : a ∈ inorder t := by
  induction h with
  | here => simp
  | left _ ih => simp [ih]
  | right _ ih => simp [ih]

theorem above_node_iff :
    Above (.node a left right) above b ↔ above = [] ∧ b = a ∨
      ∃ above', above = a :: above' ∧ (Above left above' b ∨ Above right above' b) := by
  constructor
  · intro h
    cases h with
    | here => exact .inl ⟨rfl, rfl⟩
    | left h => exact .inr ⟨_, rfl, .inl h⟩
    | right h => exact .inr ⟨_, rfl, .inr h⟩
  · rintro (⟨rfl, rfl⟩ | ⟨above', rfl, h | h⟩)
    · exact .here
    · exact .left h
    · exact .right h

section
variable [LinearOrder κ] (lo hi : α → κ)

def Covers (k : κ) (a : α) : Prop := lo a ≤ k ∧ k ≤ hi a

/-- No interval is empty, and each one is behind those to its left. -/
def Ordered (t : BinaryTree α) : Prop :=
  (∀ a ∈ inorder t, lo a ≤ hi a) ∧ (inorder t).Pairwise fun a b => hi a < lo b

/-- The node with the key, looked for from the root down as far as the nodes can be seen. -/
def search (seen : α → Bool) (k : κ) : BinaryTree α → Option α
  | .nil => none
  | .node a left right =>
    if seen a = false then none
    else if lo a ≤ k ∧ k ≤ hi a then some a
    else if k < lo a then search seen k left
    else search seen k right

variable {lo hi}

theorem ordered_node_iff : Ordered lo hi (.node a left right) ↔
    Ordered lo hi left ∧ Ordered lo hi right ∧ lo a ≤ hi a ∧
      (∀ b ∈ inorder left, hi b < lo a) ∧ (∀ b ∈ inorder right, hi a < lo b) ∧
      ∀ b ∈ inorder left, ∀ c ∈ inorder right, hi b < lo c := by
  simp only [Ordered, inorder_node, List.pairwise_append, List.pairwise_cons, List.mem_append,
    List.mem_cons]
  constructor
  · rintro ⟨hne, hleft, ⟨ha, hright⟩, hlr⟩
    exact ⟨⟨fun b hb => hne b (.inl hb), hleft⟩, ⟨fun b hb => hne b (.inr (.inr hb)), hright⟩,
      hne a (.inr (.inl rfl)), fun b hb => hlr b hb a (.inl rfl), ha,
      fun b hb c hc => hlr b hb c (.inr hc)⟩
  · rintro ⟨⟨hnel, hleft⟩, ⟨hner, hright⟩, hne, hla, har, hlr⟩
    refine ⟨?_, hleft, ⟨har, hright⟩, ?_⟩
    · rintro b (hb | rfl | hb)
      · exact hnel b hb
      · exact hne
      · exact hner b hb
    · rintro b hb c (rfl | hc)
      · exact hla b hb
      · exact hlr b hb c hc

theorem lt_of_covers_left (h : Ordered lo hi (.node a left right)) (hb : b ∈ inorder left)
    (hk : Covers lo hi k b) : k < lo a :=
  lt_of_le_of_lt hk.2 ((ordered_node_iff.mp h).2.2.2.1 b hb)

theorem lt_of_covers_right (h : Ordered lo hi (.node a left right)) (hb : b ∈ inorder right)
    (hk : Covers lo hi k b) : hi a < k :=
  lt_of_lt_of_le ((ordered_node_iff.mp h).2.2.2.2.1 b hb) hk.1

theorem search_eq_some_iff {seen : α → Bool} (h : Ordered lo hi t) :
    search lo hi seen k t = some b ↔
      Covers lo hi k b ∧ ∃ above, Above t above b ∧ ∀ c ∈ b :: above, seen c = true := by
  induction t with
  | nil =>
    constructor
    · intro hs
      cases hs
    · rintro ⟨-, above, hb, -⟩
      cases hb
  | node a left right ihl ihr =>
    obtain ⟨hleft, hright, hne, -⟩ := ordered_node_iff.mp h
    rw [search]
    split
    · next hseen =>
      refine iff_of_false (by simp) ?_
      rintro ⟨-, above, hb, hall⟩
      have ha : seen a = true := by
        rcases above_node_iff.mp hb with ⟨rfl, rfl⟩ | ⟨above', rfl, -⟩
        · exact hall _ List.mem_cons_self
        · exact hall a (List.mem_cons_of_mem _ List.mem_cons_self)
      simp [ha] at hseen
    · next hseen =>
      have hseen : seen a = true := by simpa using hseen
      split
      · next hk =>
        constructor
        · intro hb
          cases hb
          exact ⟨hk, [], .here, by simp [hseen]⟩
        · rintro ⟨hb, above, habove, -⟩
          rcases above_node_iff.mp habove with ⟨-, rfl⟩ | ⟨above', -, hl | hr⟩
          · rfl
          · exact absurd hk.1 (not_le_of_gt (lt_of_covers_left h hl.mem hb))
          · exact absurd hk.2 (not_le_of_gt (lt_of_covers_right h hr.mem hb))
      · next hk =>
        split
        · next hlt =>
          rw [ihl hleft]
          refine and_congr_right fun hb => ?_
          constructor
          · rintro ⟨above, habove, hall⟩
            exact ⟨a :: above, .left habove, by simpa [hseen] using hall⟩
          · rintro ⟨above, habove, hall⟩
            rcases above_node_iff.mp habove with ⟨-, rfl⟩ | ⟨above', rfl, hl | hr⟩
            · exact absurd hb hk
            · exact ⟨above', hl, by simpa [hseen] using hall⟩
            · have hgt := lt_of_covers_right h hr.mem hb
              exact absurd (lt_of_le_of_lt hne hgt) (not_lt_of_gt hlt)
        · next hlt =>
          rw [ihr hright]
          refine and_congr_right fun hb => ?_
          constructor
          · rintro ⟨above, habove, hall⟩
            exact ⟨a :: above, .right habove, by simpa [hseen] using hall⟩
          · rintro ⟨above, habove, hall⟩
            rcases above_node_iff.mp habove with ⟨-, rfl⟩ | ⟨above', rfl, hl | hr⟩
            · exact absurd hb hk
            · exact absurd (lt_of_covers_left h hl.mem hb) hlt
            · exact ⟨above', hr, by simpa [hseen] using hall⟩

end

end IntervalTree
