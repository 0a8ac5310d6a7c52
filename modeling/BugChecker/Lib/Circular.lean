import Mathlib.Data.Fintype.Card
import Mathlib.Data.List.Nodup
import Mathlib.Logic.Relation

/-!
# Walks around a circular list

A walk follows the links from the first node until there is no next one, or the
next one is the first again. It need not end: the links may lead into a cycle
that the first node is not on.
-/

namespace Circular

variable {α : Type} (next : α → Option α) (first : α)

/-- A step that does not come back to the first node. -/
def Link (x y : α) : Prop := next x = some y ∧ y ≠ first

/-- The nodes from `x` on, if there are no more than the turns. -/
def walk [DecidableEq α] : Nat → α → Option (List α)
  | 0, _ => none
  | turns + 1, x =>
    match next x with
    | none => some [x]
    | some y => if y = first then some [x] else (walk turns y).map (x :: ·)

/-- A node behind the first one is behind itself. -/
def RunsIntoCycle : Prop :=
  ∃ x, Relation.TransGen (Link next first) first x ∧ Relation.TransGen (Link next first) x x

/-- One node is behind another one that is reached. -/
def Behind (y x : α) : Prop :=
  (x = first ∨ Relation.TransGen (Link next first) first x) ∧
    Relation.TransGen (Link next first) x y

section
variable {next first}

theorem Link.unique (h : Link next first x y) (h' : Link next first x z) : z = y :=
  Option.some.inj (h'.1.symm.trans h.1)

theorem not_transGen_first (x : α) : ¬ Relation.TransGen (Link next first) x first := by
  intro h
  obtain ⟨y, -, hlink⟩ := Relation.TransGen.tail'_iff.mp h
  exact hlink.2 rfl

theorem wellFounded_behind [Finite α] (h : ¬ RunsIntoCycle next first) :
    WellFounded (Behind next first) := by
  have : IsTrans α (Behind next first) := ⟨fun _ _ _ hxy hyz => ⟨hyz.1, hyz.2.trans hxy.2⟩⟩
  have : Std.Irrefl (Behind next first) := ⟨fun x ⟨hx, hself⟩ => by
    rcases hx with rfl | hx
    · exact not_transGen_first _ hself
    · exact h ⟨x, hx, hself⟩⟩
  exact Finite.wellFounded_of_trans_of_irrefl (Behind next first)

variable [DecidableEq α]

theorem walk_of_link (h : Link next first x y) (turns : Nat) :
    walk next first (turns + 1) x = (walk next first turns y).map (x :: ·) := by
  rw [walk, h.1]
  exact if_neg h.2

theorem walk_of_last (h : ∀ y, ¬ Link next first x y) (turns : Nat) :
    walk next first (turns + 1) x = some [x] := by
  rw [walk]
  cases hnext : next x with
  | none => rfl
  | some y => exact if_pos (by_contra fun hy => h y ⟨hnext, hy⟩)

theorem exists_walk_of_transGen (hxy : Relation.TransGen (Link next first) x y)
    {turns : Nat} {xs : List α}
    (h : walk next first turns x = some xs) : ∃ n < turns, ∃ ys, walk next first n y = some ys := by
  induction hxy using Relation.TransGen.head_induction_on generalizing turns xs with
  | single hlink =>
    cases turns with
    | zero => cases h
    | succ turns =>
      rw [walk_of_link hlink] at h
      obtain ⟨ys, hys, -⟩ := Option.map_eq_some_iff.mp h
      exact ⟨turns, Nat.lt_succ_self turns, ys, hys⟩
  | head hlink _ ih =>
    cases turns with
    | zero => cases h
    | succ turns =>
      rw [walk_of_link hlink] at h
      obtain ⟨ys, hys, -⟩ := Option.map_eq_some_iff.mp h
      obtain ⟨n, hn, hrest⟩ := ih hys
      exact ⟨n, Nat.lt_succ_of_lt hn, hrest⟩

theorem walk_of_cycle (h : Relation.TransGen (Link next first) x x) (turns : Nat) :
    walk next first turns x = none := by
  induction turns using Nat.strong_induction_on with
  | _ turns ih =>
    refine Option.eq_none_iff_forall_ne_some.mpr fun xs hwalk => ?_
    obtain ⟨n, hn, ys, hys⟩ := exists_walk_of_transGen h hwalk
    rw [ih n hn] at hys
    cases hys

theorem eq_or_transGen_of_mem {turns : Nat} (h : walk next first turns x = some xs) (hy : y ∈ xs) :
    y = x ∨ Relation.TransGen (Link next first) x y := by
  induction turns generalizing x xs with
  | zero => cases h
  | succ turns ih =>
    by_cases hlink : ∃ z, Link next first x z
    · obtain ⟨z, hz⟩ := hlink
      rw [walk_of_link hz] at h
      obtain ⟨ys, hys, rfl⟩ := Option.map_eq_some_iff.mp h
      rcases List.mem_cons.mp hy with rfl | hy
      · exact .inl rfl
      · rcases ih hys hy with rfl | htrans
        · exact .inr (.single hz)
        · exact .inr (.head hz htrans)
    · rw [walk_of_last (not_exists.mp hlink)] at h
      cases h
      exact .inl (List.mem_singleton.mp hy)

theorem nodup_of_walk {turns : Nat} (h : walk next first turns x = some xs) : xs.Nodup := by
  induction turns generalizing x xs with
  | zero => cases h
  | succ turns ih =>
    have hself := h
    by_cases hlink : ∃ z, Link next first x z
    · obtain ⟨z, hz⟩ := hlink
      rw [walk_of_link hz] at h
      obtain ⟨ys, hys, rfl⟩ := Option.map_eq_some_iff.mp h
      refine List.nodup_cons.mpr ⟨fun hx => ?_, ih hys⟩
      have hcycle : Relation.TransGen (Link next first) x x := by
        rcases eq_or_transGen_of_mem hys hx with rfl | htrans
        · exact .single hz
        · exact .head hz htrans
      rw [walk_of_cycle hcycle] at hself
      cases hself
    · rw [walk_of_last (not_exists.mp hlink)] at h
      cases h
      exact List.nodup_singleton x

theorem walk_mono {turns more : Nat} (h : walk next first turns x = some xs) (hle : turns ≤ more) :
    walk next first more x = some xs := by
  induction turns generalizing x xs more with
  | zero => cases h
  | succ turns ih =>
    obtain ⟨more, rfl⟩ := Nat.exists_eq_add_of_le' (Nat.le_trans (Nat.le_add_left 1 turns) hle)
    by_cases hlink : ∃ z, Link next first x z
    · obtain ⟨z, hz⟩ := hlink
      rw [walk_of_link hz] at h ⊢
      obtain ⟨ys, hys, rfl⟩ := Option.map_eq_some_iff.mp h
      rw [ih hys (Nat.le_of_succ_le_succ hle)]
      rfl
    · rw [walk_of_last (not_exists.mp hlink)] at h ⊢
      exact h

theorem exists_walk_of_reached [Finite α] (h : ¬ RunsIntoCycle next first) (x : α)
    (hx : x = first ∨ Relation.TransGen (Link next first) first x) :
    ∃ turns xs, walk next first turns x = some xs := by
  induction x using (wellFounded_behind h).induction with
  | _ x ih =>
    by_cases hlink : ∃ y, Link next first x y
    · obtain ⟨y, hy⟩ := hlink
      have hreached : Relation.TransGen (Link next first) first y := by
        rcases hx with rfl | htrans
        · exact .single hy
        · exact .tail htrans hy
      obtain ⟨turns, ys, hys⟩ := ih y ⟨hx, .single hy⟩ (.inr hreached)
      refine ⟨turns + 1, x :: ys, ?_⟩
      rw [walk_of_link hy, hys]
      rfl
    · exact ⟨1, [x], walk_of_last (not_exists.mp hlink) 0⟩

/-- The walk ends exactly if the links do not lead into a cycle without the first node. -/
theorem exists_walk_iff [Finite α] :
    (∃ turns xs, walk next first turns first = some xs) ↔ ¬ RunsIntoCycle next first := by
  refine ⟨?_, fun h => exists_walk_of_reached h first (.inl rfl)⟩
  rintro ⟨turns, xs, hwalk⟩ ⟨x, hx, hcycle⟩
  obtain ⟨n, -, ys, hys⟩ := exists_walk_of_transGen hx hwalk
  rw [walk_of_cycle hcycle] at hys
  cases hys

end

end Circular
