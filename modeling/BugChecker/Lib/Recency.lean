import BugChecker.Lib.Refreshing
import Mathlib.Data.List.TakeWhile

/-!
# What was used most recently

Keys are used one after the other, the last use first in the list. A store with
room for some keys holds those that were used most recently: a key that is used
again comes to the front, and a new one takes the place of the last one.
-/

namespace Recency

variable {κ : Type} [DecidableEq κ]

def recent (uses : List κ) : List κ := uses.eraseDups

/-- The other keys that were used since the last use of a key. -/
def othersSince (k : κ) (uses : List κ) : List κ := (uses.takeWhile (· ≠ k)).eraseDups

/-- The key was used, and fewer others than there is room for since then. -/
def Held (room : Nat) (uses : List κ) (k : κ) : Prop :=
  k ∈ uses ∧ (othersSince k uses).length < room

instance (room : Nat) (uses : List κ) (k : κ) : Decidable (Held room uses k) := by
  unfold Held
  infer_instance

theorem eraseDups_filter (p : κ → Bool) (ks : List κ) :
    (ks.filter p).eraseDups = ks.eraseDups.filter p := by
  induction ks using List.reverseRecOn with
  | nil => rfl
  | append_singleton ks k ih =>
    rw [List.filter_append, Refreshing.eraseDups_append_singleton, List.filter_append, ← ih]
    by_cases hp : p k = true
    · have hmem : k ∈ ks.filter p ↔ k ∈ ks := List.mem_filter.trans (and_iff_left hp)
      rw [List.filter_cons_of_pos hp, List.filter_nil, Refreshing.eraseDups_append_singleton]
      congr 1
      by_cases hk : k ∈ ks
      · rw [if_pos hk, if_pos (hmem.mpr hk), List.filter_nil]
      · rw [if_neg hk, if_neg (fun h => hk (hmem.mp h)), List.filter_cons_of_pos hp,
          List.filter_nil]
    · rw [List.filter_cons_of_neg hp, List.filter_nil, List.append_nil]
      have hnone : (if k ∈ ks then [] else [k]).filter p = [] := by
        split
        · rfl
        · rw [List.filter_cons_of_neg hp, List.filter_nil]
      rw [hnone, List.append_nil]

theorem mem_recent {uses : List κ} : k ∈ recent uses ↔ k ∈ uses := List.mem_eraseDups

theorem recent_cons (k : κ) (uses : List κ) :
    recent (k :: uses) = k :: (recent uses).filter (· ≠ k) := by
  have hfilter : uses.filter (fun j => !j == k) = uses.filter (· ≠ k) :=
    List.filter_congr fun j _ => by
      rw [decide_not]
      rfl
  rw [recent, List.eraseDups_cons, hfilter, eraseDups_filter]
  rfl

theorem nodup_recent (uses : List κ) : (recent uses).Nodup := by
  induction uses with
  | nil => exact List.nodup_nil
  | cons k uses ih =>
    rw [recent_cons]
    refine List.nodup_cons.mpr ⟨fun hmem => ?_, ih.filter _⟩
    exact of_decide_eq_true (List.mem_filter.mp hmem).2 rfl

theorem filter_ne_middle {front back : List κ} (h : (front ++ k :: back).Nodup) :
    (front ++ k :: back).filter (· ≠ k) = front ++ back := by
  have hnot := (List.nodup_cons.mp (List.nodup_middle.mp h)).1
  rw [List.mem_append, not_or] at hnot
  have hkept : ∀ ks : List κ, k ∉ ks → ks.filter (· ≠ k) = ks := fun ks hk =>
    List.filter_eq_self.mpr fun _ hj => decide_eq_true fun heq => hk (heq ▸ hj)
  rw [List.filter_append, List.filter_cons_of_neg (by simp), hkept front hnot.1, hkept back hnot.2]

theorem take_recent_of_mem {uses : List κ} (h : k ∈ (recent uses).take (n + 1)) :
    (recent (k :: uses)).take (n + 1) = k :: ((recent uses).take (n + 1)).filter (· ≠ k) := by
  obtain ⟨front, back, hsplit⟩ := List.append_of_mem (List.mem_of_mem_take h)
  have hnodup := nodup_recent uses
  rw [hsplit] at h hnodup
  have hfront : front.length ≤ n := by
    by_contra hlong
    rw [List.take_append_of_le_length (by omega)] at h
    exact (List.nodup_cons.mp (List.nodup_middle.mp hnodup)).1
      (List.mem_append_left _ (List.mem_of_mem_take h))
  have htake : (front ++ k :: back).take (n + 1) = front ++ k :: back.take (n - front.length) := by
    rw [List.take_append, List.take_of_length_le (by omega), Nat.succ_sub hfront,
      List.take_succ_cons]
  have hsub := hnodup.sublist (List.take_sublist (n + 1) _)
  rw [htake] at hsub
  rw [recent_cons, hsplit, htake, filter_ne_middle hnodup, filter_ne_middle hsub,
    List.take_succ_cons, List.take_append, List.take_of_length_le hfront]

theorem take_recent_of_not_mem {uses : List κ} (h : k ∉ (recent uses).take (n + 1)) :
    (recent (k :: uses)).take (n + 1) = k :: (recent uses).take n := by
  rw [recent_cons, List.take_succ_cons]
  congr 1
  by_cases hk : k ∈ recent uses
  · obtain ⟨front, back, hsplit⟩ := List.append_of_mem hk
    have hnodup := nodup_recent uses
    rw [hsplit] at h hnodup
    have hfront : n + 1 ≤ front.length := by
      by_contra hshort
      refine h ?_
      rw [List.take_append, List.take_of_length_le (by omega)]
      obtain ⟨m, hm⟩ : ∃ m, n + 1 - front.length = m + 1 := ⟨n - front.length, by omega⟩
      rw [hm, List.take_succ_cons]
      exact List.mem_append_right _ List.mem_cons_self
    rw [hsplit, filter_ne_middle hnodup, List.take_append_of_le_length (by omega),
      List.take_append_of_le_length (by omega)]
  · have hkept : (recent uses).filter (· ≠ k) = recent uses :=
      List.filter_eq_self.mpr fun _ hj => decide_eq_true fun heq => hk (heq ▸ hj)
    rw [hkept]

theorem exists_last_use {uses : List κ} (h : k ∈ uses) :
    ∃ back, uses = uses.takeWhile (· ≠ k) ++ k :: back := by
  induction uses with
  | nil => cases h
  | cons j uses ih =>
    by_cases hj : j = k
    · refine ⟨uses, ?_⟩
      rw [hj, List.takeWhile_cons_of_neg (by simp)]
      rfl
    · obtain ⟨back, hback⟩ := ih ((List.mem_cons.mp h).resolve_left (Ne.symm hj))
      refine ⟨back, ?_⟩
      rw [List.takeWhile_cons, if_pos (by simpa using hj), List.cons_append, ← hback]

theorem mem_take_recent_iff {uses : List κ} : k ∈ (recent uses).take room ↔ Held room uses k := by
  by_cases hk : k ∈ uses
  · obtain ⟨back, hback⟩ := exists_last_use hk
    have hbefore : k ∉ uses.takeWhile (· ≠ k) := by
      intro hmem
      have hne := List.mem_takeWhile_imp hmem
      exact of_decide_eq_true hne rfl
    have hothers : k ∉ othersSince k uses := fun hmem => hbefore (List.mem_eraseDups.mp hmem)
    obtain ⟨rest, hrest⟩ : ∃ rest, recent uses = othersSince k uses ++ k :: rest := by
      have hremove : (k :: back).removeAll (uses.takeWhile (· ≠ k)) =
          k :: back.removeAll (uses.takeWhile (· ≠ k)) := by
        rw [List.removeAll, List.filter_cons_of_pos (by simpa using hbefore)]
        rfl
      refine ⟨recent ((back.removeAll (uses.takeWhile (· ≠ k))).filter fun j => !j == k), ?_⟩
      conv => lhs; rw [recent, hback, List.eraseDups_append, hremove, List.eraseDups_cons]
      rfl
    rw [Held, and_iff_right hk, hrest]
    constructor
    · intro hmem
      by_contra hlong
      rw [List.take_append_of_le_length (Nat.le_of_not_lt hlong)] at hmem
      exact hothers (List.mem_of_mem_take hmem)
    · intro hlt
      obtain ⟨m, hm⟩ : ∃ m, room - (othersSince k uses).length = m + 1 :=
        ⟨room - (othersSince k uses).length - 1, by omega⟩
      rw [List.take_append, hm, List.take_succ_cons]
      exact List.mem_append_right _ List.mem_cons_self
  · exact iff_of_false (fun h => hk (mem_recent.mp (List.mem_of_mem_take h))) fun h => hk h.1

end Recency
