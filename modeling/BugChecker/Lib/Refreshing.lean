import Mathlib.Data.List.Nodup
import Mathlib.Data.List.Range

/-!
# Refreshing a list

The items that are seen are looked for in a list by their key. Those that are
not there are added behind the others, and the positions of all of them are
kept. At the end the items at other positions are erased, the last ones first.
-/

namespace Refreshing

variable {α κ : Type} [DecidableEq κ] (key : α → κ)

/-- The items, and the positions of those that were seen. -/
structure Marked (α : Type) where
  items : List α
  present : List Nat

def Marked.see (s : Marked α) (x : α) : Marked α :=
  match s.items.findIdx? fun y => key y = key x with
  | some i => { s with present := s.present ++ [i] }
  | none => ⟨s.items ++ [x], s.present ++ [s.items.length]⟩

def eraseAbsent (present : List Nat) : Nat → List α → List α
  | 0, xs => xs
  | n + 1, xs => eraseAbsent present n (if n ∈ present then xs else xs.eraseIdx n)

def refresh (old seen : List α) : List α :=
  let s := seen.foldl (Marked.see key) ⟨old, []⟩
  eraseAbsent s.present s.items.length s.items

/-- The keys that are new, in the order in which they are seen. -/
def newKeys (old seen : List α) : List κ :=
  ((seen.map key).filter fun k => k ∉ old.map key).eraseDups

-- ---------------------------------------------------------------------------
-- Erasing
-- ---------------------------------------------------------------------------

def atPositions (present : List Nat) (xs : List α) : List α :=
  (xs.zipIdx.filter fun x => x.2 ∈ present).map Prod.fst

theorem atPositions_append_singleton (present : List Nat) (xs : List α) (x : α) :
    atPositions present (xs ++ [x]) =
      atPositions present xs ++ if xs.length ∈ present then [x] else [] := by
  unfold atPositions
  rw [List.zipIdx_append, List.filter_append, List.map_append]
  congr 1
  rw [List.zipIdx_singleton, Nat.zero_add]
  by_cases h : xs.length ∈ present
  · rw [if_pos h, List.filter_cons, if_pos (decide_eq_true h)]
    rfl
  · rw [if_neg h, List.filter_cons, if_neg (by simpa using h)]
    rfl

theorem eraseAbsent_eq (present : List Nat) {n : Nat} {xs : List α} (h : n ≤ xs.length) :
    eraseAbsent present n xs = atPositions present (xs.take n) ++ xs.drop n := by
  induction n generalizing xs with
  | zero => rfl
  | succ n ih =>
    have htake : xs.take (n + 1) = xs.take n ++ [xs[n]] := List.take_succ_eq_append_getElem h
    have hlength : (xs.take n).length = n := by
      rw [List.length_take, Nat.min_eq_left (Nat.le_of_succ_le h)]
    rw [eraseAbsent, htake, atPositions_append_singleton, hlength]
    by_cases hn : n ∈ present
    · rw [if_pos hn, if_pos hn, ih (Nat.le_of_succ_le h), List.append_assoc,
        List.drop_eq_getElem_cons h]
      rfl
    · have hle : n ≤ (xs.eraseIdx n).length := by
        rw [List.length_eraseIdx_of_lt h]
        omega
      rw [if_neg hn, if_neg hn, ih hle, List.append_nil, List.eraseIdx_eq_take_drop_succ,
        List.take_append_of_le_length (Nat.le_of_eq hlength.symm), List.take_take, Nat.min_self,
        List.drop_append_of_le_length (Nat.le_of_eq hlength.symm), List.drop_take_self,
        List.nil_append]

theorem atPositions_eq_filter {present : List Nat} {xs : List α} {p : α → Bool}
    (h : ∀ i x, xs[i]? = some x → (i ∈ present ↔ p x = true)) :
      atPositions present xs = xs.filter p := by
  induction xs using List.reverseRecOn with
  | nil => rfl
  | append_singleton xs x ih =>
    have hfront : ∀ i y, xs[i]? = some y → (i ∈ present ↔ p y = true) := by
      intro i y hi
      refine h i y ?_
      rw [List.getElem?_append_left (List.getElem?_eq_some_iff.mp hi).1]
      exact hi
    have hlast := h xs.length x (by simp)
    rw [atPositions_append_singleton, ih hfront, List.filter_append]
    congr 1
    by_cases hx : p x = true
    · rw [if_pos (hlast.mpr hx), List.filter_cons_of_pos hx, List.filter_nil]
    · rw [if_neg fun hmem => hx (hlast.mp hmem), List.filter_cons_of_neg hx, List.filter_nil]

-- ---------------------------------------------------------------------------
-- What was seen
-- ---------------------------------------------------------------------------

theorem eraseDups_append_singleton (ks : List κ) (k : κ) :
    (ks ++ [k]).eraseDups = ks.eraseDups ++ if k ∈ ks then [] else [k] := by
  rw [List.eraseDups_append, List.removeAll, List.filter_cons]
  by_cases hk : k ∈ ks
  · rw [if_pos hk, if_neg (by simpa using hk)]
    rfl
  · rw [if_neg hk, if_pos (by simpa using hk)]
    rfl

theorem newKeys_append (old seen : List α) (x : α) :
    newKeys key old (seen ++ [x]) =
      newKeys key old seen ++ if key x ∈ old.map key ++ newKeys key old seen then []
        else [key x] := by
  unfold newKeys
  rw [List.map_append, List.filter_append, List.map_singleton]
  by_cases hold : key x ∈ old.map key
  · have hkey : [key x].filter (fun k => k ∉ old.map key) = [] :=
      List.filter_eq_nil_iff.mpr fun k hk => by simpa [List.mem_singleton.mp hk] using hold
    rw [hkey, if_pos (List.mem_append_left _ hold), List.append_nil, List.append_nil]
  · have hkey : [key x].filter (fun k => k ∉ old.map key) = [key x] :=
      List.filter_eq_self.mpr fun k hk => decide_eq_true (List.mem_singleton.mp hk ▸ hold)
    rw [hkey, eraseDups_append_singleton]
    simp only [List.mem_append, hold, false_or, List.mem_eraseDups]

omit [DecidableEq κ] in
theorem mem_map_append_singleton (seen : List α) (x : α) (k : κ) :
    k ∈ (seen ++ [x]).map key ↔ k ∈ seen.map key ∨ k = key x := by
  rw [List.map_append, List.mem_append, List.map_singleton, List.mem_singleton]

/-- What holds while items are seen. -/
structure Refreshed (old seen : List α) (s : Marked α) : Prop where
  nodup : (s.items.map key).Nodup
  items : ∃ added, s.items = old ++ added ∧ added.map key = newKeys key old seen ∧
    ∀ x ∈ added, x ∈ seen
  present : ∀ i, i ∈ s.present ↔ ∃ x, s.items[i]? = some x ∧ key x ∈ seen.map key

theorem refreshed_nil {old : List α} (h : (old.map key).Nodup) :
    Refreshed key old [] ⟨old, []⟩ where
  nodup := h
  items := ⟨[], (List.append_nil old).symm, rfl, fun _ hx => by cases hx⟩
  present i := by simp

variable {key}

theorem Refreshed.keys {old seen : List α} {s : Marked α} (h : Refreshed key old seen s) :
    s.items.map key = old.map key ++ newKeys key old seen := by
  obtain ⟨added, hitems, hadded, -⟩ := h.items
  rw [hitems, List.map_append, hadded]

theorem Refreshed.see {old seen : List α} {s : Marked α} (h : Refreshed key old seen s) (x : α) :
    Refreshed key old (seen ++ [x]) (s.see key x) := by
  obtain ⟨added, hitems, hadded, hmem⟩ := h.items
  have hmore : ∀ y ∈ added, y ∈ seen ++ [x] := fun y hy => List.mem_append_left _ (hmem y hy)
  unfold Marked.see
  cases hfind : s.items.findIdx? fun y => key y = key x with
  | some i =>
    obtain ⟨hi, hkey, -⟩ := List.findIdx?_eq_some_iff_getElem.mp hfind
    have hkey : key s.items[i] = key x := of_decide_eq_true hkey
    have hin : key x ∈ old.map key ++ newKeys key old seen := by
      rw [← h.keys, ← hkey]
      exact List.mem_map_of_mem (List.getElem_mem hi)
    refine ⟨h.nodup, ⟨added, hitems, ?_, hmore⟩, fun j => ?_⟩
    · rw [newKeys_append, if_pos hin, List.append_nil, hadded]
    · -- The key is that of one position only.
      have hself : j = i ↔ ∃ y, s.items[j]? = some y ∧ key y = key x := by
        constructor
        · rintro rfl
          exact ⟨_, List.getElem?_eq_getElem hi, hkey⟩
        · rintro ⟨y, hy, heq⟩
          have hj : j < (s.items.map key).length := by
            rw [List.length_map]
            exact (List.getElem?_eq_some_iff.mp hy).1
          refine (List.getElem?_inj hj h.nodup).mp ?_
          rw [List.getElem?_map, List.getElem?_map, hy, List.getElem?_eq_getElem hi,
            Option.map_some, Option.map_some, heq, hkey]
      rw [List.mem_append, List.mem_singleton, h.present, hself, ← exists_or]
      refine exists_congr fun y => ?_
      rw [mem_map_append_singleton key, and_or_left]
  | none =>
    have hnew : key x ∉ s.items.map key := by
      intro hin
      obtain ⟨y, hy, heq⟩ := List.mem_map.mp hin
      have hnone := List.findIdx?_eq_none_iff.mp hfind y hy
      rw [decide_eq_true heq] at hnone
      cases hnone
    refine ⟨?_, ⟨added ++ [x], ?_, ?_, ?_⟩, fun j => ?_⟩
    · rw [List.map_append, List.map_singleton]
      exact List.nodup_append.mpr ⟨h.nodup, List.nodup_singleton _, fun a ha b hb => by
        rw [List.mem_singleton.mp hb]
        rintro rfl
        exact hnew ha⟩
    · rw [hitems, List.append_assoc]
    · rw [newKeys_append, if_neg (h.keys ▸ hnew), List.map_append, hadded, List.map_singleton]
    · intro y hy
      rcases List.mem_append.mp hy with hy | hy
      · exact hmore y hy
      · exact List.mem_append_right _ hy
    · rw [List.mem_append, List.mem_singleton, h.present]
      rcases Nat.lt_trichotomy j s.items.length with hlt | rfl | hgt
      · rw [List.getElem?_append_left hlt, or_iff_left (Nat.ne_of_lt hlt)]
        refine exists_congr fun y => and_congr_right fun hy => ?_
        rw [mem_map_append_singleton key, or_iff_left]
        intro heq
        exact hnew (heq ▸ List.mem_map_of_mem (List.mem_of_getElem? hy))
      · refine iff_of_true (.inr rfl) ⟨x, by simp, ?_⟩
        exact (mem_map_append_singleton key seen x _).mpr (.inr rfl)
      · refine iff_of_false ?_ ?_
        · rintro (⟨y, hy, -⟩ | heq)
          · exact Nat.lt_asymm hgt (List.getElem?_eq_some_iff.mp hy).1
          · exact Nat.ne_of_gt hgt heq
        · rintro ⟨y, hy, -⟩
          have hj := (List.getElem?_eq_some_iff.mp hy).1
          rw [List.length_append, List.length_singleton] at hj
          omega

theorem refreshed_foldl {old : List α} (h : (old.map key).Nodup) (seen : List α) :
    Refreshed key old seen (seen.foldl (Marked.see key) ⟨old, []⟩) := by
  induction seen using List.reverseRecOn with
  | nil => exact refreshed_nil key h
  | append_singleton seen x ih =>
    rw [List.foldl_append]
    exact ih.see x

theorem refresh_eq_filter {old : List α} (h : (old.map key).Nodup) (seen : List α) :
    refresh key old seen =
      (seen.foldl (Marked.see key) ⟨old, []⟩).items.filter fun x => key x ∈ seen.map key := by
  rw [refresh, eraseAbsent_eq _ (Nat.le_refl _), List.take_length, List.drop_length,
    List.append_nil]
  refine atPositions_eq_filter fun i x hx => ?_
  rw [(refreshed_foldl h seen).present, decide_eq_true_iff]
  constructor
  · rintro ⟨y, hy, hkey⟩
    rw [hx] at hy
    exact Option.some.inj hy ▸ hkey
  · exact fun hkey => ⟨x, hx, hkey⟩

theorem refresh_eq {old : List α} (h : (old.map key).Nodup) (seen : List α) :
    ∃ added, refresh key old seen = old.filter (fun x => key x ∈ seen.map key) ++ added ∧
      added.map key = newKeys key old seen ∧ ∀ x ∈ added, x ∈ seen := by
  obtain ⟨added, hitems, hadded, hmem⟩ := (refreshed_foldl h seen).items
  have hall : added.filter (fun x => key x ∈ seen.map key) = added :=
    List.filter_eq_self.mpr fun x hx => decide_eq_true (List.mem_map_of_mem (hmem x hx))
  exact ⟨added, by rw [refresh_eq_filter h, hitems, List.filter_append, hall], hadded, hmem⟩

theorem nodup_refresh {old : List α} (h : (old.map key).Nodup) (seen : List α) :
    ((refresh key old seen).map key).Nodup := by
  rw [refresh_eq_filter h]
  exact (refreshed_foldl h seen).nodup.sublist (List.filter_sublist.map key)

theorem mem_refresh_iff {old : List α} (h : (old.map key).Nodup) (seen : List α) (k : κ) :
    k ∈ (refresh key old seen).map key ↔ k ∈ seen.map key := by
  obtain ⟨added, hrefresh, hadded, -⟩ := refresh_eq h seen
  rw [hrefresh, List.map_append, List.mem_append, hadded, newKeys, List.mem_eraseDups,
    List.mem_filter, decide_eq_true_iff]
  constructor
  · rintro (hk | ⟨hk, -⟩)
    · obtain ⟨x, hx, rfl⟩ := List.mem_map.mp hk
      exact of_decide_eq_true (List.mem_filter.mp hx).2
    · exact hk
  · intro hk
    by_cases hold : k ∈ old.map key
    · obtain ⟨x, hx, rfl⟩ := List.mem_map.mp hold
      exact .inl (List.mem_map_of_mem (List.mem_filter.mpr ⟨hx, decide_eq_true hk⟩))
    · exact .inr ⟨hk, hold⟩

end Refreshing
