import Mathlib.Data.List.Nodup
import Mathlib.Data.List.Perm.Basic
import Mathlib.Data.List.Range

/-!
# Erasing by index

Items are erased one after the other by their indexes, the greatest first. The
items in front of the one that is erased keep their indexes, so that indexes
without repetitions still mean the items that they meant at first.
-/

namespace Erasing

variable {α β : Type}

/-- The items that were erased, and those that are left. An index behind the end stops it. -/
def eraseEach (xs : List α) : List Nat → List α × List α
  | [] => ([], xs)
  | n :: ns =>
    match xs[n]? with
    | none => ([], xs)
    | some x => (x :: (eraseEach (xs.eraseIdx n) ns).1, (eraseEach (xs.eraseIdx n) ns).2)

theorem eraseEach_map (f : α → β) (xs : List α) (ns : List Nat) :
    eraseEach (xs.map f) ns = ((eraseEach xs ns).1.map f, (eraseEach xs ns).2.map f) := by
  induction ns generalizing xs with
  | nil => rfl
  | cons n ns ih =>
    rw [eraseEach, eraseEach, List.getElem?_map]
    cases xs[n]? with
    | none => rfl
    | some x =>
      have herase : (xs.map f).eraseIdx n = (xs.eraseIdx n).map f := by
        rw [List.eraseIdx_eq_take_drop_succ, List.eraseIdx_eq_take_drop_succ, List.map_append,
          List.map_take, List.map_drop]
      dsimp only [Option.map_some]
      rw [herase, ih]
      rfl

theorem eraseEach_of_lt {xs : List α} {n : Nat} (h : n < xs.length) (ns : List Nat) :
    eraseEach xs (n :: ns) =
      (xs[n] :: (eraseEach (xs.eraseIdx n) ns).1, (eraseEach (xs.eraseIdx n) ns).2) := by
  rw [eraseEach, List.getElem?_eq_getElem h]

theorem eraseEach_of_ge {xs : List α} {n : Nat} (h : xs.length ≤ n) (ns : List Nat) :
    eraseEach xs (n :: ns) = ([], xs) := by
  rw [eraseEach, List.getElem?_eq_none h]

theorem eraseEach_sublist (xs : List α) (ns : List Nat) : (eraseEach xs ns).2.Sublist xs := by
  induction ns generalizing xs with
  | nil => exact List.Sublist.refl xs
  | cons n ns ih =>
    rw [eraseEach]
    cases xs[n]? with
    | none => exact List.Sublist.refl xs
    | some x => exact (ih _).trans (List.eraseIdx_sublist xs n)

theorem eraseEach_perm (xs : List α) (ns : List Nat) :
    ((eraseEach xs ns).1 ++ (eraseEach xs ns).2).Perm xs := by
  induction ns generalizing xs with
  | nil => exact List.Perm.refl xs
  | cons n ns ih =>
    rcases Nat.lt_or_ge n xs.length with hn | hn
    · rw [eraseEach_of_lt hn]
      exact ((ih _).cons _).trans (List.getElem_cons_eraseIdx_perm hn)
    · rw [eraseEach_of_ge hn]
      exact List.Perm.refl xs

theorem eraseEach_append {xs : List α} {ns : List Nat} (hns : ns.Pairwise (· > ·))
    (hlt : ∀ n ∈ ns, n < xs.length) (ys : List α) :
    eraseEach (xs ++ ys) ns = ((eraseEach xs ns).1, (eraseEach xs ns).2 ++ ys) := by
  induction ns generalizing xs with
  | nil => rfl
  | cons n ns ih =>
    obtain ⟨hhead, hns⟩ := List.pairwise_cons.mp hns
    have hn := hlt n List.mem_cons_self
    have hrest : ∀ m ∈ ns, m < (xs.eraseIdx n).length := by
      intro m hm
      have hless := hhead m hm
      rw [List.length_eraseIdx_of_lt hn]
      omega
    have hn' : n < (xs ++ ys).length := by
      rw [List.length_append]
      omega
    rw [eraseEach_of_lt hn', eraseEach_of_lt hn, List.eraseIdx_append_of_lt_length hn, ih hns hrest,
      List.getElem_append_left hn]

theorem eraseEach_concat {xs : List α} {ns : List Nat} (hns : ns.Pairwise (· > ·))
    (hlt : ∀ n ∈ ns, n < xs.length) (ms : List Nat) :
    eraseEach xs (ns ++ ms) =
      ((eraseEach xs ns).1 ++ (eraseEach (eraseEach xs ns).2 ms).1,
        (eraseEach (eraseEach xs ns).2 ms).2) := by
  induction ns generalizing xs with
  | nil => rfl
  | cons n ns ih =>
    obtain ⟨hhead, hns⟩ := List.pairwise_cons.mp hns
    have hn := hlt n List.mem_cons_self
    have hrest : ∀ m ∈ ns, m < (xs.eraseIdx n).length := by
      intro m hm
      have hless := hhead m hm
      rw [List.length_eraseIdx_of_lt hn]
      omega
    rw [List.cons_append, eraseEach_of_lt hn, eraseEach_of_lt hn, ih hns hrest]
    rfl

-- ---------------------------------------------------------------------------
-- Items with their indexes
-- ---------------------------------------------------------------------------

/-- Each item carries the index it has. -/
def Tagged (xs : List (α × Nat)) : Prop := xs.map Prod.snd = List.range xs.length

theorem tagged_zipIdx (xs : List α) : Tagged xs.zipIdx := by
  unfold Tagged
  rw [List.zipIdx_map_snd, List.length_zipIdx, List.range_eq_range']

namespace Tagged

variable {xs : List (α × Nat)}

theorem getElem_snd (h : Tagged xs) (hn : n < xs.length) : xs[n].2 = n := by
  have hget : (xs.map Prod.snd)[n]? = (List.range xs.length)[n]? := by rw [h]
  rw [List.getElem?_map, List.getElem?_eq_getElem hn, List.getElem?_range hn] at hget
  exact Option.some.inj hget

theorem take (h : Tagged xs) (n : Nat) : Tagged (xs.take n) := by
  unfold Tagged
  rw [List.map_take, h, List.take_range, List.length_take]

theorem snd_lt_of_mem_take (h : Tagged xs) (hx : x ∈ xs.take n) : x.2 < n := by
  have hmem : x.2 ∈ (xs.take n).map Prod.snd := List.mem_map_of_mem hx
  rw [h.take n, List.mem_range, List.length_take] at hmem
  exact Nat.lt_of_lt_of_le hmem (Nat.min_le_left _ _)

theorem le_of_mem_drop (h : Tagged xs) (hx : x ∈ xs.drop n) : n ≤ x.2 := by
  obtain ⟨i, hi, rfl⟩ := List.mem_iff_getElem.mp hx
  rw [List.getElem_drop, h.getElem_snd]
  exact Nat.le_add_right n i

end Tagged

theorem eraseEach_eq {xs : List (α × Nat)} {ns : List Nat} (htagged : Tagged xs)
    (hns : ns.Pairwise (· > ·))
    (hlt : ∀ n ∈ ns, n < xs.length) :
    eraseEach xs ns = ((xs.filter fun x => x.2 ∈ ns).reverse, xs.filter fun x => x.2 ∉ ns) := by
  induction ns generalizing xs with
  | nil => simp [eraseEach]
  | cons n ns ih =>
    obtain ⟨hhead, hns⟩ := List.pairwise_cons.mp hns
    have hn := hlt n List.mem_cons_self
    have hbelow : ∀ m ∈ ns, m < (xs.take n).length := by
      intro m hm
      have hless := hhead m hm
      rw [List.length_take, Nat.min_eq_left (Nat.le_of_lt hn)]
      exact hless
    have hrest := ih (htagged.take n) hns hbelow
    -- In front of the item the others are erased, and behind it nothing is.
    have hfront : ∀ x ∈ xs.take n, (x.2 ∈ n :: ns ↔ x.2 ∈ ns) := by
      intro x hx
      have hne := Nat.ne_of_lt (htagged.snd_lt_of_mem_take hx)
      rw [List.mem_cons, or_iff_right hne]
    have hback : ∀ x ∈ xs.drop (n + 1), x.2 ∉ n :: ns := by
      intro x hx hmem
      have hgt := htagged.le_of_mem_drop hx
      rcases List.mem_cons.mp hmem with heq | hmem
      · omega
      · have hless := hhead _ hmem
        omega
    have hsplit : xs = xs.take n ++ xs[n] :: xs.drop (n + 1) := by
      rw [← List.drop_eq_getElem_cons hn, List.take_append_drop]
    have hself : xs[n].2 ∈ n :: ns := by
      rw [htagged.getElem_snd hn]
      exact List.mem_cons_self
    have hlisted : xs.filter (fun x => x.2 ∈ n :: ns) =
        (xs.take n).filter (fun x => x.2 ∈ ns) ++ [xs[n]] := by
      have hnone : (xs.drop (n + 1)).filter (fun x => decide (x.2 ∈ n :: ns)) = [] :=
        List.filter_eq_nil_iff.mpr fun y hy => by simpa using hback y hy
      refine (congrArg _ hsplit).trans ?_
      rw [List.filter_append,
        List.filter_cons_of_pos (p := fun x : α × Nat => decide (x.2 ∈ n :: ns))
          (decide_eq_true hself), hnone,
        List.filter_congr fun y hy => decide_eq_decide.mpr (hfront y hy)]
    have hunlisted : xs.filter (fun x => x.2 ∉ n :: ns) =
        (xs.take n).filter (fun x => x.2 ∉ ns) ++ xs.drop (n + 1) := by
      have hall : (xs.drop (n + 1)).filter (fun x => decide (x.2 ∉ n :: ns)) = xs.drop (n + 1) :=
        List.filter_eq_self.mpr fun y hy => decide_eq_true (hback y hy)
      refine (congrArg _ hsplit).trans ?_
      rw [List.filter_append, List.filter_cons_of_neg (by simp [List.mem_cons.mp hself]), hall,
        List.filter_congr fun y hy => decide_eq_decide.mpr (not_congr (hfront y hy))]
    rw [eraseEach_of_lt hn, List.eraseIdx_eq_take_drop_succ, eraseEach_append hns hbelow, hrest,
      hlisted, hunlisted, List.reverse_append]
    rfl

-- ---------------------------------------------------------------------------
-- Repetitions
-- ---------------------------------------------------------------------------

theorem exists_repeated {ns : List Nat} (h : ns.Pairwise (· ≥ ·)) : ns.Pairwise (· > ·) ∨
    ∃ ds v rest, ns = ds ++ v :: v :: rest ∧ (ds ++ [v]).Pairwise (· > ·) := by
  induction ns with
  | nil => exact .inl List.Pairwise.nil
  | cons n ns ih =>
    obtain ⟨hhead, hns⟩ := List.pairwise_cons.mp h
    rcases ih hns with hstrict | ⟨ds, v, rest, rfl, hstrict⟩
    · cases ns with
      | nil => exact .inl (List.pairwise_singleton _ n)
      | cons m ns =>
        rcases Nat.eq_or_lt_of_le (hhead m List.mem_cons_self) with rfl | hlt
        · exact .inr ⟨[], m, ns, rfl, List.pairwise_singleton _ m⟩
        · refine .inl (List.pairwise_cons.mpr ⟨fun k hk => ?_, hstrict⟩)
          rcases List.mem_cons.mp hk with rfl | hk
          · exact hlt
          · exact Nat.lt_trans ((List.pairwise_cons.mp hstrict).1 k hk) hlt
    · cases ds with
      | nil =>
        rcases Nat.eq_or_lt_of_le (hhead v List.mem_cons_self) with rfl | hlt
        · exact .inr ⟨[], v, v :: rest, rfl, List.pairwise_singleton _ v⟩
        · exact .inr ⟨[n], v, rest, rfl, List.pairwise_pair.mpr hlt⟩
      | cons d ds =>
        rcases Nat.eq_or_lt_of_le (hhead d List.mem_cons_self) with rfl | hlt
        · exact .inr ⟨[], d, ds ++ v :: v :: rest, rfl, List.pairwise_singleton _ d⟩
        · refine .inr ⟨n :: d :: ds, v, rest, rfl, List.pairwise_cons.mpr ⟨fun k hk => ?_, hstrict⟩⟩
          rcases List.mem_cons.mp hk with rfl | hk
          · exact hlt
          · exact Nat.lt_trans ((List.pairwise_cons.mp hstrict).1 k hk) hlt

/-- Only the least index is repeated, and all items from it on are listed. -/
def OnlyLeastRepeated (ns : List Nat) (size : Nat) : Prop :=
  ∃ v, (∀ i, i ∈ ns ↔ v ≤ i ∧ i < size) ∧ (ns.filter (· ≠ v)).Nodup

theorem Tagged.nodup {xs : List (α × Nat)} (h : Tagged xs) : xs.Nodup :=
  List.Nodup.of_map Prod.snd (h ▸ List.nodup_range)

theorem Tagged.mem_filter_iff {xs : List (α × Nat)} (h : Tagged xs) (hi : i < xs.length)
    (P : Nat → Bool) :
    xs[i] ∈ xs.filter (fun x => P x.2) ↔ P i = true := by
  rw [List.mem_filter, h.getElem_snd hi]
  exact and_iff_right (List.getElem_mem hi)

section
variable {ds rest : List Nat} {v : Nat}

theorem eq_of_nodup_filter (h : ((ds ++ v :: v :: rest).filter (· ≠ w)).Nodup) : w = v := by
  by_contra hne
  have htwice : [v, v].Sublist (ds ++ v :: v :: rest) :=
    (List.sublist_append_left [v, v] rest).trans (List.sublist_append_right ds _)
  have hnodup := h.sublist (htwice.filter (· ≠ w))
  simp [Ne.symm hne] at hnodup

theorem not_mem_repeated (hrest : ∀ m ∈ rest, m ≤ v) (hi : v < i) (hids : i ∉ ds) :
    i ∉ ds ++ v :: v :: rest := by
  intro hin
  rcases List.mem_append.mp hin with hin | hin
  · exact hids hin
  · rcases List.mem_cons.mp hin with rfl | hin
    · exact Nat.lt_irrefl _ hi
    · rcases List.mem_cons.mp hin with rfl | hin
      · exact Nat.lt_irrefl _ hi
      · exact Nat.not_lt_of_le (hrest i hin) hi

theorem filter_repeated (hds : ∀ d ∈ ds, v < d) (hrest : ∀ m ∈ rest, m = v) :
    (ds ++ v :: v :: rest).filter (· ≠ v) = ds := by
  have hkeep : ds.filter (· ≠ v) = ds :=
    List.filter_eq_self.mpr fun d hd => decide_eq_true (Nat.ne_of_gt (hds d hd))
  have hnone : (v :: v :: rest).filter (· ≠ v) = [] := by
    refine List.filter_eq_nil_iff.mpr fun m hm => ?_
    have heq : m = v := by
      rcases List.mem_cons.mp hm with rfl | hm
      · rfl
      · rcases List.mem_cons.mp hm with rfl | hm
        · rfl
        · exact hrest m hm
    simp [heq]
  rw [List.filter_append, hkeep, hnone, List.append_nil]

theorem eraseEach_repeated_full {xs : List (α × Nat)} (htagged : Tagged xs)
    (hds : ∀ d ∈ ds, v < d) (hnodup : ds.Nodup) (hrest : ∀ m ∈ rest, m ≤ v)
    (hlt : ∀ n ∈ ds ++ v :: v :: rest, n < xs.length)
      (hfull : ∀ i, v < i → i < xs.length → i ∈ ds) :
    (eraseEach (xs.filter fun x => x.2 ∉ ds ++ [v]) (v :: rest)).2 =
        xs.filter (fun x => x.2 ∉ ds ++ v :: v :: rest) ↔
      OnlyLeastRepeated (ds ++ v :: v :: rest) xs.length := by
  have hback : (xs.drop v).filter (fun x => x.2 ∉ ds ++ [v]) = [] := by
    refine List.filter_eq_nil_iff.mpr fun x hx => ?_
    have hge := htagged.le_of_mem_drop hx
    have hless : x.2 < xs.length := by
      have hmem : x.2 ∈ xs.map Prod.snd := List.mem_map_of_mem (List.mem_of_mem_drop hx)
      rw [htagged] at hmem
      exact List.mem_range.mp hmem
    rcases Nat.eq_or_lt_of_le hge with heq | hgt
    · simp [← heq]
    · simp [hfull x.2 hgt hless]
  have hshort : (xs.filter fun x => x.2 ∉ ds ++ [v]).length ≤ v := by
    conv => lhs; rw [← List.take_append_drop v xs, List.filter_append, hback, List.append_nil]
    refine Nat.le_trans (List.length_filter_le _ _) ?_
    rw [List.length_take]
    exact Nat.min_le_left _ _
  have hall : (∀ m ∈ rest, m = v) ↔ xs.filter (fun x => x.2 ∉ ds ++ [v]) =
      xs.filter fun x => x.2 ∉ ds ++ v :: v :: rest := by
    constructor
    · intro hall
      refine List.filter_congr fun x _ => decide_eq_decide.mpr (not_congr ?_)
      simp only [List.mem_append, List.mem_cons, List.not_mem_nil, or_false]
      refine or_congr_right ⟨.inl, ?_⟩
      rintro (h | h | h)
      · exact h
      · exact h
      · exact hall _ h
    · intro heq m hm
      by_contra hne
      have hless : m < v := Nat.lt_of_le_of_ne (hrest m hm) hne
      have hlist : m ∈ ds ++ v :: v :: rest := by simp [hm]
      have hnot : m ∉ ds ++ [v] := by
        intro hin
        rcases List.mem_append.mp hin with hin | hin
        · exact Nat.lt_asymm hless (hds m hin)
        · exact hne (List.mem_singleton.mp hin)
      have hin :=
        (htagged.mem_filter_iff (hlt m hlist) fun i => i ∉ ds ++ [v]).mpr (decide_eq_true hnot)
      have hout :=
        (htagged.mem_filter_iff (hlt m hlist) fun i => i ∉ ds ++ v :: v :: rest).mp (heq ▸ hin)
      exact of_decide_eq_true hout hlist
  rw [eraseEach_of_ge hshort, ← hall]
  constructor
  · intro hall
    refine ⟨v, fun i => ⟨fun hin => ⟨?_, hlt i hin⟩, fun ⟨hge, hless⟩ => ?_⟩, ?_⟩
    · rcases List.mem_append.mp hin with hin | hin
      · exact Nat.le_of_lt (hds i hin)
      · rcases List.mem_cons.mp hin with rfl | hin
        · exact Nat.le_refl _
        · rcases List.mem_cons.mp hin with rfl | hin
          · exact Nat.le_refl _
          · exact Nat.le_of_eq (hall i hin).symm
    · rcases Nat.eq_or_lt_of_le hge with rfl | hgt
      · exact List.mem_append_right _ List.mem_cons_self
      · exact List.mem_append_left _ (hfull i hgt hless)
    · rw [filter_repeated hds hall]
      exact hnodup
  · rintro ⟨w, hmem, hnodup'⟩ m hm
    obtain rfl := eq_of_nodup_filter hnodup'
    exact Nat.le_antisymm (hrest m hm) ((hmem m).mp (by simp [hm])).1

theorem eraseEach_repeated_other {xs : List (α × Nat)} (htagged : Tagged xs) (hds : ∀ d ∈ ds, v < d)
    (hrest : ∀ m ∈ rest, m ≤ v) (hi : v < i) (hil : i < xs.length) (hids : i ∉ ds) :
    (eraseEach (xs.filter fun x => x.2 ∉ ds ++ [v]) (v :: rest)).2 ≠
      xs.filter fun x => x.2 ∉ ds ++ v :: v :: rest := by
  have hfront : (xs.take v).filter (fun x => x.2 ∉ ds ++ [v]) = xs.take v := by
    refine List.filter_eq_self.mpr fun x hx => decide_eq_true fun hin => ?_
    have hless := htagged.snd_lt_of_mem_take hx
    rcases List.mem_append.mp hin with hin | hin
    · exact Nat.lt_asymm hless (hds _ hin)
    · exact Nat.ne_of_lt hless (List.mem_singleton.mp hin)
  have hlength : (xs.take v).length = v := by
    rw [List.length_take, Nat.min_eq_left (Nat.le_of_lt (Nat.lt_trans hi hil))]
  have hsplit : xs.filter (fun x => x.2 ∉ ds ++ [v]) =
      xs.take v ++ (xs.drop v).filter fun x => x.2 ∉ ds ++ [v] := by
    conv => lhs; rw [← List.take_append_drop v xs, List.filter_append, hfront]
  have hne : (xs.drop v).filter (fun x => x.2 ∉ ds ++ [v]) ≠ [] := by
    have hin : xs[i] ∈ xs.drop v := List.mem_drop_iff_getElem.mpr ⟨i - v, by omega, by
      congr 1
      omega⟩
    refine List.ne_nil_of_mem (List.mem_filter.mpr ⟨hin, decide_eq_true ?_⟩)
    rw [htagged.getElem_snd hil]
    intro hin
    rcases List.mem_append.mp hin with hin | hin
    · exact hids hin
    · exact Nat.ne_of_gt hi (List.mem_singleton.mp hin)
  obtain ⟨y, ys, hys⟩ := List.exists_cons_of_ne_nil hne
  have hy : y ∈ (xs.drop v).filter fun x => x.2 ∉ ds ++ [v] := hys ▸ List.mem_cons_self
  obtain ⟨hdrop, hlisted⟩ := List.mem_filter.mp hy
  have hlisted : y.2 ∉ ds ++ [v] := of_decide_eq_true hlisted
  have hgt : v < y.2 := by
    refine Nat.lt_of_le_of_ne (htagged.le_of_mem_drop hdrop) fun heq => hlisted ?_
    exact List.mem_append_right _ (List.mem_singleton.mpr heq.symm)
  have hexpected : y ∈ xs.filter fun x => x.2 ∉ ds ++ v :: v :: rest :=
    List.mem_filter.mpr ⟨List.mem_of_mem_drop hdrop, decide_eq_true
      (not_mem_repeated hrest hgt fun hin => hlisted (List.mem_append_left _ hin))⟩
  have hnodup : (xs.take v ++ y :: ys).Nodup := by
    rw [← hys, ← hsplit]
    exact htagged.nodup.filter _
  rw [hsplit, hys]
  intro heq
  have hlt : v < (xs.take v ++ y :: ys).length := by
    rw [List.length_append, hlength, List.length_cons]
    omega
  rw [eraseEach_of_lt hlt] at heq
  have hleft :=
    (eraseEach_sublist ((xs.take v ++ y :: ys).eraseIdx v) rest).subset (heq ▸ hexpected)
  rw [List.eraseIdx_append_of_length_le (Nat.le_of_eq hlength), hlength, Nat.sub_self] at hleft
  have hmiddle := List.nodup_middle.mp hnodup
  exact (List.nodup_cons.mp hmiddle).1 hleft

theorem eraseEach_repeated_iff {xs : List (α × Nat)} (htagged : Tagged xs)
    (hstrict : (ds ++ [v]).Pairwise (· > ·)) (hsorted : (ds ++ v :: v :: rest).Pairwise (· ≥ ·))
    (hlt : ∀ n ∈ ds ++ v :: v :: rest, n < xs.length) :
    (eraseEach xs (ds ++ v :: v :: rest)).2 = xs.filter (fun x => x.2 ∉ ds ++ v :: v :: rest) ↔
      OnlyLeastRepeated (ds ++ v :: v :: rest) xs.length := by
  obtain ⟨hdstrict, -, hgt⟩ := List.pairwise_append.mp hstrict
  have hds : ∀ d ∈ ds, v < d := fun d hd => hgt d hd v List.mem_cons_self
  have hrest : ∀ m ∈ rest, m ≤ v := fun m hm =>
    (List.pairwise_cons.mp (List.pairwise_append.mp hsorted).2.1).1 m (List.mem_cons_of_mem _ hm)
  have hfirst : ∀ n ∈ ds ++ [v], n < xs.length := fun n hn => hlt n (by
    rcases List.mem_append.mp hn with hn | hn
    · exact List.mem_append_left _ hn
    · exact List.mem_append_right _ (List.mem_singleton.mp hn ▸ List.mem_cons_self))
  have herase : (eraseEach xs (ds ++ v :: v :: rest)).2 =
      (eraseEach (xs.filter fun x => x.2 ∉ ds ++ [v]) (v :: rest)).2 := by
    rw [List.append_cons, eraseEach_concat hstrict hfirst, eraseEach_eq htagged hstrict hfirst]
  rw [herase]
  by_cases hfull : ∀ i, v < i → i < xs.length → i ∈ ds
  · exact eraseEach_repeated_full htagged hds (hdstrict.imp Nat.ne_of_gt) hrest hlt hfull
  · obtain ⟨i, hi, hil, hids⟩ : ∃ i, v < i ∧ i < xs.length ∧ i ∉ ds := by
      by_contra hnone
      exact hfull fun i hi hil => by_contra fun hids => hnone ⟨i, hi, hil, hids⟩
    refine iff_of_false (eraseEach_repeated_other htagged hds hrest hi hil hids) ?_
    rintro ⟨w, hmem, hnodup⟩
    obtain rfl := eq_of_nodup_filter hnodup
    exact not_mem_repeated hrest hi hids ((hmem i).mpr ⟨Nat.le_of_lt hi, hil⟩)

end

end Erasing
