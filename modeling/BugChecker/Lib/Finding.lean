import Mathlib.Data.List.DropRight
import Mathlib.Data.Nat.Find

/-!
# Finding texts in texts

The first occurrence of a text in another, the first of several texts with the
least place, and a text without the blanks at its ends.
-/

namespace Finding

-- ---------------------------------------------------------------------------
-- One text
-- ---------------------------------------------------------------------------

section
variable {α : Type} [DecidableEq α]

def find (pat : List α) : List α → Option Nat
  | [] => if pat = [] then some 0 else none
  | c :: s => if pat.isPrefixOf (c :: s) then some 0 else (find pat s).map (· + 1)

/-- An occurrence without one in front of it. -/
def FirstAt (pat s : List α) (n : Nat) : Prop :=
  pat <+: s.drop n ∧ n ≤ s.length ∧ ∀ m < n, ¬ pat <+: s.drop m

omit [DecidableEq α] in
theorem firstAt_cons {pat s : List α} {c : α} {n : Nat} (h : ¬ pat <+: c :: s) :
    FirstAt pat (c :: s) (n + 1) ↔ FirstAt pat s n := by
  unfold FirstAt
  rw [List.drop_succ_cons, List.length_cons, Nat.succ_le_succ_iff]
  refine and_congr_right fun _ => and_congr_right fun _ => ?_
  constructor
  · exact fun hall m hm => hall (m + 1) (Nat.succ_lt_succ hm)
  · intro hall m hm
    cases m with
    | zero => exact h
    | succ m => exact hall m (Nat.lt_of_succ_lt_succ hm)

theorem find_eq_some_iff {pat s : List α} {n : Nat} : find pat s = some n ↔ FirstAt pat s n := by
  induction s generalizing n with
  | nil =>
    rw [find]
    constructor
    · intro h
      obtain ⟨rfl, h⟩ := Option.ite_none_right_eq_some.mp h
      obtain rfl := Option.some.inj h
      exact ⟨List.nil_prefix, Nat.le_refl 0, fun m hm => absurd hm (Nat.not_lt_zero m)⟩
    · rintro ⟨hpat, hle, -⟩
      obtain rfl := Nat.le_zero.mp hle
      rw [if_pos (List.prefix_nil.mp hpat)]
  | cons c s ih =>
    rw [find]
    by_cases hpat : pat <+: c :: s
    · rw [if_pos (List.isPrefixOf_iff_prefix.mpr hpat), Option.some_inj]
      constructor
      · rintro rfl
        exact ⟨hpat, Nat.zero_le _, fun m hm => absurd hm (Nat.not_lt_zero m)⟩
      · rintro ⟨-, -, hall⟩
        by_contra hne
        exact hall 0 (by omega) hpat
    · rw [if_neg (fun h => hpat (List.isPrefixOf_iff_prefix.mp h))]
      cases n with
      | zero =>
        constructor
        · intro h
          obtain ⟨m, -, hm⟩ := Option.map_eq_some_iff.mp h
          cases hm
        · exact fun h => absurd h.1 hpat
      | succ n =>
        rw [firstAt_cons hpat, ← ih]
        constructor
        · intro h
          obtain ⟨m, hm, heq⟩ := Option.map_eq_some_iff.mp h
          obtain rfl := Nat.succ.inj heq
          exact hm
        · intro h
          rw [h]
          rfl

theorem find_le {pat s : List α} {n : Nat} (h : pat <+: s.drop n) (hn : n ≤ s.length) :
    ∃ m ≤ n, find pat s = some m := by
  classical
  have hex : ∃ m, pat <+: s.drop m := ⟨n, h⟩
  refine ⟨Nat.find hex, Nat.find_min' hex h, find_eq_some_iff.mpr ⟨Nat.find_spec hex, ?_, ?_⟩⟩
  · exact Nat.le_trans (Nat.find_min' hex h) hn
  · exact fun m hm => Nat.find_min hex hm

end

-- ---------------------------------------------------------------------------
-- The first one of several
-- ---------------------------------------------------------------------------

section
variable {β : Type} (place : β → Option Nat)

/-- `x`, the one with index `i`, takes the place of the best so far if its own is less. -/
def better (best : Option (Nat × Nat)) (x : β × Nat) : Option (Nat × Nat) :=
  match place x.1 with
  | none => best
  | some n => if best.all (fun b => n < b.1) then some (n, x.2) else best

def placeAt (xs : List β) (i : Nat) : Option Nat := xs[i]?.bind place

/-- The least place, and the first index with it. -/
structure LeastAt (xs : List β) (n i : Nat) : Prop where
  place_eq : placeAt place xs i = some n
  least : ∀ j m, placeAt place xs j = some m → n ≤ m
  first : ∀ j, placeAt place xs j = some n → i ≤ j

/-- What is known of the best one. -/
def BestOf (xs : List β) : Option (Nat × Nat) → Prop
  | none => ∀ j, placeAt place xs j = none
  | some (n, i) => LeastAt place xs n i

variable {place} {xs : List β}

theorem LeastAt.unique (h : LeastAt place xs n i) (h' : LeastAt place xs m j) : n = m ∧ i = j := by
  obtain rfl := Nat.le_antisymm (h.least j m h'.place_eq) (h'.least i n h.place_eq)
  exact ⟨rfl, Nat.le_antisymm (h.first j h'.place_eq) (h'.first i h.place_eq)⟩

theorem BestOf.eq_some (h : BestOf place xs r) (h' : LeastAt place xs n i) : r = some (n, i) := by
  cases r with
  | none =>
    have hsome := h'.place_eq
    rw [h i] at hsome
    cases hsome
  | some b =>
    obtain ⟨m, j⟩ := b
    obtain ⟨rfl, rfl⟩ := LeastAt.unique h h'
    rfl

theorem placeAt_append_lt (x : β) (h : j < xs.length) :
    placeAt place (xs ++ [x]) j = placeAt place xs j := by
  rw [placeAt, List.getElem?_append_left h, placeAt]

theorem placeAt_append_length (xs : List β) (x : β) :
    placeAt place (xs ++ [x]) xs.length = place x := by
  rw [placeAt, List.getElem?_concat_length]
  rfl

theorem placeAt_lt (h : placeAt place xs j = some n) : j < xs.length := by
  obtain ⟨x, hx, -⟩ := Option.bind_eq_some_iff.mp h
  exact (List.getElem?_eq_some_iff.mp hx).1

theorem placeAt_append (h : placeAt place (xs ++ [x]) j = some n) :
    placeAt place xs j = some n ∨ j = xs.length ∧ place x = some n := by
  have hlt := placeAt_lt h
  rw [List.length_append, List.length_singleton] at hlt
  rcases Nat.lt_or_ge j xs.length with hold | hnew
  · exact .inl (placeAt_append_lt x hold ▸ h)
  · obtain rfl : j = xs.length := by omega
    exact .inr ⟨rfl, (placeAt_append_length xs x).symm.trans h⟩

theorem LeastAt.append_old (h : LeastAt place xs n i) (hx : ∀ m, place x = some m → n ≤ m) :
    LeastAt place (xs ++ [x]) n i := by
  refine ⟨?_, fun j m hj => ?_, fun j hj => ?_⟩
  · rw [placeAt_append_lt x (placeAt_lt h.place_eq), h.place_eq]
  · rcases placeAt_append hj with hold | ⟨-, hnew⟩
    · exact h.least j m hold
    · exact hx m hnew
  · rcases placeAt_append hj with hold | ⟨rfl, -⟩
    · exact h.first j hold
    · exact Nat.le_of_lt (placeAt_lt h.place_eq)

theorem leastAt_append_new (hx : place x = some n)
    (hless : ∀ j m, placeAt place xs j = some m → n < m) :
    LeastAt place (xs ++ [x]) n xs.length := by
  refine ⟨?_, fun j m hj => ?_, fun j hj => ?_⟩
  · rw [placeAt_append_length, hx]
  · rcases placeAt_append hj with hold | ⟨-, hnew⟩
    · exact Nat.le_of_lt (hless j m hold)
    · exact Nat.le_of_eq (Option.some.inj (hx.symm.trans hnew))
  · rcases placeAt_append hj with hold | ⟨rfl, -⟩
    · exact absurd (hless j n hold) (Nat.lt_irrefl n)
    · exact Nat.le_refl _

theorem bestOf_better (h : BestOf place xs r) (x : β) :
    BestOf place (xs ++ [x]) (better place r (x, xs.length)) := by
  unfold better
  dsimp only
  cases hx : place x with
  | none =>
    cases r with
    | none =>
      intro j
      by_contra hsome
      obtain ⟨n, hn⟩ := Option.ne_none_iff_exists'.mp hsome
      rcases placeAt_append hn with hold | ⟨-, hnew⟩
      · rw [h j] at hold
        cases hold
      · rw [hx] at hnew
        cases hnew
    | some b => exact LeastAt.append_old h fun m hm => by cases hx.symm.trans hm
  | some n =>
    cases r with
    | none =>
      exact leastAt_append_new hx fun j m hj => by
        rw [h j] at hj
        cases hj
    | some b =>
      obtain ⟨m, i⟩ := b
      have hleast : LeastAt place xs m i := h
      by_cases hlt : n < m
      · simp only [Option.all_some, decide_eq_true hlt, if_true]
        exact leastAt_append_new hx fun j k hj => Nat.lt_of_lt_of_le hlt (hleast.least j k hj)
      · simp only [Option.all_some, decide_eq_false hlt, Bool.false_eq_true, if_false]
        refine hleast.append_old fun k hk => ?_
        obtain rfl := Option.some.inj (hx.symm.trans hk)
        exact Nat.le_of_not_lt hlt

theorem bestOf_foldl (xs : List β) : BestOf place xs (xs.zipIdx.foldl (better place) none) := by
  induction xs using List.reverseRecOn with
  | nil => exact fun j => rfl
  | append_singleton xs x ih =>
    rw [List.zipIdx_append, List.foldl_append]
    rw [show [x].zipIdx (0 + xs.length) = [(x, xs.length)] by rw [Nat.zero_add]; rfl]
    exact bestOf_better ih x

end

-- ---------------------------------------------------------------------------
-- Blanks at the ends
-- ---------------------------------------------------------------------------

section
variable {α : Type} (blank : α → Bool)

def trim (s : List α) : List α := (s.dropWhile blank).rdropWhile blank

variable {blank}

theorem filter_trim (s : List α) :
    (trim blank s).filter (fun c => !blank c) = s.filter fun c => !blank c := by
  have hfront : (s.takeWhile blank).filter (fun c => !blank c) = [] :=
    List.filter_eq_nil_iff.mpr fun c hc => by simp [List.all_eq_true.mp List.all_takeWhile c hc]
  have hback : ((s.dropWhile blank).rtakeWhile blank).filter (fun c => !blank c) = [] :=
    List.filter_eq_nil_iff.mpr fun c hc => by simp [List.mem_rtakeWhile_imp hc]
  have hsplit : (s.dropWhile blank).rdropWhile blank ++ (s.dropWhile blank).rtakeWhile blank =
      s.dropWhile blank := List.rdropWhile_append_rtakeWhile
  conv => rhs; rw [← List.takeWhile_append_dropWhile (p := blank) (l := s), ← hsplit]
  rw [List.filter_append, List.filter_append, hfront, hback, List.nil_append, List.append_nil, trim]

theorem trim_eq_nil_iff {s : List α} : trim blank s = [] ↔ ∀ c ∈ s, blank c = true := by
  constructor
  · intro h
    have hfilter : (trim blank s).filter (fun c => !blank c) = _ := filter_trim s
    rw [h, List.filter_nil, eq_comm, List.filter_eq_nil_iff] at hfilter
    intro c hc
    have hblank := hfilter c hc
    rwa [Bool.not_eq_true, Bool.not_eq_false'] at hblank
  · intro h
    rw [trim, List.dropWhile_eq_nil_iff.mpr h, List.rdropWhile_nil]

theorem rdropWhile_append {s : List α}
    (h : ∀ hne : s ≠ [], ¬ blank (s.getLast hne) = true) (t : List α) :
    (s ++ t).rdropWhile blank = s ++ t.rdropWhile blank := by
  induction t using List.reverseRecOn with
  | nil => rw [List.append_nil, List.rdropWhile_nil, List.append_nil,
    List.rdropWhile_eq_self_iff.mpr h]
  | append_singleton t x ih =>
    rw [← List.append_assoc]
    by_cases hx : blank x = true
    · rw [List.rdropWhile_concat_pos _ _ _ hx, List.rdropWhile_concat_pos _ _ _ hx, ih]
    · rw [List.rdropWhile_concat_neg _ _ _ hx, List.rdropWhile_concat_neg _ _ _ hx,
        List.append_assoc]

theorem dropWhile_rdropWhile (s : List α) :
    (s.rdropWhile blank).dropWhile blank = (s.dropWhile blank).rdropWhile blank := by
  induction s using List.reverseRecOn with
  | nil => rfl
  | append_singleton s x ih =>
    rw [List.dropWhile_append]
    by_cases hx : blank x = true
    · rw [List.rdropWhile_concat_pos _ _ _ hx, ih]
      split
      · next hnil =>
        rw [List.isEmpty_iff.mp hnil, List.dropWhile_cons_of_pos hx]
        rfl
      · rw [List.rdropWhile_concat_pos _ _ _ hx]
    · rw [List.rdropWhile_concat_neg _ _ _ hx, List.dropWhile_append]
      split
      · rw [List.dropWhile_cons_of_neg hx, ← List.nil_append [x],
          List.rdropWhile_concat_neg _ _ _ hx]
      · rw [List.rdropWhile_concat_neg _ _ _ hx]

theorem trim_rdropWhile (s : List α) : trim blank (s.rdropWhile blank) = trim blank s := by
  rw [trim, trim, dropWhile_rdropWhile, List.rdropWhile_idempotent]

theorem trim_trim (s : List α) : trim blank (trim blank s) = trim blank s := by
  conv => lhs; arg 2; rw [trim]
  rw [trim_rdropWhile, trim, List.dropWhile_idempotent, trim]

theorem trim_cons_of_blank {x : α} (h : blank x = true) (s : List α) :
    trim blank (x :: s) = trim blank s := by
  rw [trim, List.dropWhile_cons_of_pos h, trim]

end

end Finding
