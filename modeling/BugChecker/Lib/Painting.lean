import Mathlib.Data.List.Basic
import Mathlib.Data.List.Pairwise
import Mathlib.Logic.Function.Basic

/-!
# Painting what has changed

A picture is made of cells, and the writes that paint a cell are all its own.
What was painted last is kept in a slot of the cell, or a blank if that is not
known any more. A cell is painted again if its slot differs from what the cell
is to show. As long as every slot that is not blank tells the truth, this leaves
the same picture as painting all cells.
-/

namespace Painting

variable {ι σ α κ v : Type*}

/-- Writes to one place do not disagree. -/
def Agree (writes : List (ι × v)) : Prop := ∀ w ∈ writes, ∀ w' ∈ writes, w.1 = w'.1 → w.2 = w'.2

/-- The memory holds what is written. -/
def Holds (mem : ι → v) (writes : List (ι × v)) : Prop := ∀ w ∈ writes, mem w.1 = w.2

section
variable (slot : κ → σ) (tile : κ → α → List (ι × v))

/-- Each cell has a slot of its own and places of its own, and does not disagree with itself. -/
structure Tiling (cells : List κ) : Prop where
  slots : ∀ c ∈ cells, ∀ c' ∈ cells, slot c = slot c' → c = c'
  agree : ∀ c ∈ cells, ∀ a, Agree (tile c a)
  apart : ∀ c ∈ cells, ∀ c' ∈ cells, c ≠ c' → ∀ a a', ∀ w ∈ tile c a, ∀ w' ∈ tile c' a', w'.1 ≠ w.1
  places : ∀ c ∈ cells, ∀ a a', ∀ w ∈ tile c a, ∃ w' ∈ tile c a', w'.1 = w.1

/-- The slot of a cell is blank, or what it says has been painted. -/
def Clean (blank : α) (s : (σ → α) × (ι → v)) (c : κ) : Prop :=
  s.1 (slot c) ≠ blank → Holds s.2 (tile c (s.1 (slot c)))

/-- The slot of a cell and its places are as wanted. -/
def Shown (back : σ → α) (s : (σ → α) × (ι → v)) (c : κ) : Prop :=
  s.1 (slot c) = back (slot c) ∧ Holds s.2 (tile c (back (slot c)))

end

-- ---------------------------------------------------------------------------
-- Writes
-- ---------------------------------------------------------------------------

variable [DecidableEq ι]

def paint (mem : ι → v) (writes : List (ι × v)) : ι → v :=
  writes.foldl (fun mem w => Function.update mem w.1 w.2) mem

theorem paint_append (mem : ι → v) (ws ws' : List (ι × v)) :
    paint mem (ws ++ ws') = paint (paint mem ws) ws' := by
  simp [paint]

theorem paint_cases (mem : ι → v) (ws : List (ι × v)) (i : ι) :
    (∃ w ∈ ws, w.1 = i ∧ paint mem ws i = w.2) ∨ (∀ w ∈ ws, w.1 ≠ i) ∧ paint mem ws i = mem i := by
  induction ws generalizing mem with
  | nil => exact .inr ⟨by simp, rfl⟩
  | cons w ws ih =>
    rcases ih (Function.update mem w.1 w.2) with ⟨w', hw', heq, hpaint⟩ | ⟨hne, hpaint⟩
    · exact .inl ⟨w', List.mem_cons_of_mem _ hw', heq, hpaint⟩
    · by_cases hi : w.1 = i
      · subst hi
        exact .inl ⟨w, List.mem_cons_self, rfl, hpaint.trans (Function.update_self ..)⟩
      · exact .inr ⟨List.forall_mem_cons.mpr ⟨hi, hne⟩,
          hpaint.trans (Function.update_of_ne (Ne.symm hi) ..)⟩

theorem paint_of_forall_ne {mem : ι → v} {ws : List (ι × v)} {i : ι} (h : ∀ w ∈ ws, w.1 ≠ i) :
    paint mem ws i = mem i := by
  rcases paint_cases mem ws i with ⟨w, hw, heq, -⟩ | ⟨-, hpaint⟩
  · exact absurd heq (h w hw)
  · exact hpaint

theorem paint_of_agree {mem : ι → v} {ws : List (ι × v)} {i : ι} {x : v} (hex : ∃ w ∈ ws, w.1 = i)
    (h : ∀ w ∈ ws, w.1 = i → w.2 = x) : paint mem ws i = x := by
  rcases paint_cases mem ws i with ⟨w, hw, heq, hpaint⟩ | ⟨hne, -⟩
  · exact hpaint.trans (h w hw heq)
  · obtain ⟨w, hw, heq⟩ := hex
    exact absurd heq (hne w hw)

theorem holds_paint {mem : ι → v} {ws : List (ι × v)} (h : Agree ws) : Holds (paint mem ws) ws :=
  fun w hw => paint_of_agree ⟨w, hw, rfl⟩ fun w' hw' heq => h w' hw' w hw heq

theorem Holds.paint_other {mem : ι → v} {ws ws' : List (ι × v)} (h : Holds mem ws)
    (hne : ∀ w ∈ ws, ∀ w' ∈ ws', w'.1 ≠ w.1) : Holds (paint mem ws') ws :=
  fun w hw => (paint_of_forall_ne (hne w hw)).trans (h w hw)

-- ---------------------------------------------------------------------------
-- Cells
-- ---------------------------------------------------------------------------

variable {slot : κ → σ} {tile : κ → α → List (ι × v)} {back : σ → α} {cells : List κ}

def redraw (slot : κ → σ) (tile : κ → α → List (ι × v)) (back : σ → α) (mem : ι → v)
    (cells : List κ) :
    ι → v :=
  cells.foldl (fun mem c => paint mem (tile c (back (slot c)))) mem

theorem redraw_eq_paint (mem : ι → v) (cells : List κ) :
    redraw slot tile back mem cells =
    paint mem (cells.flatMap fun c => tile c (back (slot c))) := by
  induction cells generalizing mem with
  | nil => rfl
  | cons c cells ih =>
    rw [List.flatMap_cons, paint_append]
    exact ih _

variable [DecidableEq σ] [DecidableEq α]

def refreshCell (slot : κ → σ) (tile : κ → α → List (ι × v)) (back : σ → α) (s : (σ → α) × (ι → v))
    (c : κ) : (σ → α) × (ι → v) :=
  if s.1 (slot c) ≠ back (slot c) then
    (Function.update s.1 (slot c) (back (slot c)), paint s.2 (tile c (back (slot c))))
  else s

def refresh (slot : κ → σ) (tile : κ → α → List (ι × v)) (back : σ → α) (s : (σ → α) × (ι → v))
    (cells : List κ) : (σ → α) × (ι → v) :=
  cells.foldl (refreshCell slot tile back) s

variable {blank : α} {s : (σ → α) × (ι → v)} {c c' : κ}

theorem refreshCell_cases (slot : κ → σ) (tile : κ → α → List (ι × v)) (back : σ → α)
    (s : (σ → α) × (ι → v)) (c : κ) :
    s.1 (slot c) = back (slot c) ∧ refreshCell slot tile back s c = s ∨
    s.1 (slot c) ≠ back (slot c) ∧ refreshCell slot tile back s c =
      (Function.update s.1 (slot c) (back (slot c)), paint s.2 (tile c (back (slot c)))) := by
  unfold refreshCell
  by_cases h : s.1 (slot c) = back (slot c) <;> simp [h]

theorem shown_refreshCell (ht : Tiling slot tile cells) (hc : c ∈ cells)
    (hclean : Clean slot tile blank s c) (hback : back (slot c) ≠ blank) :
    Shown slot tile back (refreshCell slot tile back s c) c := by
  rcases refreshCell_cases slot tile back s c with ⟨heq, hsame⟩ | ⟨-, hnew⟩
  · rw [hsame]
    exact ⟨heq, heq ▸ hclean (heq ▸ hback)⟩
  · rw [hnew]
    exact ⟨Function.update_self .., holds_paint (ht.agree c hc _)⟩

theorem refreshCell_other (back : σ → α) (ht : Tiling slot tile cells) (hc : c ∈ cells)
    (hc' : c' ∈ cells)
    (hne : c' ≠ c) :
    (refreshCell slot tile back s c).1 (slot c') = s.1 (slot c') ∧
      ∀ a, Holds s.2 (tile c' a) → Holds (refreshCell slot tile back s c).2 (tile c' a) := by
  rcases refreshCell_cases slot tile back s c with ⟨-, hsame⟩ | ⟨-, hnew⟩
  · rw [hsame]
    exact ⟨rfl, fun _ h => h⟩
  · rw [hnew]
    have hslot : slot c' ≠ slot c := fun heq => hne (ht.slots c' hc' c hc heq)
    exact ⟨Function.update_of_ne hslot .., fun a h => h.paint_other (ht.apart c' hc' c hc hne _ _)⟩

theorem Clean.refreshCell (ht : Tiling slot tile cells) (hc : c ∈ cells) (hc' : c' ∈ cells)
    (hne : c' ≠ c) (h : Clean slot tile blank s c') :
    Clean slot tile blank (refreshCell slot tile back s c) c' := by
  obtain ⟨hslot, hholds⟩ := refreshCell_other (s := s) back ht hc hc' hne
  intro hblank
  rw [hslot] at hblank ⊢
  exact hholds _ (h hblank)

theorem Shown.refreshCell (ht : Tiling slot tile cells) (hc : c ∈ cells) (hc' : c' ∈ cells)
    (h : Shown slot tile back s c') : Shown slot tile back (refreshCell slot tile back s c) c' := by
  by_cases hne : c' = c
  · subst hne
    rcases refreshCell_cases slot tile back s c' with ⟨-, hsame⟩ | ⟨hdiff, -⟩
    · rw [hsame]
      exact h
    · exact absurd h.1 hdiff
  · obtain ⟨hslot, hholds⟩ := refreshCell_other (s := s) back ht hc hc' hne
    exact ⟨hslot.trans h.1, hholds _ h.2⟩

theorem refresh_shown (ht : Tiling slot tile cells) (hback : ∀ c ∈ cells, back (slot c) ≠ blank)
    {todo : List κ} (htodo : ∀ c ∈ todo, c ∈ cells)
    (h : ∀ c ∈ cells, Shown slot tile back s c ∨ c ∈ todo ∧ Clean slot tile blank s c) :
    ∀ c ∈ cells, Shown slot tile back (refresh slot tile back s todo) c := by
  induction todo generalizing s with
  | nil =>
    intro c hc
    rcases h c hc with hs | ⟨hnil, -⟩
    · exact hs
    · simp at hnil
  | cons d todo ih =>
    obtain ⟨hd, htodo⟩ := List.forall_mem_cons.mp htodo
    refine ih htodo fun c hc => ?_
    rcases h c hc with hs | ⟨hmem, hclean⟩
    · exact .inl (hs.refreshCell ht hd hc)
    · by_cases hne : c = d
      · subst hne
        exact .inl (shown_refreshCell ht hd hclean (hback c hd))
      · refine .inr ⟨?_, hclean.refreshCell ht hd hc hne⟩
        exact (List.mem_cons.mp hmem).resolve_left hne

theorem refresh_outside {i : ι} (h : ∀ c ∈ cells, ∀ a, ∀ w ∈ tile c a, w.1 ≠ i) :
    (refresh slot tile back s cells).2 i = s.2 i := by
  induction cells generalizing s with
  | nil => rfl
  | cons c cells ih =>
    obtain ⟨hc, hcells⟩ := List.forall_mem_cons.mp h
    refine (ih hcells).trans ?_
    rcases refreshCell_cases slot tile back s c with ⟨-, hsame⟩ | ⟨-, hnew⟩
    · rw [hsame]
    · rw [hnew]
      exact paint_of_forall_ne (hc _)

theorem refresh_eq_redraw (ht : Tiling slot tile cells) (hback : ∀ c ∈ cells, back (slot c) ≠ blank)
    (hclean : ∀ c ∈ cells, Clean slot tile blank s c) :
    (refresh slot tile back s cells).2 = redraw slot tile back s.2 cells := by
  have hshown := refresh_shown ht hback (fun c hc => hc) fun c hc => .inr ⟨hc, hclean c hc⟩
  rw [redraw_eq_paint]
  funext i
  by_cases hi : ∃ c ∈ cells, ∃ w ∈ tile c (back (slot c)), w.1 = i
  · obtain ⟨c, hc, w, hw, rfl⟩ := hi
    have hvalue : ∀ w' ∈ cells.flatMap fun c => tile c (back (slot c)), w'.1 = w.1 →
        w'.2 = w.2 := by
      intro w' hw' heq
      obtain ⟨c', hc', hw'⟩ := List.mem_flatMap.mp hw'
      by_cases hne : c = c'
      · subst hne
        exact ht.agree c hc _ w' hw' w hw heq
      · exact absurd heq (ht.apart c hc c' hc' hne _ _ w hw w' hw')
    rw [paint_of_agree ⟨w, List.mem_flatMap.mpr ⟨c, hc, hw⟩, rfl⟩ hvalue]
    exact (hshown c hc).2 w hw
  · have hne : ∀ c ∈ cells, ∀ a, ∀ w ∈ tile c a, w.1 ≠ i := by
      intro c hc a w hw heq
      obtain ⟨w', hw', hplace⟩ := ht.places c hc a (back (slot c)) w hw
      exact hi ⟨c, hc, w', hw', hplace.trans heq⟩
    rw [refresh_outside hne, paint_of_forall_ne]
    intro w hw
    obtain ⟨c, hc, hw⟩ := List.mem_flatMap.mp hw
    exact hne c hc _ w hw

end Painting
