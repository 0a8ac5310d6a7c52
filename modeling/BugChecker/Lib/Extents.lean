import Mathlib.Algebra.GroupWithZero.Nat
import Mathlib.Order.Interval.Finset.Nat
import Mathlib.Data.List.Perm.Basic

/-!
# Disjoint extents of a line of cells

An extent is a run of consecutive cells. A layout is a list of extents that lie
on a line of `size` cells and do not overlap; it is what an allocator of whole
cells owns.
-/

structure Extent where
  start : Nat
  len : Nat
deriving DecidableEq, Repr

namespace Extent

def Covers (e : Extent) (i : Nat) : Prop := e.start ≤ i ∧ i < e.start + e.len

instance (e : Extent) : DecidablePred e.Covers := fun _ => inferInstanceAs (Decidable (_ ∧ _))

/-- No cell belongs to both. -/
def Apart (e f : Extent) : Prop := ∀ i, e.Covers i → ¬f.Covers i

theorem Apart.symm {e f : Extent} (h : e.Apart f) : f.Apart e := fun i hf he => h i he hf

instance : Std.Symm Apart := ⟨fun _ _ h => h.symm⟩

def Covered (l : List Extent) (i : Nat) : Prop := ∃ e ∈ l, e.Covers i

structure Layout (size : Nat) (l : List Extent) : Prop where
  inside : ∀ e ∈ l, e.start + e.len ≤ size
  apart : l.Pairwise Apart

theorem Layout.nil (size : Nat) : Layout size [] := ⟨nofun, .nil⟩

theorem Layout.cons (h : Layout size l) (hinside : e.start + e.len ≤ size)
    (hfree : ∀ i, e.Covers i → ¬Covered l i) : Layout size (e :: l) where
  inside := List.forall_mem_cons.mpr ⟨hinside, h.inside⟩
  apart := List.pairwise_cons.mpr ⟨fun f hf i he hc => hfree i he ⟨f, hf, hc⟩, h.apart⟩

theorem Layout.tail (h : Layout size (e :: l)) : Layout size l :=
  ⟨(List.forall_mem_cons.mp h.inside).2, (List.pairwise_cons.mp h.apart).2⟩

theorem Layout.perm (h : Layout size l) (hperm : l.Perm l') : Layout size l' where
  inside e he := h.inside e (hperm.mem_iff.mpr he)
  apart := (hperm.pairwise_iff Apart.symm).mp h.apart

@[simp] theorem covered_nil (i : Nat) : ¬Covered [] i := nofun

theorem covered_cons : Covered (e :: l) i ↔ e.Covers i ∨ Covered l i := by
  simp [Covered]

theorem covered_perm (hperm : l.Perm l') : Covered l i ↔ Covered l' i := by
  simp only [Covered, hperm.mem_iff]

theorem Layout.covered_tail (h : Layout size (e :: l)) :
    Covered l i ↔ Covered (e :: l) i ∧ ¬e.Covers i := by
  rw [covered_cons]
  constructor
  · rintro ⟨f, hf, hc⟩
    exact ⟨.inr ⟨f, hf, hc⟩, fun he => (List.pairwise_cons.mp h.apart).1 f hf i he hc⟩
  · rintro ⟨he | hl, hne⟩
    · exact absurd he hne
    · exact hl

theorem Layout.card_covered (h : Layout size l) {s : Finset Nat}
    (hs : ∀ i, i ∈ s ↔ Covered l i) : s.card = (l.map len).sum := by
  induction l generalizing s with
  | nil =>
    have hempty : s = ∅ := Finset.eq_empty_of_forall_notMem fun i hi => covered_nil i ((hs i).mp hi)
    rw [hempty]
    rfl
  | cons e l ih =>
    have hsplit : s.card = (s.filter e.Covers).card + (s.filter (¬e.Covers ·)).card :=
      (Finset.card_filter_add_card_filter_not _).symm
    have hfirst : s.filter e.Covers = Finset.Ico e.start (e.start + e.len) := by
      ext i
      rw [Finset.mem_filter, hs, covered_cons, Finset.mem_Ico]
      exact ⟨fun hi => hi.2, fun hi => ⟨.inl hi, hi⟩⟩
    have hrest := ih h.tail (s := s.filter (¬e.Covers ·)) fun i => by
      rw [Finset.mem_filter, hs, ← h.covered_tail]
    rw [hsplit, hfirst, hrest, Nat.card_Ico, Nat.add_sub_cancel_left, List.map_cons, List.sum_cons]

end Extent
