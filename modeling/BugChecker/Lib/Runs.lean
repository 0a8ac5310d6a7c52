import Mathlib.Order.Basic

/-!
# Runs of a partial step function

A system takes an input in a state, or refuses it. The states reached by runs
whose inputs all meet a condition are where an invariant is asked for; it is
enough that each such step keeps it.
-/

namespace Runs

variable (step : σ → ι → Option σ) (ok : σ → ι → Prop) (init : σ)

inductive Reachable : σ → Prop
  | init : Reachable init
  | step : Reachable s → ok s i → step s i = some s' → Reachable s'

variable {step ok init}

theorem Reachable.invariant {P : σ → Prop} (h0 : P init)
    (hstep : ∀ s i s', P s → ok s i → step s i = some s' → P s')
    (h : Reachable step ok init s) : P s := by
  induction h with
  | init => exact h0
  | step _ hok hs ih => exact hstep _ _ _ ih hok hs

/-- A run of a list of inputs that stops at one that does not meet the condition. -/
def run (step : σ → ι → Option σ) (ok : σ → ι → Prop) [∀ s i, Decidable (ok s i)] :
    σ → List ι → Option σ
  | s, [] => some s
  | s, i :: is => if ok s i then (step s i).bind (run step ok · is) else none

theorem run_eq_some_getD [∀ s i, Decidable (ok s i)] (h : (run step ok s is).isSome = true) :
    run step ok s is = some ((run step ok s is).getD t) := by
  obtain ⟨s', hs⟩ := Option.isSome_iff_exists.mp h
  rw [hs, Option.getD_some]

theorem run_of_run [∀ s i, Decidable (ok s i)] (hrun : run step ok s is = some s') :
    run step (fun _ _ => True) s is = some s' := by
  induction is generalizing s with
  | nil => exact hrun
  | cons i is ih =>
    rw [run] at hrun
    split at hrun
    · obtain ⟨t, ht, hrest⟩ := Option.bind_eq_some_iff.mp hrun
      rw [run, if_pos trivial, ht]
      exact ih hrest
    · cases hrun

theorem reachable_of_run [∀ s i, Decidable (ok s i)] (h : Reachable step ok init s)
    (hrun : run step ok s is = some s') : Reachable step ok init s' := by
  induction is generalizing s with
  | nil =>
    obtain rfl : s = s' := Option.some.inj hrun
    exact h
  | cons i is ih =>
    rw [run] at hrun
    split at hrun
    · next hok =>
      obtain ⟨t, ht, hrest⟩ := Option.bind_eq_some_iff.mp hrun
      exact ih (.step h hok ht) hrest
    · cases hrun

/-- In every state that a run passes, the first and the last included. -/
def Along (step : σ → ι → Option σ) (P : σ → Prop) (s : σ) (is : List ι) : Prop :=
  ∀ done, done <+: is → ∀ s', done.foldlM step s = some s' → P s'

theorem along_nil {P : σ → Prop} : Along step P s [] ↔ P s := by
  constructor
  · intro h
    exact h [] List.prefix_rfl s rfl
  · intro h done hdone s' hs
    obtain rfl := List.prefix_nil.mp hdone
    obtain rfl := Option.some.inj hs
    exact h

theorem Along.head {P : σ → Prop} (h : Along step P s is) : P s := h [] List.nil_prefix s rfl

theorem along_cons {P : σ → Prop} :
    Along step P s (i :: is) ↔ P s ∧ ∀ t, step s i = some t → Along step P t is := by
  constructor
  · intro h
    refine ⟨h.head, fun t ht done hdone s' hs => ?_⟩
    refine h (i :: done) (List.cons_prefix_cons.mpr ⟨rfl, hdone⟩) s' ?_
    rw [List.foldlM_cons, ht]
    exact hs
  · rintro ⟨h, hrest⟩ done hdone s' hs
    cases done with
    | nil =>
      obtain rfl := Option.some.inj hs
      exact h
    | cons j done =>
      obtain ⟨rfl, hstart⟩ := List.cons_prefix_cons.mp hdone
      obtain ⟨t, ht, hs⟩ := Option.bind_eq_some_iff.mp hs
      exact hrest t ht done hstart s' hs

-- ---------------------------------------------------------------------------
-- Each step of a run
-- ---------------------------------------------------------------------------

/-- For each input of a list, in the state in which it is taken. -/
def Each (next : σ → ι → σ) (P : σ → ι → Prop) : σ → List ι → Prop
  | _, [] => True
  | s, i :: is => P s i ∧ Each next P (next s i) is

theorem each_congr {next : σ → ι → σ} {P Q : σ → ι → Prop} (h : ∀ s i, P s i ↔ Q s i)
    (s : σ) (is : List ι) :
    Each next P s is ↔ Each next Q s is := by
  induction is generalizing s with
  | nil => exact Iff.rfl
  | cons i is ih => exact and_congr (h s i) (ih (next s i))

theorem each_append {next : σ → ι → σ} {P : σ → ι → Prop} (s : σ) (is js : List ι) :
    Each next P s (is ++ js) ↔ Each next P s is ∧ Each next P (is.foldl next s) js := by
  induction is generalizing s with
  | nil => exact (and_iff_right trivial).symm
  | cons i is ih => exact (and_congr_right fun _ => ih (next s i)).trans and_assoc.symm

theorem each_iff_of_invariant {next : σ → ι → σ} {I : σ → Prop} {Q : σ → ι → Prop}
    (hstep : ∀ s i, I s → (I (next s i) ↔ Q s i)) (h : I s) (is : List ι) :
    Each next (fun s i => I (next s i)) s is ↔ Each next Q s is := by
  induction is generalizing s with
  | nil => exact Iff.rfl
  | cons i is ih =>
    have hrest : I (next s i) ∧ Each next (fun s i => I (next s i)) (next s i) is ↔
        I (next s i) ∧ Each next Q (next s i) is := and_congr_right fun hnext => ih hnext
    exact hrest.trans (and_congr_left' (hstep s i h))

end Runs
