import Mathlib.Logic.Function.Iterate
import Mathlib.Data.List.Basic

/-!
# Deterministic machines that keep a log

A machine steps through its configurations and appends to a log. Two runs meet
when they agree from some step on; `Reaches` relates a configuration to one it
runs into, where the target need not be a configuration of the run itself as
long as the next step does not tell them apart. That is what a proof needs when
the machine enters the middle of one of its own steps.
-/

/-- A step function and a log that every step only extends. -/
structure Traced (σ ε : Type) where
  step : σ → σ
  log : σ → List ε
  grows : ∀ c, log c <+: log (step c)

namespace Traced

variable (T : Traced σ ε)

/-- The configuration after `k` steps. -/
def after (k : Nat) (c : σ) : σ := T.step^[k] c

@[simp] theorem after_zero : T.after 0 c = c := rfl

theorem after_succ : T.after (k + 1) c = T.step (T.after k c) :=
  Function.iterate_succ_apply' ..

theorem after_succ' : T.after (k + 1) c = T.after k (T.step c) := rfl

theorem after_add : T.after (k + j) c = T.after k (T.after j c) :=
  Function.iterate_add_apply ..

theorem after_of_fixed (h : T.step (T.after j c) = T.after j c) (hle : j ≤ k) :
    T.after k c = T.after j c := by
  induction hle with
  | refl => rfl
  | step _ ih => rw [after_succ, ih, h]

/-- After `n` or more steps the run of `c` is at a configuration that the next
step does not tell from `d`, and whose log `d` extends. -/
def Reaches (n : Nat) (c d : σ) : Prop :=
  ∃ k, n ≤ k ∧ T.after (k + 1) c = T.step d ∧ T.log (T.after k c) <+: T.log d

variable {T}

theorem Reaches.refl (c : σ) : T.Reaches 0 c c := ⟨0, Nat.le_refl _, rfl, List.prefix_rfl⟩

theorem Reaches.of_after (h : T.after n c = d) : T.Reaches n c d := by
  subst h
  exact ⟨n, Nat.le_refl n, after_succ T, List.prefix_rfl⟩

theorem Reaches.of_step (h : T.step c = d) : T.Reaches 1 c d := .of_after h

theorem Reaches.of_step_eq (h : T.step c = T.step d) (hlog : T.log c <+: T.log d) :
    T.Reaches 0 c d := ⟨0, Nat.le_refl _, h, hlog⟩

theorem Reaches.mono (h : T.Reaches n c d) (hle : m ≤ n) : T.Reaches m c d := by
  obtain ⟨k, hk, hrun, hlog⟩ := h
  exact ⟨k, Nat.le_trans hle hk, hrun, hlog⟩

theorem Reaches.trans (h : T.Reaches m c d) (h' : T.Reaches n d e) : T.Reaches (m + n) c e := by
  obtain ⟨k, hk, hrun, hlog⟩ := h
  obtain ⟨j, hj, hrun', hlog'⟩ := h'
  refine ⟨j + k, by omega, ?_, ?_⟩
  · rw [show j + k + 1 = j + (k + 1) by omega, after_add, hrun, ← after_succ', hrun']
  · cases j with
    | zero =>
      rw [Nat.zero_add]
      exact hlog.trans hlog'
    | succ j =>
      rw [show j + 1 + k = j + (k + 1) by omega, after_add, hrun, ← after_succ']
      exact hlog'

theorem log_after_le (h : j ≤ k) : T.log (T.after j c) <+: T.log (T.after k c) := by
  induction h with
  | refl => exact List.prefix_rfl
  | step _ ih =>
    rw [after_succ]
    exact ih.trans (T.grows _)

theorem Reaches.log_prefix (h : T.Reaches n c d) : ∃ k, T.log d <+: T.log (T.after k c) := by
  obtain ⟨k, -, hrun, -⟩ := h
  exact ⟨k + 1, hrun ▸ T.grows d⟩

theorem Reaches.prefix_log (h : T.Reaches n c d) : T.log (T.after n c) <+: T.log d := by
  obtain ⟨k, hk, -, hlog⟩ := h
  exact (log_after_le hk).trans hlog

end Traced
