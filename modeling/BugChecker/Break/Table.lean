import Mathlib.Algebra.Group.Nat.Defs
import Mathlib.Data.List.Basic
import Mathlib.Data.List.Nodup
import Mathlib.Data.List.Perm.Subperm

/-!
# KD's table of breakpoints

The kernel debugger keeps the breakpoints that are in the code, each under a
handle. It takes out those at and after the program counter on every state
change, writes one on request unless there is one at the address already, and
takes one out by its handle. How it picks a handle is left to it, as long as
the handle is not zero and not in use.
-/

namespace BugChecker.Break

abbrev Table := List (Nat × UInt64)

structure Kd where
  newHandle : Table → Nat
  newHandle_ne_zero : ∀ t, newHandle t ≠ 0
  newHandle_unused : ∀ t, newHandle t ∉ t.map Prod.fst

namespace Table

def Active (t : Table) (addr : UInt64) : Prop := ∃ e ∈ t, e.2 = addr

instance (t : Table) (addr : UInt64) : Decidable (t.Active addr) :=
  inferInstanceAs (Decidable (∃ e ∈ t, e.2 = addr))

/-- Whether a state change at `pc` takes out the breakpoint at an address. -/
def Struck (pc addr : UInt64) : Prop := pc.toNat ≤ addr.toNat ∧ addr.toNat ≤ pc.toNat + 15

instance (pc addr : UInt64) : Decidable (Struck pc addr) :=
  inferInstanceAs (Decidable (_ ∧ _))

def stateChange (t : Table) (pc : UInt64) : Table := t.filter fun e => ¬ Struck pc e.2

/-- `DbgKdWriteBreakPointApi`. -/
def write (kd : Kd) (t : Table) (addr : UInt64) : Option (Nat × Table) :=
  if t.Active addr then none else some (kd.newHandle t, (kd.newHandle t, addr) :: t)

/-- `DbgKdRestoreBreakPointApi`. -/
def restore (t : Table) (handle : Nat) : Table := t.filter fun e => e.1 ≠ handle

/-- No handle is used twice, and none is zero. -/
structure Ok (t : Table) : Prop where
  nodup : (t.map Prod.fst).Nodup
  ne_zero : ∀ e ∈ t, e.1 ≠ 0

theorem Active.mono {t t' : Table} (h : t ⊆ t') (ha : t.Active addr) : t'.Active addr := by
  obtain ⟨e, he, heq⟩ := ha
  exact ⟨e, h he, heq⟩

theorem mem_stateChange {t : Table} : e ∈ t.stateChange pc ↔ e ∈ t ∧ ¬ Struck pc e.2 := by
  simp [stateChange]

theorem mem_restore {t : Table} : e ∈ t.restore h ↔ e ∈ t ∧ e.1 ≠ h := by
  simp [restore]

theorem active_stateChange {t : Table} (h : t.Active addr) (hn : ¬ Struck pc addr) :
    (t.stateChange pc).Active addr := by
  obtain ⟨e, he, rfl⟩ := h
  exact ⟨e, mem_stateChange.mpr ⟨he, hn⟩, rfl⟩

theorem not_active_stateChange {t : Table} (h : Struck pc addr) :
    ¬ (t.stateChange pc).Active addr := by
  rintro ⟨e, he, rfl⟩
  exact (mem_stateChange.mp he).2 h

theorem write_cases (kd : Kd) (t : Table) (addr : UInt64) :
    (t.Active addr ∧ write kd t addr = none) ∨
      (¬ t.Active addr ∧ ∃ h, h ≠ 0 ∧ h ∉ t.map Prod.fst ∧
        write kd t addr = some (h, (h, addr) :: t)) := by
  by_cases ha : t.Active addr
  · exact Or.inl ⟨ha, if_pos ha⟩
  · exact Or.inr ⟨ha, kd.newHandle t, kd.newHandle_ne_zero t, kd.newHandle_unused t, if_neg ha⟩

namespace Ok

theorem nil : Ok [] := ⟨List.nodup_nil, by simp⟩

theorem filter {t : Table} (h : t.Ok) (p : Nat × UInt64 → Bool) : Ok (t.filter p) :=
  ⟨h.nodup.sublist (List.filter_sublist.map _), fun e he => h.ne_zero e (List.mem_of_mem_filter he)⟩

theorem cons {t : Table} (h : t.Ok) (hne : handle ≠ 0) (hnew : handle ∉ t.map Prod.fst) :
    Ok ((handle, addr) :: t) := by
  refine ⟨List.nodup_cons.mpr ⟨hnew, h.nodup⟩, fun e he => ?_⟩
  rcases List.mem_cons.mp he with rfl | he
  · exact hne
  · exact h.ne_zero e he

theorem eq_of_handle {t : Table} (h : t.Ok) (he : e ∈ t) (he' : e' ∈ t) (heq : e.1 = e'.1) :
    e = e' := List.inj_on_of_nodup_map h.nodup he he' heq

end Ok

end Table

def lowestFree (used : List Nat) : Nat :=
  ((List.range' 1 (used.length + 1)).find? (· ∉ used)).getD 0

theorem lowestFree_spec (used : List Nat) : 1 ≤ lowestFree used ∧ lowestFree used ∉ used := by
  cases h : (List.range' 1 (used.length + 1)).find? (· ∉ used) with
  | none =>
    have hsub : List.range' 1 (used.length + 1) ⊆ used := fun n hn => by
      simpa using List.find?_eq_none.mp h n hn
    have hle := ((List.nodup_range' (s := 1) (n := used.length + 1)).subperm hsub).length_le
    simp only [List.length_range'] at hle
    omega
  | some n =>
    have hmem := List.mem_range'_1.mp (List.mem_of_find?_eq_some h)
    have hnew := List.find?_some h
    rw [lowestFree, h, Option.getD_some]
    exact ⟨hmem.1, by simpa using hnew⟩

/-- Handles that are slots: the lowest free one, counted from one. -/
def slots : Kd where
  newHandle t := lowestFree (t.map Prod.fst)
  newHandle_ne_zero _ := Nat.one_le_iff_ne_zero.mp (lowestFree_spec _).1
  newHandle_unused _ := (lowestFree_spec _).2

end BugChecker.Break
