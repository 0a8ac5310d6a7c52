import BugChecker.Disasm.Window
import Mathlib.Order.Monotone.Basic
import Mathlib.Order.Iterate

/-!
# The addresses that are shown

Both loops over the addresses follow the instructions from where the fetched
bytes begin, and what they keep is a part of that sequence.
-/

namespace BugChecker.Disasm

theorem iterate_dropLast (f : α → α) (a : α) (n : Nat) :
    (List.iterate f a (n + 1)).dropLast = List.iterate f a n := by
  rw [List.iterate_add]
  exact List.dropLast_concat

theorem iterate_getLast? (f : α → α) (a : α) (n : Nat) :
    (List.iterate f a (n + 1)).getLast? = some (f^[n] a) := by
  rw [List.iterate_add]
  exact List.getLast?_concat

theorem iterate_drop (f : α → α) (a : α) (m n : Nat) :
    (List.iterate f a (m + n)).drop m = List.iterate f (f^[m] a) n := by
  rw [List.iterate_add, List.drop_left' (List.length_iterate f a m)]

variable (instrAt : Nat → Instr) (base : Nat)

theorem lt_following (address : Nat) : address < following instrAt base address :=
  Nat.lt_add_of_pos_right (Instr.length_pos _)

theorem following_strictMono (address : Nat) :
    StrictMono fun n => (following instrAt base)^[n] address :=
  strictMono_nat_of_lt_succ fun n => by
    rw [Function.iterate_succ_apply']
    exact lt_following instrAt base _

theorem add_le_following (address m k : Nat) :
    (following instrAt base)^[m] address + k ≤ (following instrAt base)^[m + k] address := by
  induction k with
  | zero => exact Nat.le_refl _
  | succ k ih =>
    have hlt := lt_following instrAt base ((following instrAt base)^[m + k] address)
    rw [← Nat.add_assoc m k 1, Function.iterate_succ_apply']
    omega

theorem forwardAddresses_eq (hdim : 0 < contentsDim) :
    forwardAddresses instrAt base contentsDim n =
      List.iterate (following instrAt base) base (n + contentsDim) := by
  rw [forwardAddresses, Nat.max_eq_right (by omega), Nat.add_comm]

theorem sweep_eq (hfuel : 0 < fuel) (h : last < address + fuel) :
    ∃ m, sweep instrAt base last fuel address =
    List.iterate (following instrAt base) address (m + 1) ∧
    (∀ i < m, (following instrAt base)^[i] address < last) ∧
    last ≤ (following instrAt base)^[m] address := by
  induction fuel generalizing address with
  | zero => exact absurd hfuel (Nat.lt_irrefl 0)
  | succ fuel ih =>
    rw [sweep]
    split
    · next hle => exact ⟨0, rfl, fun i hi => absurd hi (Nat.not_lt_zero i), hle⟩
    · next hlt =>
      have hnext := lt_following instrAt base address
      obtain ⟨m, heq, hbelow, hle⟩ := @ih (following instrAt base address) (by omega) (by omega)
      refine ⟨m + 1, by rw [heq]; rfl, fun i hi => ?_, hle⟩
      cases i with
      | zero => exact Nat.lt_of_not_le hlt
      | succ i => exact hbelow i (Nat.lt_of_succ_lt_succ hi)

theorem backwardAddresses_eq (last : Nat) : ∃ m, backwardAddresses instrAt base last =
    List.iterate (following instrAt base) base (m + 1) ∧
    (∀ i < m, (following instrAt base)^[i] base < last) ∧
    last ≤ (following instrAt base)^[m] base :=
  sweep_eq instrAt base (Nat.succ_pos _) (by omega)

theorem eq_of_first {instrAt : Nat → Instr} {base : Nat}
    (hbelow : ∀ i < m, (following instrAt base)^[i] base < last)
    (hlast : last ≤ (following instrAt base)^[m] base)
      (h : (following instrAt base)^[m'] base = last) :
    m' = m := by
  have hmono := following_strictMono instrAt base base
  rcases Nat.lt_trichotomy m' m with hlt | heq | hgt
  · exact absurd h (Nat.ne_of_lt (hbelow m' hlt))
  · exact heq
  · exact absurd h (Nat.ne_of_gt (Nat.lt_of_le_of_lt hlast (hmono hgt)))

variable {base}

theorem keptBackward_iterate (f : Nat → Nat) (hmoved : isLast.toNat ≤ n) :
    keptBackward contentsDim last n isLast
    (List.iterate f base (m + 1)) =
      if f^[m] base = last ∧ contentsDim + n + isLast.toNat ≤ m + 1 then
        some (List.iterate f (f^[m + 1 - n - contentsDim] base) (contentsDim + isLast.toNat))
      else none := by
  unfold keptBackward
  simp only [iterate_getLast?, List.length_iterate, Option.some_inj]
  by_cases hlast : f^[m] base = last
  · by_cases hcount : m + 1 < contentsDim + n + isLast.toNat
    · rw [if_pos hlast, if_pos hcount, if_neg fun h => absurd h.2 (Nat.not_le_of_lt hcount)]
    · rw [if_pos hlast, if_neg hcount, if_pos ⟨hlast, Nat.le_of_not_lt hcount⟩]
      have htake : m + 1 - n + isLast.toNat =
          (m + 1 - n - contentsDim) + (contentsDim + isLast.toNat) := by omega
      rw [List.take_iterate, List.length_iterate, Nat.min_eq_left (by omega), htake, Nat.sub_sub,
        Nat.add_sub_cancel, iterate_drop]
  · rw [if_neg hlast, if_neg fun h => hlast h.1]

namespace DisasmWnd

variable {w : DisasmWnd} {instrAt : Nat → Instr}

theorem withFlags_isLast_le (w : DisasmWnd) (navigate : Int) (h : w.moved navigate < 0) :
    (w.withFlags navigate).isLastAddressShownASymName.toNat ≤ (w.moved navigate).natAbs := by
  have hle := Bool.toNat_le (w.withFlags navigate).isLastAddressShownASymName
  omega

theorem withFlags_isLast_of_nonneg (h : 0 ≤ w.moved navigate) :
    (w.withFlags navigate).isLastAddressShownASymName = false := by
  unfold withFlags
  by_cases hnav : navigate = -1
  · have hmoved : w.moved (-1) = -1 := by
      rw [moved, if_neg]
      simp [keepsAddress, navigatePreservePos]
    rw [hnav, hmoved] at h
    omega
  · simp [hnav]

theorem shownAddresses_forward (hdim : 0 < contentsDim) (h : 0 ≤ w.moved navigate) :
    w.shownAddresses contentsDim pc navigate instrAt =
      some (List.iterate (following instrAt (w.asmBytesAddress pc navigate))
        ((following instrAt (w.asmBytesAddress pc navigate))^[(w.moved navigate).toNat]
          (w.asmBytesAddress pc navigate)) contentsDim) := by
  rw [shownAddresses, collected, if_pos h, kept, if_pos h, withFlags_isLast_of_nonneg h,
    forwardAddresses_eq _ _ hdim, iterate_drop]
  simp [Option.filter]

theorem shownAddresses_backward (h : w.moved navigate < 0) :
    w.shownAddresses contentsDim pc navigate instrAt =
      keptBackward contentsDim w.lastAddressShown (w.moved navigate).natAbs
        (w.withFlags navigate).isLastAddressShownASymName
        (backwardAddresses instrAt (w.asmBytesAddress pc navigate) w.lastAddressShown) := by
  obtain ⟨m, heq, -, -⟩ :=
    backwardAddresses_eq instrAt (w.asmBytesAddress pc navigate) w.lastAddressShown
  rw [shownAddresses, collected, if_neg (Int.not_le.mpr h), kept, if_neg (Int.not_le.mpr h), heq,
    keptBackward_iterate _ (w.withFlags_isLast_le navigate h)]
  split
  · simp [Option.filter]
  · rfl

theorem exists_shownAddresses (hdim : 0 < contentsDim)
    (h : w.shownAddresses contentsDim pc navigate instrAt = some addresses) :
    ∃ b, w.asmBytesAddress pc navigate ≤ b ∧
      addresses = List.iterate (following instrAt (w.asmBytesAddress pc navigate)) b
        (contentsDim + (w.withFlags navigate).isLastAddressShownASymName.toNat) ∧
      ((w.withFlags navigate).isLastAddressShownASymName = true →
        (following instrAt (w.asmBytesAddress pc navigate))^[contentsDim] b =
        w.lastAddressShown) := by
  have hmono := (following_strictMono instrAt (w.asmBytesAddress pc navigate)
    (w.asmBytesAddress pc navigate)).monotone
  by_cases hmoved : 0 ≤ w.moved navigate
  · have hlast := withFlags_isLast_of_nonneg hmoved
    rw [shownAddresses_forward hdim hmoved] at h
    refine ⟨_, hmono (Nat.zero_le (w.moved navigate).toNat), ?_, fun htrue => ?_⟩
    · rw [hlast]
      exact (Option.some.inj h).symm
    · rw [hlast] at htrue
      cases htrue
  · have hneg := Int.not_le.mp hmoved
    obtain ⟨m, heq, -, -⟩ :=
      backwardAddresses_eq instrAt (w.asmBytesAddress pc navigate) w.lastAddressShown
    rw [shownAddresses_backward hneg, heq,
      keptBackward_iterate _ (w.withFlags_isLast_le navigate hneg)] at h
    obtain ⟨⟨hmeets, hcount⟩, h⟩ := Option.ite_none_right_eq_some.mp h
    refine ⟨_, hmono (Nat.zero_le (m + 1 - (w.moved navigate).natAbs - contentsDim)),
      (Option.some.inj h).symm, fun htrue => ?_⟩
    have hone : navigate = -1 := by
      unfold withFlags at htrue
      simpa using (Bool.and_eq_true_iff.mp htrue).2
    have hmoved : w.moved navigate = -1 := by
      rw [hone, moved, if_neg]
      simp [keepsAddress, navigatePreservePos]
    rw [htrue, hmoved] at hcount
    rw [hmoved, ← Function.iterate_add_apply, ← hmeets]
    congr 2
    change contentsDim + 1 + 1 ≤ m + 1 at hcount
    change contentsDim + (m + 1 - 1 - contentsDim) = m
    omega

end DisasmWnd

end BugChecker.Disasm
