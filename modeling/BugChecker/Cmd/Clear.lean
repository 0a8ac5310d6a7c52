import BugChecker.Break.Machine
import BugChecker.Cmd.Indexes
import BugChecker.Lib.Erasing

/-!
# Clearing breakpoints

`BC` removes the breakpoints with the listed indexes, the greatest first. An
index that is listed twice means another breakpoint the second time.
-/

namespace BugChecker.Cmd

open BugChecker.Break (BreakPoint)
open Erasing

abbrev Indexed := BreakPoint × Nat

/-- The breakpoints that were removed, and those that are left. -/
def clear (bps : List BreakPoint) (nums : List Nat) : List Indexed × List Indexed :=
  eraseEach bps.zipIdx (nums.mergeSort (· ≥ ·))

/-- `Cmd_BC::Execute`. -/
def bc (bps : List BreakPoint) (cmd : Text) : List Indexed × List Indexed :=
  let nums := listOfDecsArgs "BC".toList cmd bps.length
  if nums = [] then ([], bps.zipIdx) else clear bps nums

/-- `DbgKdRestoreBreakPoint` is only requested for a handle. -/
def restored (removed : List Indexed) : List Indexed := removed.filter fun bp => bp.1.handle ≠ 0

/-- What is asked for: the listed ones are removed, the others stay in their order. -/
structure ClearsListed (bps : List BreakPoint) (nums : List Nat) (removed left : List Indexed) :
    Prop where
  left : left = bps.zipIdx.filter fun bp => bp.2 ∉ nums
  restored : (restored removed).Perm (bps.zipIdx.filter fun bp => bp.2 ∈ nums ∧ bp.1.handle ≠ 0)

-- ---------------------------------------------------------------------------
-- The command of the debugger
-- ---------------------------------------------------------------------------

theorem clearBps_eraseEach (t : Break.Table) (bps : List BreakPoint) (nums : List Nat) :
    Break.clearBps t bps nums =
      (((eraseEach bps nums).1.filter fun bp => bp.handle ≠ 0).foldl
        (fun t bp => t.restore bp.handle) t,
        (eraseEach bps nums).2) := by
  induction nums generalizing t bps with
  | nil => rfl
  | cons n nums ih =>
    rw [Break.clearBps, eraseEach]
    cases bps[n]? with
    | none => rfl
    | some bp =>
      dsimp only
      rw [ih]
      by_cases hhandle : bp.handle ≠ 0
      · rw [if_pos hhandle, List.filter_cons, if_pos (decide_eq_true hhandle)]
        rfl
      · rw [if_neg hhandle, List.filter_cons, if_neg (by simpa using hhandle)]

/-- The table puts back the bytes of those that are removed, and of no other breakpoint. -/
theorem clearBps_eq_clear (t : Break.Table) (bps : List BreakPoint) (nums : List Nat) :
    Break.clearBps t bps (nums.mergeSort (· ≥ ·)) =
      ((restored (clear bps nums).1).foldl (fun t bp => t.restore bp.1.handle) t,
        (clear bps nums).2.map Prod.fst) := by
  have hmap := eraseEach_map Prod.fst bps.zipIdx (nums.mergeSort (· ≥ ·))
  rw [List.zipIdx_map_fst] at hmap
  rw [clearBps_eraseEach, hmap, restored, clear]
  dsimp only
  rw [List.filter_map, List.foldl_map]
  rfl

-- ---------------------------------------------------------------------------
-- What is accepted
-- ---------------------------------------------------------------------------

theorem accepts_of_readArgs (h : readArgs size args false [] = .ok r) :
    ∀ arg ∈ args, Accepts size arg := by
  intro arg harg
  by_contra hnot
  obtain ⟨e, he⟩ := readArgs_of_not_accepts harg hnot false []
  rw [h] at he
  cases he

theorem lt_of_readArgs (h : readArgs size args false [] = .ok (all, nums)) :
    ∀ n ∈ nums, n < size := by
  have haccepts := accepts_of_readArgs h
  rw [readArgs_of_accepts haccepts] at h
  cases h
  intro n hn
  obtain ⟨arg, harg, rfl⟩ := List.mem_map.mp hn
  obtain ⟨harg, hne⟩ := List.mem_filter.mp harg
  rcases haccepts arg harg with rfl | ⟨-, hlt⟩
  · cases hne
  · exact hlt

theorem lt_of_parse (h : parseListOfDecsArgs cmdId cmd size = .ok nums) : ∀ n ∈ nums, n < size := by
  unfold parseListOfDecsArgs at h
  split at h
  · cases h
  · cases h
  · dsimp only at h
    split at h
    · cases h
    · cases hread : readArgs size (tokenizeStr _ [' ']) false [] with
      | error e =>
        rw [hread] at h
        cases h
      | ok r =>
        obtain ⟨all, read⟩ := r
        rw [hread] at h
        change (if all = true then if read ≠ [] then _ else _ else _) = _ at h
        cases all with
        | false =>
          cases h
          exact lt_of_readArgs hread
        | true =>
          rw [if_pos rfl] at h
          split at h
          · cases h
          · cases h
            exact fun n hn => List.mem_range.mp hn
  · cases h

theorem bc_eq_clear (h : parseListOfDecsArgs "BC".toList cmd bps.length = .ok nums) :
    bc bps cmd = clear bps nums := by
  have hnums : listOfDecsArgs "BC".toList cmd bps.length = nums := by rw [listOfDecsArgs, h]
  unfold bc
  rw [hnums]
  dsimp only
  by_cases hnil : nums = []
  · rw [if_pos hnil, hnil, clear, List.mergeSort_nil]
    rfl
  · rw [if_neg hnil]

-- ---------------------------------------------------------------------------
-- What is cleared
-- ---------------------------------------------------------------------------

theorem sorted_descending (nums : List Nat) : (nums.mergeSort (· ≥ ·)).Pairwise (· ≥ ·) := by
  have hsorted : (nums.mergeSort (· ≥ ·)).Pairwise fun a b => decide (a ≥ b) :=
    List.pairwise_mergeSort (by simp; omega) (by simp; omega) nums
  simpa using hsorted

theorem onlyLeastRepeated_perm {ns ms : List Nat} (h : ns.Perm ms) (size : Nat) :
    OnlyLeastRepeated ns size ↔ OnlyLeastRepeated ms size := by
  unfold OnlyLeastRepeated
  refine exists_congr fun v => and_congr (forall_congr' fun i => ?_) (h.filter _).nodup_iff
  rw [h.mem_iff]

/-- What is left decides it, because the greatest indexes are restored first. -/
theorem clear_left_iff (hnums : ∀ n ∈ nums, n < bps.length) :
    (clear bps nums).2 = bps.zipIdx.filter (fun bp => bp.2 ∉ nums) ↔
      nums.Nodup ∨ OnlyLeastRepeated nums bps.length := by
  have hperm := List.mergeSort_perm nums (· ≥ ·)
  have hlt : ∀ n ∈ nums.mergeSort (· ≥ ·), n < bps.zipIdx.length := fun n hn => by
    rw [List.length_zipIdx]
    exact hnums n (hperm.mem_iff.mp hn)
  have hfilter : bps.zipIdx.filter (fun bp => bp.2 ∉ nums) =
      bps.zipIdx.filter fun bp => bp.2 ∉ nums.mergeSort (· ≥ ·) :=
    List.filter_congr fun bp _ => decide_eq_decide.mpr (not_congr hperm.mem_iff.symm)
  rw [← hperm.nodup_iff, ← onlyLeastRepeated_perm hperm, hfilter, clear]
  rcases exists_repeated (sorted_descending nums) with hstrict | ⟨ds, v, rest, hsplit, hstrict⟩
  · rw [eraseEach_eq (tagged_zipIdx bps) hstrict hlt]
    exact iff_of_true rfl (.inl (hstrict.imp Nat.ne_of_gt))
  · have hdup : ¬ (ds ++ v :: v :: rest).Nodup := by
      simp [List.nodup_append]
    have hsorted := sorted_descending nums
    rw [hsplit] at hlt hsorted ⊢
    rw [eraseEach_repeated_iff (tagged_zipIdx bps) hstrict hsorted hlt, List.length_zipIdx,
      or_iff_right hdup]

theorem restored_perm (hleft : (clear bps nums).2 = bps.zipIdx.filter fun bp => bp.2 ∉ nums) :
    (restored (clear bps nums).1).Perm
      (bps.zipIdx.filter fun bp => bp.2 ∈ nums ∧ bp.1.handle ≠ 0) := by
  have hall : ((clear bps nums).1 ++ (clear bps nums).2).Perm bps.zipIdx := eraseEach_perm _ _
  have hparts := List.filter_append_perm (fun bp : Indexed => decide (bp.2 ∈ nums)) bps.zipIdx
  have hnot : bps.zipIdx.filter (fun bp => !decide (bp.2 ∈ nums)) =
      bps.zipIdx.filter fun bp => bp.2 ∉ nums := List.filter_congr fun bp _ => by simp
  rw [hnot] at hparts
  rw [hleft] at hall
  have hremoved := (List.perm_append_right_iff _).mp (hall.trans hparts.symm)
  refine (hremoved.filter _).trans (List.Perm.of_eq ?_)
  rw [List.filter_filter]
  exact List.filter_congr fun bp _ => by simp [Bool.and_comm]

/-- The listed breakpoints are cleared exactly if a repeated index means no other one. -/
theorem clearsListed_iff {cmd : Text}
    (h : parseListOfDecsArgs "BC".toList cmd bps.length = .ok nums) :
    ClearsListed bps nums (bc bps cmd).1 (bc bps cmd).2 ↔
      nums.Nodup ∨ OnlyLeastRepeated nums bps.length := by
  rw [bc_eq_clear h, ← clear_left_iff (lt_of_parse h)]
  exact ⟨fun hclears => hclears.left, fun hleft => ⟨hleft, restored_perm hleft⟩⟩

def threeBps : List BreakPoint :=
  [Break.userBp 16 0 0 "" 1, Break.userBp 32 0 0 "" 0, Break.userBp 48 0 0 "" 2]

theorem clearsListed_two :
    ClearsListed threeBps [0, 2] (bc threeBps "bc 0 2".toList).1 (bc threeBps "bc 0 2".toList).2 :=
  (clearsListed_iff (by decide +kernel)).mpr (.inl (by decide))

/-- The index is listed twice, and the breakpoint behind it is removed, too. -/
theorem clears_twice :
    ¬ ClearsListed threeBps [1, 1] (bc threeBps "bc 1 1".toList).1
      (bc threeBps "bc 1 1".toList).2 := by
  have haccepted : parseListOfDecsArgs "BC".toList "bc 1 1".toList threeBps.length =
      .ok [1, 1] := by
    decide +kernel
  have hsorted : [1, 1].mergeSort (· ≥ ·) = [1, 1] := List.mergeSort_of_pairwise (by decide)
  have hleft : (eraseEach threeBps.zipIdx [1, 1]).2 ≠ threeBps.zipIdx.filter fun bp =>
      bp.2 ∉ [1, 1] := by decide
  rw [bc_eq_clear haccepted, clear, hsorted]
  exact fun hclears => hleft hclears.left

end BugChecker.Cmd
