import BugChecker.Break.Machine
import BugChecker.Lib.Recency

/-!
# The traces of the threads

`BpTrace::Get` keeps an entry for each of the threads that used it last, three
for each processor. A thread that has not used it for too long starts again
with zeros.
-/

namespace BugChecker.Break

open Recency

/-- A `BpTrace::Get`, and what is written through the reference. -/
structure Access where
  sc : StateChange
  write : BpTrace → BpTrace

def BpTrace.zero : BpTrace := ⟨0, 0⟩

def access (ts : List (UInt64 × BpTrace)) (a : Access) : List (UInt64 × BpTrace) :=
  let ts := bpTraceGet a.sc ts
  setCurrentTrace (a.write (currentTrace ts)) ts

def threads (past : List Access) : List UInt64 := past.map (·.sc.thread)

/-- What a thread wrote with its last access, the last one first: it was given what it had written
before if it was held, and else zeros. -/
def lastWritten (room : Nat) : List Access → UInt64 → BpTrace
  | [], _ => .zero
  | a :: past, t =>
    if a.sc.thread = t then
      a.write (if Held room (threads past) t then lastWritten room past t else .zero)
    else lastWritten room past t

/-- The entries for the threads that used it last, and unused ones behind them. -/
def recentTraces (room : Nat) (past : List Access) : List (UInt64 × BpTrace) :=
  ((recent (threads past)).take room).map fun t => (t, lastWritten room past t)

-- ---------------------------------------------------------------------------
-- One access
-- ---------------------------------------------------------------------------

theorem bpTraceGet_of_mem (sc : StateChange) {front back : List (UInt64 × BpTrace)} (b : BpTrace)
    (h : ∀ e ∈ front, e.1 ≠ sc.thread) :
    bpTraceGet sc (front ++ (sc.thread, b) :: back) = (sc.thread, b) :: (front ++ back) := by
  have hindex : (front ++ (sc.thread, b) :: back).findIdx? (·.1 == sc.thread) =
      some front.length := by
    have hnone : front.findIdx? (·.1 == sc.thread) = none :=
      List.findIdx?_eq_none_iff.mpr fun e he => beq_eq_false_iff_ne.mpr (h e he)
    rw [List.findIdx?_append, hnone, List.findIdx?_cons, beq_self_eq_true]
    simp
  rw [bpTraceGet, hindex]
  dsimp only
  rw [List.getD_eq_getElem?_getD, List.getElem?_append_right (Nat.le_refl _), Nat.sub_self,
    List.eraseIdx_append_of_length_le (Nat.le_refl _), Nat.sub_self]
  rfl

theorem bpTraceGet_of_not_mem (sc : StateChange) {ts : List (UInt64 × BpTrace)}
    (h : ∀ e ∈ ts, e.1 ≠ sc.thread) :
    bpTraceGet sc ts = resize ((sc.thread, .zero) :: ts) sc.tracesDim (0, .zero) := by
  have hnone : ts.findIdx? (·.1 == sc.thread) = none :=
    List.findIdx?_eq_none_iff.mpr fun e he => beq_eq_false_iff_ne.mpr (h e he)
  rw [bpTraceGet, hnone]
  rfl

/-- What the debugger has after some accesses, the last one first. -/
def Holds (room : Nat) (past : List Access) (ts : List (UInt64 × BpTrace)) : Prop :=
  ∃ n, ts = recentTraces room past ++ List.replicate n (0, .zero) ∧
    (past ≠ [] → (recentTraces room past).length + n = room)

theorem fst_of_mem_recentTraces (h : e ∈ recentTraces room past) :
    e.1 ∈ (recent (threads past)).take room := by
  obtain ⟨t, ht, rfl⟩ := List.mem_map.mp h
  exact ht

/-- What an access gets: the entry of its thread, in front of those of the others. -/
abbrev Gets (room : Nat) (past : List Access) (sc : StateChange)
    (ts : List (UInt64 × BpTrace)) : Prop :=
  ∃ rest n, ts =
      (sc.thread, if Held (room + 1) (threads past) sc.thread
        then lastWritten (room + 1) past sc.thread
        else .zero) :: (rest.map (fun t => (t, lastWritten (room + 1) past t)) ++
          List.replicate n (0, .zero)) ∧
    (recent (sc.thread :: threads past)).take (room + 1) = sc.thread :: rest ∧
    rest.length + n = room

section
variable {past : List Access} {ts : List (UInt64 × BpTrace)} {sc : StateChange}

theorem bpTraceGet_of_held (hheld : Held (room + 1) (threads past) sc.thread)
    (h : Holds (room + 1) past ts) :
    Gets room past sc (bpTraceGet sc ts) := by
  obtain ⟨n, rfl, hlength⟩ := h
  have hmem := mem_take_recent_iff.mpr hheld
  obtain ⟨front, back, hsplit⟩ := List.append_of_mem hmem
  have hnodup : (front ++ sc.thread :: back).Nodup :=
    hsplit ▸ (nodup_recent (threads past)).sublist (List.take_sublist _ _)
  have hfront : ∀ e ∈ front.map (fun t => (t, lastWritten (room + 1) past t)), e.1 ≠ sc.thread := by
    rintro e he heq
    obtain ⟨t, ht, rfl⟩ := List.mem_map.mp he
    exact (List.nodup_cons.mp (List.nodup_middle.mp hnodup)).1 (List.mem_append_left _ (heq ▸ ht))
  have hentries : recentTraces (room + 1) past ++ List.replicate n (0, .zero) =
      front.map (fun t => (t, lastWritten (room + 1) past t)) ++
        (sc.thread, lastWritten (room + 1) past sc.thread) ::
          (back.map (fun t => (t, lastWritten (room + 1) past t)) ++
            List.replicate n (0, .zero)) := by
    rw [recentTraces, hsplit, List.map_append, List.map_cons, List.append_assoc, List.cons_append]
  have hne : past ≠ [] := by
    rintro rfl
    cases hheld.1
  refine ⟨front ++ back, n, ?_, ?_, ?_⟩
  · rw [hentries, bpTraceGet_of_mem sc _ hfront, if_pos hheld, List.map_append, List.append_assoc]
  · rw [take_recent_of_mem hmem, hsplit, filter_ne_middle hnodup]
  · have htotal := hlength hne
    rw [recentTraces, hsplit, List.length_map, List.length_append, List.length_cons] at htotal
    rw [List.length_append]
    omega

theorem bpTraceGet_of_not_held (hdim : sc.tracesDim = room + 1)
    (hheld : ¬ Held (room + 1) (threads past) sc.thread) (h : Holds (room + 1) past ts) :
    Gets room past sc (bpTraceGet sc ts) := by
  obtain ⟨n, rfl, -⟩ := h
  have hnot : sc.thread ∉ (recent (threads past)).take (room + 1) := fun hmem =>
    hheld (mem_take_recent_iff.mp hmem)
  have hothers : ∀ e ∈ recentTraces (room + 1) past ++ List.replicate n (0, .zero),
      e.1 ≠ sc.thread := by
    intro e he heq
    rcases List.mem_append.mp he with he | he
    · exact hnot (heq ▸ fst_of_mem_recentTraces he)
    · rw [(List.mem_replicate.mp he).2] at heq
      exact sc.thread_ne_zero heq.symm
  have htake : (recentTraces (room + 1) past).take room =
      ((recent (threads past)).take room).map fun t => (t, lastWritten (room + 1) past t) := by
    rw [recentTraces, ← List.map_take, List.take_take, Nat.min_eq_left (Nat.le_succ room)]
  have hlength : (recentTraces (room + 1) past).length =
      min (room + 1) (recent (threads past)).length := by
    rw [recentTraces, List.length_map, List.length_take]
  refine ⟨(recent (threads past)).take room,
    min (room - (recentTraces (room + 1) past).length) n +
    (room - ((recentTraces (room + 1) past).length + n)),
    ?_, take_recent_of_not_mem hnot, ?_⟩
  · rw [bpTraceGet_of_not_mem sc hothers, hdim, resize, if_neg hheld, List.take_succ_cons,
      List.length_cons, Nat.add_sub_add_right, List.take_append, htake, List.take_replicate,
      List.length_append, List.length_replicate, List.cons_append, List.append_assoc,
      List.replicate_append_replicate]
  · rw [List.length_take]
    omega

theorem bpTraceGet_of_holds (hdim : sc.tracesDim = room + 1) (h : Holds (room + 1) past ts) :
    Gets room past sc (bpTraceGet sc ts) := by
  by_cases hheld : Held (room + 1) (threads past) sc.thread
  · exact bpTraceGet_of_held hheld h
  · exact bpTraceGet_of_not_held hdim hheld h

end

theorem holds_access {past : List Access} {ts : List (UInt64 × BpTrace)} {a : Access}
    (hdim : a.sc.tracesDim = room + 1) (h : Holds (room + 1) past ts) :
    Holds (room + 1) (a :: past) (access ts a) := by
  obtain ⟨rest, n, hget, htake, hlength⟩ := bpTraceGet_of_holds hdim h
  have hrest : a.sc.thread ∉ rest := by
    have hnodup :=
      (nodup_recent (a.sc.thread :: threads past)).sublist (List.take_sublist (room + 1) _)
    rw [htake] at hnodup
    exact (List.nodup_cons.mp hnodup).1
  have hrecent : recentTraces (room + 1) (a :: past) =
      (a.sc.thread, lastWritten (room + 1) (a :: past) a.sc.thread) ::
        rest.map fun t => (t, lastWritten (room + 1) past t) := by
    have hthreads : threads (a :: past) = a.sc.thread :: threads past := rfl
    rw [recentTraces, hthreads, htake, List.map_cons]
    congr 1
    refine List.map_congr_left fun t ht => ?_
    have hne : ¬ a.sc.thread = t := fun heq => hrest (heq ▸ ht)
    rw [lastWritten, if_neg hne]
  refine ⟨n, ?_, fun _ => ?_⟩
  · rw [access, hget, hrecent, lastWritten, if_pos rfl]
    rfl
  · rw [hrecent, List.length_cons, List.length_map]
    omega

theorem holds_accesses (accesses : List Access) (hdim : ∀ a ∈ accesses, a.sc.tracesDim = room + 1) :
    Holds (room + 1) accesses.reverse (accesses.foldl access []) := by
  induction accesses using List.reverseRecOn with
  | nil => exact ⟨0, rfl, fun hne => absurd rfl hne⟩
  | append_singleton accesses a ih =>
    rw [List.foldl_append, List.reverse_append]
    exact holds_access (hdim a (List.mem_append_right _ List.mem_cons_self))
      (ih fun b hb => hdim b (List.mem_append_left _ hb))

/-- The entries are those of the threads that used it last, in this order and without duplicates,
and an access gets what its thread wrote last, unless that was evicted. -/
theorem bpTraces_recent (p : Nat) (accesses : List Access) (sc : StateChange)
    (hfixed : ∀ a ∈ accesses, a.sc.processors = p) (hsc : sc.processors = p) :
    (∃ n, accesses.foldl access [] =
        ((recent (threads accesses.reverse)).take (3 * p)).map
          (fun t => (t, lastWritten (3 * p) accesses.reverse t)) ++ List.replicate n (0, .zero)) ∧
      ((recent (threads accesses.reverse)).take (3 * p)).Nodup ∧
      (∀ t ∈ (recent (threads accesses.reverse)).take (3 * p), t ≠ 0) ∧
      (bpTraceGet sc (accesses.foldl access [])).head? =
        some (sc.thread, if Held (3 * p) (threads accesses.reverse) sc.thread then
          lastWritten (3 * p) accesses.reverse sc.thread else .zero) := by
  obtain ⟨room, hroom⟩ : ∃ room, 3 * p = room + 1 := by
    refine ⟨3 * p - 1, ?_⟩
    rw [← hsc, StateChange.processors]
    omega
  have hdim : ∀ a ∈ accesses, a.sc.tracesDim = room + 1 := fun a ha => by
    rw [← hroom, ← hfixed a ha]
    rfl
  have hscDim : sc.tracesDim = room + 1 := by
    rw [← hroom, ← hsc]
    rfl
  have hholds := holds_accesses accesses hdim
  obtain ⟨rest, m, hget, -⟩ := bpTraceGet_of_holds hscDim hholds
  obtain ⟨n, hentries, -⟩ := hholds
  rw [hroom]
  refine ⟨⟨n, hentries⟩, (nodup_recent _).sublist (List.take_sublist _ _), fun t ht => ?_, ?_⟩
  · obtain ⟨a, -, rfl⟩ := List.mem_map.mp (mem_recent.mp (List.mem_of_mem_take ht))
    exact a.sc.thread_ne_zero
  · rw [hget, List.head?_cons]

def oneProcessor (thread : UInt64) (h : thread ≠ 0) : StateChange where
  thread := thread
  processor := 0
  numberProcessors := 1
  exception := .singleStep
  int3 := false
  pc := 0x1000
  eprocess := 0
  disasm _ := none
  evalWhen _ pc := (none, pc)
  thread_ne_zero := h

/-- Two threads write, and the first one comes again. -/
theorem bpTraces_two :
    let accesses : List Access :=
      [⟨oneProcessor 16 (by decide), fun b => { b with addr := 5 }⟩,
        ⟨oneProcessor 32 (by decide), id⟩]
    let sc := oneProcessor 16 (by decide)
    (∃ n, accesses.foldl access [] =
        ((recent (threads accesses.reverse)).take (3 * 1)).map
          (fun t => (t, lastWritten (3 * 1) accesses.reverse t)) ++ List.replicate n (0, .zero)) ∧
      ((recent (threads accesses.reverse)).take (3 * 1)).Nodup ∧
      (∀ t ∈ (recent (threads accesses.reverse)).take (3 * 1), t ≠ 0) ∧
      (bpTraceGet sc (accesses.foldl access [])).head? =
        some (sc.thread, if Held (3 * 1) (threads accesses.reverse) sc.thread then
          lastWritten (3 * 1) accesses.reverse sc.thread else .zero) :=
  bpTraces_recent 1 _ _ (List.forall_mem_cons.mpr ⟨rfl,
    List.forall_mem_cons.mpr ⟨rfl, fun _ h => by cases h⟩⟩) rfl

end BugChecker.Break
