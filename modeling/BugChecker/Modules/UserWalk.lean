import BugChecker.Lib.Circular
import BugChecker.Modules.Recorded
import Mathlib.Data.Fintype.EquivFin

/-!
# The end of a walk

`EnumUserModules` follows the loader's list of a process until it comes back to
the first entry. The process can write its list, and nothing else ends a walk
along links that can all be read.
-/

namespace BugChecker.Modules

open Circular

section
variable (userProbeAddress : UInt64) (m : UserMemory) (f : LdrFields)

def firstEntry (peb : UInt64) : Option UInt64 :=
  if peb = 0 then none
  else do
    let ldr ← readPointer userProbeAddress m f (peb + f.ldr)
    readPointer userProbeAddress m f (ldr + f.inLoadOrderModuleList + f.flink)

def nextEntry (entry : UInt64) : Option UInt64 := do
  let _ ← readEntry userProbeAddress m f entry
  let next ← readPointer userProbeAddress m f (entry + f.inLoadOrderLinks + f.flink)
  if next = 0 then none else some next

def calls (entries : List UInt64) : List (UInt64 × LdrModule) :=
  entries.filterMap fun entry => (readEntry userProbeAddress m f entry).join.map (entry, ·)

/-- The calls for a list, if it has no more entries than the turns. -/
def listCalls (turns : Nat) (peb : UInt64) : Option (List (UInt64 × LdrModule)) :=
  match firstEntry userProbeAddress m f peb with
  | none => some []
  | some first => (Circular.walk (nextEntry userProbeAddress m f) first turns first).map
    (calls userProbeAddress m f)

/-- The entries of a list do not lead into a cycle that the first one is not on. -/
def Closes (peb : UInt64) : Prop :=
  ∀ first, firstEntry userProbeAddress m f peb = some first →
    ¬ RunsIntoCycle (nextEntry userProbeAddress m f) first

-- ---------------------------------------------------------------------------
-- One list
-- ---------------------------------------------------------------------------

variable {userProbeAddress m f}

theorem calls_cons (entry : UInt64) (entries : List UInt64) :
    (calls userProbeAddress m f (entry :: entries)).map Prod.snd =
      (readEntry userProbeAddress m f entry).join.toList ++
      (calls userProbeAddress m f entries).map Prod.snd := by
  unfold calls
  rw [List.filterMap_cons]
  cases (readEntry userProbeAddress m f entry).join <;> rfl

theorem enumEntries_eq (first : UInt64) (turns : Nat) (entry : UInt64) :
    enumEntries userProbeAddress m f first turns entry =
      (Circular.walk (nextEntry userProbeAddress m f) first turns entry).map fun entries =>
        (calls userProbeAddress m f entries).map Prod.snd := by
  induction turns generalizing entry with
  | zero => rfl
  | succ turns ih =>
    rw [enumEntries, Circular.walk, nextEntry]
    cases hread : readEntry userProbeAddress m f entry with
    | none => simp [calls, hread]
    | some mod =>
      have hlast : some mod.toList = some ((calls userProbeAddress m f [entry]).map Prod.snd) := by
        rw [calls_cons, hread]
        exact congrArg some (List.append_nil _).symm
      cases hnext : readPointer userProbeAddress m f (entry + f.inLoadOrderLinks + f.flink) with
      | none => exact hlast
      | some next =>
        dsimp only [Option.bind_eq_bind, Option.bind_some]
        by_cases hzero : next = 0
        · rw [if_pos hzero, if_neg fun h => h.1 hzero]
          exact hlast
        · rw [if_neg hzero]
          dsimp only
          by_cases hfirst : next = first
          · rw [if_pos hfirst, if_neg fun h => h.2 hfirst]
            exact hlast
          · rw [if_neg hfirst, if_pos ⟨hzero, hfirst⟩, ih, Option.map_map, Option.map_map]
            congr 1
            funext entries
            rw [Function.comp_apply, Function.comp_apply, calls_cons, hread]
            rfl

theorem enumList_eq (turns : Nat) (peb : UInt64) :
    enumList userProbeAddress m f turns peb =
      (listCalls userProbeAddress m f turns peb).map (·.map Prod.snd) := by
  rw [enumList, listCalls, firstEntry]
  by_cases hpeb : peb = 0
  · rw [if_pos hpeb, if_pos hpeb]
    rfl
  · rw [if_neg hpeb, if_neg hpeb]
    cases (do
      let ldr ← readPointer userProbeAddress m f (peb + f.ldr)
      readPointer userProbeAddress m f (ldr + f.inLoadOrderModuleList + f.flink)) with
    | none => rfl
    | some first =>
      dsimp only
      rw [enumEntries_eq, Option.map_map]
      rfl

theorem calls_sublist (entries : List UInt64) :
    ((calls userProbeAddress m f entries).map Prod.fst).Sublist entries := by
  induction entries with
  | nil => exact List.Sublist.refl []
  | cons entry entries ih =>
    unfold calls at ih ⊢
    rw [List.filterMap_cons]
    cases (readEntry userProbeAddress m f entry).join with
    | none => exact ih.cons entry
    | some mod => exact ih.cons_cons entry

theorem listCalls_nodup (h : listCalls userProbeAddress m f turns peb = some cs) :
    (cs.map Prod.fst).Nodup := by
  unfold listCalls at h
  cases hfirst : firstEntry userProbeAddress m f peb with
  | none =>
    rw [hfirst] at h
    cases h
    exact List.nodup_nil
  | some first =>
    rw [hfirst] at h
    obtain ⟨entries, hwalk, rfl⟩ := Option.map_eq_some_iff.mp h
    exact (nodup_of_walk hwalk).sublist (calls_sublist entries)

theorem listCalls_mono (h : listCalls userProbeAddress m f turns peb = some cs)
    (hle : turns ≤ more) :
    listCalls userProbeAddress m f more peb = some cs := by
  unfold listCalls at h ⊢
  cases hfirst : firstEntry userProbeAddress m f peb with
  | none =>
    rw [hfirst] at h
    exact h
  | some first =>
    rw [hfirst] at h
    obtain ⟨entries, hwalk, rfl⟩ := Option.map_eq_some_iff.mp h
    dsimp only
    rw [walk_mono hwalk hle]
    rfl

theorem finite_addresses : Finite UInt64 :=
  Finite.of_injective UInt64.toFin fun _ _ h => UInt64.toFin_inj.mp h

theorem exists_listCalls_iff :
    (∃ turns cs, listCalls userProbeAddress m f turns peb = some cs) ↔
    Closes userProbeAddress m f peb := by
  have := finite_addresses
  unfold listCalls Closes
  cases firstEntry userProbeAddress m f peb with
  | none => exact iff_of_true ⟨0, [], rfl⟩ fun _ hfirst => by cases hfirst
  | some first =>
    dsimp only
    have hall : (∀ first', some first = some first' →
        ¬ RunsIntoCycle (nextEntry userProbeAddress m f) first') ↔
        ¬ RunsIntoCycle (nextEntry userProbeAddress m f) first :=
      ⟨fun h => h first rfl, fun h _ heq => Option.some.inj heq ▸ h⟩
    rw [hall, ← exists_walk_iff]
    constructor
    · rintro ⟨turns, cs, h⟩
      obtain ⟨entries, hwalk, -⟩ := Option.map_eq_some_iff.mp h
      exact ⟨turns, entries, hwalk⟩
    · rintro ⟨turns, entries, hwalk⟩
      exact ⟨turns, calls userProbeAddress m f entries,
        Option.map_eq_some_iff.mpr ⟨entries, hwalk, rfl⟩⟩

end

-- ---------------------------------------------------------------------------
-- Both lists
-- ---------------------------------------------------------------------------

section
variable (userProbeAddress : UInt64) (native wow64 : LdrFields)

/-- The walk ends, and no entry of a list has two calls. -/
def EndsOnce (w : Walk) : Prop :=
  ∃ turns nativeCalls wow64Calls,
    listCalls userProbeAddress w.memory native turns w.peb = some nativeCalls ∧
    listCalls userProbeAddress w.memory wow64 turns w.wow64Peb = some wow64Calls ∧
    enumUserModules userProbeAddress native wow64 turns w =
      some (nativeCalls.map Prod.snd ++ wow64Calls.map Prod.snd) ∧
    (nativeCalls.map Prod.fst).Nodup ∧ (wow64Calls.map Prod.fst).Nodup

theorem endsOnce_iff (w : Walk) : EndsOnce userProbeAddress native wow64 w ↔
    Closes userProbeAddress w.memory native w.peb ∧
    Closes userProbeAddress w.memory wow64 w.wow64Peb := by
  rw [← exists_listCalls_iff, ← exists_listCalls_iff]
  constructor
  · rintro ⟨turns, nativeCalls, wow64Calls, hnative, hwow64, -⟩
    exact ⟨⟨turns, nativeCalls, hnative⟩, ⟨turns, wow64Calls, hwow64⟩⟩
  · rintro ⟨⟨turns, nativeCalls, hnative⟩, ⟨turns', wow64Calls, hwow64⟩⟩
    have hnative := listCalls_mono hnative (Nat.le_max_left turns turns')
    have hwow64 := listCalls_mono hwow64 (Nat.le_max_right turns turns')
    refine ⟨max turns turns', nativeCalls, wow64Calls, hnative, hwow64, ?_, listCalls_nodup hnative,
      listCalls_nodup hwow64⟩
    rw [enumUserModules, enumList_eq, enumList_eq, hnative, hwow64]
    rfl

end

/-- The second entry is linked to the third one, and that one to the second. -/
def strayCycle : Walk where
  memory := {
    read64 := fun a =>
      if a = 0x5018 then some 0x6000
      else if a = 0x6010 then some 0x7000
      else if a = 0x7000 then some 0x8000
      else if a = 0x8000 then some 0x9000
      else if a = 0x9000 then some 0x8000
      else some 0
    read32 := fun _ => some 0
    read16 := fun _ => some 0 }
  peb := 0x5000
  wow64Peb := 0

theorem strayCycle_not_closes :
    ¬ Closes 0x7FFFFFFF0000 strayCycle.memory amd64Fields strayCycle.peb := by
  intro h
  have hfirst : firstEntry 0x7FFFFFFF0000 strayCycle.memory amd64Fields strayCycle.peb =
      some 0x7000 := by decide
  have hlink : ∀ x y, nextEntry 0x7FFFFFFF0000 strayCycle.memory amd64Fields x = some y →
      y ≠ 0x7000 →
      Link (nextEntry 0x7FFFFFFF0000 strayCycle.memory amd64Fields) 0x7000 x y := fun _ _ h hne =>
        ⟨h, hne⟩
  exact h _ hfirst ⟨0x8000, .single (hlink _ _ (by decide) (by decide)),
    .head (hlink _ 0x9000 (by decide) (by decide)) (.single (hlink _ _ (by decide) (by decide)))⟩

/-- The walk does not come back to the first entry. -/
theorem strayCycle_endless :
    (∀ turns, enumUserModules 0x7FFFFFFF0000 amd64Fields amd64Fields turns strayCycle = none) ∧
    ¬ EndsOnce 0x7FFFFFFF0000 amd64Fields amd64Fields strayCycle := by
  have hnone : ∀ turns,
      listCalls 0x7FFFFFFF0000 strayCycle.memory amd64Fields turns strayCycle.peb = none := by
    intro turns
    refine Option.eq_none_iff_forall_ne_some.mpr fun cs hcs => ?_
    exact strayCycle_not_closes (exists_listCalls_iff.mp ⟨turns, cs, hcs⟩)
  refine ⟨fun turns => ?_, ?_⟩
  · rw [enumUserModules, enumList_eq, hnone]
    rfl
  · rintro ⟨turns, cs, -, hcs, -⟩
    rw [hnone] at hcs
    cases hcs

end BugChecker.Modules
