import BugChecker.Lib.Bytes
import BugChecker.Lib.Runs
import BugChecker.Step.Context

/-!
# Patched functions

A `FunctionPatch` puts a `JMP` over the first five bytes of a function and puts
the bytes back when it is deleted. `PatchKdCom` has one for each function of the
debugger transport.
-/

namespace BugChecker.Patch

open Bytes

section
variable (build : Build)

structure FunctionPatch where
  previousBytes : List UInt8
  address : Option Nat

/-- Memory and the patches, by the variables that have them. -/
structure World where
  mem : Memory
  patches : Nat → FunctionPatch

/-- The displacement, an `INT_PTR`. -/
def off (func dest : Nat) : Int := Int.bmod (dest - func - 5) (2 ^ build.pointerBits)

/-- The bytes of a `JMP` with a displacement of 32 bits. -/
def jmp (off : Int) : List UInt8 := 0xE9 :: leBytes 4 (off % 2 ^ 32).toNat

/-- `_PatchFunction`. -/
def patchFunction (m : Memory) (func dest : Nat) : Option Memory :=
  if build = .x64 ∧ (off build func dest > 0x7FFFFFFF ∨ off build func dest < -0x7FFFFFFF) then none
  else some (store m func (jmp (off build func dest)))

/-- `Patch`. The bytes are kept even if the function is not patched then. -/
def patch (w : World) (i func dest : Nat) : World × Bool :=
  if ((w.patches i).address).isSome then (w, false)
  else
    let previousBytes := load w.mem func 5
    match patchFunction build w.mem func dest with
    | none => ({ w with patches := Function.update w.patches i ⟨previousBytes, none⟩ }, false)
    | some mem => (⟨mem, Function.update w.patches i ⟨previousBytes, some func⟩⟩, true)

def delete (w : World) (i : Nat) : World where
  mem :=
    match (w.patches i).address with
    | none => w.mem
    | some address => store w.mem address (w.patches i).previousBytes
  patches := Function.update w.patches i ⟨[], none⟩

inductive Op where
  | patch (i func dest : Nat)
  | delete (i : Nat)

def World.step (w : World) : Op → World
  | .patch i func dest => (patch build w i func dest).1
  | .delete i => delete w i

def World.start (m : Memory) : World := ⟨m, fun _ => ⟨[], none⟩⟩

/-- Where the processor goes on from a `JMP`. -/
def target (m : Memory) (func : Nat) : Option Nat :=
  if m func = 0xE9 then
    some ((func + 5 +
      Int.bmod (leNat (load m (func + 1) 4)) (2 ^ 32)) % 2 ^ build.pointerBits).toNat
  else none

-- ---------------------------------------------------------------------------
-- Hooks
-- ---------------------------------------------------------------------------

/-- The functions that are to be elsewhere, each with the place. -/
abbrev Hooks := Nat → Option (Nat × Nat)

/-- A hook is made where there is none yet and the place is not too far away. -/
def Hooks.step (hooks : Hooks) : Op → Hooks
  | .patch i func dest =>
    if (hooks i).isSome ∨
        (build = .x64 ∧ (off build func dest > 0x7FFFFFFF ∨ off build func dest < -0x7FFFFFFF))
          then hooks
    else Function.update hooks i (some (func, dest))
  | .delete i => Function.update hooks i none

def Apart (a b : Nat) : Prop := a + 5 ≤ b ∨ b + 5 ≤ a

/-- The function is in memory, and none of its first bytes is of another one that is patched. -/
def Fits (hooks : Hooks) : Op → Prop
  | .patch i func dest =>
    func + 5 ≤ 2 ^ build.pointerBits ∧ dest < 2 ^ build.pointerBits ∧
      ∀ j func' dest', j ≠ i → hooks j = some (func', dest') → Apart func func'
  | .delete _ => True

/-- What the patches make of the memory from before. -/
structure Installed (m : Memory) (w : World) (hooks : Hooks) : Prop where
  address : ∀ i, (w.patches i).address = (hooks i).map Prod.fst
  previous : ∀ i func dest, hooks i = some (func, dest) →
    (w.patches i).previousBytes = load m func 5
  jump : ∀ i func dest, hooks i = some (func, dest) → Holds w.mem func (jmp (off build func dest))
  other : ∀ x, (∀ i func dest, hooks i = some (func, dest) → x < func ∨ func + 5 ≤ x) →
    w.mem x = m x
  apart : ∀ i j func dest func' dest', hooks i = some (func, dest) → hooks j = some (func', dest') →
    i ≠ j → Apart func func'
  inRange : ∀ i func dest, hooks i = some (func, dest) →
    func + 5 ≤ 2 ^ build.pointerBits ∧ dest < 2 ^ build.pointerBits ∧
      ¬ (build = .x64 ∧ (off build func dest > 0x7FFFFFFF ∨ off build func dest < -0x7FFFFFFF))

end

-- ---------------------------------------------------------------------------
-- One step
-- ---------------------------------------------------------------------------

section
variable {build : Build} {m : Memory} {w : World} {hooks : Hooks}

@[simp] theorem length_jmp : (jmp d).length = 5 := by simp [jmp]

theorem Installed.start (build : Build) (m : Memory) :
    Installed build m (World.start m) (fun _ => none) where
  address _ := rfl
  previous _ _ _ h := by cases h
  jump _ _ _ h := by cases h
  other _ _ := rfl
  apart _ _ _ _ _ _ h := by cases h
  inRange _ _ _ h := by cases h

theorem hook_update {v : Option (Nat × Nat)} (h : Function.update hooks i v j = some (func, dest)) :
    (j = i ∧ v = some (func, dest)) ∨ (j ≠ i ∧ hooks j = some (func, dest)) := by
  by_cases hj : j = i
  · subst hj
    rw [Function.update_self] at h
    exact .inl ⟨rfl, h⟩
  · rw [Function.update_of_ne hj] at h
    exact .inr ⟨hj, h⟩

theorem holds_store_of_apart (h : Apart func func') (hlen : bytes.length = 5)
    (hlen' : bytes'.length = 5)
    (hholds : Holds mem func' bytes') : Holds (store mem func bytes) func' bytes' := by
  rw [Holds, load_store_of_disjoint]
  · exact hholds
  · unfold Apart at h
    omega

theorem store_load_of_mem (hlo : pos ≤ x) (hhi : x < pos + n) :
    store m' pos (load m pos n) x = m x := by
  rw [store, if_pos hlo, load, List.getElem?_map, List.getElem?_range (by omega), Option.map_some,
    Option.getD_some, Nat.add_sub_cancel' hlo]

theorem Installed.patch (h : Installed build m w hooks)
    (hfits : Fits build hooks (.patch i func dest)) :
    Installed build m (w.step build
      (.patch i func dest)) (hooks.step build (.patch i func dest)) := by
  obtain ⟨hfunc, hdest, hapart⟩ := hfits
  have haddr : (w.patches i).address.isSome = (hooks i).isSome :=
    by rw [h.address i, Option.isSome_map]
  simp only [World.step, Hooks.step, Patch.patch, haddr]
  by_cases hsome : (hooks i).isSome = true
  · rw [if_pos hsome, if_pos (.inl hsome)]
    exact h
  have hnone : hooks i = none := by simpa using hsome
  simp only [hsome, if_false, Bool.false_eq_true, false_or, patchFunction]
  by_cases hfar : build = .x64 ∧
      (off build func dest > 0x7FFFFFFF ∨ off build func dest < -0x7FFFFFFF)
  · rw [if_pos hfar, if_pos hfar]
    refine { h with address := fun j => ?_, previous := fun j func' dest' hj => ?_ }
    · by_cases hji : j = i
      · subst hji
        simp [hnone]
      · simpa [Function.update_of_ne hji] using h.address j
    · have hji : j ≠ i := fun hji => by rw [hji, hnone] at hj; cases hj
      simpa [Function.update_of_ne hji] using h.previous j func' dest' hj
  rw [if_neg hfar, if_neg hfar]
  dsimp only
  -- the bytes that are kept are still those from before
  have hload : load w.mem func 5 = load m func 5 := by
    apply load_congr
    intro x hlo hhi
    refine h.other x fun j func' dest' hj => ?_
    have hji : j ≠ i := fun hji => by rw [hji, hnone] at hj; cases hj
    have := hapart j func' dest' hji hj
    unfold Apart at this
    omega
  refine ⟨fun j => ?_, fun j func' dest' hj => ?_, fun j func' dest' hj => ?_, fun x hx => ?_,
    fun j k func₁ dest₁ func₂ dest₂ hj hk hjk => ?_, fun j func' dest' hj => ?_⟩
  · by_cases hji : j = i
    · subst hji
      simp
    · simpa [Function.update_of_ne hji] using h.address j
  · rcases hook_update hj with ⟨rfl, heq⟩ | ⟨hji, hj⟩
    · cases heq
      simpa using hload
    · simpa [Function.update_of_ne hji] using h.previous j func' dest' hj
  · rcases hook_update hj with ⟨rfl, heq⟩ | ⟨hji, hj⟩
    · cases heq
      exact holds_store
    · exact holds_store_of_apart
        (hapart j func' dest' hji hj) length_jmp length_jmp (h.jump j func' dest' hj)
  · have hi := hx i func dest (Function.update_self i _ hooks)
    dsimp only
    rw [store_of_not_mem (by rw [length_jmp]; exact hi)]
    refine h.other x fun j func' dest' hj => hx j func' dest' ?_
    have hji : j ≠ i := fun hji => by rw [hji, hnone] at hj; cases hj
    rw [Function.update_of_ne hji, hj]
  · rcases hook_update hj with ⟨rfl, heq⟩ | ⟨hji, hj'⟩
    · cases heq
      rcases hook_update hk with ⟨rfl, -⟩ | ⟨hki, hk'⟩
      · exact absurd rfl hjk
      · exact hapart k func₂ dest₂ hki hk'
    · rcases hook_update hk with ⟨rfl, heq⟩ | ⟨-, hk'⟩
      · cases heq
        exact (hapart j func₁ dest₁ hji hj').symm
      · exact h.apart j k func₁ dest₁ func₂ dest₂ hj' hk' hjk
  · rcases hook_update hj with ⟨rfl, heq⟩ | ⟨-, hj⟩
    · cases heq
      exact ⟨hfunc, hdest, hfar⟩
    · exact h.inRange j func' dest' hj

theorem Installed.delete (h : Installed build m w hooks) (i : Nat) :
    Installed build m (w.step build (.delete i)) (hooks.step build (.delete i)) := by
  simp only [World.step, Hooks.step, Patch.delete]
  have hpatches : ∀ j, ((Function.update w.patches i ⟨[], none⟩) j).address =
      ((Function.update hooks i none) j).map Prod.fst := fun j => by
    by_cases hji : j = i
    · subst hji
      simp
    · simpa [Function.update_of_ne hji] using h.address j
  have hprevious : ∀ j func dest, Function.update hooks i none j = some (func, dest) →
      ((Function.update w.patches i ⟨[], none⟩) j).previousBytes =
      load m func 5 := fun j func dest hj => by
    rcases hook_update hj with ⟨-, heq⟩ | ⟨hji, hj⟩
    · cases heq
    · simpa [Function.update_of_ne hji] using h.previous j func dest hj
  have hapart : ∀ j k func dest func' dest', Function.update hooks i none j = some (func, dest) →
      Function.update hooks i none k = some (func', dest') → j ≠ k → Apart func func' := by
    intro j k func dest func' dest' hj hk hjk
    rcases hook_update hj with ⟨-, heq⟩ | ⟨hji, hj⟩
    · cases heq
    rcases hook_update hk with ⟨-, heq⟩ | ⟨hki, hk⟩
    · cases heq
    exact h.apart j k func dest func' dest' hj hk hjk
  have hrange : ∀ j func dest, Function.update hooks i none j = some (func, dest) →
      func + 5 ≤ 2 ^ build.pointerBits ∧
      dest < 2 ^ build.pointerBits ∧
        ¬ (build = .x64 ∧ (off build func dest > 0x7FFFFFFF ∨
          off build func dest < -0x7FFFFFFF)) := by
    intro j func dest hj
    rcases hook_update hj with ⟨-, heq⟩ | ⟨hji, hj⟩
    · cases heq
    exact h.inRange j func dest hj
  cases hi : hooks i with
  | none =>
    have haddr : (w.patches i).address = none := by rw [h.address i, hi, Option.map_none]
    rw [haddr]
    refine ⟨hpatches, hprevious, fun j func dest hj => ?_, fun x hx => ?_, hapart, hrange⟩
    · rcases hook_update hj with ⟨-, heq⟩ | ⟨hji, hj⟩
      · cases heq
      · exact h.jump j func dest hj
    · refine h.other x fun j func dest hj => hx j func dest ?_
      have hji : j ≠ i := fun hji => by rw [hji, hi] at hj; cases hj
      rw [Function.update_of_ne hji, hj]
  | some hook =>
    obtain ⟨func, dest⟩ := hook
    have haddr : (w.patches i).address = some func := by rw [h.address i, hi, Option.map_some]
    rw [haddr]
    dsimp only
    rw [h.previous i func dest hi]
    refine ⟨hpatches, hprevious, fun j func' dest' hj => ?_, fun x hx => ?_, hapart, hrange⟩
    · rcases hook_update hj with ⟨-, heq⟩ | ⟨hji, hj⟩
      · cases heq
      · exact holds_store_of_apart
          (h.apart i j func dest func' dest' hi hj (Ne.symm hji)) (length_load)
          length_jmp (h.jump j func' dest' hj)
    · dsimp only
      by_cases hmem : x < func ∨ func + 5 ≤ x
      · rw [store_of_not_mem (by rw [length_load]; exact hmem)]
        refine h.other x fun j func' dest' hj => ?_
        by_cases hji : j = i
        · subst hji
          rw [hi] at hj
          cases hj
          exact hmem
        · exact hx j func' dest' (by rw [Function.update_of_ne hji, hj])
      · -- this byte comes back from those that were kept
        exact store_load_of_mem (by omega) (by omega)

theorem Installed.step (h : Installed build m w hooks) (hop : Fits build hooks op) :
    Installed build m (w.step build op) (hooks.step build op) := by
  cases op with
  | patch i func dest => exact h.patch hop
  | delete i => exact h.delete i

theorem Installed.run (h : Installed build m w hooks) (ops : List Op)
    (hops : Runs.Each (Hooks.step build) (Fits build) hooks ops) :
    Installed build m (ops.foldl (World.step build) w) (ops.foldl (Hooks.step build) hooks) := by
  induction ops generalizing w hooks with
  | nil => exact h
  | cons op ops ih => exact ih (h.step hops.1) hops.2

-- ---------------------------------------------------------------------------
-- The jumps
-- ---------------------------------------------------------------------------

theorem load_jmp (h : Holds m func (jmp d)) : m func = 0xE9 ∧
    load m (func + 1) 4 = leBytes 4 (d % 2 ^ 32).toNat := by
  rw [jmp, holds_cons, Holds, length_leBytes] at h
  exact h

theorem target_of_holds (hfunc : func + 5 ≤ 2 ^ build.pointerBits)
    (hdest : dest < 2 ^ build.pointerBits)
    (hnear : ¬ (build = .x64 ∧ (off build func dest > 0x7FFFFFFF ∨
      off build func dest < -0x7FFFFFFF)))
    (h : Holds m func (jmp (off build func dest))) : target build m func = some dest := by
  obtain ⟨hop, hrel⟩ := load_jmp h
  rw [target, if_pos hop, hrel, leNat_leBytes (by omega),
    Int.toNat_of_nonneg (Int.emod_nonneg _ (by decide))]
  refine congrArg some ?_
  cases build with
  | x86 =>
    simp only [off, Build.pointerBits, Int.bmod_def] at hfunc hdest ⊢
    omega
  | x64 =>
    simp only [off, Build.pointerBits, true_and, not_or, not_lt, gt_iff_lt,
      Int.bmod_def] at hfunc hdest hnear ⊢
    omega

/-- In every run of patches whose functions do not overlap, each function that is patched jumps to
its new place and all other memory is as before, in whatever order the patches are deleted. -/
theorem run_patches (build : Build) (m : Memory) (ops : List Op)
    (hops : Runs.Each (Hooks.step build) (Fits build) (fun _ => none) ops) :
    let w := ops.foldl (World.step build) (World.start m)
    let hooks := ops.foldl (Hooks.step build) (fun _ => none)
    (∀ i func dest, hooks i = some (func, dest) → target build w.mem func = some dest) ∧
      ∀ x, (∀ i func dest, hooks i = some (func, dest) → x < func ∨ func + 5 ≤ x) →
        w.mem x = m x := by
  have h := (Installed.start build m).run ops hops
  refine ⟨fun i func dest hi => ?_, h.other⟩
  obtain ⟨hfunc, hdest, hnear⟩ := h.inRange i func dest hi
  exact target_of_holds hfunc hdest hnear (h.jump i func dest hi)

/-- Both functions of the transport are patched, and the one that was first is put back first. -/
def kdComOps : List Op :=
  [.patch 0 0x1000 0x90000, .patch 1 0x2000 0xA0000, .delete 0, .delete 1]

theorem fits_kdComOps : Runs.Each (Hooks.step .x64) (Fits .x64) (fun _ => none) kdComOps := by
  have hhooks : ∀ j func dest, Hooks.step .x64 (fun _ => none) (.patch 0 0x1000 0x90000) j =
      some (func, dest) →
      func = 0x1000 := by
    intro j func dest hj
    rw [Hooks.step, if_neg (by decide)] at hj
    rcases hook_update hj with ⟨-, heq⟩ | ⟨-, hj⟩
    · cases heq
      rfl
    · cases hj
  refine ⟨⟨by decide, by decide, fun _ _ _ _ hj => by cases hj⟩,
    ⟨by decide, by decide, fun j func dest _ hj => ?_⟩,
    trivial, trivial, trivial⟩
  rw [hhooks j func dest hj]
  exact .inr (by decide)

theorem run_patches_kdCom :
    let w := kdComOps.foldl (World.step .x64) (World.start fun _ => 0x90)
    let hooks := kdComOps.foldl (Hooks.step .x64) (fun _ => none)
    (∀ i func dest, hooks i = some (func, dest) → target .x64 w.mem func = some dest) ∧
      ∀ x, (∀ i func dest, hooks i = some (func, dest) → x < func ∨ func + 5 ≤ x) →
        w.mem x = 0x90 :=
  run_patches .x64 (fun _ => 0x90) kdComOps fits_kdComOps

end

end BugChecker.Patch
