import BugChecker.Lib.Runs
import Mathlib.Data.List.Nodup

/-!
# The recorded modules of the processes

`NtModules` has the modules of each process. A notification of a loaded image
adds one, and takes out those that a walk of the loader's list of the process
does not report. The walk reads memory that the process can change, and stops
where it cannot be read.
-/

namespace BugChecker.Modules

-- ---------------------------------------------------------------------------
-- EnumUserModules
-- ---------------------------------------------------------------------------

/-- What can be read of a process; a failed read raises an exception. -/
structure UserMemory where
  read64 : UInt64 → Option UInt64
  read32 : UInt64 → Option UInt32
  read16 : UInt64 → Option UInt16

/-- The field offsets for native or for WoW64 modules. -/
structure LdrFields where
  is64 : Bool
  ldr : UInt64
  flink : UInt64
  length : UInt64
  buffer : UInt64
  inLoadOrderModuleList : UInt64
  inLoadOrderLinks : UInt64
  dllBase : UInt64
  sizeOfImage : UInt64
  fullDllName : UInt64

/-- A module as the callback gets it. -/
structure LdrModule where
  dllBase : UInt64
  sizeOfImage : UInt32
  fullDllName : List UInt16

section
variable (userProbeAddress : UInt64)

def probe (addr : UInt64) : UInt64 := if addr < userProbeAddress then addr else 0

def readPointer (m : UserMemory) (f : LdrFields) (addr : UInt64) : Option UInt64 :=
  (if f.is64 then m.read64 addr else (m.read32 addr).map (·.toUInt64)).map (probe userProbeAddress)

/-- A character of a name that is not ASCII is shown as a question mark. -/
def asciiChar (c : UInt16) : UInt16 := if c < 128 then c else 0x3F

def readEntry (m : UserMemory) (f : LdrFields) (entry : UInt64) : Option (Option LdrModule) := do
  let dllBase ← readPointer userProbeAddress m f (entry + f.dllBase)
  if dllBase = 0 then return none
  let sizeOfImage ← m.read32 (entry + f.sizeOfImage)
  let length ← m.read16 (entry + f.fullDllName + f.length)
  let length := length.toNat / 2
  let buffer ← readPointer userProbeAddress m f (entry + f.fullDllName + f.buffer)
  let fullDllName ←
    if length < 256 then
      (List.range length).mapM fun i => (m.read16 (buffer + 2 * UInt64.ofNat i)).map asciiChar
    else some []
  return some ⟨dllBase, sizeOfImage, fullDllName⟩

/-- The entries from `entry` on, up to the first again, a null pointer or an exception. After
`turns` entries the answer is left open: the list need not come back to its first entry. -/
def enumEntries (m : UserMemory) (f : LdrFields) (first : UInt64) :
    Nat → UInt64 → Option (List LdrModule)
  | 0, _ => none
  | turns + 1, entry =>
    match readEntry userProbeAddress m f entry with
    | none => some []
    | some mod =>
      match readPointer userProbeAddress m f (entry + f.inLoadOrderLinks + f.flink) with
      | none => some mod.toList
      | some next =>
        if next ≠ 0 ∧ next ≠ first then (enumEntries m f first turns next).map (mod.toList ++ ·)
        else some mod.toList

def enumList (m : UserMemory) (f : LdrFields) (turns : Nat) (peb : UInt64) :
    Option (List LdrModule) :=
  if peb = 0 then some []
  else
    match (do
      let ldr ← readPointer userProbeAddress m f (peb + f.ldr)
      readPointer userProbeAddress m f (ldr + f.inLoadOrderModuleList + f.flink)) with
    | none => some []
    | some first => enumEntries userProbeAddress m f first turns first

/-- A process at the time of a notification: its memory, and its PEBs, zero if there is none. -/
structure Walk where
  memory : UserMemory
  peb : UInt64
  wow64Peb : UInt64

def enumUserModules (native wow64 : LdrFields) (turns : Nat) (w : Walk) :
    Option (List LdrModule) := do
  let mods ← enumList userProbeAddress w.memory native turns w.peb
  let wow64Mods ← enumList userProbeAddress w.memory wow64 turns w.wow64Peb
  return mods ++ wow64Mods

end

-- ---------------------------------------------------------------------------
-- NtModules
-- ---------------------------------------------------------------------------

structure NtModule where
  dllBase : UInt64
  sizeOfImage : UInt32
  dllName : List UInt8
  pdbGuid : List UInt8
  pdbAge : UInt32
  pdbName : List UInt8
  arch : UInt32
  deriving DecidableEq

abbrev NtModules := List (UInt64 × List NtModule)

/-- The part of a path after its last separator, as much of it as fits. -/
def copyName2 (sz : List UInt8) : List UInt8 :=
  ((sz.reverse.takeWhile fun c => c ≠ 0x5C ∧ c ≠ 0x2F).reverse).take 63

/-- `GetNtModulesByProcess` and a change of what it returns: a process that is not there is added.
-/
def updateProcess (p : UInt64) (change : List NtModule → List NtModule) : NtModules → NtModules
  | [] => [(p, change [])]
  | e :: es => if e.1 = p then (p, change e.2) :: es else e :: updateProcess p change es

/-- What `LoadImageNotifyRoutine` is called with, and finds out on the way. -/
structure LoadedImage where
  processId : UInt64
  process : Option UInt64
  imageBase : UInt64
  imageSize : UInt32
  fullImageName : Option (List UInt16)
  pdbGuid : List UInt8
  pdbAge : UInt32
  pdbName : List UInt8
  arch : UInt32
  walk : Walk

def LoadedImage.fullDllName (im : LoadedImage) : List UInt8 :=
  match im.fullImageName with
  | none => []
  | some name =>
    if 0 < name.length ∧ 2 * name.length < 1024 then
      (name.map fun c => (asciiChar c).toUInt8).takeWhile (· ≠ 0)
    else []

def LoadedImage.ntModule (im : LoadedImage) : NtModule :=
  { dllBase := im.imageBase, sizeOfImage := im.imageSize, dllName := copyName2 im.fullDllName
    pdbGuid := im.pdbGuid, pdbAge := im.pdbAge, pdbName := copyName2 im.pdbName, arch := im.arch }

structure Platform where
  userProbeAddress : UInt64
  native : LdrFields
  wow64 : LdrFields

/-- The process of a notification that passes the checks made before the walk. -/
def LoadedImage.target (pl : Platform) (im : LoadedImage) : Option UInt64 :=
  if im.processId = 0 ∨ im.imageBase = 0 ∨ im.imageBase ≥ pl.userProbeAddress ∨
    im.imageSize = 0 then
    none
  else im.process.filter (· ≠ 0)

/-- There must be the name of the module or that of its symbols. -/
def LoadedImage.named (im : LoadedImage) : Bool := im.fullDllName ≠ [] || im.pdbName ≠ []

/-- The bases that the walk reports, as many as there is room for. -/
def loadedMods (pl : Platform) (turns : Nat) (w : Walk) : Option (List UInt64) :=
  (enumUserModules pl.userProbeAddress pl.native pl.wow64 turns w).map fun mods =>
    (mods.map (·.dllBase)).take 4096

def loadImageNotifyRoutine (pl : Platform) (turns : Nat) (im : LoadedImage) (mods : NtModules) :
    Option NtModules :=
  match im.target pl with
  | none => some mods
  | some p =>
    (loadedMods pl turns im.walk).map fun loaded =>
      if im.named then
        updateProcess p (fun ms => ms.filter (·.dllBase ∈ loaded) ++ [im.ntModule]) mods
      else mods

/-- `CreateProcessNotifyRoutine` for a process that was looked up, or not. The entry is made if it
is not there, and erased. -/
def createProcessNotifyRoutine (processId : UInt64) (process : Option UInt64) (create : Bool)
    (mods : NtModules) : NtModules :=
  if create ∨ processId = 0 then mods
  else
    match process with
    | none => mods
    | some p => if p = 0 then mods else (updateProcess p id mods).eraseP (·.1 = p)

/-- `GetModulesSnapshot`: what the walks of all processes reported, in this order. -/
def getModulesSnapshot (found : List (UInt64 × NtModule)) : NtModules :=
  found.foldl (fun mods (p, m) => updateProcess p (· ++ [m]) mods) []

-- ---------------------------------------------------------------------------
-- What should be recorded
-- ---------------------------------------------------------------------------

/-- The recorded modules, and beside them the bases of the images that were recorded for a process
and are still in it. -/
structure Recording where
  mods : NtModules
  loaded : List (UInt64 × UInt64)

def Recording.start (found : List (UInt64 × NtModule)) : Recording :=
  ⟨getModulesSnapshot found, found.map fun (p, m) => (p, m.dllBase)⟩

inductive Notification where
  | loadImage (im : LoadedImage) (turns : Nat)
  | createProcess (processId : UInt64) (process : Option UInt64) (create : Bool)
  /-- An image goes, of which there is no notification. -/
  | unload (p base : UInt64)

def exited (processId : UInt64) (process : Option UInt64) (create : Bool) : Option UInt64 :=
  if create ∨ processId = 0 then none else process.filter (· ≠ 0)

def LoadedImage.recordedFor (pl : Platform) (im : LoadedImage) : Option UInt64 :=
  if im.named then im.target pl else none

def recordingStep (pl : Platform) (s : Recording) : Notification → Option Recording
  | .loadImage im turns => (loadImageNotifyRoutine pl turns im s.mods).map fun mods =>
    ⟨mods, (im.recordedFor pl).toList.map (·, im.imageBase) ++ s.loaded⟩
  | .createProcess processId process create =>
    some ⟨createProcessNotifyRoutine processId process create s.mods,
      s.loaded.filter fun e => some e.1 ≠ exited processId process create⟩
  | .unload p base => some { s with loaded := s.loaded.filter (· ≠ (p, base)) }

def IsRecorded (mods : NtModules) (p base : UInt64) : Prop :=
  ∃ e ∈ mods, e.1 = p ∧ ∃ m ∈ e.2, m.dllBase = base

/-- The walk of a notification reports every image of the process that is recorded and still in
it. -/
def WalkComplete (pl : Platform) (s : Recording) : Notification → Prop
  | .loadImage im turns => ∀ p ∈ im.recordedFor pl, ∀ loaded ∈ loadedMods pl turns im.walk,
    ∀ e ∈ s.loaded, e.1 = p → e.2 ∈ loaded
  | _ => True

-- ---------------------------------------------------------------------------
-- One entry per process
-- ---------------------------------------------------------------------------

theorem map_fst_updateProcess (mods : NtModules) :
    (updateProcess p change mods).map Prod.fst =
      if p ∈ mods.map Prod.fst then mods.map Prod.fst else mods.map Prod.fst ++ [p] := by
  induction mods with
  | nil => rfl
  | cons e es ih =>
    rw [updateProcess]
    split
    · next heq => simp [heq]
    · next hne =>
      have hne' : p ≠ e.1 := fun h => hne h.symm
      simp only [List.map_cons, ih, List.mem_cons, hne', false_or]
      split
      · rfl
      · rfl

theorem nodup_updateProcess (h : (mods.map Prod.fst).Nodup) :
    ((updateProcess p change mods).map Prod.fst).Nodup := by
  rw [map_fst_updateProcess]
  split
  · exact h
  · next hnot => exact h.append (List.nodup_singleton p) (by simpa using hnot)

theorem isRecorded_updateProcess_of_ne (hne : q ≠ p) (h : IsRecorded mods q base) :
    IsRecorded (updateProcess p change mods) q base := by
  induction mods with
  | nil =>
    obtain ⟨e, he, -⟩ := h
    cases he
  | cons x xs ih =>
    obtain ⟨e, he, rfl, hm⟩ := h
    rw [updateProcess]
    split
    · next heq =>
      rcases List.mem_cons.mp he with rfl | he
      · exact absurd heq hne
      · exact ⟨e, List.mem_cons_of_mem _ he, rfl, hm⟩
    · rcases List.mem_cons.mp he with rfl | he
      · exact ⟨e, List.mem_cons_self, rfl, hm⟩
      · obtain ⟨e', he', hrest⟩ := ih ⟨e, he, rfl, hm⟩
        exact ⟨e', List.mem_cons_of_mem _ he', hrest⟩

theorem isRecorded_updateProcess_new (mods : NtModules)
    (hchange : ∀ ms, ∃ m ∈ change ms, m.dllBase = base) :
    IsRecorded (updateProcess p change mods) p base := by
  induction mods with
  | nil => exact ⟨(p, change []), List.mem_singleton_self _, rfl, hchange []⟩
  | cons x xs ih =>
    rw [updateProcess]
    split
    · exact ⟨(p, change x.2), List.mem_cons_self, rfl, hchange x.2⟩
    · obtain ⟨e', he', hrest⟩ := ih
      exact ⟨e', List.mem_cons_of_mem _ he', hrest⟩

theorem isRecorded_updateProcess_kept (hnodup : (mods.map Prod.fst).Nodup)
    (hchange : ∀ ms, (∃ m ∈ ms, m.dllBase = base) → ∃ m ∈ change ms, m.dllBase = base)
    (h : IsRecorded mods p base) : IsRecorded (updateProcess p change mods) p base := by
  induction mods with
  | nil =>
    obtain ⟨e, he, -⟩ := h
    cases he
  | cons x xs ih =>
    obtain ⟨e, he, rfl, hm⟩ := h
    obtain ⟨hfirst, hnodup⟩ := List.nodup_cons.mp hnodup
    rw [updateProcess]
    split
    · next heq =>
      -- no other entry is that of the process
      rcases List.mem_cons.mp he with rfl | he
      · exact ⟨(e.1, change e.2), List.mem_cons_self, rfl, hchange e.2 hm⟩
      · exact absurd (heq ▸ List.mem_map_of_mem he) hfirst
    · next hne =>
      rcases List.mem_cons.mp he with rfl | he
      · exact absurd rfl hne
      · obtain ⟨e', he', hrest⟩ := ih hnodup ⟨e, he, rfl, hm⟩
        exact ⟨e', List.mem_cons_of_mem _ he', hrest⟩

-- ---------------------------------------------------------------------------
-- What a notification keeps
-- ---------------------------------------------------------------------------

structure Recording.Ok (s : Recording) : Prop where
  nodup : (s.mods.map Prod.fst).Nodup
  recorded : ∀ e ∈ s.loaded, IsRecorded s.mods e.1 e.2

theorem loadImage_nodup (h : (mods.map Prod.fst).Nodup)
    (hs : loadImageNotifyRoutine pl turns im mods = some mods') : (mods'.map Prod.fst).Nodup := by
  unfold loadImageNotifyRoutine at hs
  split at hs
  · obtain rfl := Option.some.inj hs
    exact h
  · obtain ⟨loaded, -, rfl⟩ := Option.map_eq_some_iff.mp hs
    split
    · exact nodup_updateProcess h
    · exact h

theorem loadImage_recorded (h : Recording.Ok s)
    (hwalk : WalkComplete pl s (.loadImage im turns))
    (hs : loadImageNotifyRoutine pl turns im s.mods = some mods') :
    ∀ e ∈ (im.recordedFor pl).toList.map (·, im.imageBase) ++ s.loaded,
      IsRecorded mods' e.1 e.2 := by
  unfold loadImageNotifyRoutine at hs
  split at hs
  · next htarget =>
    obtain rfl := Option.some.inj hs
    have hnone : im.recordedFor pl = none := by
      unfold LoadedImage.recordedFor
      split
      · exact htarget
      · rfl
    rw [hnone]
    exact h.recorded
  · next p htarget =>
    obtain ⟨loaded, hloaded, rfl⟩ := Option.map_eq_some_iff.mp hs
    split
    · next hnamed =>
      have hfor : im.recordedFor pl = some p := by
        rw [LoadedImage.recordedFor, if_pos hnamed, htarget]
      rw [hfor]
      intro e he
      rcases List.mem_append.mp he with hnew | hold
      · obtain rfl : e = (p, im.imageBase) := by simpa using hnew
        exact isRecorded_updateProcess_new s.mods fun ms =>
          ⟨im.ntModule, List.mem_append_right _ (List.mem_singleton_self _), rfl⟩
      · by_cases hp : e.1 = p
        · have hmem : e.2 ∈ loaded := hwalk p hfor loaded hloaded e hold hp
          subst hp
          refine isRecorded_updateProcess_kept h.nodup ?_ (h.recorded e hold)
          rintro ms ⟨m, hm, hbase⟩
          exact ⟨m, List.mem_append_left _ (List.mem_filter.mpr ⟨hm, by simpa [hbase] using hmem⟩),
            hbase⟩
        · exact isRecorded_updateProcess_of_ne hp (h.recorded e hold)
    · next hnamed =>
      have hnone : im.recordedFor pl = none := by rw [LoadedImage.recordedFor, if_neg hnamed]
      rw [hnone]
      exact h.recorded

theorem createProcess_ok (processId : UInt64) (process : Option UInt64) (create : Bool)
    (h : (mods.map Prod.fst).Nodup) :
    ((createProcessNotifyRoutine processId process create mods).map Prod.fst).Nodup ∧
    ∀ q base, some q ≠ exited processId process create → IsRecorded mods q base →
      IsRecorded (createProcessNotifyRoutine processId process create mods) q base := by
  unfold createProcessNotifyRoutine exited
  split
  · exact ⟨h, fun _ _ _ hrec => hrec⟩
  · cases process with
    | none => exact ⟨h, fun _ _ _ hrec => hrec⟩
    | some p =>
      dsimp only
      split
      · exact ⟨h, fun _ _ _ hrec => hrec⟩
      · next hp =>
        constructor
        · exact (nodup_updateProcess h).sublist (List.eraseP_sublist.map _)
        · intro q base hq hrec
          have hne : q ≠ p := by
            rintro rfl
            exact hq (by simp [Option.filter, hp])
          obtain ⟨e, he, rfl, hm⟩ := isRecorded_updateProcess_of_ne hne hrec
          exact ⟨e, (List.mem_eraseP_of_neg (by simpa using hne)).mpr he, rfl, hm⟩

theorem recordingStep_nodup (h : (s.mods.map Prod.fst).Nodup)
    (hs : recordingStep pl s i = some s') :
    (s'.mods.map Prod.fst).Nodup := by
  cases i with
  | loadImage im turns =>
    obtain ⟨mods', hmods, rfl⟩ := Option.map_eq_some_iff.mp hs
    exact loadImage_nodup h hmods
  | createProcess processId process create =>
    obtain rfl := Option.some.inj hs
    exact (createProcess_ok processId process create h).1
  | unload p base =>
    obtain rfl := Option.some.inj hs
    exact h

theorem recordingStep_ok (h : s.Ok) (hwalk : WalkComplete pl s i)
    (hs : recordingStep pl s i = some s') : s'.Ok := by
  refine ⟨recordingStep_nodup h.nodup hs, ?_⟩
  cases i with
  | loadImage im turns =>
    obtain ⟨mods', hmods, rfl⟩ := Option.map_eq_some_iff.mp hs
    exact loadImage_recorded h hwalk hmods
  | createProcess processId process create =>
    obtain rfl := Option.some.inj hs
    obtain ⟨-, hkeeps⟩ := createProcess_ok processId process create h.nodup
    intro e he
    obtain ⟨he, hne⟩ := List.mem_filter.mp he
    exact hkeeps e.1 e.2 (by simpa using hne) (h.recorded e he)
  | unload p base =>
    obtain rfl := Option.some.inj hs
    exact fun e he => h.recorded e (List.mem_of_mem_filter he)

theorem isRecorded_push (h : (mods.map Prod.fst).Nodup) (hrec : IsRecorded mods q base) :
    IsRecorded (updateProcess p (· ++ [m]) mods) q base := by
  by_cases hq : q = p
  · subst hq
    refine isRecorded_updateProcess_kept h ?_ hrec
    rintro ms ⟨m', hm', hbase⟩
    exact ⟨m', List.mem_append_left _ hm', hbase⟩
  · exact isRecorded_updateProcess_of_ne hq hrec

theorem snapshot_ok (found : List (UInt64 × NtModule)) (mods : NtModules)
    (h : (mods.map Prod.fst).Nodup) (hloaded : ∀ e ∈ loaded, IsRecorded mods e.1 e.2) :
    Recording.Ok ⟨found.foldl (fun mods (p, m) => updateProcess p (· ++ [m]) mods) mods,
      loaded ++ found.map fun (p, m) => (p, m.dllBase)⟩ := by
  induction found generalizing mods loaded with
  | nil => exact ⟨h, by simpa using hloaded⟩
  | cons f found ih =>
    obtain ⟨p, m⟩ := f
    have hnew : ∀ e ∈ loaded ++ [(p, m.dllBase)],
        IsRecorded (updateProcess p (· ++ [m]) mods) e.1 e.2 := by
      intro e he
      rcases List.mem_append.mp he with hold | hlast
      · exact isRecorded_push h (hloaded e hold)
      · obtain rfl := List.mem_singleton.mp hlast
        exact isRecorded_updateProcess_new mods fun ms =>
          ⟨m, List.mem_append_right _ (List.mem_singleton_self _), rfl⟩
    have hrest := ih _ (nodup_updateProcess h) hnew
    rw [List.append_assoc, List.singleton_append] at hrest
    exact hrest

theorem recordingStart_ok (found : List (UInt64 × NtModule)) : (Recording.start found).Ok := by
  have hnone : ∀ e ∈ ([] : List (UInt64 × UInt64)), IsRecorded [] e.1 e.2 := by simp
  exact snapshot_ok found [] List.nodup_nil hnone

theorem recorded_processes_nodup (pl : Platform) (found : List (UInt64 × NtModule)) (s : Recording)
    (h : Runs.Reachable (recordingStep pl) (fun _ _ => True) (Recording.start found) s) :
    (s.mods.map Prod.fst).Nodup := by
  refine h.invariant (P := fun s => (s.mods.map Prod.fst).Nodup) (recordingStart_ok found).nodup ?_
  exact fun _ _ _ hnodup _ hs => recordingStep_nodup hnodup hs

theorem recorded_modules_stay (pl : Platform) (found : List (UInt64 × NtModule)) (s : Recording)
    (h : Runs.Reachable (recordingStep pl) (WalkComplete pl) (Recording.start found) s) :
    (s.mods.map Prod.fst).Nodup ∧ ∀ e ∈ s.loaded, IsRecorded s.mods e.1 e.2 := by
  have hok : s.Ok := h.invariant (recordingStart_ok found) fun _ _ _ => recordingStep_ok
  exact ⟨hok.nodup, hok.recorded⟩

-- ---------------------------------------------------------------------------
-- A module that is not linked yet
-- ---------------------------------------------------------------------------

instance (pl : Platform) (s : Recording) : (i : Notification) → Decidable (WalkComplete pl s i)
  | .loadImage im turns =>
    have listed : ∀ p (loaded : List UInt64), Decidable (∀ e ∈ s.loaded, e.1 = p → e.2 ∈ loaded) :=
      fun _ _ => List.decidableBAll _ _
    have : ∀ p, Decidable (∀ loaded ∈ loadedMods pl turns im.walk, ∀ e ∈ s.loaded, e.1 = p →
      e.2 ∈ loaded) := fun p =>
        have := listed p
        Option.decidableForallMem _
    Option.decidableForallMem (im.recordedFor pl)
  | .createProcess .. => isTrue trivial
  | .unload .. => isTrue trivial

def amd64Fields : LdrFields := ⟨true, 0x18, 0, 0, 8, 0x10, 0, 0x30, 0x40, 0x48⟩

def testPlatform : Platform := ⟨0x7FFFFFFF0000, amd64Fields, amd64Fields⟩

/-- Nothing of the process can be read: its loader data is not there yet. -/
def noLdr : Walk := ⟨⟨fun _ => none, fun _ => none, fun _ => none⟩, 0x5000, 0⟩

def oneModule : Walk where
  memory := {
    read64 := fun a =>
      if a = 0x5018 then some 0x6000
      else if a = 0x6010 then some 0x7000
      else if a = 0x7030 then some 0x10000
      else if a = 0x7000 then some 0x7000
      else some 0
    read32 := fun _ => some 0x1000
    read16 := fun _ => some 0 }
  peb := 0x5000
  wow64Peb := 0

def imageAtBase (base : UInt64) (w : Walk) : LoadedImage :=
  { processId := 4, process := some 0x100, imageBase := base, imageSize := 0x1000
    fullImageName := some [0x61], pdbGuid := [], pdbAge := 0, pdbName := [], arch := 0, walk := w }

/-- Two images of one process, with a walk that reports the first one when the second one comes. -/
def linkedInputs : List Notification :=
  [.loadImage (imageAtBase 0x10000 noLdr) 10, .loadImage (imageAtBase 0x20000 oneModule) 10]

def recordingAfter (is : List Notification) : Recording :=
  (Runs.run (recordingStep testPlatform) (fun _ _ => True) (Recording.start []) is).getD
    (Recording.start [])

theorem linkedInputs_recorded :
    Runs.run (recordingStep testPlatform) (WalkComplete testPlatform)
      (Recording.start []) linkedInputs =
      some (recordingAfter linkedInputs) ∧
    (recordingAfter linkedInputs).loaded = [(0x100, 0x20000), (0x100, 0x10000)] ∧
    ∀ e ∈ (recordingAfter linkedInputs).loaded,
      IsRecorded (recordingAfter linkedInputs).mods e.1 e.2 := by
  have hrun : Runs.run (recordingStep testPlatform) (WalkComplete testPlatform) (Recording.start [])
      linkedInputs = some (recordingAfter linkedInputs) := by
    have hsome : (Runs.run (recordingStep testPlatform) (WalkComplete testPlatform)
        (Recording.start []) linkedInputs).isSome = true := by decide +kernel
    obtain ⟨s, hs⟩ := Option.isSome_iff_exists.mp hsome
    rw [hs, recordingAfter, Runs.run_of_run hs, Option.getD_some]
  exact ⟨hrun, rfl, (recorded_modules_stay testPlatform [] _ (Runs.reachable_of_run .init hrun)).2⟩

/-- The same, but nothing can be read either when the second image comes. -/
def unlinkedInputs : List Notification :=
  [.loadImage (imageAtBase 0x10000 noLdr) 10, .loadImage (imageAtBase 0x20000 noLdr) 10]

theorem unlinkedInputs_dropped :
    Runs.run (recordingStep testPlatform) (fun _ _ => True) (Recording.start []) unlinkedInputs =
      some (recordingAfter unlinkedInputs) ∧
    (0x100, 0x10000) ∈ (recordingAfter unlinkedInputs).loaded ∧
    ¬ IsRecorded (recordingAfter unlinkedInputs).mods 0x100 0x10000 := by
  have hmods : (recordingAfter unlinkedInputs).mods.map (fun e => e.2.map (·.dllBase)) =
      [[0x20000]] := by decide
  refine ⟨rfl, by decide, ?_⟩
  rintro ⟨e, he, -, m, hm, hbase⟩
  have hmem := List.mem_map_of_mem (f := fun e : UInt64 × List NtModule => e.2.map (·.dllBase)) he
  rw [hmods, List.mem_singleton] at hmem
  have hbases : m.dllBase ∈ e.2.map (·.dllBase) := List.mem_map_of_mem hm
  rw [hmem, hbase] at hbases
  revert hbases
  decide

end BugChecker.Modules
