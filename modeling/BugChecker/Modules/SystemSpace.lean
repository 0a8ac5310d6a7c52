import BugChecker.Lib.Circular
import BugChecker.Lib.Refreshing
import BugChecker.Modules.LoadedList
import BugChecker.Modules.Recorded
import BugChecker.Step.Context

/-!
# The modules of system space

`RefreshNtModulesForProc0` brings the modules that are recorded for no process
up to date with `PsLoadedModuleList`. A module is known by its base and its
size.
-/

namespace BugChecker.Modules

open Refreshing

section
variable (build : Build) (f : NodeFields) (m : Snapshot)

/-- What a driver reads: pointers of a 32-bit driver have 32 bits. -/
def Snapshot.ofBuild : Snapshot :=
  match build with
  | .x86 => fun addr => m (Step.low32 addr)
  | .x64 => m

def ptrSize : Nat := build.pointerBits / 8

def readUlongPtr (addr : UInt64) : Option UInt64 :=
  ((m.ofBuild build).read addr (ptrSize build)).map fun bytes =>
    UInt64.ofNat (field bytes 0 (ptrSize build))

/-- `sizeof(IMAGE_NT_HEADERS)`. -/
def ntHeadersSize : Nat :=
  match build with
  | .x86 => 248
  | .x64 => 264

/-- Where the directory of debug information is in the headers. -/
def dirDebugOffset : Nat :=
  match build with
  | .x86 => 168
  | .x64 => 184

/-- The headers of the image of a node, if they can be read and are valid. -/
def imageHeaders (node : UInt64) : Option Image := do
  let imageBase ← readUlongPtr build m (node + f.imageBase)
  let dos ← (m.ofBuild build).read imageBase 64
  guard (field dos 0 2 = 0x5A4D ∧ field dos 0x18 2 ≥ 0x40)
  let lfanew := UInt32.ofNat (field dos 0x3C 4)
  let nt ← (m.ofBuild build).read (imageBase + lfanew.toInt32.toInt64.toUInt64)
      (ntHeadersSize build)
  guard (field nt 0 4 = 0x4550)
  return {
    imageBase := imageBase, sizeOfImage := UInt32.ofNat (field nt 80 4)
    dirDebugAddress := UInt32.ofNat (field nt (dirDebugOffset build) 4)
    dirDebugSize := UInt32.ofNat (field nt (dirDebugOffset build + 4) 4) }

def imageName (node : UInt64) : List UInt8 :=
  let name := do
    let string ← (m.ofBuild build).read (node + f.imageName) (2 * ptrSize build)
    let nameLen := field string 0 2 / 2
    guard (nameLen ≠ 0 ∧ nameLen ≤ 255)
    let chars ← (m.ofBuild build).read (UInt64.ofNat (field string (ptrSize build) (ptrSize build)))
        ((nameLen + 1) * 2)
    return (List.range nameLen).map fun i =>
      (asciiChar (UInt16.ofNat (field chars (2 * i) 2))).toUInt8
  text (name.getD [])

def imageDebugInfo (im : Image) : DebugInfo :=
  if im.dirDebugAddress ≠ 0 ∧ im.dirDebugSize ≠ 0 then
    match (m.ofBuild build).read (im.imageBase + im.dirDebugAddress.toUInt64) im.dirDebugSize.toNat
      with
    | some dirs =>
      readCodeView (m.ofBuild build) im.imageBase
        ((List.range (min (im.dirDebugSize.toNat / 28) 32)).map fun i =>
          (dirs.drop (28 * i)).take 28)
    | none => .none
  else .none

/-- A name that is hidden is made up for with that of the symbols. -/
def moduleName (imageName pdbName : List UInt8) : List UInt8 :=
  if imageName = [] ∧ pdbName ≠ [] ∧ pdbBaseName pdbName ≠ [] then pdbBaseName pdbName
    else imageName

def moduleAt (node : UInt64) (im : Image) : NtModule :=
  let debug := imageDebugInfo build m im
  { dllBase := im.imageBase, sizeOfImage := im.sizeOfImage
    dllName := copyName2 (moduleName (imageName build f m node) (text debug.szPdb))
    pdbGuid := debug.guid, pdbAge := UInt32.ofNat debug.age, pdbName := copyName2 (text debug.szPdb)
    arch := UInt32.ofNat build.pointerBits }

/-- What modules are told apart by. -/
structure ModuleKey where
  dllBase : UInt64
  sizeOfImage : UInt32
  deriving DecidableEq

def NtModule.key (mod : NtModule) : ModuleKey := ⟨mod.dllBase, mod.sizeOfImage⟩

/-- One turn of the loop: a module of the vector is present, or a new one is added. -/
def visitNode0 (s : Marked NtModule) (node : UInt64) : Marked NtModule :=
  match imageHeaders build f m node with
  | none => s
  | some im => s.see NtModule.key (moduleAt build f m node im)

/-- The nodes from `node` on. After `turns` nodes the answer is left open. -/
def refreshLoop (head : UInt64) : Nat → UInt64 → Marked NtModule → Option (Marked NtModule)
  | 0, _, _ => none
  | turns + 1, node, s =>
    let s := visitNode0 build f m s node
    match readUlongPtr build m node with
    | none => some s
    | some flink => if flink ≠ 0 ∧ flink ≠ head then refreshLoop head turns flink s else some s

/-- `RefreshNtModulesForProc0`, on the vector of process 0. -/
def refreshNtModulesForProc0 (head : UInt64) (turns : Nat) (mods : List NtModule) :
    Option (List NtModule) :=
  (refreshLoop build f m head turns head ⟨mods, []⟩).map fun s =>
    eraseAbsent s.present s.items.length s.items

-- ---------------------------------------------------------------------------
-- What is asked for
-- ---------------------------------------------------------------------------

def flink (node : UInt64) : Option UInt64 := (readUlongPtr build m node).filter (· ≠ 0)

/-- The base and the size of the image of a node, if its headers can be read and are valid. -/
def imageKey (node : UInt64) : Option ModuleKey :=
  (imageHeaders build f m node).map fun im => ⟨im.imageBase, im.sizeOfImage⟩

/-- The vector afterwards is that of the images of the nodes. -/
structure UpToDate (nodes : List UInt64) (old new : List NtModule) : Prop where
  nodup : (new.map NtModule.key).Nodup
  exact : ∀ k, k ∈ new.map NtModule.key ↔ ∃ node ∈ nodes, imageKey build f m node = some k
  order : ∃ added,
    new = old.filter (fun mod => mod.key ∈ nodes.filterMap (imageKey build f m)) ++ added ∧
    added.map NtModule.key =
      ((nodes.filterMap (imageKey build f m)).filter fun k => k ∉ old.map NtModule.key).eraseDups

-- ---------------------------------------------------------------------------
-- The walk
-- ---------------------------------------------------------------------------

def nodeModule (node : UInt64) : Option NtModule :=
  (imageHeaders build f m node).map (moduleAt build f m node)

variable {build f m}

theorem visitNode0_eq (s : Marked NtModule) (node : UInt64) :
    visitNode0 build f m s node = (nodeModule build f m node).toList.foldl
      (Marked.see NtModule.key) s := by
  unfold visitNode0 nodeModule
  cases imageHeaders build f m node with
  | none => rfl
  | some im => rfl

theorem refreshLoop_eq (head : UInt64) (turns : Nat) (node : UInt64) (s : Marked NtModule) :
    refreshLoop build f m head turns node s =
      (Circular.walk (flink build m) head turns node).map fun nodes =>
        (nodes.filterMap (nodeModule build f m)).foldl (Marked.see NtModule.key) s := by
  induction turns generalizing node s with
  | zero => rfl
  | succ turns ih =>
    have hcons : ∀ nodes, (node :: nodes).filterMap (nodeModule build f m) =
        (nodeModule build f m node).toList ++ nodes.filterMap (nodeModule build f m) := by
      intro nodes
      rw [List.filterMap_cons]
      cases nodeModule build f m node <;> rfl
    have hlast : visitNode0 build f m s node =
        ([node].filterMap (nodeModule build f m)).foldl (Marked.see NtModule.key) s := by
      rw [visitNode0_eq, hcons, List.filterMap_nil, List.append_nil]
    rw [refreshLoop, Circular.walk, flink]
    cases readUlongPtr build m node with
    | none => exact congrArg some hlast
    | some next =>
      dsimp only
      rw [Option.filter_some]
      by_cases hzero : next = 0
      · rw [if_neg fun h => h.1 hzero, if_neg (by simpa using hzero)]
        exact congrArg some hlast
      · rw [if_pos (decide_eq_true hzero)]
        dsimp only
        by_cases hhead : next = head
        · rw [if_neg fun h => h.2 hhead, if_pos hhead]
          exact congrArg some hlast
        · rw [if_pos ⟨hzero, hhead⟩, if_neg hhead, ih, Option.map_map]
          congr 1
          funext nodes
          rw [Function.comp_apply, hcons, List.foldl_append, visitNode0_eq]

/-- What it takes that a node has an image: the headers of a DOS file, and behind them those of an
NT file. -/
theorem imageKey_eq_some_iff (node : UInt64) (k : ModuleKey) :
    imageKey build f m node = some k ↔
      readUlongPtr build m (node + f.imageBase) = some k.dllBase ∧
        ∃ dos, (m.ofBuild build).read k.dllBase 64 = some dos ∧
          field dos 0 2 = 0x5A4D ∧ 0x40 ≤ field dos 0x18 2 ∧
          ∃ nt, (m.ofBuild build).read
              (k.dllBase + (UInt32.ofNat (field dos 0x3C 4)).toInt32.toInt64.toUInt64)
              (ntHeadersSize build) = some nt ∧
            field nt 0 4 = 0x4550 ∧ k.sizeOfImage = UInt32.ofNat (field nt 80 4) := by
  simp only [imageKey, imageHeaders, Option.map_eq_some_iff, Option.bind_eq_bind,
    Option.bind_eq_some_iff, Option.guard_eq_some', Option.pure_def, Option.some.injEq]
  constructor
  · rintro ⟨im, ⟨base, hbase, dos, hdos, -, hmz, nt, hnt, -, hpe, rfl⟩, rfl⟩
    exact ⟨hbase, dos, hdos, hmz.1, hmz.2, nt, hnt, hpe, rfl⟩
  · rintro ⟨hbase, dos, hdos, hmz, hsize, nt, hnt, hpe, hk⟩
    exact ⟨_, ⟨_, hbase, dos, hdos, (), ⟨hmz, hsize⟩, nt, hnt, (), hpe, rfl⟩,
      congrArg (ModuleKey.mk k.dllBase) hk.symm⟩

theorem key_nodeModule (node : UInt64) :
    (nodeModule build f m node).map NtModule.key = imageKey build f m node := by
  unfold nodeModule imageKey
  rw [Option.map_map]
  rfl

theorem map_key_nodeModule (nodes : List UInt64) :
    (nodes.filterMap (nodeModule build f m)).map NtModule.key = nodes.filterMap
      (imageKey build f m) := by
  rw [List.map_filterMap]
  exact List.filterMap_congr fun node _ => key_nodeModule node

/-- The vector is up to date when the walk has ended. -/
theorem refreshNtModulesForProc0_upToDate (head : UInt64) (turns : Nat) (nodes : List UInt64)
    (old : List NtModule) (hold : (old.map NtModule.key).Nodup)
    (hwalk : Circular.walk (flink build m) head turns head = some nodes) :
    ∃ new, refreshNtModulesForProc0 build f m head turns old = some new ∧
      UpToDate build f m nodes old new := by
  have hnew : refreshNtModulesForProc0 build f m head turns old =
      some (refresh NtModule.key old (nodes.filterMap (nodeModule build f m))) := by
    rw [refreshNtModulesForProc0, refreshLoop_eq, hwalk]
    rfl
  refine ⟨_, hnew, nodup_refresh hold _, fun k => ?_, ?_⟩
  · rw [mem_refresh_iff hold, map_key_nodeModule, List.mem_filterMap]
  · obtain ⟨added, hrefresh, hadded, -⟩ := refresh_eq hold (nodes.filterMap (nodeModule build f m))
    rw [newKeys, map_key_nodeModule] at hadded
    rw [map_key_nodeModule] at hrefresh
    exact ⟨added, hrefresh, hadded⟩

end

def recordedDrivers : List NtModule :=
  [{ dllBase := 0x30000, sizeOfImage := 0x2000, dllName := [0x62], pdbGuid := [], pdbAge := 0,
     pdbName := [],
     arch := 64 },
    { dllBase := 0x10000, sizeOfImage := 0x1000, dllName := [0x61], pdbGuid := [], pdbAge := 1,
      pdbName := [],
      arch := 64 }]

theorem recordedDrivers_upToDate :
    ∃ new, refreshNtModulesForProc0 .x64 driverFields (driverMemory 0x20) 0x1000 3 recordedDrivers =
      some new ∧
      UpToDate .x64 driverFields (driverMemory 0x20) [0x1000, 0x2000] recordedDrivers new :=
  refreshNtModulesForProc0_upToDate 0x1000 3 [0x1000,
    0x2000] recordedDrivers (by decide) (by decide +kernel)

/-- The driver that is loaded stays, and the other one goes. -/
example : (refreshNtModulesForProc0 .x64 driverFields (driverMemory 0x20) 0x1000 3
    recordedDrivers).map (·.map NtModule.key) = some [⟨0x10000, 0x1000⟩] := by
  decide +kernel

end BugChecker.Modules
