import BugChecker.Lib.Bytes
import BugChecker.Lib.Runs

/-!
# The loaded modules of the kernel

`DiscoverBytePointerPosInModules` looks for the image around a pointer along
`PsLoadedModuleList`. The nodes that it went past are kept with the range of
their image, and the next call begins with the node of that cache whose range
has the pointer. That node is taken as it is in memory then, whether it is
still in the list or not.
-/

namespace BugChecker.Modules

open Bytes

-- ---------------------------------------------------------------------------
-- Memory
-- ---------------------------------------------------------------------------

abbrev Snapshot := UInt64 → Option UInt8

/-- `sizeof(MemoryReaderCoroutineState::Buffer)`. -/
def bufferSize : Nat := 32 * 1024

def Snapshot.read (m : Snapshot) (addr : UInt64) (n : Nat) : Option (List UInt8) :=
  if n > bufferSize then none else (List.range n).mapM fun i => m (addr + UInt64.ofNat i)

theorem mapM_congr {f g : α → Option β} (xs : List α) (h : ∀ x ∈ xs, f x = g x) :
    xs.mapM f = xs.mapM g := by
  induction xs with
  | nil => rfl
  | cons x xs ih =>
    obtain ⟨hx, hxs⟩ := List.forall_mem_cons.mp h
    rw [List.mapM_cons, List.mapM_cons, hx, ih hxs]

theorem mapM_eq_some_iff {f : α → Option β} {xs : List α} {ys : List β} :
    xs.mapM f = some ys ↔ xs.map f = ys.map some := by
  induction xs generalizing ys with
  | nil => cases ys <;> simp
  | cons x xs ih =>
    cases ys with
    | nil => simp [List.mapM_cons, Option.bind_eq_some_iff]
    | cons y ys => simp [List.mapM_cons, Option.bind_eq_some_iff, ih]

theorem Snapshot.read_eq_some {m : Snapshot} : m.read addr n = some bytes ↔ n ≤ bufferSize ∧
    (List.range n).map (fun i => m (addr + UInt64.ofNat i)) = bytes.map some := by
  unfold Snapshot.read
  split
  · next h => simp [Nat.not_le.mpr h]
  · next h => simp only [mapM_eq_some_iff, Nat.not_lt.mp h, true_and]

theorem Snapshot.read_eq_none {m : Snapshot} (h : m addr = none) (hn : 0 < n) :
    m.read addr n = none := by
  obtain ⟨n, rfl⟩ : ∃ k, n = k + 1 := ⟨n - 1, by omega⟩
  refine Option.eq_none_iff_forall_ne_some.mpr fun bytes hbytes => ?_
  have hmap := (Snapshot.read_eq_some.mp hbytes).2
  rw [List.range_succ_eq_map, List.map_cons, show addr + UInt64.ofNat 0 = addr
    from UInt64.add_zero addr,
    h] at hmap
  cases bytes with
  | nil => cases hmap
  | cons b bytes => cases hmap

theorem Snapshot.read_part {m : Snapshot} (h : m.read addr n = some bytes) (hik : i + k ≤ n) :
    m.read (addr + UInt64.ofNat i) k = some ((bytes.drop i).take k) := by
  obtain ⟨hsize, hbytes⟩ := Snapshot.read_eq_some.mp h
  refine Snapshot.read_eq_some.mpr ⟨by omega, ?_⟩
  have hrange : ((List.range n).drop i).take k = (List.range k).map (i + ·) := by
    apply List.ext_getElem
    · simp only [List.length_take, List.length_drop, List.length_range, List.length_map]
      omega
    · simp
  rw [List.map_take, List.map_drop, ← hbytes, ← List.map_drop, ← List.map_take, hrange,
    List.map_map]
  apply List.map_congr_left
  intro j _
  rw [Function.comp_apply, UInt64.ofNat_add, UInt64.add_assoc]

theorem Snapshot.read_congr {m m' : Snapshot}
    (h : ∀ k < n, m' (addr + UInt64.ofNat k) = m (addr + UInt64.ofNat k)) :
    m'.read addr n = m.read addr n := by
  unfold Snapshot.read
  split
  · rfl
  · exact mapM_congr _ fun k hk => h k (List.mem_range.mp hk)

def Snapshot.write (m : Snapshot) (addr : UInt64) (bytes : List UInt8) : Snapshot := fun a =>
  match bytes[(a - addr).toNat]? with
  | none => m a
  | some b => some b

/-- The number in `n` bytes of a buffer. -/
def field (bytes : List UInt8) (pos n : Nat) : Nat := leNat ((bytes.drop pos).take n)

def Snapshot.readPtr (m : Snapshot) (addr : UInt64) : Option UInt64 :=
  (m.read addr 8).map fun bytes => UInt64.ofNat (field bytes 0 8)

/-- Where the fields of a node are, from the symbols of the kernel. -/
structure NodeFields where
  imageBase : UInt64
  imageName : UInt64

-- ---------------------------------------------------------------------------
-- The image of a node
-- ---------------------------------------------------------------------------

/-- What is kept of the headers. -/
structure Image where
  imageBase : UInt64
  sizeOfImage : UInt32
  dirDebugAddress : UInt32
  dirDebugSize : UInt32
  deriving DecidableEq

/-- The headers of the image that a node points to, for a pointer that is not below its base. -/
def imageAt (f : NodeFields) (m : Snapshot) (ptr node : UInt64) : Option Image := do
  let imageBase ← m.readPtr (node + f.imageBase)
  guard (ptr ≥ imageBase)
  let dos ← m.read imageBase 64
  guard (field dos 0 2 = 0x5A4D ∧ field dos 0x18 2 ≥ 0x40)
  let lfanew := UInt32.ofNat (field dos 0x3C 4)
  let nt ← m.read (imageBase + lfanew.toInt32.toInt64.toUInt64) 264
  guard (field nt 0 4 = 0x4550)
  return {
    imageBase := imageBase, sizeOfImage := UInt32.ofNat (field nt 80 4)
    dirDebugAddress := UInt32.ofNat (field nt 184 4), dirDebugSize :=
      UInt32.ofNat (field nt 188 4) }

def Image.contains (im : Image) (ptr : UInt64) : Bool :=
  ptr ≤ im.imageBase + im.sizeOfImage.toUInt64 - 1

/-- `"???"`. -/
def unknownName : List UInt8 := [0x3F, 0x3F, 0x3F]

def readName (f : NodeFields) (m : Snapshot) (node : UInt64) : Option (List UInt8) := do
  let length ← m.read (node + f.imageName) 2
  let length := field length 0 2 / 2
  guard (length ≠ 0 ∧ length ≤ 255)
  let buffer ← m.readPtr (node + f.imageName + 8)
  guard (buffer ≠ 0)
  let chars ← m.read buffer ((length + 1) * 2)
  return (List.range length).map fun i => chars.getD (2 * i) 0

structure DebugInfo where
  guid : List UInt8
  age : Nat
  szPdb : List UInt8
  deriving DecidableEq

def DebugInfo.none : DebugInfo := ⟨List.replicate 16 0, 0, []⟩

def text (bytes : List UInt8) : List UInt8 := bytes.takeWhile (· ≠ 0)

/-- The first of the debug directories that is a code view record with a GUID. -/
def readCodeView (m : Snapshot) (start : UInt64) : List (List UInt8) → DebugInfo
  | [] => .none
  | dir :: dirs =>
    let size := field dir 16 4
    let record :=
      if field dir 12 4 = 2 then
        m.read (start + UInt64.ofNat (field dir 20 4)) (if size < 512 then size else 512)
      else Option.none
    match record with
    | some cv =>
      if field cv 0 4 = 0x53445352 then
        let nfn := (UInt32.ofNat size - 24).toNat
        ⟨(cv.drop 4).take 16, field cv 20 4, (cv.drop 24).take (if nfn > 255 then 255 else nfn)⟩
      else readCodeView m start dirs
    | Option.none => readCodeView m start dirs

def debugInfoOf (m : Snapshot) (im : Image) : DebugInfo :=
  if im.imageBase ≠ 0 ∧ im.sizeOfImage ≠ 0 ∧ im.dirDebugAddress ≠ 0 ∧ im.dirDebugSize ≠ 0 then
    match m.read (im.imageBase + im.dirDebugAddress.toUInt64) im.dirDebugSize.toNat with
    | some dirs =>
      readCodeView m im.imageBase
        ((List.range (min (im.dirDebugSize.toNat / 28) 32)).map fun i =>
          (dirs.drop (28 * i)).take 28)
    | Option.none => .none
  else .none

/-- The name of the symbols without its directory and from its first dot on. -/
def pdbBaseName (szPdb : List UInt8) : List UInt8 :=
  (szPdb.reverse.takeWhile fun c => c ≠ 0x5C ∧ c ≠ 0x2F).reverse.takeWhile (· ≠ 0x2E)

def compensate (name : List UInt8) (szPdb : List UInt8) : List UInt8 :=
  if text name = unknownName ∧ text szPdb ≠ [] ∧ pdbBaseName (text szPdb) ≠ [] then
    pdbBaseName (text szPdb)
  else text name

/-- What a call finds out. -/
structure Found where
  moduleStart : UInt64
  moduleLength : UInt32
  imageName : List UInt8
  debugInfo : DebugInfo
  deriving DecidableEq

def foundAt (f : NodeFields) (m : Snapshot) (node : UInt64) (im : Image) : Found :=
  let debugInfo := debugInfoOf m im
  ⟨im.imageBase, im.sizeOfImage,
    compensate ((readName f m node).getD unknownName) debugInfo.szPdb, debugInfo⟩

-- ---------------------------------------------------------------------------
-- The walk
-- ---------------------------------------------------------------------------

structure CacheEntry where
  entry : UInt64
  imageBase : UInt64
  imageSize : UInt32
  deriving DecidableEq

abbrev Cache := List CacheEntry

def CacheEntry.covers (ptr : UInt64) (e : CacheEntry) : Bool :=
  ptr ≥ e.imageBase && ptr < e.imageBase + e.imageSize.toUInt64

/-- The cache is cleared when the first image of a walk is added. -/
def addToCache (erase : Bool) (cache : Cache) (node : UInt64) (im : Image) : Cache :=
  (if erase then [] else cache) ++ [⟨node, im.imageBase, im.sizeOfImage⟩]

/-- The node that is looked at: on the head of the list the cache is asked. -/
def thisNode (head ptr node : UInt64) (cache : Cache) : UInt64 :=
  if node = head then
    match cache.find? (·.covers ptr) with
    | some e => e.entry
    | none => node
  else node

def visitNode (f : NodeFields) (m : Snapshot) (head ptr node : UInt64) (erase : Bool)
    (cache : Cache) :
    Option Found × Bool × Cache :=
  let this := thisNode head ptr node cache
  match imageAt f m ptr this with
  | none => (none, erase, cache)
  | some im =>
    (if im.contains ptr then some (foundAt f m this im) else none,
      if this = node then (false, addToCache erase cache node im) else (erase, cache))

/-- The nodes from `node` on. After `turns` nodes the answer is left open. -/
def walk (f : NodeFields) (m : Snapshot) (head ptr : UInt64) :
    Nat → UInt64 → Bool → Cache → Option (Option Found × Cache)
  | 0, _, _, _ => none
  | turns + 1, node, erase, cache =>
    match visitNode f m head ptr node erase cache with
    | (some found, _, cache) => some (some found, cache)
    | (none, erase, cache) =>
      match m.readPtr node with
      | none => some (none, cache)
      | some flink =>
        if flink = 0 ∨ flink = head then some (none, cache)
        else walk f m head ptr turns flink erase cache

-- ---------------------------------------------------------------------------
-- Lists
-- ---------------------------------------------------------------------------

/-- From `node` on there are these nodes, and then the head again. -/
def Linked (m : Snapshot) (head : UInt64) : UInt64 → List UInt64 → Prop
  | node, [] => m.readPtr node = some head
  | node, n :: nodes => m.readPtr node = some n ∧ n ≠ 0 ∧ n ≠ head ∧ Linked m head n nodes

def foundBy (f : NodeFields) (m : Snapshot) (ptr node : UInt64) : Option Found :=
  match imageAt f m ptr node with
  | none => none
  | some im => if im.contains ptr then some (foundAt f m node im) else none

/-- A call, on a memory in which the list is circular, its head is not an image and no two images
of it share an address. -/
structure Call (f : NodeFields) where
  memory : Snapshot
  head : UInt64
  nodes : List UInt64
  ptr : UInt64
  linked : Linked memory head head nodes
  head_not_image : ∀ p, foundBy f memory p head = none
  disjoint : ∀ p, ∀ a ∈ nodes, ∀ b ∈ nodes, foundBy f memory p a ≠ none →
    foundBy f memory p b ≠ none → a = b

def discover (call : Call f) (cache : Cache) : Option (Option Found × Cache) :=
  walk f call.memory call.head call.ptr (call.nodes.length + 1) call.head true cache

theorem visitNode_fst (erase : Bool) : (visitNode f m head ptr node erase cache).1 =
    foundBy f m ptr (thisNode head ptr node cache) := by
  unfold visitNode foundBy
  dsimp only
  split
  · rfl
  · rfl

theorem walk_found (turns : Nat) (erase : Bool)
    (hfound : foundBy f m ptr (thisNode head ptr node cache) = some found) :
    ∃ cache', walk f m head ptr (turns + 1) node erase cache = some (some found, cache') := by
  rw [← visitNode_fst erase] at hfound
  refine ⟨(visitNode f m head ptr node erase cache).2.2, ?_⟩
  rw [walk, show visitNode f m head ptr node erase cache = (some found, _, _) from
    Prod.ext hfound rfl]

theorem walk_end (hfound : foundBy f m ptr (thisNode head ptr node cache) = none)
    (hnext : m.readPtr node = some head) :
    ∃ cache', walk f m head ptr (turns + 1) node erase cache = some (none, cache') := by
  rw [← visitNode_fst erase] at hfound
  refine ⟨(visitNode f m head ptr node erase cache).2.2, ?_⟩
  rw [walk, show visitNode f m head ptr node erase cache = (none, _, _) from Prod.ext hfound rfl,
    hnext]
  exact if_pos (Or.inr rfl)

theorem walk_next (hfound : foundBy f m ptr (thisNode head ptr node cache) = none)
    (hnext : m.readPtr node = some n) (hzero : n ≠ 0) (hhead : n ≠ head) : ∃ erase' cache',
    walk f m head ptr (turns + 1) node erase cache = walk f m head ptr turns n erase' cache' := by
  rw [← visitNode_fst erase] at hfound
  refine ⟨(visitNode f m head ptr node erase cache).2.1,
    (visitNode f m head ptr node erase cache).2.2, ?_⟩
  rw [walk, show visitNode f m head ptr node erase cache = (none, _, _) from Prod.ext hfound rfl,
    hnext]
  exact if_neg (not_or.mpr ⟨hzero, hhead⟩)

theorem walk_nodes (h : Linked m head node nodes) (hnode : node ≠ head) : ∃ cache',
    walk f m head ptr (nodes.length + 1) node erase cache =
      some ((node :: nodes).findSome? (foundBy f m ptr), cache') := by
  induction nodes generalizing node erase cache with
  | nil =>
    have hthis : thisNode head ptr node cache = node := if_neg hnode
    rw [List.findSome?_cons, List.findSome?_nil]
    cases hfound : foundBy f m ptr node with
    | none => exact walk_end (by rwa [hthis]) h
    | some found => exact walk_found _ _ (by rwa [hthis])
  | cons n nodes ih =>
    have hthis : thisNode head ptr node cache = node := if_neg hnode
    obtain ⟨hnext, hzero, hhead, hrest⟩ := h
    rw [List.findSome?_cons]
    cases hfound : foundBy f m ptr node with
    | none =>
      obtain ⟨erase', cache', heq⟩ := walk_next (by rwa [hthis]) hnext hzero hhead
      rw [heq]
      exact ih hrest hhead
    | some found => exact walk_found _ _ (by rwa [hthis])

theorem discover_of_not_found (call : Call f) (cache : Cache)
    (hfound : foundBy f call.memory call.ptr (thisNode call.head call.ptr call.head cache) = none) :
    ∃ cache', discover call cache =
      some (call.nodes.findSome? (foundBy f call.memory call.ptr), cache') := by
  have hlinked := call.linked
  unfold discover
  cases hnodes : call.nodes with
  | nil =>
    rw [hnodes] at hlinked
    exact walk_end hfound hlinked
  | cons n nodes =>
    rw [hnodes] at hlinked
    obtain ⟨hnext, hzero, hhead, hrest⟩ := hlinked
    obtain ⟨erase', cache', heq⟩ := walk_next hfound hnext hzero hhead
    rw [heq]
    exact walk_nodes hrest hhead

theorem discover_nil (call : Call f) : ∃ cache', discover call [] =
    some (call.nodes.findSome? (foundBy f call.memory call.ptr), cache') := by
  refine discover_of_not_found call [] ?_
  rw [thisNode, if_pos rfl]
  exact call.head_not_image call.ptr

theorem findSome?_of_mem (call : Call f) (hmem : node ∈ call.nodes)
    (hfound : foundBy f call.memory call.ptr node = some found) :
    call.nodes.findSome? (foundBy f call.memory call.ptr) = some found := by
  cases hsome : call.nodes.findSome? (foundBy f call.memory call.ptr) with
  | none =>
    rw [List.findSome?_eq_none_iff.mp hsome node hmem] at hfound
    cases hfound
  | some other =>
    obtain ⟨b, hb, hother⟩ := List.exists_of_findSome?_eq_some hsome
    obtain rfl := call.disjoint call.ptr node hmem b hb (by simp [hfound]) (by simp [hother])
    rw [← hother, hfound]

/-- The node of the cache that covers the pointer is still in the list, or it is not one of an image
around the pointer. -/
def HitLinked (cache : Cache) (call : Call f) : Prop :=
  ∀ e ∈ cache.find? (·.covers call.ptr),
    e.entry ∈ call.nodes ∨ foundBy f call.memory call.ptr e.entry = none

instance (cache : Cache) (call : Call f) : Decidable (HitLinked cache call) :=
  Option.decidableForallMem _

theorem discover_cached (call : Call f) (h : HitLinked cache call) : ∃ found cache' cache'',
    discover call cache = some (found, cache') ∧ discover call [] = some (found, cache'') := by
  obtain ⟨cache'', hnil⟩ := discover_nil call
  cases hhit : cache.find? (·.covers call.ptr) with
  | none =>
    have hthis : thisNode call.head call.ptr call.head cache = call.head := by
      rw [thisNode, if_pos rfl, hhit]
    obtain ⟨cache', heq⟩ := discover_of_not_found call cache (by
      rw [hthis]
      exact call.head_not_image call.ptr)
    exact ⟨_, cache', cache'', heq, hnil⟩
  | some e =>
    have hthis : thisNode call.head call.ptr call.head cache = e.entry := by
      rw [thisNode, if_pos rfl, hhit]
    cases hfound : foundBy f call.memory call.ptr e.entry with
    | none =>
      obtain ⟨cache', heq⟩ := discover_of_not_found call cache (by rwa [hthis])
      exact ⟨_, cache', cache'', heq, hnil⟩
    | some found =>
      have hmem : e.entry ∈ call.nodes := by
        rcases h e hhit with hmem | hnone
        · exact hmem
        · rw [hnone] at hfound
          cases hfound
      obtain ⟨cache', heq⟩ := walk_found call.nodes.length true
        (show foundBy f call.memory call.ptr (thisNode call.head call.ptr call.head cache) =
          some found by
          rwa [hthis])
      rw [findSome?_of_mem call hmem hfound] at hnil
      exact ⟨_, cache', cache'', heq, hnil⟩

-- ---------------------------------------------------------------------------
-- Many calls
-- ---------------------------------------------------------------------------

/-- The cache, and what every call so far found. -/
structure History (f : NodeFields) where
  cache : Cache
  answers : List (Call f × Option Found)

def History.call (s : History f) (call : Call f) : Option (History f) :=
  (discover call s.cache).map fun (found, cache) => ⟨cache, (call, found) :: s.answers⟩

def driverFields : NodeFields := ⟨0x30, 0x48⟩

/-- A list with its head at 0x1000. The node at 0x2000 is that of a driver at 0x10000. -/
def driverMemory (first : UInt8) : Snapshot := fun a =>
  if a = 0x1001 then some first
  else if a = 0x2001 then some 0x10
  else if a = 0x2032 then some 0x01
  else if a = 0x10000 then some 0x4D
  else if a = 0x10001 then some 0x5A
  else if a = 0x10018 then some 0x40
  else if a = 0x1003C then some 0x80
  else if a = 0x10080 then some 0x50
  else if a = 0x10081 then some 0x45
  else if a = 0x100D1 then some 0x10
  else some 0

theorem driverMemory_head (h : first = 0x10 ∨ first = 0x20) (p : UInt64) :
    foundBy driverFields (driverMemory first) p 0x1000 = none := by
  have hbase : (driverMemory first).readPtr 0x1030 = some 0 := by
    rcases h with rfl | rfl <;> decide +kernel
  have hdos : ∃ dos, (driverMemory first).read 0 64 = some dos ∧ field dos 0 2 = 0 := by
    rcases h with rfl | rfl <;> exact ⟨List.replicate 64 0, by decide +kernel, by decide +kernel⟩
  obtain ⟨dos, hread, hmagic⟩ := hdos
  have himage : imageAt driverFields (driverMemory first) p 0x1000 = none := by
    unfold imageAt
    rw [show (0x1000 : UInt64) + driverFields.imageBase = 0x1030 from by decide, hbase]
    simp [hread, hmagic, guard]
  rw [foundBy, himage]

def loadedCall : Call driverFields where
  memory := driverMemory 0x20
  head := 0x1000
  nodes := [0x2000]
  ptr := 0x10010
  linked := by
    have hlast : (driverMemory 0x20).readPtr 0x2000 = some 0x1000 := by decide +kernel
    exact ⟨by decide +kernel, by decide, by decide, hlast⟩
  head_not_image := driverMemory_head (Or.inr rfl)
  disjoint p a ha b hb _ _ := by rw [List.mem_singleton.mp ha, List.mem_singleton.mp hb]

def unloadedCall : Call driverFields where
  memory := driverMemory 0x10
  head := 0x1000
  nodes := []
  ptr := 0x10010
  linked := by
    change (driverMemory 0x10).readPtr 0x1000 = some 0x1000
    decide +kernel
  head_not_image := driverMemory_head (Or.inl rfl)
  disjoint p a ha := by cases ha

def driverHistory (calls : List (Call driverFields)) : History driverFields :=
  (Runs.run History.call (fun s call => HitLinked s.cache call) ⟨[], []⟩ calls).getD ⟨[], []⟩

def driverCache : Cache := [⟨0x2000, 0x10000, 0x1000⟩]

end BugChecker.Modules
