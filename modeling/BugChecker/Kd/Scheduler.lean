import BugChecker.Lib.Bytes
import BugChecker.Lib.Traced

/-!
# The coroutine scheduler behind the KD transport

The kernel asks for one manipulate-state request at a time (`KdReceivePacket`)
and hands the answer back (`KdSendPacket`). Between the two the debugger is a
tree of coroutines: `BcAwaiterBase::ProcessAwaiter` turns the awaiter on which
the innermost coroutine is suspended into a request, and `DEBST_MEMREADCOR`
splits a memory read into requests of at most 1024 bytes.

A coroutine body is a state `S` and a function that runs it to its next
`co_await`; the memory that bodies and scheduler share is passed along. The log
is a record of what happens at the interface, the scheduler never reads it.
-/

namespace BugChecker.Kd

/-- `DEBUGGER_STATE`. -/
inductive DebuggerState where
  | unknown | stateChanged | continue_ | memReadCor | coroutine | processAwaiter
deriving DecidableEq, Repr

def dbgKdReadVirtualMemoryApi : UInt32 := 0x3130
def dbgKdContinueApi : UInt32 := 0x3136
def dbgKdContinueApi2 : UInt32 := 0x313C
def statusPending : UInt32 := 0x103
def dbgContinue : UInt32 := 0x10002

/-- `NT_SUCCESS`: an `NTSTATUS` is signed. -/
def ntSuccess (status : UInt32) : Bool := status < 0x80000000

/-- `DBGKD_MANIPULATE_STATE64`: the header, the members of the union that the
scheduler itself reads or writes, and the `rest` that only coroutine bodies use. -/
structure ManipulateState where
  apiNumber : UInt32 := 0
  processorLevel : UInt16 := 0
  processor : UInt16 := 0
  returnStatus : UInt32 := 0
  targetBaseAddress : UInt64 := 0
  transferCount : Nat := 0
  actualBytesRead : Nat := 0
  continueStatus : UInt32 := 0
  traceFlag : Bool := false
  rest : List UInt8 := []
deriving DecidableEq, Repr

/-- The two buffers of a packet; `second` is `none` for a null `pData`. -/
structure Packet where
  state : ManipulateState
  second : Option (List UInt8) := none
deriving DecidableEq, Repr

/-- The memory coroutine bodies and scheduler share: `MemReadCor.Buffer`,
`Root::I->Trace`, and everything else. -/
structure Memory (G : Type) where
  globals : G
  buffer : Bytes.Memory
  trace : Bool

/-- What `await_resume` returns: a `BOOLEAN`, or for a memory read `NULL` or
`MemReadCor.Buffer`. -/
inductive RetVal where
  | boolean (b : Bool)
  | null
  | buffer
deriving DecidableEq, Repr

/-- The awaiters, each with what its constructor takes. -/
inductive Await (G S : Type) where
  | stateManipulate
      (prepareRequest : Memory G → ManipulateState → Memory G × Packet)
      (processResponse : Memory G → Packet → Memory G × Bool)
  | readMemory (pointer : UInt64) (size : Nat)
  | discoverPosInModules (outputBuffer debugInfo bytePointer : UInt64)
  | recvTimeout
  | join (coroutine : S)

/-- The `retVal` the constructors start with. -/
def Await.retVal : Await G S → RetVal
  | .stateManipulate .. => .boolean false
  | .readMemory .. => .null
  | _ => .boolean true

/-- How a coroutine body comes back: finished, or suspended on an awaiter. -/
inductive Suspension (G S : Type) where
  | finished
  | await (function : Await G S) (coroHandle : RetVal → S)

structure Awaiter (G S : Type) where
  function : Await G S
  retVal : RetVal
  coroHandle : RetVal → S

def Suspension.awaiter : Suspension G S → Option (Awaiter G S)
  | .finished => none
  | .await function coroHandle => some ⟨function, function.retVal, coroHandle⟩

-- ---------------------------------------------------------------------------
-- Memory reads
-- ---------------------------------------------------------------------------

def chunkSize : Nat := 1024

/-- `sizeof(MemReadCor.Buffer)`. -/
def bufferSize : Nat := 32 * 1024

/-- `DiscoverBytePointerPosInModules_Params`. -/
structure DiscoverParams where
  pszOutputBuffer : UInt64
  pidiDebugInfo : UInt64
  pbBytePointer : UInt64
  pvPsLoadedModuleList : UInt64
  pvMmUserProbeAddress : UInt64
  pvPCRAddress : UInt64
deriving DecidableEq, Repr

/-- The fields of `MemoryReaderCoroutineState` an old-style coroutine can read. -/
structure ReadState where
  resumePoint : Int := 0
  pointer : UInt64 := 0
  bytesToRead : Nat := 0
  actualBytesRead : Nat := 0
deriving DecidableEq, Repr

/-- The only function that is ever stored in `pCoroutine`. -/
inductive MemoryReaderCoroutine where
  | discoverBytePointerPosInModules
deriving DecidableEq, Repr

/-- `MemoryReaderCoroutineState`; its `Buffer` is in the shared memory. -/
structure MemReadCor extends ReadState where
  inputParams : DiscoverParams
  bufferPos : Nat
  pCoroutine : Option MemoryReaderCoroutine
  endDebuggerState : DebuggerState
deriving DecidableEq, Repr

/-- The bytes left to read from the chunk at `BufferPos` on. -/
def MemReadCor.btr (m : MemReadCor) : Nat := m.bytesToRead - m.bufferPos

/-- How an old-style coroutine returns: both forms end the call. -/
inductive ReadCall where
  | readMemory_End
  | readMemory (lResumePoint : Int) (pvStart : UInt64) (ulLength : Nat)
deriving DecidableEq, Repr

/-- `MemoryReaderCoroutineState::ReadMemory` and `ReadMemory_End`. -/
def ReadCall.apply : ReadCall → ReadState
  | .readMemory_End => { resumePoint := -1 }
  | .readMemory lResumePoint pvStart ulLength =>
    { resumePoint := lResumePoint, pointer := pvStart, bytesToRead := ulLength % 2 ^ 32 }

def ReadState.readMemory_Succeeded (s : ReadState) : Bool :=
  s.actualBytesRead == s.bytesToRead

/-- After the last chunk, of `btr` bytes, its count stands for the whole read. -/
def ReadState.settle (s : ReadState) (btr : Nat) : ReadState :=
  if btr ≠ 0 ∧ s.actualBytesRead = btr then { s with actualBytesRead := s.bytesToRead } else s

/-- Neither another chunk nor another read follows. -/
def ReadState.ended (s : ReadState) : Prop := s.resumePoint ≤ 0 ∨ s.bytesToRead > bufferSize

instance (s : ReadState) : Decidable s.ended := inferInstanceAs (Decidable (_ ∨ _))

/-- The bytes a read answer delivers, if `KdSendPacket` takes it. -/
def Packet.delivered (answer : Packet) : Option (List UInt8) :=
  match answer.second with
  | some bytes =>
    if ntSuccess answer.state.returnStatus ∧ 0 < bytes.length ∧
      answer.state.actualBytesRead = bytes.length then some bytes else none
  | none => none

/-- What an answer makes of `ActualBytesRead` and of the buffer. -/
def chunkAnswer (answer : Packet) (pos actualBytesRead : Nat) (buffer : Bytes.Memory) :
    Nat × Bytes.Memory :=
  if answer.state.apiNumber = dbgKdReadVirtualMemoryApi then
    match answer.delivered with
    | some bytes => (bytes.length, Bytes.store buffer pos bytes)
    | none => (0, buffer)
  else (actualBytesRead, buffer)

/-- The request for the chunk at `pos`, of which and of the chunks after it
`btr` bytes are left to read. -/
def readRequest (pState : ManipulateState) (pointer : UInt64) (pos btr : Nat) : Packet where
  state :=
    { pState with
      apiNumber := dbgKdReadVirtualMemoryApi
      returnStatus := statusPending
      targetBaseAddress := pointer + UInt64.ofNat pos
      transferCount := if btr > chunkSize then chunkSize else btr
      actualBytesRead := 0 }

/-- The request that lets the target run, with the trace flag set or not. -/
def continueRequest (pState : ManipulateState) (trace : Bool) : Packet where
  state :=
    { pState with
      apiNumber := if trace then dbgKdContinueApi2 else dbgKdContinueApi
      returnStatus := dbgContinue
      continueStatus := dbgContinue
      traceFlag := trace }

-- ---------------------------------------------------------------------------
-- Coroutine bodies
-- ---------------------------------------------------------------------------

/-- The code the scheduler runs. Locals of the bodies that outlive an await and
the statics of the old-style coroutine are part of the shared memory. -/
structure Program (G S : Type) where
  /-- `Main::EntryPoint()`. -/
  entryPoint : S
  run : S → Memory G → Memory G × Suspension G S
  discoverBytePointerPosInModules : DiscoverParams → ReadState → Memory G → Memory G × ReadCall
  psLoadedModuleList : G → UInt64
  userProbeAddress : G → UInt64
  getPcrAddress : G → UInt64

/-- The parameters `BcAwaiter_DiscoverPosInModules::PrepareRequest` fills in. -/
def Program.discoverParams (prog : Program G S) (outputBuffer debugInfo bytePointer : UInt64)
    (globals : G) : DiscoverParams where
  pszOutputBuffer := outputBuffer
  pidiDebugInfo := debugInfo
  pbBytePointer := bytePointer
  pvPsLoadedModuleList := prog.psLoadedModuleList globals
  pvMmUserProbeAddress := prog.userProbeAddress globals
  pvPCRAddress := prog.getPcrAddress globals

/-- What the log records: a body is started (`none`) or resumed with a value, in
the memory it then sees; it finishes; the old-style coroutine is called; a
request is sent; a receive times out. -/
inductive Event (G S : Type) where
  | run (frame : S) (observed : Option RetVal) (memory : Memory G)
  | finish
  | discover (params : DiscoverParams) (seen : ReadState) (memory : Memory G)
  | send (request : Packet)
  | timeout

/-- The memory, how many requests have been answered, and the log. -/
structure World (G S : Type) where
  memory : Memory G
  answered : Nat := 0
  log : List (Event G S) := []

namespace World

def record (w : World G S) (e : Event G S) : World G S := { w with log := w.log ++ [e] }

def run (prog : Program G S) (observed : Option RetVal) (s : S) (w : World G S) :
    World G S × Suspension G S :=
  let p := prog.run s w.memory
  let w := { w.record (.run s observed w.memory) with memory := p.1 }
  match p.2 with
  | .finished => (w.record .finish, .finished)
  | .await function coroHandle => (w, .await function coroHandle)

def discover (prog : Program G S) (params : DiscoverParams) (seen : ReadState) (w : World G S) :
    World G S × ReadCall :=
  let p := prog.discoverBytePointerPosInModules params seen w.memory
  ({ w.record (.discover params seen w.memory) with memory := p.1 }, p.2)

end World

-- ---------------------------------------------------------------------------
-- The scheduler
-- ---------------------------------------------------------------------------

/-- The part of `Root` the scheduler works on. The back of `AwaiterStack` is the
head of the list. -/
structure Root (G S : Type) where
  debuggerState : DebuggerState
  awaiterPtr : Option (Awaiter G S)
  awaiterStack : List (Awaiter G S)
  memReadCor : MemReadCor
  processorLevel : UInt16
  processor : UInt16
  world : World G S

/-- How one pass through the loop of `KdReceivePacket` ends. The last two stop
the machine. -/
inductive Outcome where
  | repeatLoop
  | ok (request : Packet)
  | timeout
  | fatalError
  | nullDereference

namespace Root

def pState (r : Root G S) : ManipulateState :=
  { processorLevel := r.processorLevel, processor := r.processor }

/-- Run a body; `await_suspend` leaves the awaiter in `AwaiterPtr`. -/
def enter (prog : Program G S) (observed : Option RetVal) (s : S) (r : Root G S) : Root G S :=
  let p := r.world.run prog observed s
  { r with world := p.1, awaiterPtr := p.2.awaiter }

/-- `BcCoroutine::Start`. -/
def start (prog : Program G S) (s : S) (r : Root G S) : Root G S := r.enter prog none s

/-- `BcAwaiterBase::Resume`. -/
def resume (prog : Program G S) (awaiter : Awaiter G S) (r : Root G S) : Root G S :=
  r.enter prog (some awaiter.retVal) (awaiter.coroHandle awaiter.retVal)

/-- `BcAwaiter_ReadMemory::PrepareRequest`. -/
def prepareReadMemory (r : Root G S) : Root G S :=
  { r with
    memReadCor :=
      { inputParams := r.memReadCor.inputParams
        resumePoint := 2
        bufferPos := 0
        pCoroutine := none
        endDebuggerState := .coroutine }
    debuggerState := .memReadCor }

/-- `BcAwaiter_DiscoverPosInModules::PrepareRequest`. -/
def prepareDiscover (prog : Program G S) (outputBuffer debugInfo bytePointer : UInt64)
    (r : Root G S) : Root G S :=
  { r with
    memReadCor :=
      { inputParams := prog.discoverParams outputBuffer debugInfo bytePointer r.world.memory.globals
        resumePoint := 0
        bufferPos := 0
        pCoroutine := some .discoverBytePointerPosInModules
        endDebuggerState := .coroutine }
    debuggerState := .memReadCor }

/-- The second half of `ProcessAwaiter`: prepare the request according to the
awaiter's type. -/
def processFunction (prog : Program G S) (awaiter : Awaiter G S) (r : Root G S) :
    Root G S × Outcome :=
  match awaiter.function with
  | .stateManipulate prepareRequest _ =>
    let p := prepareRequest r.world.memory r.pState
    ({ r with world := { r.world with memory := p.1 } }, .ok p.2)
  | .discoverPosInModules outputBuffer debugInfo bytePointer =>
    (r.prepareDiscover prog outputBuffer debugInfo bytePointer, .repeatLoop)
  | .recvTimeout => (r, .timeout)
  | .readMemory .. => (r.prepareReadMemory, .repeatLoop)
  | .join coroutine =>
    let r := { r with awaiterStack := awaiter :: r.awaiterStack, awaiterPtr := none }
    ({ r.start prog coroutine with debuggerState := .processAwaiter }, .repeatLoop)

/-- `BcAwaiterBase::ProcessAwaiter`. -/
def processAwaiter (prog : Program G S) (r : Root G S) : Root G S × Outcome :=
  let r := { r with debuggerState := .coroutine }
  match r.awaiterPtr with
  | none =>
    match r.awaiterStack with
    | parent :: stack =>
      ({ r with awaiterPtr := some parent, awaiterStack := stack }, .repeatLoop)
    | [] => ({ r with debuggerState := .continue_ }, .repeatLoop)
  | some awaiter => r.processFunction prog awaiter

/-- The visit `DEBST_MEMREADCOR` pays a `BcAwaiter_ReadMemory` before its first
chunk (`ResumePoint` 2) and after its last one (`ResumePoint` 1). -/
def visitReadMemory (awaiter : Awaiter G S) (pointer : UInt64) (size : Nat) (r : Root G S) :
    Root G S :=
  let m := r.memReadCor
  let resumePoint := m.resumePoint - 1
  if resumePoint = 1 then
    { r with memReadCor :=
        { m with resumePoint := resumePoint, pointer := pointer, bytesToRead := size % 2 ^ 32 } }
  else if resumePoint ≤ 0 ∧ m.actualBytesRead = m.bytesToRead then
    { r with
      memReadCor := { m with resumePoint := resumePoint }
      awaiterPtr := some { awaiter with retVal := .buffer } }
  else { r with memReadCor := { m with resumePoint := resumePoint } }

/-- The call of `pCoroutine`. -/
def visitCoroutine (prog : Program G S) : MemoryReaderCoroutine → Root G S → Root G S
  | .discoverBytePointerPosInModules, r =>
    let p := r.world.discover prog r.memReadCor.inputParams r.memReadCor.toReadState
    { r with world := p.1, memReadCor := { r.memReadCor with toReadState := p.2.apply } }

/-- The visit after a read, whichever kind of coroutine waits for it; `none` is a
call through a null `pCoroutine`. -/
def visit (prog : Program G S) (r : Root G S) : Option (Root G S) :=
  match r.memReadCor.pCoroutine, r.awaiterPtr with
  | some coroutine, _ => some (r.visitCoroutine prog coroutine)
  | none, some awaiter =>
    match awaiter.function with
    | .readMemory pointer size => some (r.visitReadMemory awaiter pointer size)
    | _ => none
  | none, none => none

/-- The request for the chunk at `BufferPos`. -/
def requestChunk (btr : Nat) (r : Root G S) : Root G S × Outcome :=
  (r, .ok (readRequest r.pState r.memReadCor.pointer r.memReadCor.bufferPos btr))

def settled (r : Root G S) : Root G S :=
  { r with memReadCor :=
      { r.memReadCor with toReadState := r.memReadCor.settle r.memReadCor.btr } }

/-- The `DEBST_MEMREADCOR` case of the loop. -/
def memReadCorCase (prog : Program G S) (r : Root G S) : Root G S × Outcome :=
  let m := r.memReadCor
  if m.btr ≤ chunkSize then
    match r.settled.visit prog with
    | none => (r, .nullDereference)
    | some r =>
      if r.memReadCor.ended then
        ({ r with debuggerState := r.memReadCor.endDebuggerState }, .repeatLoop)
      else
        { r with memReadCor := { r.memReadCor with bufferPos := 0 } }.requestChunk
          r.memReadCor.bytesToRead
  else
    { r with memReadCor := { m with bufferPos := m.bufferPos + chunkSize } }.requestChunk
      (m.btr - chunkSize)

/-- The `DEBST_CONTINUE` case of the loop. -/
def continueCase (r : Root G S) : Root G S × Outcome :=
  ({ r with world := { r.world with memory := { r.world.memory with trace := false } } },
    .ok (continueRequest r.pState r.world.memory.trace))

/-- One pass through the loop of `KdReceivePacket`. -/
def receivePass (prog : Program G S) (r : Root G S) : Root G S × Outcome :=
  match r.debuggerState, r.awaiterPtr with
  | .stateChanged, none => (r.start prog prog.entryPoint).processAwaiter prog
  | .stateChanged, some _ => (r, .fatalError)
  | .coroutine, some awaiter => (r.resume prog awaiter).processAwaiter prog
  | .coroutine, none => (r, .nullDereference)
  | .processAwaiter, _ => r.processAwaiter prog
  | .memReadCor, _ => r.memReadCorCase prog
  | .continue_, _ | .unknown, _ => r.continueCase

/-- `KdSendPacket` with the answer to a request; `none` is a null `AwaiterPtr`. -/
def kdSendPacket (answer : Packet) (r : Root G S) : Option (Root G S) :=
  match r.debuggerState, r.awaiterPtr with
  | .coroutine, none => none
  | .coroutine, some awaiter =>
    match awaiter.function with
    | .stateManipulate _ processResponse =>
      let p := processResponse r.world.memory answer
      some { r with
        world := { r.world with memory := p.1 }
        awaiterPtr := some { awaiter with retVal := .boolean p.2 } }
    | _ => some r
  | .memReadCor, _ =>
    let m := r.memReadCor
    let p := chunkAnswer answer m.bufferPos m.actualBytesRead r.world.memory.buffer
    some { r with
      memReadCor := { m with actualBytesRead := p.1 }
      world := { r.world with memory := { r.world.memory with buffer := p.2 } } }
  | _, _ => some r

end Root

-- ---------------------------------------------------------------------------
-- The kernel's side
-- ---------------------------------------------------------------------------

/-- Where the exchange with the kernel stands: inside `KdReceivePacket`, a
request waiting for its answer, the target released, or the machine down. -/
inductive Phase where
  | receive
  | send
  | continued
  | stopped
deriving DecidableEq, Repr

structure Driver (G S : Type) where
  root : Root G S
  phase : Phase

namespace Driver

/-- `KdReceivePacket` has come back from a pass through its loop. A request made
in `DEBST_CONTINUE` is answered by letting the target run. -/
def returned : Root G S × Outcome → Driver G S
  | (r, .repeatLoop) => ⟨r, .receive⟩
  | (r, .ok request) =>
    ⟨{ r with world := r.world.record (.send request) },
      if r.debuggerState = .continue_ then .continued else .send⟩
  | (r, .timeout) => ⟨{ r with world := r.world.record .timeout }, .receive⟩
  | (r, .fatalError) | (r, .nullDereference) => ⟨r, .stopped⟩

/-- `KdSendPacket` has come back. -/
def sent (r : Root G S) : Option (Root G S) → Driver G S
  | some r => ⟨{ r with world := { r.world with answered := r.world.answered + 1 } }, .receive⟩
  | none => ⟨r, .stopped⟩

def step (prog : Program G S) (answers : Nat → Packet) (d : Driver G S) : Driver G S :=
  match d.phase with
  | .receive => returned (d.root.receivePass prog)
  | .send => sent d.root (d.root.kdSendPacket (answers d.root.world.answered))
  | .continued | .stopped => d

def log (d : Driver G S) : List (Event G S) := d.root.world.log

end Driver

-- ---------------------------------------------------------------------------
-- The log only grows
-- ---------------------------------------------------------------------------

theorem World.log_run (w : World G S) : w.log <+: (w.run prog observed s).1.log := by
  simp only [World.run, World.record]
  cases (prog.run s w.memory).2 with
  | finished => exact ⟨_, (List.append_assoc ..).symm⟩
  | await => exact List.prefix_append ..

theorem Root.log_enter (r : Root G S) : r.world.log <+: (r.enter prog observed s).world.log :=
  World.log_run _

theorem Root.log_processFunction (r : Root G S) :
    r.world.log <+: (r.processFunction prog awaiter).1.world.log := by
  simp only [Root.processFunction]
  cases awaiter.function with
  | join => exact Root.log_enter _
  | _ => exact List.prefix_rfl

theorem Root.log_processAwaiter (r : Root G S) :
    r.world.log <+: (r.processAwaiter prog).1.world.log := by
  simp only [Root.processAwaiter]
  split
  · split <;> exact List.prefix_rfl
  · exact Root.log_processFunction { r with debuggerState := .coroutine }

theorem Root.log_visit {r r' : Root G S} (h : r.visit prog = some r') :
    r.world.log <+: r'.world.log := by
  simp only [Root.visit] at h
  split at h
  · cases h
    exact List.prefix_append ..
  · split at h
    · cases h
      simp only [Root.visitReadMemory]
      split
      · exact List.prefix_rfl
      · split <;> exact List.prefix_rfl
    · cases h
  · cases h

theorem Root.log_memReadCorCase (r : Root G S) :
    r.world.log <+: (r.memReadCorCase prog).1.world.log := by
  simp only [Root.memReadCorCase]
  split
  · split
    · exact List.prefix_rfl
    · next hvisit =>
      have hlog := Root.log_visit hvisit
      split <;> exact hlog
  · exact List.prefix_rfl

theorem Root.log_receivePass (r : Root G S) :
    r.world.log <+: (r.receivePass prog).1.world.log := by
  simp only [Root.receivePass]
  split
  · exact (Root.log_enter r).trans (Root.log_processAwaiter _)
  · exact List.prefix_rfl
  · exact (Root.log_enter r).trans (Root.log_processAwaiter _)
  · exact List.prefix_rfl
  · exact Root.log_processAwaiter _
  · exact Root.log_memReadCorCase _
  · exact List.prefix_rfl
  · exact List.prefix_rfl

theorem Root.log_kdSendPacket {r r' : Root G S} (h : r.kdSendPacket answer = some r') :
    r'.world.log = r.world.log := by
  simp only [Root.kdSendPacket] at h
  split at h
  · cases h
  · split at h <;> cases h <;> rfl
  · cases h
    rfl
  · cases h
    rfl

theorem Driver.log_returned (p : Root G S × Outcome) : p.1.world.log <+: (returned p).log := by
  obtain ⟨r, outcome⟩ := p
  cases outcome with
  | ok => exact List.prefix_append ..
  | timeout => exact List.prefix_append ..
  | _ => exact List.prefix_rfl

theorem Driver.log_step (d : Driver G S) : d.log <+: (d.step prog answers).log := by
  simp only [step]
  split
  · exact (Root.log_receivePass _).trans (log_returned _)
  · cases h : d.root.kdSendPacket (answers d.root.world.answered) with
    | none => exact List.prefix_rfl
    | some r =>
      exact ⟨[], (List.append_nil _).trans (Root.log_kdSendPacket h).symm⟩
  · exact List.prefix_rfl
  · exact List.prefix_rfl

/-- The scheduler, driven by the kernel with the given answers. -/
def machine (prog : Program G S) (answers : Nat → Packet) : Traced (Driver G S) (Event G S) where
  step := Driver.step prog answers
  log := Driver.log
  grows := Driver.log_step

end BugChecker.Kd
