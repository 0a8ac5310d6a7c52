import BugChecker.Kd.Scheduler

/-!
# Memory reads in chunks

A read of more than 1024 bytes becomes a sequence of requests, each answered
before the next one is made. `World.readChunks` is that sequence as an ordinary
loop; the passes and answers of the scheduler compute it. `ActualBytesRead` is
overwritten by every answer, so what a read reports depends on its last chunk.
-/

namespace BugChecker.Kd

-- ---------------------------------------------------------------------------
-- The chunks of a read
-- ---------------------------------------------------------------------------

/-- The index of the last chunk; a read of no bytes has one chunk too. -/
def lastChunk (size : Nat) : Nat := (size - 1) / chunkSize

def chunkCount (size i : Nat) : Nat := min chunkSize (size - chunkSize * i)

theorem chunkSize_lt_of_lt_lastChunk (h : i < lastChunk size) :
    chunkSize < size - chunkSize * i := by
  simp only [lastChunk, chunkSize] at *
  omega

theorem le_chunkSize_of_lastChunk (size : Nat) : size - chunkSize * lastChunk size ≤ chunkSize := by
  simp only [lastChunk, chunkSize]
  omega

theorem min_add_chunkCount (h : i ≤ lastChunk size) (hpos : 1 ≤ size) :
    chunkSize * i + chunkCount size i = min size (chunkSize * (i + 1)) := by
  simp only [lastChunk, chunkCount, chunkSize] at *
  omega

def Packet.bytes (answer : Packet) : List UInt8 := answer.delivered.getD []

/-- The bytes of an answer go to the place of the chunk. What answers something else is no chunk. -/
def takeChunk (answer : Packet) (pos actual : Nat) (buffer : Bytes.Memory) : Nat × Bytes.Memory :=
  if answer.state.apiNumber = dbgKdReadVirtualMemoryApi
    then (answer.bytes.length, Bytes.store buffer pos answer.bytes)
  else (actual, buffer)

theorem chunkAnswer_eq (answer : Packet) (pos actual : Nat) (buffer : Bytes.Memory) :
    chunkAnswer answer pos actual buffer = takeChunk answer pos actual buffer := by
  unfold chunkAnswer takeChunk Packet.bytes
  split
  · cases answer.delivered with
    | some bytes => rfl
    | none => exact Prod.ext rfl (Bytes.store_nil ..).symm
  · rfl

/-- Send the request for chunk `i` and take its answer. -/
def World.readChunk (answers : Nat → Packet) (pState : ManipulateState) (pointer : UInt64)
    (size : Nat) (p : World G S × Nat) (i : Nat) : World G S × Nat :=
  let pos := chunkSize * i
  let w := p.1.record (.send (readRequest pState pointer pos (size - pos)))
  let c := takeChunk (answers w.answered) pos p.2 w.memory.buffer
  ({ w with memory := { w.memory with buffer := c.2 }, answered := w.answered + 1 }, c.1)

/-- The first `n` chunks in order; the number is the last `ActualBytesRead`. -/
def World.readChunks (answers : Nat → Packet) (pState : ManipulateState) (pointer : UInt64)
    (size n : Nat) (w : World G S) : World G S × Nat :=
  (List.range n).foldl (World.readChunk answers pState pointer size) (w, 0)

theorem World.readChunks_succ (w : World G S) :
    w.readChunks answers pState pointer size (n + 1) =
      World.readChunk answers pState pointer size
        (w.readChunks answers pState pointer size n) n := by
  simp [World.readChunks, List.range_succ]

-- ---------------------------------------------------------------------------
-- The scheduler computes them
-- ---------------------------------------------------------------------------

section
variable {prog : Program G S} {answers : Nat → Packet} {r : Root G S} {m : MemReadCor}

theorem memReadCorCase_visit (hbtr : r.memReadCor.btr ≤ chunkSize)
    (hvisit : r.settled.visit prog = some r') :
    r.memReadCorCase prog =
      if r'.memReadCor.ended then
        ({ r' with debuggerState := r'.memReadCor.endDebuggerState }, .repeatLoop)
      else { r' with memReadCor := { r'.memReadCor with bufferPos := 0 } }.requestChunk
        r'.memReadCor.bytesToRead := by
  simp only [Root.memReadCorCase, if_pos hbtr, hvisit]

theorem memReadCorCase_next (hbtr : chunkSize < r.memReadCor.btr) :
    r.memReadCorCase prog =
      { r with memReadCor :=
          { r.memReadCor with bufferPos := r.memReadCor.bufferPos + chunkSize } }.requestChunk
        (r.memReadCor.btr - chunkSize) := by
  simp only [Root.memReadCorCase, if_neg (Nat.not_le_of_gt hbtr)]

/-- The root while chunk `i` is being read. -/
def Root.atChunk (r : Root G S) (m : MemReadCor) (i : Nat) (p : World G S × Nat) : Root G S :=
  { r with
    debuggerState := .memReadCor
    memReadCor := { m with bufferPos := chunkSize * i, actualBytesRead := p.2 }
    world := p.1 }

/-- The request for chunk `i` is out. -/
def Driver.chunkSent (r : Root G S) (m : MemReadCor) (i : Nat) (p : World G S × Nat) :
    Driver G S :=
  ⟨r.atChunk m i (p.1.record (.send (readRequest r.pState m.pointer (chunkSize * i)
    (m.bytesToRead - chunkSize * i))), p.2), .send⟩

/-- The answer for chunk `i` is in. -/
def Driver.chunkRead (r : Root G S) (m : MemReadCor) (i : Nat) (p : World G S × Nat) :
    Driver G S := ⟨r.atChunk m i p, .receive⟩

theorem step_chunkSent :
    (Driver.chunkSent r m i p).step prog answers =
      .chunkRead r m i (World.readChunk answers r.pState m.pointer m.bytesToRead p i) := by
  simp only [World.readChunk, ← chunkAnswer_eq]
  rfl

theorem step_chunkRead (h : i < lastChunk m.bytesToRead) :
    (Driver.chunkRead r m i p).step prog answers = .chunkSent r m (i + 1) p := by
  have hbtr := chunkSize_lt_of_lt_lastChunk h
  have hsub : m.bytesToRead - chunkSize * i - chunkSize =
      m.bytesToRead - chunkSize * (i + 1) := by rw [Nat.mul_succ, Nat.sub_sub]
  have hpass : (r.atChunk m i p).receivePass prog =
      (r.atChunk m (i + 1) p).requestChunk (m.bytesToRead - chunkSize * (i + 1)) := by
    show (r.atChunk m i p).memReadCorCase prog = _
    rw [memReadCorCase_next (r := r.atChunk m i p) hbtr, ← hsub]
    rfl
  show Driver.returned ((r.atChunk m i p).receivePass prog) = _
  rw [hpass]
  rfl

theorem after_chunks (hn : n ≤ lastChunk m.bytesToRead) :
    (machine prog answers).after (2 * n + 1) (.chunkSent r m 0 (w, 0)) =
      .chunkRead r m n (w.readChunks answers r.pState m.pointer m.bytesToRead (n + 1)) := by
  induction n with
  | zero =>
    show (Driver.chunkSent r m 0 _).step prog answers = _
    rw [step_chunkSent]
    rfl
  | succ n ih =>
    rw [show 2 * (n + 1) + 1 = 2 * n + 1 + 1 + 1 by omega, Traced.after_succ, Traced.after_succ,
      ih (by omega)]
    show ((Driver.chunkRead r m n _).step prog answers).step prog answers = _
    rw [step_chunkRead (by omega), step_chunkSent, ← World.readChunks_succ]

-- ---------------------------------------------------------------------------
-- The visits before and after
-- ---------------------------------------------------------------------------

/-- What a read of `size` bytes reports when its last answer left `actual`. -/
def readState (resumePoint : Int) (pointer : UInt64) (size actual : Nat) : ReadState :=
  ReadState.settle
    { resumePoint := resumePoint, pointer := pointer, bytesToRead := size
      actualBytesRead := actual }
    (size - chunkSize * lastChunk size)

theorem resumePoint_settle (s : ReadState) (btr : Nat) :
    (s.settle btr).resumePoint = s.resumePoint := by
  simp only [ReadState.settle]
  split <;> rfl

/-- `MemReadCor` while a `BcAwaiter_ReadMemory` waits for its chunks. -/
def Root.readMemoryCor (r : Root G S) (pointer : UInt64) (size : Nat) : MemReadCor where
  inputParams := r.memReadCor.inputParams
  resumePoint := 1
  pointer := pointer
  bytesToRead := size % 2 ^ 32
  bufferPos := 0
  pCoroutine := none
  endDebuggerState := .coroutine

/-- `MemReadCor` when the last chunk has left `actual`. -/
def Root.readMemoryDone (r : Root G S) (pointer : UInt64) (size actual : Nat) : MemReadCor :=
  { r.readMemoryCor pointer size with
    toReadState := { readState 1 pointer (size % 2 ^ 32) actual with resumePoint := 0 }
    bufferPos := chunkSize * lastChunk (size % 2 ^ 32) }

/-- The root when the coroutine that reads memory is about to be resumed. -/
def Root.resumable (r : Root G S) (m : MemReadCor) (awaiter : Awaiter G S) (w : World G S) :
    Root G S :=
  { r with debuggerState := .coroutine, memReadCor := m, awaiterPtr := some awaiter, world := w }

theorem visit_readMemory (hptr : r.awaiterPtr = some ⟨.readMemory pointer size, v, k⟩)
    (hcor : r.memReadCor.pCoroutine = none) :
    r.visit prog = some (r.visitReadMemory ⟨.readMemory pointer size, v, k⟩ pointer size) := by
  simp only [Root.visit, hcor, hptr]

theorem visit_coroutine (hcor : r.memReadCor.pCoroutine = some c) :
    r.visit prog = some (r.visitCoroutine prog c) := by
  simp only [Root.visit, hcor]

theorem visitReadMemory_first :
    r.prepareReadMemory.visitReadMemory awaiter pointer size =
      { r with debuggerState := .memReadCor, memReadCor := r.readMemoryCor pointer size } := rfl

theorem pass_prepareReadMemory (hptr : r.awaiterPtr = some ⟨.readMemory pointer size, v, k⟩) :
    r.prepareReadMemory.receivePass prog =
      if size % 2 ^ 32 > bufferSize then
        (r.resumable (r.readMemoryCor pointer size) ⟨.readMemory pointer size, v, k⟩ r.world,
          .repeatLoop)
      else (r.atChunk (r.readMemoryCor pointer size) 0 (r.world, 0)).requestChunk
        (size % 2 ^ 32) := by
  have hvisit : r.prepareReadMemory.visit prog = _ := visit_readMemory hptr rfl
  rw [visitReadMemory_first] at hvisit
  show r.prepareReadMemory.memReadCorCase prog = _
  rw [memReadCorCase_visit (Nat.zero_le _) hvisit]
  have hended : (r.readMemoryCor pointer size).ended ↔ size % 2 ^ 32 > bufferSize := by
    simp [ReadState.ended, Root.readMemoryCor]
  refine if_congr hended ?_ rfl
  rw [Root.resumable, ← hptr]
  rfl

theorem visitReadMemory_last (hpoint : r.memReadCor.resumePoint = 1)
    (hptr : r.awaiterPtr = some awaiter) :
    r.visitReadMemory awaiter pointer size =
      { r with
        memReadCor := { r.memReadCor with resumePoint := 0 }
        awaiterPtr := some { awaiter with
          retVal := if r.memReadCor.readMemory_Succeeded then .buffer else awaiter.retVal } } := by
  cases h : r.memReadCor.readMemory_Succeeded with
  | true =>
    rw [ReadState.readMemory_Succeeded, beq_iff_eq] at h
    simp [Root.visitReadMemory, hpoint, h]
  | false =>
    rw [ReadState.readMemory_Succeeded, beq_eq_false_iff_ne] at h
    simp [Root.visitReadMemory, hpoint, h, hptr]

theorem pass_chunkRead (hptr : r.awaiterPtr = some ⟨.readMemory pointer size, v, k⟩) :
    (r.atChunk (r.readMemoryCor pointer size) (lastChunk (size % 2 ^ 32)) p).receivePass prog =
      (r.resumable (r.readMemoryDone pointer size p.2)
        ⟨.readMemory pointer size,
          if (readState 1 pointer (size % 2 ^ 32) p.2).readMemory_Succeeded then .buffer else v, k⟩
        p.1, .repeatLoop) := by
  have hbtr : (r.atChunk (r.readMemoryCor pointer size) (lastChunk (size % 2 ^ 32))
      p).memReadCor.btr ≤ chunkSize := le_chunkSize_of_lastChunk _
  have hvisit : (r.atChunk (r.readMemoryCor pointer size) (lastChunk (size % 2 ^ 32))
      p).settled.visit prog = _ := visit_readMemory hptr rfl
  have hpoint : (r.atChunk (r.readMemoryCor pointer size) (lastChunk (size % 2 ^ 32))
      p).settled.memReadCor.resumePoint = 1 := resumePoint_settle _ _
  rw [visitReadMemory_last hpoint hptr] at hvisit
  show Root.memReadCorCase prog _ = _
  rw [memReadCorCase_visit hbtr hvisit]
  exact if_pos (.inl (Int.le_refl 0))

def World.readMemory (answers : Nat → Packet) (pState : ManipulateState) (pointer : UInt64)
    (size : Nat) (w : World G S) : World G S × RetVal :=
  let size := size % 2 ^ 32
  if size > bufferSize then (w, .null)
  else
    let p := w.readChunks answers pState pointer size (lastChunk size + 1)
    (p.1, if (readState 1 pointer size p.2).readMemory_Succeeded then .buffer else .null)

variable (prog answers) in
theorem after_prepareReadMemory (hptr : r.awaiterPtr = some ⟨.readMemory pointer size, .null, k⟩) :
    ∃ n m, (machine prog answers).after (n + 1) ⟨r.prepareReadMemory, .receive⟩ =
      ⟨r.resumable m
        ⟨.readMemory pointer size, (r.world.readMemory answers r.pState pointer size).2, k⟩
        (r.world.readMemory answers r.pState pointer size).1, .receive⟩ := by
  have hfirst : (machine prog answers).after 1 ⟨r.prepareReadMemory, .receive⟩ = _ :=
    congrArg Driver.returned (pass_prepareReadMemory hptr)
  by_cases hsize : size % 2 ^ 32 > bufferSize
  · rw [if_pos hsize] at hfirst
    refine ⟨0, r.readMemoryCor pointer size, hfirst.trans ?_⟩
    simp only [World.readMemory, if_pos hsize]
    rfl
  · rw [if_neg hsize] at hfirst
    have hchunks : (machine prog answers).after (2 * lastChunk (size % 2 ^ 32) + 1)
        (.chunkSent r (r.readMemoryCor pointer size) 0 (r.world, 0)) = _ :=
      after_chunks (Nat.le_refl _)
    have hlast : (machine prog answers).after 1 (.chunkRead r (r.readMemoryCor pointer size)
        (lastChunk (size % 2 ^ 32)) (r.world.readChunks answers r.pState pointer (size % 2 ^ 32)
          (lastChunk (size % 2 ^ 32) + 1))) = _ := congrArg Driver.returned (pass_chunkRead hptr)
    simp only [World.readMemory, if_neg hsize]
    refine ⟨1 + (2 * lastChunk (size % 2 ^ 32) + 1), _, Eq.trans ?_ hlast⟩
    rw [Traced.after_add, hfirst, Traced.after_add]
    exact congrArg _ hchunks

/-- `MemReadCor` after the old-style coroutine has been called. -/
def Root.calledCor (r : Root G S) (prog : Program G S) : MemReadCor :=
  { r.memReadCor with
    toReadState := (r.world.discover prog r.memReadCor.inputParams
      (r.memReadCor.settle r.memReadCor.btr)).2.apply }

theorem pass_coroutine (hstate : r.debuggerState = .memReadCor)
    (hbtr : r.memReadCor.btr ≤ chunkSize)
    (hcor : r.memReadCor.pCoroutine = some .discoverBytePointerPosInModules) :
    r.receivePass prog =
      let w := (r.world.discover prog r.memReadCor.inputParams
        (r.memReadCor.settle r.memReadCor.btr)).1
      if (r.calledCor prog).ended then
        ({ r with
            debuggerState := r.memReadCor.endDebuggerState
            memReadCor := r.calledCor prog
            world := w }, .repeatLoop)
      else (r.atChunk (r.calledCor prog) 0 (w, 0)).requestChunk
        (r.calledCor prog).bytesToRead := by
  have hvisit : r.settled.visit prog = some
      { r with
        memReadCor := r.calledCor prog
        world := (r.world.discover prog r.memReadCor.inputParams
          (r.memReadCor.settle r.memReadCor.btr)).1 } := visit_coroutine hcor
  have hpass : r.receivePass prog = r.memReadCorCase prog := by simp only [Root.receivePass, hstate]
  rw [hpass, memReadCorCase_visit hbtr hvisit]
  refine if_congr Iff.rfl rfl ?_
  rw [Root.atChunk, ← hstate, Root.calledCor]
  cases (r.world.discover prog r.memReadCor.inputParams
    (r.memReadCor.settle r.memReadCor.btr)).2 <;> rfl

/-- From the call of the old-style coroutine that asks for a read to the answer
of the last chunk, which is where the coroutine is called again. -/
theorem after_coroutine (hstate : r.debuggerState = .memReadCor)
    (hbtr : r.memReadCor.btr ≤ chunkSize)
    (hcor : r.memReadCor.pCoroutine = some .discoverBytePointerPosInModules)
    (hread : ¬(r.calledCor prog).ended) :
    (machine prog answers).after (2 * lastChunk (r.calledCor prog).bytesToRead + 1 + 1)
      ⟨r, .receive⟩ =
    .chunkRead r (r.calledCor prog) (lastChunk (r.calledCor prog).bytesToRead)
      ((r.world.discover prog r.memReadCor.inputParams
        (r.memReadCor.settle r.memReadCor.btr)).1.readChunks answers r.pState
          (r.calledCor prog).pointer (r.calledCor prog).bytesToRead
          (lastChunk (r.calledCor prog).bytesToRead + 1)) := by
  have hpass : r.receivePass prog = _ := pass_coroutine hstate hbtr hcor
  rw [if_neg hread] at hpass
  rw [Traced.after_succ', ← after_chunks (Nat.le_refl _)]
  exact congrArg _ (congrArg Driver.returned hpass)

end

-- ---------------------------------------------------------------------------
-- All or nothing
-- ---------------------------------------------------------------------------

/-- What KD answers to a request for `count` bytes: a failure, or a success with
at least one and at most `count` bytes. -/
def ChunkAnswer (count : Nat) (answer : Packet) : Prop :=
  answer.state.apiNumber = dbgKdReadVirtualMemoryApi ∧
    (ntSuccess answer.state.returnStatus = true →
      ∃ bytes, answer.second = some bytes ∧ 1 ≤ bytes.length ∧ bytes.length ≤ count ∧
        answer.state.actualBytesRead = bytes.length)

/-- A success with all the bytes of the request. -/
def Full (count : Nat) (answer : Packet) : Prop :=
  ∃ bytes, answer.delivered = some bytes ∧ bytes.length = count

/-- A read of `size` bytes whose first answer is `first` succeeds exactly when
all its chunks do, and then the buffer holds their bytes in order. -/
def AllOrNothing (answers : Nat → Packet) (first size : Nat) (succeeded : Prop)
    (buffer : Bytes.Memory) : Prop :=
  (succeeded ↔ ∀ i ≤ lastChunk size, Full (chunkCount size i) (answers (first + i))) ∧
    (succeeded → Bytes.load buffer 0 size =
      (List.range (lastChunk size + 1)).flatMap fun i => (answers (first + i)).bytes)

/-- No chunk falls short before a last one that does not. -/
def LastIsWorst (answers : Nat → Packet) (first size : Nat) : Prop :=
  Full (chunkCount size (lastChunk size)) (answers (first + lastChunk size)) →
    ∀ i < lastChunk size, Full (chunkCount size i) (answers (first + i))

theorem Packet.bytes_length (h : ChunkAnswer count answer) : answer.bytes.length ≤ count := by
  simp only [Packet.bytes, Packet.delivered]
  split
  · next bytes hsecond =>
    split
    · next hok =>
      obtain ⟨bytes', hbytes, -, hle, -⟩ := h.2 hok.1
      cases hsecond.symm.trans hbytes
      exact hle
    · exact Nat.zero_le _
  · exact Nat.zero_le _

theorem full_iff (hpos : 1 ≤ count) :
    Full count answer ↔ answer.bytes.length = count := by
  simp only [Full, Packet.bytes]
  cases answer.delivered with
  | some bytes => simp
  | none =>
    simp only [reduceCtorEq, false_and, exists_false, Option.getD_none, List.length_nil, false_iff]
    omega

theorem load_chunk (buffer : Bytes.Memory) (pos : Nat) (bytes : List UInt8) :
    Bytes.load (Bytes.store buffer pos bytes) 0 (pos + bytes.length) =
      Bytes.load buffer 0 pos ++ bytes := by
  rw [Bytes.load_add, Bytes.load_store_of_disjoint (.inl (Nat.le_of_eq (Nat.zero_add pos))),
    Nat.zero_add, Bytes.load_store]

section
variable {answers : Nat → Packet} {w : World G S}

theorem answered_readChunks :
    (w.readChunks answers pState pointer size n).1.answered = w.answered + n := by
  induction n with
  | zero => rfl
  | succ n ih =>
    rw [World.readChunks_succ]
    show (w.readChunks answers pState pointer size n).1.answered + 1 = _
    rw [ih, Nat.add_assoc]

theorem readChunks_succ_ok (h : ChunkAnswer count (answers (w.answered + n))) :
    (w.readChunks answers pState pointer size (n + 1)).2 =
        (answers (w.answered + n)).bytes.length ∧
      (w.readChunks answers pState pointer size (n + 1)).1.memory.buffer =
        Bytes.store (w.readChunks answers pState pointer size n).1.memory.buffer (chunkSize * n)
          (answers (w.answered + n)).bytes := by
  have hchunk : w.readChunks answers pState pointer size (n + 1) = _ := World.readChunks_succ w
  simp only [World.readChunk, World.record, answered_readChunks, takeChunk, if_pos h.1] at hchunk
  rw [hchunk]
  exact ⟨rfl, rfl⟩

theorem buffer_readChunks (hpos : 1 ≤ size) (hn : n ≤ lastChunk size + 1)
    (h : ∀ i < n, ChunkAnswer (chunkCount size i) (answers (w.answered + i)))
    (hfull : ∀ i < n, (answers (w.answered + i)).bytes.length = chunkCount size i) :
    Bytes.load (w.readChunks answers pState pointer size n).1.memory.buffer 0
        (min size (chunkSize * n)) =
      (List.range n).flatMap fun i => (answers (w.answered + i)).bytes := by
  induction n with
  | zero => simp [Bytes.load]
  | succ n ih =>
    have hprev := ih (by omega) (fun i hi => h i (by omega)) (fun i hi => hfull i (by omega))
    have hmin : min size (chunkSize * n) = chunkSize * n := by
      simp only [lastChunk, chunkSize] at hn ⊢
      omega
    rw [(readChunks_succ_ok (h n (by omega))).2, ← min_add_chunkCount (by omega) hpos,
      ← hfull n (by omega), load_chunk, ← hmin, hprev, List.range_succ, List.flatMap_append]
    simp

theorem succeeded_iff (hpos : 1 ≤ size) (hactual : actual ≤ chunkCount size (lastChunk size)) :
    (readState resumePoint pointer size actual).readMemory_Succeeded = true ↔
      actual = chunkCount size (lastChunk size) := by
  have hcount : chunkCount size (lastChunk size) = size - chunkSize * lastChunk size :=
    Nat.min_eq_right (le_chunkSize_of_lastChunk size)
  have hsome : size - chunkSize * lastChunk size ≠ 0 := by
    simp only [lastChunk, chunkSize]
    omega
  rw [hcount] at hactual ⊢
  simp only [readState, ReadState.settle]
  split
  · next h => simp [ReadState.readMemory_Succeeded, h.2]
  · next h =>
    simp only [ReadState.readMemory_Succeeded, beq_iff_eq]
    constructor
    · intro heq
      exact absurd ⟨hsome, by omega⟩ h
    · intro heq
      exact absurd ⟨hsome, heq⟩ h

/-- What the reads report is all or nothing exactly when the last chunk is the
worst: it is the only one that decides. -/
theorem allOrNothing_iff (hpos : 1 ≤ size)
    (h : ∀ i ≤ lastChunk size, ChunkAnswer (chunkCount size i) (answers (w.answered + i)))
    (hsucceeded : succeeded ↔
      (readState resumePoint pointer size
        (w.readChunks answers pState pointer size (lastChunk size + 1)).2).readMemory_Succeeded) :
    AllOrNothing answers w.answered size succeeded
        (w.readChunks answers pState pointer size (lastChunk size + 1)).1.memory.buffer ↔
      LastIsWorst answers w.answered size := by
  have hcount : ∀ i ≤ lastChunk size, 1 ≤ chunkCount size i := by
    intro i hi
    simp only [lastChunk, chunkCount, chunkSize] at hi ⊢
    omega
  have hfull : ∀ i ≤ lastChunk size, (Full (chunkCount size i) (answers (w.answered + i)) ↔
      (answers (w.answered + i)).bytes.length = chunkCount size i) :=
    fun i hi => full_iff (hcount i hi)
  have hlast := h _ (Nat.le_refl _)
  have hle : (answers (w.answered + lastChunk size)).bytes.length ≤
      chunkCount size (lastChunk size) := Packet.bytes_length hlast
  rw [(readChunks_succ_ok hlast).1, succeeded_iff hpos hle, ← hfull _ (Nat.le_refl _)]
    at hsucceeded
  constructor
  · rintro ⟨hall, -⟩ hfullLast i hi
    exact hall.mp (hsucceeded.mpr hfullLast) i (Nat.le_of_lt hi)
  · intro hworst
    have hall : succeeded ↔ ∀ i ≤ lastChunk size,
        Full (chunkCount size i) (answers (w.answered + i)) := by
      constructor
      · intro hs i hi
        rcases Nat.lt_or_eq_of_le hi with hlt | rfl
        · exact hworst (hsucceeded.mp hs) i hlt
        · exact hsucceeded.mp hs
      · exact fun hs => hsucceeded.mpr (hs _ (Nat.le_refl _))
    refine ⟨hall, fun hs => ?_⟩
    have hmin : min size (chunkSize * (lastChunk size + 1)) = size := by
      simp only [lastChunk, chunkSize]
      omega
    rw [← buffer_readChunks hpos (Nat.le_refl _) (fun i hi => h i (Nat.le_of_lt_succ hi))
      (fun i hi => (hfull i (Nat.le_of_lt_succ hi)).mp (hall.mp hs i (Nat.le_of_lt_succ hi))), hmin]

end

theorem bufferOrNull_ne_null {b : Bool} :
    (if b then RetVal.buffer else RetVal.null) ≠ RetVal.null ↔ b = true := by
  cases b <;> decide

def World.read (answers : Nat → Packet) (pState : ManipulateState) (w : World G S)
    (pointer : UInt64)
    (size : Nat) : Option Bytes.Memory :=
  if (w.readMemory answers pState pointer size).2 = .null then none
  else some (w.readMemory answers pState pointer size).1.memory.buffer

/-- The answers of a read bring what is in the memory of the target. -/
def Tells (memory : UInt64 → UInt8) (answers : Nat → Packet) (first : Nat) (pointer : UInt64)
    (size : Nat) : Prop :=
  ∀ i ≤ lastChunk size, ChunkAnswer (chunkCount size i) (answers (first + i)) ∧
    (answers (first + i)).bytes = (List.range (answers (first + i)).bytes.length).map fun t =>
      memory (pointer + UInt64.ofNat (chunkSize * i + t))

section
variable {memory : UInt64 → UInt8} {answers : Nat → Packet}

theorem flatMap_tells (hpos : 1 ≤ size) (hn : n ≤ lastChunk size + 1)
    (htells : Tells memory answers first pointer size)
    (hfull : ∀ i ≤ lastChunk size, (answers (first + i)).bytes.length = chunkCount size i) :
    ((List.range n).flatMap fun i => (answers (first + i)).bytes) =
      (List.range (min size (chunkSize * n))).map fun t => memory (pointer + UInt64.ofNat t) := by
  induction n with
  | zero => simp
  | succ n ih =>
    have hle : n ≤ lastChunk size := Nat.le_of_lt_succ hn
    have hstart : min size (chunkSize * n) = chunkSize * n := by
      simp only [lastChunk, chunkSize] at hle ⊢
      omega
    rw [List.range_succ, List.flatMap_append, ih (Nat.le_of_succ_le hn), List.flatMap_singleton,
      (htells n hle).2, hfull n hle, ← min_add_chunkCount hle hpos, hstart, List.range_add,
      List.map_append, List.map_map]
    rfl

theorem readMemory_tells {w : World G S} (hpos : 1 ≤ size) (hsize : size ≤ 32 * 1024)
    (htells : Tells memory answers w.answered pointer size)
    (hworst : LastIsWorst answers w.answered size)
    (hread : (w.readMemory answers pState pointer size).2 ≠ .null) (ht : t < size) :
    (w.readMemory answers pState pointer size).1.memory.buffer t =
      memory (pointer + UInt64.ofNat t) := by
  have hmod : size % 2 ^ 32 = size := Nat.mod_eq_of_lt (by omega)
  have hfits : ¬size > bufferSize := Nat.not_lt_of_le hsize
  have hchunks : ∀ i ≤ lastChunk size,
      ChunkAnswer (chunkCount size i) (answers (w.answered + i)) := fun i hi => (htells i hi).1
  simp only [World.readMemory, hmod, if_neg hfits] at hread ⊢
  obtain ⟨hall, hbuffer⟩ := (allOrNothing_iff hpos hchunks bufferOrNull_ne_null).mpr hworst
  have hfull : ∀ i ≤ lastChunk size,
      (answers (w.answered + i)).bytes.length = chunkCount size i := by
    intro i hi
    refine (full_iff ?_).mp (hall.mp hread i hi)
    simp only [lastChunk, chunkCount, chunkSize] at hi ⊢
    omega
  have hmin : min size (chunkSize * (lastChunk size + 1)) = size := by
    simp only [lastChunk, chunkSize]
    omega
  have hload := hbuffer hread
  rw [flatMap_tells hpos (Nat.le_refl _) htells hfull, hmin] at hload
  simpa [Bytes.load, ht] using congrArg (·[t]?) hload

theorem read_tells {w : World G S} (hpos : 1 ≤ size) (hsize : size ≤ 32 * 1024)
    (htells : Tells memory answers w.answered pointer size)
    (hworst : LastIsWorst answers w.answered size)
    (hread : w.read answers pState pointer size = some ptr) (ht : t < size) :
    ptr t = memory (pointer + UInt64.ofNat t) := by
  unfold World.read at hread
  split at hread
  · cases hread
  · next hnull =>
    rw [← Option.some.inj hread]
    exact readMemory_tells hpos hsize htells hworst hnull ht

theorem lastIsWorst_of_oneChunk (h : size ≤ chunkSize) : LastIsWorst answers first size := by
  intro _ i hi
  simp only [lastChunk, chunkSize] at h hi
  omega

end

theorem processAwaiter_readMemory {r : Root G S}
    (hptr : r.awaiterPtr = some ⟨.readMemory pointer size, v, k⟩) :
    r.processAwaiter prog = (r.prepareReadMemory, .repeatLoop) := by
  cases r
  cases hptr
  rfl

/-- Both kinds of coroutine see an all-or-nothing read exactly when no chunk
falls short before a full last one. The first half is `BcAwaiter_ReadMemory`,
followed to its resumption; the second is the old-style coroutine, followed to
its next call. -/
theorem readMemory_allOrNothing_iff (prog : Program G S) (answers : Nat → Packet) (r : Root G S)
    (pointer : UInt64) (size : Nat) (hpos : 1 ≤ size) (hsize : size ≤ 32 * 1024)
    (hanswers : ∀ i ≤ lastChunk size,
      ChunkAnswer (chunkCount size i) (answers (r.world.answered + i))) :
    (∀ k, r.awaiterPtr = some ⟨.readMemory pointer size, .null, k⟩ →
      ∃ n r' v, (machine prog answers).after n ⟨(r.processAwaiter prog).1, .receive⟩ =
          ⟨r', .receive⟩ ∧
        r'.debuggerState = .coroutine ∧
        r'.awaiterPtr = some ⟨.readMemory pointer size, v, k⟩ ∧
        r'.world.answered = r.world.answered + (lastChunk size + 1) ∧
        (AllOrNothing answers r.world.answered size (v ≠ .null) r'.world.memory.buffer ↔
          LastIsWorst answers r.world.answered size)) ∧
    (∀ k > 0, r.debuggerState = .memReadCor → r.memReadCor.btr ≤ chunkSize →
      r.memReadCor.pCoroutine = some .discoverBytePointerPosInModules →
      (prog.discoverBytePointerPosInModules r.memReadCor.inputParams
        (r.memReadCor.settle r.memReadCor.btr) r.world.memory).2 = .readMemory k pointer size →
      ∃ n r', (machine prog answers).after n ⟨r, .receive⟩ = ⟨r', .receive⟩ ∧
        r'.debuggerState = .memReadCor ∧ r'.memReadCor.btr ≤ chunkSize ∧
        r'.memReadCor.pCoroutine = some .discoverBytePointerPosInModules ∧
        r'.memReadCor.resumePoint = k ∧
        r'.world.answered = r.world.answered + (lastChunk size + 1) ∧
        (AllOrNothing answers r.world.answered size
            (r'.memReadCor.settle r'.memReadCor.btr).readMemory_Succeeded
            r'.world.memory.buffer ↔
          LastIsWorst answers r.world.answered size)) := by
  have hmod : size % 2 ^ 32 = size := Nat.mod_eq_of_lt (by omega)
  have hfits : ¬size > bufferSize := Nat.not_lt_of_le hsize
  refine ⟨fun k hptr => ?_, fun k hk hstate hbtr hcor hcall => ?_⟩
  · obtain ⟨n, m, hrun⟩ := after_prepareReadMemory prog answers hptr
    rw [processAwaiter_readMemory hptr]
    refine ⟨_, _, _, hrun, rfl, rfl, ?_, ?_⟩
    · simp only [Root.resumable, World.readMemory, hmod, if_neg hfits, answered_readChunks]
    · simp only [Root.resumable, World.readMemory, hmod, if_neg hfits]
      exact allOrNothing_iff hpos hanswers bufferOrNull_ne_null
  · have hcalled : (r.calledCor prog).toReadState =
        { resumePoint := k, pointer := pointer, bytesToRead := size } := by
      simp only [Root.calledCor, World.discover, hcall, ReadCall.apply, hmod]
    have hread : ¬(r.calledCor prog).ended := by
      simp only [ReadState.ended, hcalled, bufferSize]
      omega
    refine ⟨_, _, after_coroutine hstate hbtr hcor hread, rfl, le_chunkSize_of_lastChunk _, hcor,
      ?_, ?_, ?_⟩
    · show (r.calledCor prog).resumePoint = k
      rw [hcalled]
    · show (World.readChunks ..).1.answered = _
      rw [answered_readChunks, hcalled]
      rfl
    · have hworld : (r.world.discover prog r.memReadCor.inputParams
          (r.memReadCor.settle r.memReadCor.btr)).1.answered = r.world.answered := rfl
      rw [← hworld] at hanswers ⊢
      simp only [Root.atChunk, hcalled]
      exact allOrNothing_iff hpos hanswers Iff.rfl

/-- A coroutine that reads 1025 bytes, and an old-style one that does. -/
def readProbe : Program Unit Unit where
  entryPoint := ()
  run _ memory := (memory, .await (.readMemory 0x1000 1025) fun _ => ())
  discoverBytePointerPosInModules _ _ memory := (memory, .readMemory 1 0x1000 1025)
  psLoadedModuleList _ := 0
  userProbeAddress _ := 0
  getPcrAddress _ := 0

def readProbeRoot (awaiterPtr : Option (Awaiter Unit Unit)) : Root Unit Unit where
  debuggerState := .memReadCor
  awaiterPtr := awaiterPtr
  awaiterStack := []
  memReadCor :=
    { inputParams := ⟨0, 0, 0, 0, 0, 0⟩
      bufferPos := 0
      pCoroutine := some .discoverBytePointerPosInModules
      endDebuggerState := .coroutine }
  processorLevel := 0
  processor := 0
  world := { memory := ⟨(), fun _ => 0, false⟩ }

def readProbeAwaiter : Awaiter Unit Unit := ⟨.readMemory 0x1000 1025, .null, fun _ => ()⟩

/-- An answer with `count` bytes, and a failure (`STATUS_UNSUCCESSFUL`). -/
def successAnswer (count : Nat) : Packet where
  state := { apiNumber := dbgKdReadVirtualMemoryApi, actualBytesRead := count }
  second := some (List.replicate count 0x41)

def failureAnswer : Packet where
  state := { apiNumber := dbgKdReadVirtualMemoryApi, returnStatus := 0xC0000001 }

theorem successAnswer_ok (h : 1 ≤ count) : ChunkAnswer count (successAnswer count) :=
  ⟨rfl, fun _ => ⟨_, rfl, by simpa using h, by simp, by simp [successAnswer]⟩⟩

theorem successAnswers_ok (i : Nat) (hi : i ≤ lastChunk 1025) :
    ChunkAnswer (chunkCount 1025 i) (successAnswer (chunkCount 1025 (0 + i))) := by
  have hi : i ≤ 1 := hi
  rw [Nat.zero_add]
  refine successAnswer_ok ?_
  simp only [chunkCount, chunkSize]
  omega

theorem readMemory_allOrNothing_full :
    let answers i := successAnswer (chunkCount 1025 i)
    let r := readProbeRoot (some readProbeAwaiter)
    (∃ n r' v, (machine readProbe answers).after n ⟨(r.processAwaiter readProbe).1, .receive⟩ =
        ⟨r', .receive⟩ ∧
      r'.debuggerState = .coroutine ∧
      r'.awaiterPtr = some ⟨.readMemory 0x1000 1025, v, fun _ => ()⟩ ∧
      r'.world.answered = 0 + (lastChunk 1025 + 1) ∧
      (AllOrNothing answers 0 1025 (v ≠ .null) r'.world.memory.buffer ↔
        LastIsWorst answers 0 1025)) ∧
    ∃ n r', (machine readProbe answers).after n ⟨r, .receive⟩ = ⟨r', .receive⟩ ∧
      r'.debuggerState = .memReadCor ∧ r'.memReadCor.btr ≤ chunkSize ∧
      r'.memReadCor.pCoroutine = some .discoverBytePointerPosInModules ∧
      r'.memReadCor.resumePoint = 1 ∧
      r'.world.answered = 0 + (lastChunk 1025 + 1) ∧
      (AllOrNothing answers 0 1025
          (r'.memReadCor.settle r'.memReadCor.btr).readMemory_Succeeded
          r'.world.memory.buffer ↔
        LastIsWorst answers 0 1025) := by
  intro answers r
  have h := readMemory_allOrNothing_iff readProbe answers r 0x1000 1025 (by decide) (by decide)
    successAnswers_ok
  exact ⟨h.1 _ rfl, h.2 1 (by decide) rfl (by decide) rfl rfl⟩

/-- The first chunk of 1024 bytes fails, the second one of a single byte does
not, and the coroutine is handed the buffer. -/
theorem readMemory_firstChunkFails :
    let answers i := if i = 0 then failureAnswer else successAnswer 1
    let r := readProbeRoot (some readProbeAwaiter)
    let d := (machine readProbe answers).after 5 ⟨(r.processAwaiter readProbe).1, .receive⟩
    (∀ i ≤ lastChunk 1025, ChunkAnswer (chunkCount 1025 i) (answers i)) ∧
      d.phase = .receive ∧ d.root.debuggerState = .coroutine ∧
      d.root.awaiterPtr.map (·.retVal) = some .buffer ∧
      ¬AllOrNothing answers 0 1025 (RetVal.buffer ≠ .null) d.root.world.memory.buffer := by
  refine ⟨fun i hi => ?_, rfl, rfl, rfl, ?_⟩
  · have hi : i ≤ 1 := hi
    rcases Nat.le_one_iff_eq_zero_or_eq_one.mp hi with rfl | rfl
    · exact ⟨rfl, fun h => absurd h (by decide)⟩
    · exact successAnswer_ok (by decide)
  · rintro ⟨hall, -⟩
    obtain ⟨bytes, hbytes, -⟩ := hall.mp (by decide) 0 (by decide)
    cases hbytes

end BugChecker.Kd
