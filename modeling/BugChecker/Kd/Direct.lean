import BugChecker.Kd.ChunkedRead

/-!
# The scheduler computes direct-style evaluation

Here an await is an ordinary call: a request is sent and its answer processed, a
memory read is a loop over its chunks, a join runs the child to its end. The
scheduler spreads the same evaluation over `AwaiterPtr`, `AwaiterStack`,
`DebuggerState` and `MemReadCor`, and gets the same log. Programs need not end,
so the evaluator takes fuel and both directions compare prefixes of the logs.
-/

namespace BugChecker.Kd

-- ---------------------------------------------------------------------------
-- Direct-style evaluation
-- ---------------------------------------------------------------------------

section
variable (prog : Program G S) (answers : Nat → Packet) (pState : ManipulateState)

/-- The old-style coroutine as a call: until it asks for no further read. -/
def World.discoverLoop (params : DiscoverParams) :
    Nat → ReadState → World G S → World G S × Bool
  | 0, _, w => (w, false)
  | fuel + 1, seen, w =>
    let p := w.discover prog params seen
    let s := p.2.apply
    if s.ended then (p.1, true)
    else
      let q := p.1.readChunks answers pState s.pointer s.bytesToRead (lastChunk s.bytesToRead + 1)
      World.discoverLoop params fuel
        (readState s.resumePoint s.pointer s.bytesToRead q.2) q.1

def World.manipulate (prepareRequest : Memory G → ManipulateState → Memory G × Packet)
    (processResponse : Memory G → Packet → Memory G × Bool) (w : World G S) :
    World G S × RetVal :=
  let p := prepareRequest w.memory pState
  let w := { w with memory := p.1 }.record (.send p.2)
  let q := processResponse w.memory (answers w.answered)
  ({ w with memory := q.1, answered := w.answered + 1 }, .boolean q.2)

/-- What an await computes, given what a join does; no value when out of fuel. -/
def World.await (join : S → World G S → World G S × Bool) (fuel : Nat) (w : World G S) :
    Await G S → World G S × Option RetVal
  | .stateManipulate prepareRequest processResponse =>
    let p := w.manipulate answers pState prepareRequest processResponse
    (p.1, some p.2)
  | .readMemory pointer size =>
    let p := w.readMemory answers pState pointer size
    (p.1, some p.2)
  | .discoverPosInModules outputBuffer debugInfo bytePointer =>
    let params := prog.discoverParams outputBuffer debugInfo bytePointer w.memory.globals
    let p := w.discoverLoop prog answers pState params fuel {}
    (p.1, if p.2 then some (.boolean true) else none)
  | .recvTimeout => (w.record .timeout, some (.boolean true))
  | .join coroutine =>
    let p := join coroutine w
    (p.1, if p.2 then some (.boolean true) else none)

def World.eval : Nat → Suspension G S → World G S → World G S × Bool
  | _, .finished, w => (w, true)
  | 0, .await .., w => (w, false)
  | fuel + 1, .await function coroHandle, w =>
    let join s w := World.eval fuel (World.run prog none s w).2 (World.run prog none s w).1
    match w.await prog answers pState join fuel function with
    | (w, none) => (w, false)
    | (w, some v) =>
      World.eval fuel (w.run prog (some v) (coroHandle v)).2
        (w.run prog (some v) (coroHandle v)).1

/-- `Main::EntryPoint()` from its start, then the request to continue. -/
def World.direct (fuel : Nat) (w : World G S) : World G S × Bool :=
  let p := w.run prog none prog.entryPoint
  let q := p.1.eval prog answers pState fuel p.2
  if q.2 then
    ({ q.1 with memory := { q.1.memory with trace := false } }.record
      (.send (continueRequest pState q.1.memory.trace)), true)
  else q

end

-- ---------------------------------------------------------------------------
-- One await
-- ---------------------------------------------------------------------------

section
variable {prog : Program G S} {answers : Nat → Packet} {r : Root G S} {w w' : World G S}

/-- `ProcessAwaiter` is about to be called for a suspended coroutine. -/
def Driver.suspended (r : Root G S) (m : MemReadCor) (s : Suspension G S) (w : World G S) :
    Driver G S :=
  ⟨{ r with
      debuggerState := .processAwaiter, awaiterPtr := s.awaiter, memReadCor := m, world := w },
    .receive⟩

/-- A coroutine is about to be resumed with the value of its awaiter. -/
def Driver.resumable (r : Root G S) (m : MemReadCor) (function : Await G S) (v : RetVal)
    (coroHandle : RetVal → S) (w : World G S) : Driver G S :=
  ⟨r.resumable m ⟨function, v, coroHandle⟩ w, .receive⟩

/-- The pass that resumes a coroutine goes on to process what it is suspended on
next. -/
theorem reaches_resume :
    (machine prog answers).Reaches 0 (.resumable r m function v coroHandle w)
      (.suspended r m (w.run prog (some v) (coroHandle v)).2
        (w.run prog (some v) (coroHandle v)).1) :=
  .of_step_eq rfl (World.log_run w)

theorem reaches_parent :
    (machine prog answers).Reaches 1
      (.suspended { r with awaiterStack := ⟨function, v, coroHandle⟩ :: r.awaiterStack }
        m .finished w)
      (.resumable r m function v coroHandle w) := .of_step rfl

theorem reaches_manipulate :
    (machine prog answers).Reaches 1
      (.suspended r m (.await (.stateManipulate prepareRequest processResponse) coroHandle) w)
      (.resumable r m (.stateManipulate prepareRequest processResponse)
        (w.manipulate answers r.pState prepareRequest processResponse).2 coroHandle
        (w.manipulate answers r.pState prepareRequest processResponse).1) :=
  (Traced.Reaches.of_step rfl).trans (.of_step rfl) |>.mono (by decide)

theorem reaches_readMemory :
    ∃ m', (machine prog answers).Reaches 1
      (.suspended r m (.await (.readMemory pointer size) coroHandle) w)
      (.resumable r m' (.readMemory pointer size) (w.readMemory answers r.pState pointer size).2
        coroHandle (w.readMemory answers r.pState pointer size).1) := by
  let d := Driver.suspended r m (.await (.readMemory pointer size) coroHandle) w
  obtain ⟨n, m', hrun⟩ := after_prepareReadMemory prog answers (r := d.root) rfl
  have hprepare : (machine prog answers).Reaches 1 d ⟨d.root.prepareReadMemory, .receive⟩ :=
    .of_step rfl
  exact ⟨m', (hprepare.trans (.of_after hrun)).mono (Nat.le_add_right ..)⟩

-- ---------------------------------------------------------------------------
-- The old-style coroutine
-- ---------------------------------------------------------------------------

/-- The next pass calls the old-style coroutine, which then sees `seen`. -/
structure Root.AtCall (r : Root G S) (params : DiscoverParams) (seen : ReadState) : Prop where
  state : r.debuggerState = .memReadCor
  btr : r.memReadCor.btr ≤ chunkSize
  coroutine : r.memReadCor.pCoroutine = some .discoverBytePointerPosInModules
  ends : r.memReadCor.endDebuggerState = .coroutine
  params : r.memReadCor.inputParams = params
  seen : r.memReadCor.settle r.memReadCor.btr = seen

theorem reaches_call_end (h : r.AtCall params seen)
    (hended : (r.world.discover prog params seen).2.apply.ended) :
    ∃ m', (machine prog answers).Reaches 1 ⟨r, .receive⟩
      ⟨{ r with
          debuggerState := .coroutine
          memReadCor := m'
          world := (r.world.discover prog params seen).1 }, .receive⟩ := by
  obtain ⟨hstate, hbtr, hcor, hends, rfl, rfl⟩ := h
  have hended : (r.calledCor prog).ended := hended
  have hpass : r.receivePass prog = _ := pass_coroutine hstate hbtr hcor
  rw [if_pos hended, hends] at hpass
  exact ⟨_, .of_step (congrArg Driver.returned hpass)⟩

theorem reaches_call_read (h : r.AtCall params seen)
    (hread : ¬(r.world.discover prog params seen).2.apply.ended) :
    let p := r.world.discover prog params seen
    let s := p.2.apply
    let q := p.1.readChunks answers r.pState s.pointer s.bytesToRead (lastChunk s.bytesToRead + 1)
    ∃ m', (machine prog answers).Reaches 1 ⟨r, .receive⟩
        ⟨{ r with memReadCor := m', world := q.1 }, .receive⟩ ∧
      { r with memReadCor := m', world := q.1 }.AtCall params
        (readState s.resumePoint s.pointer s.bytesToRead q.2) := by
  obtain ⟨hstate, hbtr, hcor, hends, rfl, rfl⟩ := h
  intro p s q
  have hrun : (machine prog answers).Reaches _ ⟨r, .receive⟩ _ :=
    .of_after (after_coroutine hstate hbtr hcor hread)
  have hchunk : (Driver.chunkRead r (r.calledCor prog) (lastChunk s.bytesToRead) q) =
      ⟨{ r with
          memReadCor := { r.calledCor prog with
            bufferPos := chunkSize * lastChunk s.bytesToRead, actualBytesRead := q.2 }
          world := q.1 }, .receive⟩ := by
    rw [Driver.chunkRead, Root.atChunk, ← hstate]
  refine ⟨{ r.calledCor prog with
    bufferPos := chunkSize * lastChunk s.bytesToRead, actualBytesRead := q.2 }, ?_, ?_⟩
  · rw [← hchunk]
    exact hrun.mono (Nat.le_add_left ..)
  · exact ⟨hstate, le_chunkSize_of_lastChunk _, hcor, hends, rfl, rfl⟩

-- ---------------------------------------------------------------------------
-- Simulation
-- ---------------------------------------------------------------------------

/-- The next step does not release the target. -/
def Driver.Running (prog : Program G S) (answers : Nat → Packet) (d : Driver G S) : Prop :=
  (d.step prog answers).phase ≠ .continued

/-- The run of `c` matches an evaluation: it gets to where the evaluation ends,
or as far as the fuel did, and that takes a step for each unit of fuel. -/
structure Simulates (prog : Program G S) (answers : Nat → Packet) (fuel : Nat) (c : Driver G S)
    (p : World G S × Bool) (done : MemReadCor → World G S → Driver G S) : Prop where
  finished : p.2 = true → ∃ m, (machine prog answers).Reaches 0 c (done m p.1)
  unfinished : p.2 = false →
    ∃ d, (machine prog answers).Reaches fuel c d ∧ d.log = p.1.log ∧ d.Running prog answers

theorem Simulates.after_reaches (hreaches : (machine prog answers).Reaches 1 c c')
    (h : Simulates prog answers fuel c' p done) : Simulates prog answers (fuel + 1) c p done where
  finished hp := by
    obtain ⟨m, hm⟩ := h.finished hp
    exact ⟨m, (hreaches.trans hm).mono (Nat.zero_le _)⟩
  unfinished hp := by
    obtain ⟨d, hd, hlog, hrunning⟩ := h.unfinished hp
    exact ⟨d, (hreaches.trans hd).mono (by omega), hlog, hrunning⟩

theorem running_call (h : r.AtCall params seen) :
    Driver.Running prog answers ⟨r, .receive⟩ := by
  have hpass : r.receivePass prog = _ := pass_coroutine h.state h.btr h.coroutine
  show (Driver.returned (r.receivePass prog)).phase ≠ _
  rw [hpass]
  split <;> exact nofun

theorem discoverLoop_simulates (h : r.AtCall params seen) :
    Simulates prog answers fuel ⟨r, .receive⟩
      (r.world.discoverLoop prog answers r.pState params fuel seen)
      fun m w => ⟨{ r with debuggerState := .coroutine, memReadCor := m, world := w },
        .receive⟩ := by
  induction fuel generalizing r seen with
  | zero =>
    exact ⟨nofun, fun _ => ⟨_, .refl _, rfl, running_call h⟩⟩
  | succ fuel ih =>
    rw [World.discoverLoop]
    by_cases hended : (r.world.discover prog params seen).2.apply.ended
    · rw [if_pos hended]
      obtain ⟨m, hm⟩ := reaches_call_end h hended
      exact ⟨fun _ => ⟨m, hm.mono (Nat.zero_le _)⟩, nofun⟩
    · rw [if_neg hended]
      obtain ⟨m, hread, hcall⟩ := reaches_call_read h hended
      exact (ih hcall).after_reaches hread

theorem running_suspended :
    Driver.Running prog answers (.suspended r m (.await function coroHandle) w) := by
  cases function with
  | _ => exact nofun

theorem Simulates.await (hreaches : (machine prog answers).Reaches 1 c c')
    (h : Simulates prog answers fuel c' p done)
    (hdone : ∀ m w, (machine prog answers).Reaches 0 (done m w)
      (.resumable r m function (.boolean true) coroHandle w)) :
    (∀ v, (if p.2 then some (.boolean true) else none) = some v →
      ∃ m, (machine prog answers).Reaches 1 c (.resumable r m function v coroHandle p.1)) ∧
    ((if p.2 then some (RetVal.boolean true) else none) = none →
      ∃ d, (machine prog answers).Reaches (fuel + 1) c d ∧ d.log = p.1.log ∧
        d.Running prog answers) := by
  constructor
  · intro v hv
    obtain ⟨hp, hv⟩ := Option.ite_none_right_eq_some.mp hv
    obtain ⟨m, hm⟩ := h.finished hp
    cases hv
    exact ⟨m, (hreaches.trans hm).trans (hdone m _)⟩
  · intro hnone
    exact (h.after_reaches hreaches).unfinished (by simpa using hnone)

theorem await_simulates
    (hjoin : ∀ stack m s w, Simulates prog answers fuel
      (.suspended { r with awaiterStack := stack } m (World.run prog none s w).2
        (World.run prog none s w).1) (join s w)
      fun m w => .suspended { r with awaiterStack := stack } m .finished w)
    (function : Await G S) :
    (∀ v, (w.await prog answers r.pState join fuel function).2 = some v →
      ∃ m', (machine prog answers).Reaches 1 (.suspended r m (.await function coroHandle) w)
        (.resumable r m' function v coroHandle
          (w.await prog answers r.pState join fuel function).1)) ∧
    ((w.await prog answers r.pState join fuel function).2 = none →
      ∃ d, (machine prog answers).Reaches (fuel + 1)
          (.suspended r m (.await function coroHandle) w) d ∧
        d.log = (w.await prog answers r.pState join fuel function).1.log ∧
        d.Running prog answers) := by
  cases function with
  | stateManipulate prepareRequest processResponse =>
    refine ⟨?_, nofun⟩
    rintro _ ⟨⟩
    exact ⟨m, reaches_manipulate⟩
  | readMemory pointer size =>
    refine ⟨?_, nofun⟩
    rintro _ ⟨⟩
    exact reaches_readMemory
  | recvTimeout =>
    refine ⟨?_, nofun⟩
    rintro _ ⟨⟩
    exact ⟨m, .of_step rfl⟩
  | discoverPosInModules outputBuffer debugInfo bytePointer =>
    let d := Driver.suspended r m
      (.await (.discoverPosInModules outputBuffer debugInfo bytePointer) coroHandle) w
    have hcall : (d.root.prepareDiscover prog outputBuffer debugInfo bytePointer).AtCall
        (prog.discoverParams outputBuffer debugInfo bytePointer w.memory.globals) {} :=
      ⟨rfl, Nat.zero_le _, rfl, rfl, rfl, rfl⟩
    exact (discoverLoop_simulates hcall).await (.of_step rfl) fun m w => .refl _
  | join coroutine =>
    exact (hjoin (⟨.join coroutine, .boolean true, coroHandle⟩ :: r.awaiterStack) m coroutine
      w).await (.of_step rfl) fun m w => reaches_parent.mono (Nat.zero_le _)

theorem eval_simulates (fuel : Nat) (r : Root G S) (m : MemReadCor) (s : Suspension G S)
    (w : World G S) :
    Simulates prog answers fuel (.suspended r m s w) (w.eval prog answers r.pState fuel s)
      fun m w => .suspended r m .finished w := by
  induction fuel generalizing r m s w with
  | zero =>
    cases s with
    | finished => exact ⟨fun _ => ⟨m, .refl _⟩, nofun⟩
    | await => exact ⟨nofun, fun _ => ⟨_, .refl _, rfl, running_suspended⟩⟩
  | succ fuel ih =>
    cases s with
    | finished => exact ⟨fun _ => ⟨m, .refl _⟩, nofun⟩
    | await function coroHandle =>
      let join s w := World.eval prog answers r.pState fuel (World.run prog none s w).2
        (World.run prog none s w).1
      have hjoin : ∀ stack m s w, Simulates prog answers fuel
          (.suspended { r with awaiterStack := stack } m (World.run prog none s w).2
            (World.run prog none s w).1) (join s w)
          fun m w => .suspended { r with awaiterStack := stack } m .finished w :=
        fun stack m s w => ih { r with awaiterStack := stack } m _ _
      have hawait : _ ∧ (_ → ∃ d, (machine prog answers).Reaches (fuel + 1)
          (.suspended r m (.await function coroHandle) w) d ∧ _) := await_simulates hjoin function
      obtain ⟨hsome, hnone⟩ := hawait
      rw [World.eval]
      split
      · next w' heq =>
        rw [heq] at hnone
        exact ⟨nofun, fun _ => hnone rfl⟩
      · next w' v heq =>
        rw [heq] at hsome
        obtain ⟨m', hm'⟩ := hsome v rfl
        exact (ih r m' _ _).after_reaches (hm'.trans reaches_resume)

-- ---------------------------------------------------------------------------
-- The awaiter pointer and the stack
-- ---------------------------------------------------------------------------

/-- What holds of `AwaiterPtr` and `AwaiterStack` in each debugger state. -/
def Root.Consistent (r : Root G S) : Prop :=
  match r.debuggerState with
  | .stateChanged | .continue_ => r.awaiterPtr = none ∧ r.awaiterStack = []
  | .coroutine => r.awaiterPtr ≠ none
  | .processAwaiter => True
  | .memReadCor => r.memReadCor.endDebuggerState = .coroutine ∧
      ∃ awaiter, r.awaiterPtr = some awaiter ∧
        (r.memReadCor.pCoroutine = none → ∃ pointer size,
          awaiter.function = .readMemory pointer size)
  | .unknown => False

/-- A pass that ends without stopping the machine. -/
structure PassOk (p : Root G S × Outcome) : Prop where
  consistent : p.1.Consistent
  not_fatalError : p.2 ≠ .fatalError
  not_nullDereference : p.2 ≠ .nullDereference

theorem processAwaiter_ok (r : Root G S) : PassOk (r.processAwaiter prog) := by
  simp only [Root.processAwaiter]
  split
  · next hptr =>
    split
    · exact ⟨by rintro ⟨⟩, by rintro ⟨⟩, by rintro ⟨⟩⟩
    · next hstack => exact ⟨⟨hptr, hstack⟩, by rintro ⟨⟩, by rintro ⟨⟩⟩
  · next awaiter hptr =>
    simp only [Root.processFunction]
    cases hfunction : awaiter.function with
    | stateManipulate =>
      refine ⟨?_, by rintro ⟨⟩, by rintro ⟨⟩⟩
      show r.awaiterPtr ≠ none
      rw [hptr]
      rintro ⟨⟩
    | readMemory pointer size =>
      exact ⟨⟨rfl, awaiter, hptr, fun _ => ⟨pointer, size, hfunction⟩⟩, by rintro ⟨⟩, by rintro ⟨⟩⟩
    | discoverPosInModules => exact ⟨⟨rfl, awaiter, hptr, by rintro ⟨⟩⟩, by rintro ⟨⟩, by rintro ⟨⟩⟩
    | recvTimeout =>
      refine ⟨?_, by rintro ⟨⟩, by rintro ⟨⟩⟩
      show r.awaiterPtr ≠ none
      rw [hptr]
      rintro ⟨⟩
    | join => exact ⟨trivial, by rintro ⟨⟩, by rintro ⟨⟩⟩

theorem visit_ok (prog : Program G S) {r : Root G S} (hptr : r.awaiterPtr = some awaiter)
    (hread : r.memReadCor.pCoroutine = none →
      ∃ pointer size, awaiter.function = .readMemory pointer size) :
    ∃ r' awaiter', r.visit prog = some r' ∧ r'.debuggerState = r.debuggerState ∧
      r'.memReadCor.endDebuggerState = r.memReadCor.endDebuggerState ∧
      r'.memReadCor.pCoroutine = r.memReadCor.pCoroutine ∧
      r'.awaiterPtr = some awaiter' ∧ awaiter'.function = awaiter.function := by
  cases hcor : r.memReadCor.pCoroutine with
  | some coroutine =>
    cases coroutine
    exact ⟨_, awaiter, visit_coroutine hcor, rfl, rfl, hcor, hptr, rfl⟩
  | none =>
    obtain ⟨pointer, size, hfunction⟩ := hread hcor
    have hvisit : r.visit prog = some (r.visitReadMemory awaiter pointer size) := by
      simp only [Root.visit, hcor, hptr, hfunction]
    simp only [hvisit, Root.visitReadMemory]
    split
    · exact ⟨_, awaiter, rfl, rfl, rfl, hcor, hptr, rfl⟩
    · split
      · exact ⟨_, _, rfl, rfl, rfl, hcor, rfl, rfl⟩
      · exact ⟨_, awaiter, rfl, rfl, rfl, hcor, hptr, rfl⟩

theorem memReadCorCase_ok {r : Root G S} (hstate : r.debuggerState = .memReadCor)
    (h : r.Consistent) : PassOk (r.memReadCorCase prog) := by
  have hcons := h
  simp only [Root.Consistent, hstate] at hcons
  obtain ⟨hends, awaiter, hptr, hread⟩ := hcons
  rcases Nat.lt_or_ge chunkSize r.memReadCor.btr with hbtr | hbtr
  · rw [memReadCorCase_next hbtr]
    refine ⟨?_, by rintro ⟨⟩, by rintro ⟨⟩⟩
    simp only [Root.requestChunk, Root.Consistent, hstate]
    exact ⟨hends, awaiter, hptr, hread⟩
  · obtain ⟨r', awaiter', hvisit, hstate', hends', hcor', hptr', hfunction⟩ :=
      visit_ok prog (r := r.settled) hptr hread
    rw [memReadCorCase_visit hbtr hvisit]
    have hstate' : r'.debuggerState = .memReadCor := hstate'.trans hstate
    have hends' : r'.memReadCor.endDebuggerState = .coroutine := hends'.trans hends
    split
    · refine ⟨?_, by rintro ⟨⟩, by rintro ⟨⟩⟩
      simp only [Root.Consistent, hends', hptr']
      rintro ⟨⟩
    · refine ⟨?_, by rintro ⟨⟩, by rintro ⟨⟩⟩
      simp only [Root.requestChunk, Root.Consistent, hstate']
      refine ⟨hends', awaiter', hptr', fun hnone => ?_⟩
      rw [hfunction]
      exact hread (hcor'.symm.trans hnone)

theorem receivePass_ok {r : Root G S} (h : r.Consistent) : PassOk (r.receivePass prog) := by
  simp only [Root.receivePass]
  split
  · exact processAwaiter_ok _
  · next hstate hptr =>
    simp only [Root.Consistent, hstate] at h
    cases hptr.symm.trans h.1
  · exact processAwaiter_ok _
  · next hstate hptr =>
    simp only [Root.Consistent, hstate] at h
    exact absurd hptr h
  · exact processAwaiter_ok _
  · next hstate => exact memReadCorCase_ok hstate h
  · next hstate =>
    refine ⟨?_, by rintro ⟨⟩, by rintro ⟨⟩⟩
    simpa only [Root.Consistent, Root.continueCase, hstate] using h
  · next hstate =>
    simp only [Root.Consistent, hstate] at h

theorem kdSendPacket_ok (answer : Packet) {r : Root G S} (h : r.Consistent) :
    ∃ r', r.kdSendPacket answer = some r' ∧ r'.Consistent := by
  simp only [Root.kdSendPacket]
  split
  · next hstate hptr =>
    simp only [Root.Consistent, hstate] at h
    exact absurd hptr h
  · next awaiter hstate hptr =>
    split
    · refine ⟨_, rfl, ?_⟩
      simp only [Root.Consistent, hstate]
      rintro ⟨⟩
    · exact ⟨r, rfl, h⟩
  · next hstate =>
    refine ⟨_, rfl, ?_⟩
    simpa only [Root.Consistent, hstate] using h
  · exact ⟨r, rfl, h⟩

/-- The invariant of the exchange. -/
structure Driver.Ok (d : Driver G S) : Prop where
  consistent : d.root.Consistent
  running : d.phase ≠ .stopped
  continued : d.phase = .continued → d.root.debuggerState = .continue_

theorem returned_ok {p : Root G S × Outcome} (h : PassOk p) : (Driver.returned p).Ok := by
  obtain ⟨r', outcome⟩ := p
  cases outcome with
  | repeatLoop => exact ⟨h.consistent, by rintro ⟨⟩, by rintro ⟨⟩⟩
  | timeout => exact ⟨h.consistent, by rintro ⟨⟩, by rintro ⟨⟩⟩
  | fatalError => exact absurd rfl h.not_fatalError
  | nullDereference => exact absurd rfl h.not_nullDereference
  | ok request =>
    simp only [Driver.returned]
    split
    · next hstate => exact ⟨h.consistent, by rintro ⟨⟩, fun _ => hstate⟩
    · exact ⟨h.consistent, by rintro ⟨⟩, by rintro ⟨⟩⟩

theorem step_ok {d : Driver G S} (h : d.Ok) :
    (d.step prog answers).Ok := by
  simp only [Driver.step]
  split
  · exact returned_ok (receivePass_ok h.consistent)
  · obtain ⟨r', hsend, hconsistent⟩ := kdSendPacket_ok (answers d.root.world.answered) h.consistent
    rw [hsend]
    exact ⟨hconsistent, by rintro ⟨⟩, by rintro ⟨⟩⟩
  · exact h
  · exact h

theorem after_ok {d : Driver G S} (h : d.Ok) : ((machine prog answers).after k d).Ok := by
  induction k with
  | zero => exact h
  | succ k ih =>
    rw [Traced.after_succ]
    exact step_ok ih

-- ---------------------------------------------------------------------------
-- From a state change to the continue request
-- ---------------------------------------------------------------------------

/-- The target has been released after `w`. -/
def Driver.released (r : Root G S) (m : MemReadCor) (w : World G S) : Driver G S :=
  ⟨{ r with
      debuggerState := .continue_
      awaiterPtr := none
      memReadCor := m
      world := { w with memory := { w.memory with trace := false } }.record
        (.send (continueRequest r.pState w.memory.trace)) }, .continued⟩

theorem reaches_start (hstate : r.debuggerState = .stateChanged) (hptr : r.awaiterPtr = none) :
    (machine prog answers).Reaches 0 ⟨r, .receive⟩
      (.suspended r r.memReadCor (r.world.run prog none prog.entryPoint).2
        (r.world.run prog none prog.entryPoint).1) := by
  refine .of_step_eq ?_ (World.log_run _)
  cases r
  cases hstate
  cases hptr
  rfl

theorem reaches_released (hstack : r.awaiterStack = []) :
    (machine prog answers).Reaches 2 (.suspended r m .finished w) (.released r m w) := by
  cases r
  cases hstack
  exact (Traced.Reaches.of_step rfl).trans (.of_step rfl)

/-- The run matches `World.direct`: released with its world, or as far as the
fuel went. -/
theorem direct_simulates (hstate : r.debuggerState = .stateChanged) (hptr : r.awaiterPtr = none)
    (hstack : r.awaiterStack = []) (fuel : Nat) :
    ((r.world.direct prog answers r.pState fuel).2 = true →
      ∃ k, ((machine prog answers).after k ⟨r, .receive⟩).phase = .continued ∧
        ((machine prog answers).after k ⟨r, .receive⟩).root.world =
          (r.world.direct prog answers r.pState fuel).1) ∧
    ((r.world.direct prog answers r.pState fuel).2 = false →
      ∃ d, (machine prog answers).Reaches fuel ⟨r, .receive⟩ d ∧
        d.log = (r.world.direct prog answers r.pState fuel).1.log ∧ d.Running prog answers) := by
  have hsim : Simulates prog answers fuel _ _ _ := eval_simulates fuel r r.memReadCor
    (r.world.run prog none prog.entryPoint).2 (r.world.run prog none prog.entryPoint).1
  have hstart : (machine prog answers).Reaches 0 ⟨r, .receive⟩ _ := reaches_start hstate hptr
  simp only [World.direct]
  cases heval : ((r.world.run prog none prog.entryPoint).1.eval prog answers r.pState fuel
      (r.world.run prog none prog.entryPoint).2).2 with
  | true =>
    obtain ⟨m, hm⟩ := hsim.finished heval
    obtain ⟨k, -, hk, -⟩ := (hstart.trans hm).trans (reaches_released hstack)
    refine ⟨fun _ => ⟨k + 1, ?_⟩, fun h => ?_⟩
    · rw [hk]
      exact ⟨rfl, rfl⟩
    · cases h
  | false =>
    obtain ⟨d, hd, hlog, hrunning⟩ := hsim.unfinished heval
    refine ⟨fun h => ?_, fun _ => ⟨d, (hstart.trans hd).mono (by omega), hlog, hrunning⟩⟩
    cases heval.symm.trans h

/-- The exchange that starts in `r` is the direct-style evaluation: the two logs
are prefixes of each other as far as either is taken, the target is released
with the world in which the evaluation ends, and exactly if it ends. The
machine never goes down; it is back in `DEBST_COROUTINE` only with an awaiter,
and in `DEBST_CONTINUE` with none left. -/
structure ComputesDirectly (prog : Program G S) (answers : Nat → Packet) (r : Root G S) : Prop where
  direct_prefix : ∀ fuel, ∃ k, (r.world.direct prog answers r.pState fuel).1.log <+:
    ((machine prog answers).after k ⟨r, .receive⟩).log
  machine_prefix : ∀ k, ∃ fuel, ((machine prog answers).after k ⟨r, .receive⟩).log <+:
    (r.world.direct prog answers r.pState fuel).1.log
  ends : ∀ w, (∃ fuel, r.world.direct prog answers r.pState fuel = (w, true)) ↔
    ∃ k, ((machine prog answers).after k ⟨r, .receive⟩).phase = .continued ∧
      ((machine prog answers).after k ⟨r, .receive⟩).root.world = w
  running : ∀ k, ((machine prog answers).after k ⟨r, .receive⟩).phase ≠ .stopped
  awaiter : ∀ k, ((machine prog answers).after k ⟨r, .receive⟩).phase = .receive →
    ∀ r' outcome,
      ((machine prog answers).after k ⟨r, .receive⟩).root.receivePass prog = (r', outcome) →
      r'.debuggerState = .coroutine → r'.awaiterPtr ≠ none
  continued : ∀ k, ((machine prog answers).after k ⟨r, .receive⟩).phase = .continued →
    ((machine prog answers).after k ⟨r, .receive⟩).root.debuggerState = .continue_ ∧
      ((machine prog answers).after k ⟨r, .receive⟩).root.awaiterPtr = none ∧
      ((machine prog answers).after k ⟨r, .receive⟩).root.awaiterStack = []

theorem step_of_continued {d : Driver G S} (h : d.phase = .continued) :
    (machine prog answers).step d = d := by
  show d.step prog answers = d
  simp only [Driver.step, h]

theorem scheduler_computesDirectly (prog : Program G S) (answers : Nat → Packet) (r : Root G S)
    (hstate : r.debuggerState = .stateChanged) (hptr : r.awaiterPtr = none)
    (hstack : r.awaiterStack = []) : ComputesDirectly prog answers r := by
  have hdirect : ∀ fuel, _ ∧ (_ → ∃ d, (machine prog answers).Reaches fuel ⟨r, .receive⟩ d ∧ _) :=
    direct_simulates hstate hptr hstack
  have hok : ∀ k, ((machine prog answers).after k ⟨r, .receive⟩).Ok := by
    refine fun k => after_ok ⟨?_, nofun, nofun⟩
    simp only [Root.Consistent, hstate]
    exact ⟨hptr, hstack⟩
  -- once the target is released the run stays where it is
  have hfixed : ∀ {j k}, ((machine prog answers).after j ⟨r, .receive⟩).phase = .continued → j ≤ k →
      (machine prog answers).after k ⟨r, .receive⟩ = (machine prog answers).after j ⟨r, .receive⟩ :=
    fun h hle => Traced.after_of_fixed _ (step_of_continued h) hle
  have hends : ∀ k, ((machine prog answers).after k ⟨r, .receive⟩).phase = .continued →
      (r.world.direct prog answers r.pState k).2 = true := by
    intro k hk
    cases hfuel : (r.world.direct prog answers r.pState k).2 with
    | true => rfl
    | false =>
      obtain ⟨d, ⟨j, hj, hrun, -⟩, -, hrunning⟩ := (hdirect k).2 hfuel
      have hstep : (machine prog answers).step d = _ := hrun.symm.trans
        (hfixed hk (Nat.le_succ_of_le hj))
      exact absurd ((congrArg Driver.phase hstep).trans hk) hrunning
  refine ⟨fun fuel => ?_, fun k => ?_, fun w => ⟨?_, ?_⟩, fun k => (hok k).running, ?_, ?_⟩
  · cases hfuel : (r.world.direct prog answers r.pState fuel).2 with
    | true =>
      obtain ⟨k, -, hworld⟩ := (hdirect fuel).1 hfuel
      exact ⟨k, hworld ▸ List.prefix_rfl⟩
    | false =>
      obtain ⟨d, hd, hlog, -⟩ := (hdirect fuel).2 hfuel
      exact hlog ▸ hd.log_prefix
  · refine ⟨k, ?_⟩
    cases hfuel : (r.world.direct prog answers r.pState k).2 with
    | true =>
      obtain ⟨j, hphase, hworld⟩ := (hdirect k).1 hfuel
      have hlog : (machine prog answers).log ((machine prog answers).after k ⟨r, .receive⟩) <+: _ :=
        Traced.log_after_le (Nat.le_max_left k j)
      rw [hfixed hphase (Nat.le_max_right k j)] at hlog
      exact hworld ▸ hlog
    | false =>
      obtain ⟨d, hd, hlog, -⟩ := (hdirect k).2 hfuel
      exact hlog ▸ hd.prefix_log
  · rintro ⟨fuel, hfuel⟩
    obtain ⟨k, hphase, hworld⟩ := (hdirect fuel).1 (by rw [hfuel])
    exact ⟨k, hphase, by rw [hworld, hfuel]⟩
  · rintro ⟨k, hphase, rfl⟩
    obtain ⟨j, hphase', hworld⟩ := (hdirect k).1 (hends k hphase)
    have hsame := (hfixed hphase (Nat.le_max_left k j)).symm.trans
      (hfixed hphase' (Nat.le_max_right k j))
    exact ⟨k, Prod.ext (by rw [hsame, hworld]) (hends k hphase)⟩
  · intro k _ r' outcome hpass hcoroutine
    have hpassOk : PassOk (Root.receivePass prog _) := receivePass_ok (hok k).consistent
    have hconsistent := hpassOk.consistent
    rw [hpass] at hconsistent
    simpa only [Root.Consistent, hcoroutine] using hconsistent
  · intro k hphase
    have hcontinue := (hok k).continued hphase
    have hconsistent := (hok k).consistent
    simp only [Root.Consistent, hcontinue] at hconsistent
    exact ⟨hcontinue, hconsistent⟩

end

/-- A body that joins a child, which joins one that finishes at once and then
reads memory, and then times out, locates an address and gets the context. -/
def joinProbe : Program Unit Nat where
  entryPoint := 0
  run s memory :=
    (memory, match s with
      | 0 => .await (.join 10) fun _ => 1
      | 1 => .await .recvTimeout fun _ => 2
      | 2 => .await (.discoverPosInModules 0x100 0x200 0x300) fun _ => 3
      | 3 => .await (.stateManipulate (fun m p => (m, ⟨p, none⟩)) fun m _ => (m, true)) fun _ => 4
      | 10 => .await (.join 20) fun _ => 11
      | 11 => .await (.readMemory 0x1000 1025) fun _ => 12
      | _ => .finished)
  discoverBytePointerPosInModules _ seen memory :=
    (memory, if seen.resumePoint = 0 then .readMemory 1 0x300 2 else .readMemory_End)
  psLoadedModuleList _ := 0x400
  userProbeAddress _ := 0x500
  getPcrAddress _ := 0x600

def joinProbeRoot : Root Unit Nat where
  debuggerState := .stateChanged
  awaiterPtr := none
  awaiterStack := []
  memReadCor :=
    { inputParams := ⟨0, 0, 0, 0, 0, 0⟩
      bufferPos := 0
      pCoroutine := none
      endDebuggerState := .unknown }
  processorLevel := 0
  processor := 0
  world := { memory := ⟨(), fun _ => 0, false⟩ }

theorem joinProbe_computesDirectly :
    ComputesDirectly joinProbe (fun _ => failureAnswer) joinProbeRoot :=
  scheduler_computesDirectly joinProbe (fun _ => failureAnswer) joinProbeRoot rfl rfl rfl

end BugChecker.Kd
