import BugChecker.Break.Machine
import BugChecker.Lib.Runs
import BugChecker.Step.Destination

/-!
# The current instruction in a session

The instruction at the program counter is disassembled when the debugger breaks
in. Commands and scripts of the session change registers and memory, and `P` and
`U DEST` go on with the instruction that was disassembled before.
-/

namespace BugChecker.Step

open Modules (Snapshot)

-- ---------------------------------------------------------------------------
-- Commands
-- ---------------------------------------------------------------------------

/-- What `R`, `EB` and the like, `WriteReg` and `WriteMem` change. The bytes are those that KD
writes. -/
inductive Write where
  | reg (reg : ZydisRegister) (val : UInt64)
  | mem (address : UInt64) (bytes : List UInt8)

inductive Command where
  | write (w : Write)
  | script (ws : List Write)
  | other

structure Session where
  ctx : Context
  mem : Snapshot
  current : Current

section
variable (build : Build) (is32bitCompat : Bool)

def Session.apply (s : Session) : Write → Session
  | .reg reg val => { s with ctx := s.ctx.writeReg build is32bitCompat reg val }
  | .mem address bytes => { s with mem := s.mem.write address bytes }

def Session.execute (s : Session) : Command → Session
  | .write w => s.apply build is32bitCompat w
  | .script ws => ws.foldl (Session.apply build is32bitCompat) s
  | .other => s

def sessionStep (s : Session) (c : Command) : Option Session :=
  some (s.execute build is32bitCompat c)

def Session.atBreak (decode : Decoder) (ctx : Context) (mem : Snapshot) : Session :=
  ⟨ctx, mem, disasmCurrInstr decode build is32bitCompat .zero ctx mem⟩

/-- The session that begins with a break. The script of a condition may have changed registers and
memory; the instruction is disassembled again if it moved the program counter. -/
def Session.start (decode : Decoder) (ctx : Context) (mem : Snapshot) (whenWrites : List Write) :
    Session :=
  let s := whenWrites.foldl (Session.apply build is32bitCompat)
    (.atBreak build is32bitCompat decode ctx mem)
  if s.ctx.pc build ≠ ctx.pc build then
    { s with current := disasmCurrInstr decode build is32bitCompat s.current s.ctx s.mem }
  else s

/-- The instruction that the registers and the memory of a session give. -/
def Session.atPc (decode : Decoder) (s : Session) : Current :=
  disasmCurrInstr decode build is32bitCompat .zero s.ctx s.mem

end

def Instr.toBreak (i : Instr) : Break.Instr :=
  { mnemonic :=
      match i.mnemonic with
      | .call => .call
      | .int => .int
      | .sysenter => .sysenter
      | .syscall => .syscall
      | .loop => .loop
      | .loope => .loope
      | .loopne => .loopne
      | .ret => .ret
      | .iret => .iret
      | .iretd => .iretd
      | .iretq => .iretq
      | .sysexit => .sysexit
      | .sysret => .sysret
      | _ => .other
    hasRep := i.hasRep, hasRepe := i.hasRepe, hasRepne := i.hasRepne, length := i.length }

/-- Where `P` puts its breakpoint, if it uses one. -/
def stepOverBp (build : Build) (ctx : Context) (c : Current) : Option UInt64 :=
  if Break.stepsWithBp c.thisInstr.toBreak then some (ctx.pc build + c.thisInstr.length) else none

-- ---------------------------------------------------------------------------
-- What the disassembly looks at
-- ---------------------------------------------------------------------------

def ZydisRegister.gprs : ZydisRegister → List Gpr
  | .q r => [r]
  | .d r => [r]
  | .w _ => []
  | .other => []
  | .none => []

def Operand.gprs : Operand → List Gpr
  | .register reg => reg.gprs
  | .memory m => m.base.gprs ++ m.index.gprs
  | _ => []

/-- The registers that the destination of an instruction comes from, with the program counter. -/
def Instr.gprs (i : Instr) : List Gpr :=
  .rip :: match i.mnemonic with
    | .ret => [.rsp]
    | .call => i.op0.gprs
    | .jmp => i.op0.gprs
    | .jcxz => [.rcx]
    | .jecxz => [.rcx]
    | .jrcxz => [.rcx]
    | .loop => [.rcx]
    | .loope => [.rcx]
    | .loopne => [.rcx]
    | _ => []

theorem value_congr {ctx ctx' : Context} (h : ∀ r ∈ reg.gprs, ctx'.reg r = ctx.reg r) :
    ctx'.value build reg = ctx.value build reg := by
  cases reg with
  | q r =>
    have hr := h r List.mem_cons_self
    simp only [Context.value, zydisRegToCtxRegValuePtr]
    split
    · simp only [Option.map_some, hr]
    · rfl
  | d r =>
    have hr := h r List.mem_cons_self
    simp only [Context.value, zydisRegToCtxRegValuePtr]
    split
    · simp only [Option.map_some, hr]
    · rfl
  | w _ => rfl
  | other => rfl
  | none => rfl

theorem get_congr {ctx ctx' : Context} (h : ctx'.reg r = ctx.reg r) :
    ctx'.get build r = ctx.get build r := by
  cases build <;> simp only [Context.get, h]

theorem nextAddr_congr {ctx ctx' : Context} (h : ctx'.reg .rip = ctx.reg .rip) :
    nextAddr build ctx' i = nextAddr build ctx i := by
  cases build <;> simp only [nextAddr, Context.pc, get_congr h]

theorem relative_congr {ctx ctx' : Context} (h : ctx'.reg .rip = ctx.reg .rip) :
    relative build ctx' i = relative build ctx i := by
  simp only [relative, nextAddr_congr h]

theorem counter_congr {ctx ctx' : Context} (h : ctx'.reg .rcx = ctx.reg .rcx) :
    counter build ctx' n = counter build ctx n := by
  unfold counter
  split
  · rw [h]
  · rw [h]
  · exact get_congr h
  · rfl

theorem callDestination_congr {ctx ctx' : Context} (hpc : ctx'.reg .rip = ctx.reg .rip)
    (h : ∀ r ∈ i.op0.gprs, ctx'.reg r = ctx.reg r) :
    callDestination build compat ctx' i = callDestination build compat ctx i := by
  unfold callDestination
  split
  · rw [relative_congr hpc]
  · next reg hops =>
    have hreg : ctx'.value build reg = ctx.value build reg :=
      value_congr fun r hr => h r (by simpa [Instr.op0, hops, Operand.gprs] using hr)
    rw [hreg]
  · next m hops =>
    have hregs : ∀ r ∈ m.base.gprs ++ m.index.gprs, ctx'.reg r = ctx.reg r := fun r hr =>
      h r (by simpa [Instr.op0, hops, Operand.gprs] using hr)
    have hbase : ctx'.value build m.base = ctx.value build m.base :=
      value_congr fun r hr => hregs r (List.mem_append_left _ hr)
    have hindex : ctx'.value build m.index = ctx.value build m.index :=
      value_congr fun r hr => hregs r (List.mem_append_right _ hr)
    have haddr : effectiveAddress build ctx' i m = effectiveAddress build ctx i m := by
      simp only [effectiveAddress, hbase, hindex]
    rw [haddr]
  · rfl

theorem jumpDestination_congr {ctx ctx' : Context} (hflags : ctx'.eFlags = ctx.eFlags)
    (h : ∀ r ∈ i.gprs, ctx'.reg r = ctx.reg r) :
    jumpDestination build compat ctx' i = jumpDestination build compat ctx i := by
  have hpc : ctx'.reg .rip = ctx.reg .rip := h .rip List.mem_cons_self
  have hflag : ∀ mask, ctx'.flag mask = ctx.flag mask := fun mask => by
    rw [Context.flag, Context.flag, hflags]
  have hrest := fun r hr => h r (List.mem_cons_of_mem _ hr)
  unfold jumpDestination
  cases hm : i.mnemonic with
  | ret =>
    have hsp : ctx'.reg .rsp = ctx.reg .rsp := hrest .rsp (by simp [hm])
    simp only [get_congr hsp]
  | call => simp only [callDestination_congr hpc fun r hr => hrest r (by simpa [hm] using hr)]
  | jmp => simp only [callDestination_congr hpc fun r hr => hrest r (by simpa [hm] using hr)]
  | jcc not cond =>
    have hjumps : jccJumps ctx' not cond = jccJumps ctx not cond := by
      simp only [jccJumps, hflag, hflags]
    simp only [hjumps, relative_congr hpc]
  | jcxz | jecxz | jrcxz | loop | loope | loopne =>
    have hcx : ctx'.reg .rcx = ctx.reg .rcx := hrest .rcx (by simp [hm])
    simp only [counter_congr hcx, relative_congr hpc, hflag]
  | _ => rfl

theorem calculateStepDestination_congr {ctx ctx' : Context} (hflags : ctx'.eFlags = ctx.eFlags)
    (h : ∀ r ∈ i.gprs, ctx'.reg r = ctx.reg r) :
    calculateStepDestination build compat ctx' i = calculateStepDestination build compat ctx i := by
  have hpc : ctx'.reg .rip = ctx.reg .rip := h .rip List.mem_cons_self
  simp only [calculateStepDestination, jumpDestination_congr hflags h, nextAddr_congr hpc]

theorem resolve_congr {mem mem' : Snapshot}
    (h : ∀ k < d.ptrSize, mem' (d.ptr + UInt64.ofNat k) = mem (d.ptr + UInt64.ofNat k)) :
    resolve build compat mem' d = resolve build compat mem d := by
  simp only [resolve, Snapshot.read_congr h]

-- ---------------------------------------------------------------------------
-- Sessions that leave it alone
-- ---------------------------------------------------------------------------

/-- The registers and the memory that the current instruction was disassembled from are the same in
another session. -/
structure Keeps (build : Build) (compat : Bool) (s s' : Session) : Prop where
  regs : ∀ r ∈ s.current.thisInstr.gprs, s'.ctx.reg r = s.ctx.reg r
  code : ∀ k < thisInstrMaxSize, s'.mem (s.ctx.pc build + UInt64.ofNat k) =
    s.mem (s.ctx.pc build + UInt64.ofNat k)
  ptr : let d := (calculateStepDestination build compat s.ctx s.current.thisInstr).2
    ∀ k < d.ptrSize, s'.mem (d.ptr + UInt64.ofNat k) = s.mem (d.ptr + UInt64.ofNat k)

/-- The current instruction is the one at the program counter. -/
def Fresh (decode : Decoder) (build : Build) (compat : Bool) (s : Session) : Prop :=
  s.current = s.atPc build compat decode

theorem atPc_of_keeps (h : Fresh decode build compat s) (hk : Keeps build compat s s')
    (hflags : s'.ctx.eFlags = s.ctx.eFlags) :
    s'.atPc build compat decode = s.atPc build compat decode := by
  have hpc : s'.ctx.pc build = s.ctx.pc build := get_congr (hk.regs .rip List.mem_cons_self)
  have hread : s'.mem.read (s.ctx.pc build) thisInstrMaxSize =
      s.mem.read (s.ctx.pc build) thisInstrMaxSize := Snapshot.read_congr hk.code
  have hcur := h
  unfold Fresh at hcur
  unfold Session.atPc disasmCurrInstr at hcur ⊢
  rw [hpc, hread]
  split
  · rfl
  · next bytes hbytes =>
    split
    · rfl
    · next i hdec =>
      have hi : s.current.thisInstr = i := by
        rw [hcur, hbytes]
        simp only [hdec]
      have hcalc : calculateStepDestination build compat s'.ctx i =
          calculateStepDestination build compat s.ctx i :=
        calculateStepDestination_congr hflags (hi ▸ hk.regs)
      have hptr := hk.ptr
      rw [hi] at hptr
      rcases hdest : calculateStepDestination build compat s.ctx i with ⟨jumpType, dest⟩
      rw [hdest] at hptr
      rw [hcalc, hdest]
      simp only [resolve_congr hptr]

theorem fresh_of_keeps (h : Fresh decode build compat s) (hk : Keeps build compat s s')
    (hflags : s'.ctx.eFlags = s.ctx.eFlags) (hcur : s'.current = s.current) :
    Fresh decode build compat s' := by
  unfold Fresh
  rw [hcur, atPc_of_keeps h hk hflags]
  exact h

theorem writeReg_eFlags (build : Build) (compat : Bool) (ctx : Context) (reg : ZydisRegister)
    (val : UInt64) : (ctx.writeReg build compat reg val).eFlags = ctx.eFlags := by
  unfold Context.writeReg Context.store
  split
  · rfl
  · split
    · rfl
    · split
      · rfl
      · rfl

/-- No command disassembles anything, and none changes the flags. -/
structure SameDecoding (s s' : Session) : Prop where
  current : s'.current = s.current
  eFlags : s'.ctx.eFlags = s.ctx.eFlags

theorem apply_sameDecoding (build : Build) (compat : Bool) (s : Session) (w : Write) :
    SameDecoding s (s.apply build compat w) := by
  cases w with
  | reg reg val => exact ⟨rfl, writeReg_eFlags build compat s.ctx reg val⟩
  | mem address bytes => exact ⟨rfl, rfl⟩

theorem foldl_sameDecoding (build : Build) (compat : Bool) (s : Session) (ws : List Write) :
    SameDecoding s (ws.foldl (Session.apply build compat) s) := by
  induction ws generalizing s with
  | nil => exact ⟨rfl, rfl⟩
  | cons w ws ih =>
    have hw := apply_sameDecoding build compat s w
    have hws := ih (s.apply build compat w)
    exact ⟨hws.current.trans hw.current, hws.eFlags.trans hw.eFlags⟩

theorem execute_sameDecoding (build : Build) (compat : Bool) (s : Session) (c : Command) :
    SameDecoding s (s.execute build compat c) := by
  cases c with
  | write w => exact apply_sameDecoding build compat s w
  | script ws => exact foldl_sameDecoding build compat s ws
  | other => exact ⟨rfl, rfl⟩

theorem disasmCurrInstr_of_stepAddr (decode : Decoder) (build : Build) (compat : Bool)
    (old : Current) (ctx : Context) (mem : Snapshot)
    (h : (disasmCurrInstr decode build compat .zero ctx mem).stepAddr ≠ 0) :
    disasmCurrInstr decode build compat old ctx mem =
      disasmCurrInstr decode build compat .zero ctx mem := by
  rcases hbytes : mem.read (ctx.pc build) thisInstrMaxSize with _ | bytes
  · rw [disasmCurrInstr, hbytes] at h
    exact absurd rfl h
  · rcases hdec : decode (machineMode build compat) bytes with ⟨i, _ | _⟩
    · simp only [disasmCurrInstr, hbytes, hdec] at h
      exact absurd rfl h
    · simp only [disasmCurrInstr, hbytes, hdec] at h ⊢
      split at h
      · exact absurd rfl h
      · next hne => simp only [hne, if_false]

/-- The script of a condition leaves what the disassembly looked at, or moves the program counter to
an instruction with a destination that is found. -/
def WhenKeeps (decode : Decoder) (build : Build) (compat : Bool) (ctx : Context) (mem : Snapshot)
    (whenWrites : List Write) : Prop :=
  let s := whenWrites.foldl (Session.apply build compat) (.atBreak build compat decode ctx mem)
  Keeps build compat (.atBreak build compat decode ctx mem) s ∨
    (s.ctx.pc build ≠ ctx.pc build ∧ (s.atPc build compat decode).stepAddr ≠ 0)

theorem start_fresh (h : WhenKeeps decode build compat ctx mem whenWrites) :
    Fresh decode build compat (.start build compat decode ctx mem whenWrites) := by
  have hfresh : Fresh decode build compat (.atBreak build compat decode ctx mem) := rfl
  have hsame := foldl_sameDecoding build compat (.atBreak build compat decode ctx mem) whenWrites
  rw [Session.start]
  rcases h with hkeeps | ⟨hpc, hstep⟩
  · have hpc : (whenWrites.foldl (Session.apply build compat)
        (.atBreak build compat decode ctx mem)).ctx.pc build = ctx.pc build :=
      get_congr (hkeeps.regs .rip List.mem_cons_self)
    rw [if_neg (not_not.mpr hpc)]
    exact fresh_of_keeps hfresh hkeeps hsame.eFlags hsame.current
  · rw [if_pos hpc]
    exact disasmCurrInstr_of_stepAddr decode build compat _ _ _ hstep

/-- A command that leaves what the disassembly looked at. -/
def CommandKeeps (build : Build) (compat : Bool) (s : Session) (c : Command) : Prop :=
  Keeps build compat s (s.execute build compat c)

/-- What `P` and `U DEST` go by is the instruction at the program counter. -/
theorem current_fresh (decode : Decoder) (build : Build) (compat : Bool) (ctx : Context)
    (mem : Snapshot) (whenWrites : List Write) (s : Session)
    (hwhen : WhenKeeps decode build compat ctx mem whenWrites)
    (h : Runs.Reachable (sessionStep build compat) (CommandKeeps build compat)
      (.start build compat decode ctx mem whenWrites) s) :
    s.current.thisInstr = (s.atPc build compat decode).thisInstr ∧
      s.current.jumpDest = (s.atPc build compat decode).jumpDest ∧
      stepOverBp build s.ctx s.current = stepOverBp build s.ctx (s.atPc build compat decode) := by
  have hfresh : Fresh decode build compat s :=
    h.invariant (start_fresh hwhen) fun s c s' hs hkeeps hstep => by
      obtain rfl : s.execute build compat c = s' := Option.some.inj hstep
      have hsame := execute_sameDecoding build compat s c
      exact fresh_of_keeps hs hkeeps hsame.eFlags hsame.current
  rw [← hfresh]
  exact ⟨rfl, rfl, rfl⟩

/-- `CALL` with a relative destination, and `NOP`. -/
def callNopDecoder : Decoder
  | _, 0xE8 :: rel =>
    ({ Instr.zero with
        mnemonic := .call, length := 5, branchNear := true
        ops := [.immediate (UInt64.ofNat (Bytes.leNat (rel.take 4)))] }, true)
  | _, 0x90 :: _ => ({ Instr.zero with length := 1 }, true)
  | _, _ => (.zero, false)

/-- `CALL 402005` at `401000`, and nothing else but `NOP`. -/
def callNopMem : Snapshot := fun a =>
  if a = 0x401000 then some 0xE8
  else if a = 0x401002 then some 0x10
  else if a = 0x401001 ∨ a = 0x401003 ∨ a = 0x401004 then some 0
  else some 0x90

def ctxAt (pc : UInt64) : Context := { reg := fun r => if r = .rip then pc else 0, eFlags := 0x202 }

def callSession : Session := .start .x64 false callNopDecoder (ctxAt 0x401000) callNopMem []

/-- `RAX` is changed, and `P` steps over the call. -/
theorem callSession_fresh :
    stepOverBp .x64 (callSession.execute .x64 false (.write (.reg (.q .rax) 7))).ctx
      (callSession.execute .x64 false (.write (.reg (.q .rax) 7))).current = some 0x401005 := by
  have hwhen : WhenKeeps callNopDecoder .x64 false (ctxAt 0x401000) callNopMem [] :=
    .inl ⟨fun _ _ => rfl, fun _ _ => rfl, fun _ _ => rfl⟩
  have hkeeps : CommandKeeps .x64 false callSession (.write (.reg (.q .rax) 7)) :=
    ⟨by decide +kernel, fun _ _ => rfl, fun _ _ => rfl⟩
  have hfresh := current_fresh callNopDecoder .x64 false (ctxAt 0x401000) callNopMem [] _ hwhen
    (.step .init hkeeps rfl)
  refine hfresh.2.2.trans ?_
  decide +kernel

/-- `RIP` is moved to a `NOP`, and `P` steps over it as it would over the call. -/
theorem movedSession_stale :
    ¬ ∀ s, Runs.Reachable (sessionStep .x64 false) (fun _ _ => True) callSession s →
      stepOverBp .x64 s.ctx s.current =
      stepOverBp .x64 s.ctx (s.atPc .x64 false callNopDecoder) := by
  intro hall
  have hmoved := hall (callSession.execute .x64 false (.write (.reg (.q .rip) 0x402000)))
    (.step .init trivial rfl)
  exact absurd hmoved (by decide +kernel)

end BugChecker.Step
