import BugChecker.Lib.Rings

/-!
# Screen updates of a virtual machine

`Glyph::UpdateScreen` puts an update command into the queue that the driver of
the guest shares with the hypervisor, waits until it is done, and takes the
queue back to where it was.
-/

namespace BugChecker.Glyph

open Rings

def SVGA_FIFO_MIN : Nat := 0
def SVGA_FIFO_MAX : Nat := 1
def SVGA_FIFO_NEXT_CMD : Nat := 2
def SVGA_FIFO_STOP : Nat := 3
def SVGA_CMD_UPDATE : UInt32 := 1

/-- The queue as dwords, and the ones that were written to. -/
structure Fifo where
  dwords : Nat → UInt32
  written : List Nat

def Fifo.set (f : Fifo) (n : Nat) (dw : UInt32) : Fifo :=
  ⟨Function.update f.dwords n dw, f.written ++ [n]⟩

def Fifo.min (f : Fifo) : UInt32 := f.dwords SVGA_FIFO_MIN
def Fifo.max (f : Fifo) : UInt32 := f.dwords SVGA_FIFO_MAX
def Fifo.nextCmd (f : Fifo) : UInt32 := f.dwords SVGA_FIFO_NEXT_CMD
def Fifo.stop (f : Fifo) : UInt32 := f.dwords SVGA_FIFO_STOP

def fifoWrite (f : Fifo) (dw : UInt32) : Fifo :=
  let f := f.set (f.nextCmd.toNat / 4) dw
  if f.nextCmd = f.max - 4 then f.set SVGA_FIFO_NEXT_CMD f.min
    else f.set SVGA_FIFO_NEXT_CMD (f.nextCmd + 4)

/-- The hypervisor has consumed what is between STOP and NEXT. -/
def Fifo.process (f : Fifo) : Fifo :=
  { f with dwords := Function.update f.dwords SVGA_FIFO_STOP f.nextCmd }

/-- `Glyph::UpdateScreen`, where there is a queue. -/
def updateScreen (f : Fifo) (x y w h : UInt32) : Fifo :=
  let prevNext := f.nextCmd
  let prevStop := f.stop
  let f := f.set SVGA_FIFO_STOP f.nextCmd
  let f := fifoWrite (fifoWrite (fifoWrite (fifoWrite (fifoWrite f SVGA_CMD_UPDATE) x) y) w) h
  let f := f.process
  (f.set SVGA_FIFO_NEXT_CMD prevNext).set SVGA_FIFO_STOP prevStop

/-- Offsets in bytes of a queue with room for five dwords, which begins behind the four registers.
-/
structure Fifo.Ok (f : Fifo) : Prop where
  min_mod : f.min.toNat % 4 = 0
  max_mod : f.max.toNat % 4 = 0
  next_mod : f.nextCmd.toNat % 4 = 0
  stop_mod : f.stop.toNat % 4 = 0
  registers : 16 ≤ f.min.toNat
  min_le_next : f.min.toNat ≤ f.nextCmd.toNat
  next_lt_max : f.nextCmd.toNat < f.max.toNat
  min_le_stop : f.min.toNat ≤ f.stop.toNat
  stop_lt_max : f.stop.toNat < f.max.toNat
  room : 20 ≤ f.max.toNat - f.min.toNat

def Fifo.ring (f : Fifo) (h : f.Ok) : Ring where
  lo := f.min.toNat / 4
  hi := f.max.toNat / 4
  lo_lt_hi := by
    have hmin := h.min_mod
    have hmax := h.max_mod
    have hroom := h.room
    omega

def Fifo.nextDword (f : Fifo) : Nat := f.nextCmd.toNat / 4
def Fifo.stopDword (f : Fifo) : Nat := f.stop.toNat / 4

/-- The queue is left alone: its pointers are as they were, nothing else than these and its dwords
is written, and the commands that are pending stay. -/
structure Undisturbed (f g : Fifo) (h : f.Ok) : Prop where
  next : g.nextCmd = f.nextCmd
  stop : g.stop = f.stop
  written : ∀ n ∈ g.written, n ∈ f.written ∨ n = SVGA_FIFO_NEXT_CMD ∨ n = SVGA_FIFO_STOP ∨
    (f.ring h).Has n
  pending : ∀ n, (f.ring h).Range f.stopDword f.nextDword n → g.dwords n = f.dwords n

def updateCommand (x y w h : UInt32) : List UInt32 := [SVGA_CMD_UPDATE, x, y, w, h]

-- ---------------------------------------------------------------------------
-- Writes
-- ---------------------------------------------------------------------------

theorem Fifo.set_same (f : Fifo) (n : Nat) (dw : UInt32) : (f.set n dw).dwords n = dw := by
  unfold Fifo.set
  exact Function.update_self ..

theorem Fifo.set_other (f : Fifo) (dw : UInt32) (h : m ≠ n) :
    (f.set n dw).dwords m = f.dwords m := by
  unfold Fifo.set
  exact Function.update_of_ne h ..

/-- While the command is written: the registers of a ring, with NEXT at one of its dwords. -/
structure At (r : Ring) (i : Nat) (f : Fifo) : Prop where
  registers : 4 ≤ r.lo
  min : f.min.toNat = 4 * r.lo
  max : f.max.toNat = 4 * r.hi
  next : f.nextCmd.toNat = 4 * i
  has : r.Has i

theorem At.set_stop {f : Fifo} (h : At r i f) (dw : UInt32) : At r i (f.set SVGA_FIFO_STOP dw) :=
  ⟨h.registers, h.min, h.max, h.next, h.has⟩

theorem fifoWrite_spec {f : Fifo} (h : At r i f) (dw : UInt32) :
    At r (r.next i) (fifoWrite f dw) ∧
      (∀ n, n ≠ SVGA_FIFO_NEXT_CMD → (fifoWrite f dw).dwords n = Function.update f.dwords i dw n) ∧
      (fifoWrite f dw).written = f.written ++ [i, SVGA_FIFO_NEXT_CMD] := by
  obtain ⟨hregisters, hmin, hmax, hnext, hlo, hhi⟩ := h
  have hplace : f.nextCmd.toNat / 4 = i := by omega
  have hkept : ∀ n < 4, (f.set i dw).dwords n = f.dwords n := fun n hn => f.set_other dw (by omega)
  have hmin' : (f.set i dw).min = f.min := hkept 0 (by decide)
  have hmax' : (f.set i dw).max = f.max := hkept 1 (by decide)
  have hnext' : (f.set i dw).nextCmd = f.nextCmd := hkept 2 (by decide)
  have hlast : f.nextCmd = f.max - 4 ↔ i + 1 = r.hi := by
    have hle : (4 : UInt32) ≤ f.max := UInt32.le_iff_toNat_le.mpr (by
      change 4 ≤ f.max.toNat
      omega)
    rw [← UInt32.toNat_inj, UInt32.toNat_sub_of_le _ _ hle, hnext, hmax]
    change 4 * i = 4 * r.hi - 4 ↔ _
    omega
  have hset : ∀ next : UInt32, next.toNat = 4 * r.next i →
      At r (r.next i) ((f.set i dw).set SVGA_FIFO_NEXT_CMD next) := by
    intro next hn
    refine ⟨hregisters, ?_, ?_, ?_, Ring.Has.next ⟨hlo, hhi⟩⟩
    · rw [Fifo.min, Fifo.set_other _ _ (by decide), ← Fifo.min, hmin', hmin]
    · rw [Fifo.max, Fifo.set_other _ _ (by decide), ← Fifo.max, hmax', hmax]
    · rw [Fifo.nextCmd, Fifo.set_same, hn]
  have hdwords : ∀ (next : UInt32) n, n ≠ SVGA_FIFO_NEXT_CMD →
      ((f.set i dw).set SVGA_FIFO_NEXT_CMD next).dwords n = Function.update f.dwords i dw n :=
    fun next n hn => Fifo.set_other _ next hn
  have hwritten : ∀ next : UInt32, ((f.set i dw).set SVGA_FIFO_NEXT_CMD next).written =
      f.written ++ [i, SVGA_FIFO_NEXT_CMD] := fun _ => List.append_assoc _ _ _
  rw [fifoWrite, hplace, hmin', hmax', hnext']
  by_cases hend : i + 1 = r.hi
  · have hstart : f.min.toNat = 4 * r.next i := by rw [Ring.next, if_pos hend, hmin]
    rw [if_pos (hlast.mpr hend)]
    exact ⟨hset _ hstart, hdwords _, hwritten _⟩
  · have hbound : f.nextCmd.toNat + 4 < 2 ^ 32 := by
      have hlt := f.max.toNat_lt
      omega
    have hstep : (f.nextCmd + 4).toNat = 4 * r.next i := by
      have hfour : (f.nextCmd + 4).toNat = f.nextCmd.toNat + 4 :=
        (UInt32.toNat_add f.nextCmd 4).trans (Nat.mod_eq_of_lt hbound)
      rw [Ring.next, if_neg hend, hfour, hnext, Nat.mul_add]
    rw [if_neg fun h => hend (hlast.mp h)]
    exact ⟨hset _ hstep, hdwords _, hwritten _⟩

theorem fifoWrites_spec {f : Fifo} {mem : Nat → UInt32} (h : At r i f)
    (hmem : ∀ n ≥ 4, f.dwords n = mem n)
    (dws : List UInt32) :
    (∀ n ≥ 4, (dws.foldl fifoWrite f).dwords n = r.store mem i dws n) ∧
      ∀ n ∈ (dws.foldl fifoWrite f).written, n ∈ f.written ∨ n = SVGA_FIFO_NEXT_CMD ∨ r.Has n := by
  induction dws generalizing f i mem with
  | nil => exact ⟨hmem, fun _ hn => .inl hn⟩
  | cons dw dws ih =>
    obtain ⟨hat, hdwords, hwritten⟩ := fifoWrite_spec h dw
    have hmem' : ∀ n ≥ 4, (fifoWrite f dw).dwords n = Function.update mem i dw n := by
      intro n hn
      have hnext : n ≠ SVGA_FIFO_NEXT_CMD := Nat.ne_of_gt (Nat.lt_of_lt_of_le (by decide) hn)
      rw [hdwords n hnext]
      by_cases hni : n = i
      · rw [hni, Function.update_self, Function.update_self]
      · rw [Function.update_of_ne hni, Function.update_of_ne hni, hmem n hn]
    obtain ⟨hrest, hwrittenRest⟩ := ih hat hmem'
    refine ⟨hrest, fun n hn => ?_⟩
    rcases hwrittenRest n hn with hbefore | hn
    · rw [hwritten, List.mem_append, List.mem_cons, List.mem_singleton] at hbefore
      rcases hbefore with hbefore | rfl | hnext
      · exact .inl hbefore
      · exact .inr (.inr h.has)
      · exact .inr (.inl hnext)
    · exact .inr hn

-- ---------------------------------------------------------------------------
-- The update
-- ---------------------------------------------------------------------------

section
variable {f : Fifo} (h : f.Ok)

theorem at_nextDword : At (f.ring h) f.nextDword f := by
  obtain ⟨hmin, hmax, hnext, -, hregisters, hle, hlt, -, -, -⟩ := h
  refine ⟨?_, ?_, ?_, ?_, ?_, ?_⟩ <;> simp only [Fifo.ring, Fifo.nextDword] <;> omega

theorem has_stopDword : (f.ring h).Has f.stopDword := by
  obtain ⟨hmin, hmax, -, hstop, -, -, -, hle, hlt, -⟩ := h
  refine ⟨?_, ?_⟩ <;> simp only [Fifo.ring, Fifo.stopDword] <;> omega

def Fifo.withCommand (f : Fifo) (x y w h : UInt32) : Fifo :=
  (updateCommand x y w h).foldl fifoWrite (f.set SVGA_FIFO_STOP f.nextCmd)

theorem updateScreen_eq (x y w h : UInt32) : updateScreen f x y w h =
    ((f.withCommand x y w h).process.set SVGA_FIFO_NEXT_CMD f.nextCmd).set
      SVGA_FIFO_STOP f.stop := rfl

theorem withCommand_spec (x y w ht : UInt32) :
    (∀ n ≥ 4, (f.withCommand x y w ht).dwords n =
        (f.ring h).store f.dwords f.nextDword (updateCommand x y w ht) n) ∧
      ∀ n ∈ (f.withCommand x y w ht).written,
        n ∈ f.written ∨ n = SVGA_FIFO_STOP ∨ n = SVGA_FIFO_NEXT_CMD ∨ (f.ring h).Has n := by
  have hmem : ∀ n ≥ 4, (f.set SVGA_FIFO_STOP f.nextCmd).dwords n = f.dwords n := fun n hn =>
    f.set_other _ (Nat.ne_of_gt (Nat.lt_of_lt_of_le (by decide) hn))
  obtain ⟨hdwords, hwritten⟩ :=
    fifoWrites_spec ((at_nextDword h).set_stop f.nextCmd) hmem (updateCommand x y w ht)
  refine ⟨hdwords, fun n hn => ?_⟩
  rcases hwritten n hn with hbefore | hn
  · rcases List.mem_append.mp hbefore with hbefore | hstop
    · exact .inl hbefore
    · exact .inr (.inl (List.mem_singleton.mp hstop))
  · exact .inr (.inr hn)

theorem updateScreen_dwords (x y w ht : UInt32) (hn : (f.ring h).Has n) :
    (updateScreen f x y w ht).dwords n =
      (f.ring h).store f.dwords f.nextDword (updateCommand x y w ht) n := by
  have hge : 4 ≤ n := Nat.le_trans (at_nextDword h).registers hn.1
  have hnext : n ≠ SVGA_FIFO_NEXT_CMD := Nat.ne_of_gt (Nat.lt_of_lt_of_le (by decide) hge)
  have hstop : n ≠ SVGA_FIFO_STOP := Nat.ne_of_gt (Nat.lt_of_lt_of_le (by decide) hge)
  rw [updateScreen_eq, Fifo.set_other _ _ hstop, Fifo.set_other _ _ hnext,
    ← (withCommand_spec h x y w ht).1 n hge]
  unfold Fifo.process
  exact Function.update_of_ne hstop ..

theorem updateScreen_written (x y w ht : UInt32) (hn : n ∈ (updateScreen f x y w ht).written) :
    n ∈ f.written ∨ n = SVGA_FIFO_NEXT_CMD ∨ n = SVGA_FIFO_STOP ∨ (f.ring h).Has n := by
  rw [updateScreen_eq] at hn
  rcases List.mem_append.mp hn with hn | hn
  · rcases List.mem_append.mp hn with hn | hn
    · rcases (withCommand_spec h x y w ht).2 n hn with hn | hn | hn | hn
      · exact .inl hn
      · exact .inr (.inr (.inl hn))
      · exact .inr (.inl hn)
      · exact .inr (.inr (.inr hn))
    · exact .inr (.inl (List.mem_singleton.mp hn))
  · exact .inr (.inr (.inl (List.mem_singleton.mp hn)))

theorem has_of_range (hn : (f.ring h).Range f.stopDword f.nextDword n) : (f.ring h).Has n := by
  obtain ⟨hslo, hshi⟩ := has_stopDword h
  obtain ⟨hnlo, hnhi⟩ := (at_nextDword h).has
  unfold Ring.Range at hn
  unfold Ring.Has
  split at hn <;> omega

/-- The queue is left alone exactly if the command fits into the dwords that are free, or goes on
over pending ones that it does not change. -/
theorem updateScreen_undisturbed_iff (x y w ht : UInt32) :
    Undisturbed f (updateScreen f x y w ht) h ↔
      ∀ k (hk : k < (updateCommand x y w ht).length), (f.ring h).free f.stopDword f.nextDword ≤ k →
        (updateCommand x y w ht)[k] = f.dwords ((f.ring h).place f.nextDword k) := by
  have hsize : (updateCommand x y w ht).length ≤ (f.ring h).size := by
    have hroom := h.room
    have hmin := h.min_mod
    have hmax := h.max_mod
    change 5 ≤ f.max.toNat / 4 - f.min.toNat / 4
    omega
  rw [← Ring.store_range_iff (has_stopDword h) (at_nextDword h).has hsize]
  have hnext : (updateScreen f x y w ht).nextCmd = f.nextCmd := by
    rw [updateScreen_eq, Fifo.nextCmd, Fifo.set_other _ _ (by decide), Fifo.set_same]
  have hstop : (updateScreen f x y w ht).stop = f.stop := by
    rw [updateScreen_eq, Fifo.stop, Fifo.set_same]
  constructor
  · intro hundisturbed n hn
    rw [← updateScreen_dwords h x y w ht (has_of_range h hn)]
    exact hundisturbed.pending n hn
  · intro hpending
    refine ⟨hnext, hstop, fun n hn => updateScreen_written h x y w ht hn, fun n hn => ?_⟩
    rw [updateScreen_dwords h x y w ht (has_of_range h hn)]
    exact hpending n hn

end

def eightDwords (next stop : UInt32) : Fifo where
  dwords n :=
    if n = SVGA_FIFO_MIN then 16
    else if n = SVGA_FIFO_MAX then 48
    else if n = SVGA_FIFO_NEXT_CMD then next
    else if n = SVGA_FIFO_STOP then stop
    else 7
  written := []

theorem eightDwords_ok (hnext : next.toNat % 4 = 0 ∧ 16 ≤ next.toNat ∧ next.toNat < 48)
    (hstop : stop.toNat % 4 = 0 ∧ 16 ≤ stop.toNat ∧ stop.toNat < 48) :
      (eightDwords next stop).Ok where
  min_mod := show (16 : UInt32).toNat % 4 = 0 by decide
  max_mod := show (48 : UInt32).toNat % 4 = 0 by decide
  next_mod := hnext.1
  stop_mod := hstop.1
  registers := Nat.le_refl 16
  min_le_next := hnext.2.1
  next_lt_max := hnext.2.2
  min_le_stop := hstop.2.1
  stop_lt_max := hstop.2.2
  room := show 20 ≤ (48 : UInt32).toNat - (16 : UInt32).toNat by decide

/-- Two dwords are pending. -/
theorem eightDwords_undisturbed :
    Undisturbed (eightDwords 24 16) (updateScreen (eightDwords 24 16) 0 0 9 16)
      (eightDwords_ok (by decide) (by decide)) :=
  (updateScreen_undisturbed_iff (eightDwords_ok (by decide) (by decide)) 0 0 9 16).mpr (by decide)

/-- Six dwords are pending, and three of them are overwritten. -/
theorem eightDwords_overwritten :
    ¬ Undisturbed (eightDwords 24 32) (updateScreen (eightDwords 24 32) 0 0 9 16)
      (eightDwords_ok (by decide) (by decide)) := by
  intro h
  have hpending := h.pending 8 (by decide)
  revert hpending
  decide

end BugChecker.Glyph
