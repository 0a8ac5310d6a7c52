import BugChecker.Disasm.Addresses

/-!
# The bytes that are decoded

The loops of `Disasm` count lines, not bytes. Decoding stays in the fetched
bytes exactly when the instructions are short enough for their number: forward
up to the last one shown, backwards up to the address that was shown last.
-/

namespace BugChecker.Disasm

/-- `ZydisDecoderDecodeFull`: the length of the instruction that the bytes begin with. -/
structure Decoder where
  decode : List UInt8 → Option Nat
  length_pos : decode bytes = some n → 1 ≤ n
  length_le : decode bytes = some n → n ≤ 15
  length_le_length : decode bytes = some n → n ≤ bytes.length

structure HiddenByte where
  address : Nat
  prevByte : UInt8

/-- Where the bytes come from. What is read never ends at the end of the address space. -/
structure Source where
  read : (address size : Nat) → Option (List UInt8)
  length_read : read address size = some bytes → bytes.length = size
  end_lt : read address size = some bytes → address + size < 2 ^ 64
  breakPoints : List HiddenByte
  decoder : Decoder
  /-- What is on the stack behind the fetched bytes, by the offset from the first of them. -/
  stack : Nat → UInt8

namespace Source

variable (src : Source)

def hideBreakPoints (asmBytesAddress : Nat) (asmBytes : List UInt8) : List UInt8 :=
  src.breakPoints.foldl (fun bytes bp =>
    if bp.address ≥ asmBytesAddress ∧ bp.address < asmBytesAddress + asmBytes.length then
      bytes.set (bp.address - asmBytesAddress) bp.prevByte
    else bytes) asmBytes

/-- What the decoder finds at `asmBytes + offset`, given the length `asmBytesSize - offset`. Behind
the end that is a huge number, and it reads on. -/
def decoderInput (asmBytes : List UInt8) (offset : Nat) : List UInt8 :=
  if offset ≤ asmBytes.length then asmBytes.drop offset
  else (List.range 15).map fun i => src.stack (offset + i)

def instrAt (asmBytes : List UInt8) (offset : Nat) : Instr :=
  match h : src.decoder.decode (src.decoderInput asmBytes offset) with
  | some n =>
    { bytes := (src.decoderInput asmBytes offset).take n
      error := false
      bytes_ne := by
        have hpos := src.decoder.length_pos h
        have hle := src.decoder.length_le_length h
        apply List.length_pos_iff.mp
        rw [List.length_take]
        omega }
  | none =>
    { bytes := [asmBytes.getD offset (src.stack offset)]
      error := true
      bytes_ne := List.cons_ne_nil _ _ }

def fetch (address size : Nat) : Option (Nat → Instr) :=
  (src.read address size).map fun asmBytes => src.instrAt (src.hideBreakPoints address asmBytes)

def code (symbolAt : (first address : Nat) → Option String) : Code where
  fetch := src.fetch
  symbolAt := symbolAt

theorem length_hideBreakPoints (address : Nat) (asmBytes : List UInt8) :
    (src.hideBreakPoints address asmBytes).length = asmBytes.length := by
  unfold hideBreakPoints
  generalize src.breakPoints = bps
  suffices h : ∀ bytes : List UInt8, (bps.foldl (fun bytes bp =>
      if bp.address ≥ address ∧ bp.address < address + asmBytes.length then
        bytes.set (bp.address - address) bp.prevByte
      else bytes) bytes).length = bytes.length from h asmBytes
  induction bps with
  | nil => exact fun _ => rfl
  | cons bp bps ih =>
    intro bytes
    rw [List.foldl_cons, ih]
    split
    · exact List.length_set
    · rfl

theorem instrAt_end_le (h : offset < asmBytes.length) :
    offset + (src.instrAt asmBytes offset).length ≤ asmBytes.length := by
  unfold instrAt
  split
  · next n hn =>
    have hle := src.decoder.length_le_length hn
    rw [decoderInput, if_pos (Nat.le_of_lt h), List.length_drop] at hle
    simp only [Instr.length, List.length_take]
    omega
  · exact h

theorem instrAt_end (asmBytes : List UInt8) :
    (src.instrAt asmBytes asmBytes.length).length = 1 := by
  unfold instrAt
  split
  · next n hn =>
    have hpos := src.decoder.length_pos hn
    have hle := src.decoder.length_le_length hn
    rw [decoderInput, if_pos (Nat.le_refl _), List.drop_length, List.length_nil] at hle
    omega
  · rfl

end Source

-- ---------------------------------------------------------------------------
-- What Disasm reads
-- ---------------------------------------------------------------------------

namespace DisasmWnd

variable (code : Code) (contentsDim pc : Nat) (navigate : Int) (w : DisasmWnd)

/-- Addresses at which the first loop decodes: all but the one it stops at. And again, one for each
instruction that is shown. -/
def decodedAddresses (instrAt : Nat → Instr) : List Nat :=
  (collected instrAt (w.asmBytesAddress pc navigate) contentsDim w.lastAddressShown
      (w.moved navigate)).dropLast ++
    (w.shownAddresses contentsDim pc navigate instrAt).getD []

/-- `offset` at each call of the decoder. -/
def decodeOffsets : List Nat :=
  match code.fetch (w.asmBytesAddress pc navigate) (w.asmBytesSize navigate) with
  | none => []
  | some instrAt =>
    (w.decodedAddresses contentsDim pc navigate instrAt).map (· - w.asmBytesAddress pc navigate)

/-- Indices of the bytes that are printed: up to ten of each instruction. -/
def printedIndices : List Nat :=
  match code.fetch (w.asmBytesAddress pc navigate) (w.asmBytesSize navigate) with
  | none => []
  | some instrAt =>
    ((w.shownAddresses contentsDim pc navigate instrAt).getD []).flatMap fun address =>
      let offset := address - w.asmBytesAddress pc navigate
      (List.range (min 10 (instrAt offset).length)).map (offset + ·)

/-- Only fetched bytes are decoded and printed. -/
def ReadsFetched : Prop :=
  (∀ offset ∈ w.decodeOffsets code contentsDim pc navigate, offset ≤ w.asmBytesSize navigate) ∧
    ∀ i ∈ w.printedIndices code contentsDim pc navigate, i < w.asmBytesSize navigate

/-- Forward, the last instruction that is shown begins inside the fetched bytes. Backwards, the
address shown last is reached by their end; where there are enough instructions up to it, it is also
as many bytes in front of the end as there are instructions to leave out. -/
def StaysInside (instrAt : Nat → Instr) : Prop :=
  let address := w.asmBytesAddress pc navigate
  if 0 ≤ w.moved navigate then
    (following instrAt address)^[contentsDim + (w.moved navigate).toNat - 1] address < address + 512
  else
    w.lastAddressShown ≤ address + 1025 ∧
      ((∀ m, (following instrAt address)^[m] address = w.lastAddressShown →
          m + 1 < contentsDim + (w.moved navigate).natAbs +
            (w.withFlags navigate).isLastAddressShownASymName.toNat) ∨
        w.lastAddressShown + (w.withFlags navigate).isLastAddressShownASymName.toNat <
          address + 1024 + (w.moved navigate).natAbs)

end DisasmWnd

-- ---------------------------------------------------------------------------
-- When they are inside
-- ---------------------------------------------------------------------------

/-- Instructions decoded from fetched bytes. -/
structure Bounded (instrAt : Nat → Instr) (size : Nat) : Prop where
  end_le : ∀ offset < size, offset + (instrAt offset).length ≤ size
  at_end : (instrAt size).length = 1

variable {instrAt : Nat → Instr} {base size last : Nat}

theorem Source.bounded_fetch {src : Source} (h : src.fetch address size = some instrAt) :
    Bounded instrAt size := by
  obtain ⟨asmBytes, hread, rfl⟩ := Option.map_eq_some_iff.mp h
  have hlength : (src.hideBreakPoints address asmBytes).length = size := by
    rw [src.length_hideBreakPoints, src.length_read hread]
  rw [← hlength]
  exact ⟨fun offset => src.instrAt_end_le, src.instrAt_end _⟩

theorem Bounded.following_le (h : Bounded instrAt size) (hle : base ≤ a) (hlt : a < base + size) :
    following instrAt base a ≤ base + size := by
  have := h.end_le (a - base) (by omega)
  rw [following]
  omega

theorem Bounded.following_end (h : Bounded instrAt size) :
    following instrAt base (base + size) = base + size + 1 := by
  rw [following, Nat.add_sub_cancel_left, h.at_end]

theorem Bounded.printed_iff (h : Bounded instrAt size) (offset : Nat) :
    (∀ i ∈ List.range (min 10 (instrAt offset).length), offset + i < size) ↔ offset < size := by
  simp only [List.mem_range]
  constructor
  · intro hall
    exact hall 0 (Nat.lt_min.mpr ⟨by decide, Instr.length_pos _⟩)
  · intro hlt i hi
    have hend := h.end_le offset hlt
    have hi' := (Nat.lt_min.mp hi).2
    omega

theorem Bounded.exists_end (h : Bounded instrAt size)
    (hbeyond : base + size < (following instrAt base)^[m] base) :
    ∃ i < m, (following instrAt base)^[i] base = base + size := by
  induction m with
  | zero =>
    rw [Function.iterate_zero_apply] at hbeyond
    omega
  | succ m ih =>
    by_cases hprev : base + size < (following instrAt base)^[m] base
    · obtain ⟨i, hi, heq⟩ := ih hprev
      exact ⟨i, Nat.lt_succ_of_lt hi, heq⟩
    · refine ⟨m, Nat.lt_succ_self m, ?_⟩
      have hle := (following_strictMono instrAt base base).monotone (Nat.zero_le m)
      dsimp only [Function.iterate_zero_apply] at hle
      by_contra hne
      have hinside := h.following_le hle (by omega)
      rw [Function.iterate_succ_apply'] at hbeyond
      omega

/-- Backwards: the sequence is at the end of the fetched bytes when it leaves them, and one byte
further then. -/
theorem addresses_inside_backward (hb : Bounded instrAt size) (hdim : 0 < contentsDim)
    (hmoved : isLast.toNat ≤ n) :
    ((∀ a ∈ (backwardAddresses instrAt base last).dropLast, a ≤ base + size) ∧
      ∀ a ∈ (keptBackward contentsDim last n isLast (backwardAddresses instrAt base last)).getD [],
        a < base + size) ↔
    last ≤ base + size + 1 ∧
      ((∀ m, (following instrAt base)^[m] base = last → m + 1 < contentsDim + n + isLast.toNat) ∨
        last + isLast.toNat < base + size + n) := by
  obtain ⟨m, heq, hbelow, hlast⟩ := backwardAddresses_eq instrAt base last
  rw [heq, iterate_dropLast, keptBackward_iterate _ hmoved]
  have hmono := (following_strictMono instrAt base base).monotone
  have hend : base + size < (following instrAt base)^[m] base →
      ∃ i < m, (following instrAt base)^[i] base = base + size := hb.exists_end
  constructor
  · rintro ⟨hcollected, hshown⟩
    have hle : last ≤ base + size + 1 := by
      by_contra hgt
      obtain ⟨i, hi, hat⟩ := hend (by omega)
      have hnext : (following instrAt base)^[i + 1] base = base + size + 1 := by
        rw [Function.iterate_succ_apply', hat, hb.following_end]
      have hne : i + 1 ≠ m := by
        rintro rfl
        omega
      have := hcollected _ (List.mem_iterate.mpr ⟨i + 1, by omega, rfl⟩)
      omega
    refine ⟨hle, ?_⟩
    split at hshown
    · next hkept =>
      refine .inr ?_
      have hinside := hshown ((following instrAt base)^[m + isLast.toNat - n] base)
        (List.mem_iterate.mpr ⟨contentsDim + isLast.toNat - 1, by omega, by
          rw [← Function.iterate_add_apply]
          congr 2
          omega⟩)
      by_contra hge
      rcases Nat.lt_or_ge (base + size) last with hgt | hle'
      · obtain ⟨i, hi, hat⟩ := hend (by omega)
        have := hmono (show i ≤ m + isLast.toNat - n by omega)
        dsimp only at this
        omega
      · obtain rfl : isLast.toNat = n := by omega
        rw [Nat.add_sub_cancel, hkept.1] at hinside
        omega
    · next hkept =>
      refine .inl fun m' hm' => ?_
      obtain rfl := eq_of_first hbelow hlast hm'
      exact Nat.lt_of_not_le fun hcount => hkept ⟨hm', hcount⟩
  · rintro ⟨hle, hkept⟩
    constructor
    · intro a ha
      obtain ⟨i, hi, rfl⟩ := List.mem_iterate.mp ha
      have := hbelow i hi
      omega
    · intro a ha
      split at ha
      · next hcond =>
        obtain ⟨i, hi, rfl⟩ := List.mem_iterate.mp ha
        have hlt := hkept.resolve_left fun hfew =>
            absurd (hfew m hcond.1) (Nat.not_lt_of_le hcond.2)
        rw [← Function.iterate_add_apply]
        have hstep := add_le_following instrAt base base (i + (m + 1 - n - contentsDim))
          (m - (i + (m + 1 - n - contentsDim)))
        rw [Nat.add_sub_cancel' (by omega), hcond.1] at hstep
        omega
      · cases ha

namespace DisasmWnd

variable {code : Code} {contentsDim pc : Nat} {navigate : Int} {w : DisasmWnd}

theorem readsFetched_iff_addresses
    (hfetch : code.fetch (w.asmBytesAddress pc navigate) (w.asmBytesSize navigate) = some instrAt)
    (h : Bounded instrAt (w.asmBytesSize navigate)) :
    w.ReadsFetched code contentsDim pc navigate ↔
      (∀ a ∈ (collected instrAt (w.asmBytesAddress pc navigate) contentsDim w.lastAddressShown
        (w.moved navigate)).dropLast, a ≤ w.asmBytesAddress pc navigate + w.asmBytesSize navigate) ∧
      ∀ a ∈ (w.shownAddresses contentsDim pc navigate instrAt).getD [],
        a < w.asmBytesAddress pc navigate + w.asmBytesSize navigate := by
  have hpos : 0 < w.asmBytesSize navigate := by
    unfold asmBytesSize
    split <;> decide
  unfold ReadsFetched decodeOffsets printedIndices
  simp only [hfetch, decodedAddresses, List.forall_mem_map, List.forall_mem_append,
    List.forall_mem_flatMap]
  have hprinted : ∀ a,
      (∀ i ∈ List.range (min 10 (instrAt (a - w.asmBytesAddress pc navigate)).length),
      a - w.asmBytesAddress pc navigate + i < w.asmBytesSize navigate) ↔
        a < w.asmBytesAddress pc navigate + w.asmBytesSize navigate := by
    intro a
    rw [h.printed_iff]
    omega
  constructor
  · rintro ⟨⟨hcollected, -⟩, hshown⟩
    refine ⟨fun a ha => ?_, fun a ha => (hprinted a).mp (hshown a ha)⟩
    have := hcollected a ha
    omega
  · rintro ⟨hcollected, hshown⟩
    refine ⟨⟨fun a ha => ?_, fun a ha => ?_⟩, fun a ha => (hprinted a).mpr (hshown a ha)⟩
    · have := hcollected a ha
      omega
    · have := hshown a ha
      omega

theorem addresses_inside_forward (hdim : 0 < contentsDim)
    (hmoved : 0 ≤ w.moved navigate) (size : Nat) :
    ((∀ a ∈ (collected instrAt (w.asmBytesAddress pc navigate) contentsDim w.lastAddressShown
        (w.moved navigate)).dropLast, a ≤ w.asmBytesAddress pc navigate + size) ∧
      ∀ a ∈ (w.shownAddresses contentsDim pc navigate instrAt).getD [],
        a < w.asmBytesAddress pc navigate + size) ↔
    (following instrAt (w.asmBytesAddress pc navigate))^[contentsDim + (w.moved navigate).toNat - 1]
      (w.asmBytesAddress pc navigate) < w.asmBytesAddress pc navigate + size := by
  rw [shownAddresses_forward hdim hmoved, collected, if_pos hmoved, forwardAddresses_eq _ _ hdim,
    Option.getD_some]
  generalize w.asmBytesAddress pc navigate = base
  generalize (w.moved navigate).toNat = n
  have hmono := (following_strictMono instrAt base base).monotone
  rw [show n + contentsDim = contentsDim + n - 1 + 1 by omega, iterate_dropLast]
  constructor
  · rintro ⟨-, hshown⟩
    refine hshown _ (List.mem_iterate.mpr ⟨contentsDim - 1, by omega, ?_⟩)
    rw [← Function.iterate_add_apply]
    congr 2
    omega
  · intro hlast
    constructor
    · intro a ha
      obtain ⟨i, hi, rfl⟩ := List.mem_iterate.mp ha
      exact Nat.le_of_lt (Nat.lt_of_le_of_lt (hmono (Nat.le_of_lt hi)) hlast)
    · intro a ha
      obtain ⟨i, hi, rfl⟩ := List.mem_iterate.mp ha
      rw [← Function.iterate_add_apply]
      exact Nat.lt_of_le_of_lt (hmono (by omega)) hlast

/-- Exactly when the instructions are short enough. -/
theorem readsFetched_iff (src : Source) (symbolAt : Nat → Nat → Option String) (pc : Nat)
    (navigate : Int)
    (w : DisasmWnd) (hdim : 0 < contentsDim) :
    w.ReadsFetched (src.code symbolAt) contentsDim pc navigate ↔
      ∀ instrAt, src.fetch (w.asmBytesAddress pc navigate) (w.asmBytesSize navigate) =
        some instrAt →
        w.StaysInside contentsDim pc navigate instrAt := by
  cases hfetch : src.fetch (w.asmBytesAddress pc navigate) (w.asmBytesSize navigate) with
  | none =>
    have hnone : (src.code symbolAt).fetch (w.asmBytesAddress pc navigate)
        (w.asmBytesSize navigate) =
      none := hfetch
    simp [ReadsFetched, decodeOffsets, printedIndices, hnone]
  | some instrAt =>
    have hb := Source.bounded_fetch hfetch
    rw [readsFetched_iff_addresses hfetch hb]
    simp only [Option.some.injEq, forall_eq']
    unfold StaysInside
    by_cases hmoved : 0 ≤ w.moved navigate
    · rw [addresses_inside_forward hdim hmoved, if_pos hmoved, asmBytesSize,
        if_neg (Int.not_lt.mpr hmoved)]
    · have hneg := Int.not_le.mp hmoved
      have hsize : w.asmBytesSize navigate = 1024 := by rw [asmBytesSize, if_pos hneg]
      rw [hsize] at hb
      rw [shownAddresses_backward hneg, collected, if_neg hmoved, if_neg hmoved, hsize,
        addresses_inside_backward hb hdim (w.withFlags_isLast_le navigate hneg)]

end DisasmWnd

-- ---------------------------------------------------------------------------
-- Instructions of ten bytes
-- ---------------------------------------------------------------------------

/-- `MOV RAX, imm64`, and `ADD [RAX], AL` for zeros. -/
def movLength : List UInt8 → Option Nat
  | 0x48 :: 0xB8 :: rest => if 8 ≤ rest.length then some 10 else none
  | 0 :: 0 :: _ => some 2
  | _ => none

theorem movLength_bounds (h : movLength bytes = some n) : 1 ≤ n ∧ n ≤ 15 ∧ n ≤ bytes.length := by
  unfold movLength at h
  split at h
  · next rest =>
    split at h
    · next hrest =>
      obtain rfl := Option.some.inj h
      exact ⟨by decide, by decide, Nat.add_le_add_right hrest 2⟩
    · cases h
  · next rest =>
    obtain rfl := Option.some.inj h
    exact ⟨by decide, by decide, Nat.le_add_left 2 rest.length⟩
  · cases h

def movDecoder : Decoder where
  decode := movLength
  length_pos h := (movLength_bounds h).1
  length_le h := (movLength_bounds h).2.1
  length_le_length h := (movLength_bounds h).2.2

/-- `MOV RAX, 0` again and again from `0x1000` on. -/
def movByte (address : Nat) : UInt8 :=
  match (address - 0x1000) % 10 with
  | 0 => 0x48
  | 1 => 0xB8
  | _ => 0

def movs : Source where
  read address size :=
    if address + size < 2 ^ 64 then some ((List.range size).map fun i => movByte (address + i))
      else none
  length_read h := by
    obtain ⟨-, h⟩ := Option.ite_none_right_eq_some.mp h
    rw [← Option.some.inj h, List.length_map, List.length_range]
  end_lt h := (Option.ite_none_right_eq_some.mp h).1
  breakPoints := []
  decoder := movDecoder
  stack _ := 0

namespace DisasmWnd

/-- 25 of them fit. -/
theorem movs_reads : 0 < 25 ∧ ReadsFetched (movs.code fun _ _ => none) 25 0x1000 0 {} := by
  refine ⟨by decide, (readsFetched_iff movs _ 0x1000 0 {} (by decide)).mpr fun instrAt hfetch => ?_⟩
  obtain rfl := Option.some.inj hfetch
  unfold StaysInside
  dsimp only
  rw [if_pos (by decide)]
  decide +kernel

/-- Of 60, the 55th is looked for behind the end of what was fetched. -/
theorem movs_reads_beyond :
    513 ∈ decodeOffsets (movs.code fun _ _ => none) 60 0x1000 0 {} ∧
    ¬ ReadsFetched (movs.code fun _ _ => none) 60 0x1000 0 {} := by
  have hmem : 513 ∈ decodeOffsets (movs.code fun _ _ => none) 60 0x1000 0 {} := by
    decide +kernel
  refine ⟨hmem, fun hreads => ?_⟩
  exact absurd (hreads.1 513 hmem) (by decide)

end DisasmWnd

end BugChecker.Disasm
