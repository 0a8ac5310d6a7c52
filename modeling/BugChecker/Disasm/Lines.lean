import BugChecker.Disasm.Addresses
import BugChecker.Lib.Headings

/-!
# The lines of an instruction stream

Where the bytes that are fetched hold the instructions of a stream, `Disasm`
shows a part of the text of that stream: its instructions one after another,
each under the name of its symbol.
-/

namespace BugChecker.Disasm

open Headings

/-- The instruction at every address, and the symbols of one module. -/
structure Stream where
  instr : Nat → Instr
  symbol : Nat → Option String

namespace Stream

variable (st : Stream)

def next (address : Nat) : Nat := address + (st.instr address).length

def heading (address : Nat) : Option Line := (st.symbol address).map (Line.symbolName address)

def line (address : Nat) : Line := .instruction address (st.instr address)

def text (address n : Nat) : List Line := Headings.text st.next st.heading st.line address n

theorem lt_next (address : Nat) : address < st.next address :=
  Nat.lt_add_of_pos_right (Instr.length_pos _)

theorem next_strictMono (address : Nat) : StrictMono fun n => st.next^[n] address :=
  strictMono_nat_of_lt_succ fun n => by
    rw [Function.iterate_succ_apply']
    exact st.lt_next _

theorem heading_isSome (address : Nat) : (st.heading address).isSome = (st.symbol address).isSome :=
  Option.isSome_map

theorem countP_heading (address : Nat) :
    (st.heading address).toList.countP Line.isSymbolName = (st.symbol address).isSome.toNat := by
  unfold heading
  cases st.symbol address <;> rfl

theorem countP_text (address n : Nat) :
    (st.text address n).countP Line.isSymbolName + n = (st.text address n).length := by
  induction n generalizing address with
  | zero => rfl
  | succ n ih =>
    have hrest := ih (st.next address)
    have hcount := st.countP_heading address
    have hlength : (st.heading address).toList.length = (st.symbol address).isSome.toNat := by
      unfold heading
      cases st.symbol address <;> rfl
    unfold text at hrest ⊢
    rw [text_succ, List.countP_append, List.length_append, Headings.block, List.countP_append,
      List.length_append, hcount, hlength]
    have hline : List.countP Line.isSymbolName [st.line address] = 0 := rfl
    rw [hline, List.length_singleton]
    omega

end Stream

variable {st : Stream} {instrAt : Nat → Instr} {base size : Nat}

/-- What is fetched holds the instructions of the stream that end in it. -/
def Agrees (st : Stream) (instrAt : Nat → Instr) (base size : Nat) : Prop :=
  ∀ offset, offset + (st.instr (base + offset)).length ≤ size →
    instrAt offset = st.instr (base + offset)

/-- All memory can be read and holds the stream, and all symbols are of one module. -/
structure Stream.ReadBy (st : Stream) (code : Code) : Prop where
  fetch : ∀ address size, address + size < 2 ^ 64 →
    ∃ instrAt, code.fetch address size = some instrAt
  agrees : ∀ address size instrAt, code.fetch address size = some instrAt →
    Agrees st instrAt address size
  symbolAt : ∀ first address, code.symbolAt first address = st.symbol address

theorem Agrees.instrAt_eq (h : Agrees st instrAt base size) (hle : base ≤ a)
    (hfits : st.next a ≤ base + size) : instrAt (a - base) = st.instr a := by
  obtain ⟨offset, rfl⟩ := Nat.exists_eq_add_of_le hle
  rw [Nat.add_sub_cancel_left]
  refine h offset ?_
  rw [Stream.next] at hfits
  omega

theorem Agrees.following_eq (h : Agrees st instrAt base size) (hle : base ≤ a)
    (hfits : st.next a ≤ base + size) : following instrAt base a = st.next a := by
  rw [following, h.instrAt_eq hle hfits, Stream.next]

theorem Agrees.iterate_following (h : Agrees st instrAt base size) (hle : base ≤ a)
    (hfits : st.next^[k] a ≤ base + size) (hi : i ≤ k) :
    (following instrAt base)^[i] a = st.next^[i] a := by
  induction i with
  | zero => rfl
  | succ i ih =>
    have hmono := (st.next_strictMono a).monotone
    rw [Function.iterate_succ_apply', Function.iterate_succ_apply', ih (Nat.le_of_succ_le hi)]
    refine h.following_eq (Nat.le_trans hle (hmono (Nat.zero_le i))) ?_
    rw [← Function.iterate_succ_apply' st.next i a]
    exact Nat.le_trans (hmono hi) hfits

theorem Agrees.iterate_list (h : Agrees st instrAt base size) (hle : base ≤ a)
    (hfits : st.next^[k] a ≤ base + size) :
    List.iterate (following instrAt base) a k = List.iterate st.next a k := by
  rw [← List.range_map_iterate, ← List.range_map_iterate]
  refine List.map_congr_left fun i hi => ?_
  exact h.iterate_following hle hfits (Nat.le_of_lt (List.mem_range.mp hi))

theorem Agrees.block_eq (h : Agrees st instrAt base size) (hle : base ≤ a)
    (hfits : st.next a ≤ base + size) :
    block instrAt base st.symbol a = Headings.block st.heading st.line a := by
  rw [block, h.instrAt_eq hle hfits]
  rfl

theorem Agrees.linesOf_iterate (h : Agrees st instrAt base size) (hle : base ≤ a)
    (hfits : st.next^[n + 1] a ≤ base + size) (isFirst : Bool) :
    linesOf instrAt base st.symbol isFirst (List.iterate st.next a (n + 1)) =
      (st.text a (n + 1)).drop (isFirst && (st.symbol a).isSome).toNat := by
  have hmono := (st.next_strictMono a).monotone
  have hblock : ∀ i < n + 1, block instrAt base st.symbol (st.next^[i] a) =
      Headings.block st.heading st.line (st.next^[i] a) := by
    intro i hi
    refine h.block_eq (Nat.le_trans hle (hmono (Nat.zero_le i))) ?_
    rw [← Function.iterate_succ_apply' st.next i a]
    exact Nat.le_trans (hmono hi) hfits
  have hrest : (List.iterate st.next (st.next a) n).flatMap (block instrAt base st.symbol) =
      st.text (st.next a) n := by
    refine List.flatMap_congr fun x hx => ?_
    obtain ⟨i, hi, rfl⟩ := List.mem_iterate.mp hx
    exact hblock (i + 1) (Nat.succ_lt_succ hi)
  have hfirst : block instrAt base st.symbol a = Headings.block st.heading st.line a :=
    hblock 0 (Nat.succ_pos n)
  have hinstr : instrAt (a - base) = st.instr a := by
    refine h.instrAt_eq hle ?_
    exact Nat.le_trans (hmono (Nat.succ_le_succ (Nat.zero_le n))) hfits
  have htext : st.text a (n + 1) =
      Headings.block st.heading st.line a ++ st.text (st.next a) n := text_succ a n
  rw [List.iterate, linesOf, hrest, hfirst, hinstr, htext]
  cases isFirst with
  | false => rfl
  | true =>
    rw [if_pos rfl, Headings.block, Stream.heading]
    cases st.symbol a <;> rfl

-- ---------------------------------------------------------------------------
-- What a call of Disasm leaves
-- ---------------------------------------------------------------------------

namespace DisasmWnd

variable {code : Code} {contentsDim pc : Nat} {navigate : Int} {w : DisasmWnd}

theorem disasm_of_shown
    (hfetch : code.fetch (w.asmBytesAddress pc navigate) (w.asmBytesSize navigate) =
      some instrAt) (hshown : w.shownAddresses contentsDim pc navigate instrAt = some addresses) :
    w.disasm code contentsDim pc navigate =
    (w.withFlags navigate).withLines contentsDim (w.moved navigate)
      (linesOf instrAt (w.asmBytesAddress pc navigate) (code.symbolAt (addresses.headD 0))
        (w.keepsAddress navigate) addresses) := by
  simp only [disasm, hfetch, hshown]

theorem disasm_of_refused
    (hfetch : code.fetch (w.asmBytesAddress pc navigate) (w.asmBytesSize navigate) =
      some instrAt) (hshown : w.shownAddresses contentsDim pc navigate instrAt = none) :
    w.disasm code contentsDim pc navigate = w.withFlags navigate := by
  simp only [disasm, hfetch, hshown]

/-- Lines of the text that are left out at the beginning: a symbol that was scrolled off. -/
def skipped (st : Stream) (navigate : Int) (address : Nat) (w : DisasmWnd) : Nat :=
  (w.keepsAddress navigate && (st.symbol address).isSome).toNat

theorem keepsAddress_of_neg (h : w.moved navigate < 0) : w.keepsAddress navigate = false := by
  by_contra hkeeps
  rw [moved, if_pos (.inl (Bool.not_eq_false _ ▸ hkeeps))] at h
  exact absurd h (Int.lt_irrefl 0)

theorem disasm_of_iterate (hsymbol : ∀ first address,
    code.symbolAt first address = st.symbol address)
    (hfetch : code.fetch (w.asmBytesAddress pc navigate) (w.asmBytesSize navigate) = some instrAt)
    (hagrees : Agrees st instrAt (w.asmBytesAddress pc navigate) size)
    (hshown : w.shownAddresses contentsDim pc navigate instrAt = some (List.iterate st.next b n))
    (hn : 0 < n) (hle : w.asmBytesAddress pc navigate ≤ b)
    (hfits : st.next^[n] b ≤ w.asmBytesAddress pc navigate + size) :
    w.disasm code contentsDim pc navigate =
    (w.withFlags navigate).withLines contentsDim (w.moved navigate)
      ((st.text b n).drop (w.skipped st navigate b)) := by
  obtain ⟨n, rfl⟩ := Nat.exists_eq_add_one_of_ne_zero (Nat.ne_of_gt hn)
  rw [disasm_of_shown hfetch hshown, show code.symbolAt _ = st.symbol from funext (hsymbol _),
    hagrees.linesOf_iterate hle hfits]
  rfl

theorem disasm_forward (hread : st.ReadBy code) (hdim : 0 < contentsDim)
    (hmoved : 0 ≤ w.moved navigate)
    (hend : w.start pc navigate + 512 < 2 ^ 64)
    (hfits : st.next^[(w.moved navigate).toNat + contentsDim] (w.start pc navigate) ≤
      w.start pc navigate + 512) :
    w.disasm code contentsDim pc navigate =
    (w.withFlags navigate).withLines contentsDim (w.moved navigate)
      ((st.text (st.next^[(w.moved navigate).toNat] (w.start pc navigate)) contentsDim).drop
        (w.skipped st navigate (st.next^[(w.moved navigate).toNat] (w.start pc navigate)))) := by
  have haddress : w.asmBytesAddress pc navigate = w.start pc navigate :=
    if_neg (Int.not_lt.mpr hmoved)
  have hsize : w.asmBytesSize navigate = 512 := if_neg (Int.not_lt.mpr hmoved)
  rw [← haddress] at hend hfits ⊢
  rw [← hsize] at hend hfits
  obtain ⟨instrAt, hfetch⟩ := hread.fetch _ _ hend
  have hagrees := hread.agrees _ _ _ hfetch
  have hmono := (st.next_strictMono (w.asmBytesAddress pc navigate)).monotone
  have hle := hmono (Nat.zero_le (w.moved navigate).toNat)
  have hlast :
      st.next^[contentsDim] (st.next^[(w.moved navigate).toNat] (w.asmBytesAddress pc navigate)) ≤
      w.asmBytesAddress pc navigate + w.asmBytesSize navigate := by
    rw [← Function.iterate_add_apply, Nat.add_comm]
    exact hfits
  refine disasm_of_iterate hread.symbolAt hfetch hagrees ?_ hdim hle hlast
  rw [shownAddresses_forward hdim hmoved,
    hagrees.iterate_following (Nat.le_refl _) hfits (Nat.le_add_right _ _),
    hagrees.iterate_list hle hlast]

/-- Backwards: the text up to as many instructions in front of the last one shown, when that is met
and there are enough. -/
theorem disasm_backward (hread : st.ReadBy code) (hdim : 0 < contentsDim)
    (hmoved : w.moved navigate < 0)
    (hend : w.asmBytesAddress pc navigate + 1024 < 2 ^ 64)
    (hlast : st.next^[m] (w.asmBytesAddress pc navigate) = w.lastAddressShown)
    (hfits : st.next w.lastAddressShown ≤ w.asmBytesAddress pc navigate + 1024) :
    w.disasm code contentsDim pc navigate =
      if contentsDim + (w.moved navigate).natAbs +
          (w.withFlags navigate).isLastAddressShownASymName.toNat ≤ m + 1 then
        (w.withFlags navigate).withLines contentsDim (w.moved navigate)
          (st.text (st.next^[m + 1 - (w.moved navigate).natAbs - contentsDim]
            (w.asmBytesAddress pc navigate))
            (contentsDim + (w.withFlags navigate).isLastAddressShownASymName.toNat))
      else w.withFlags navigate := by
  have hsize : w.asmBytesSize navigate = 1024 := if_pos hmoved
  rw [← hsize] at hend hfits
  obtain ⟨instrAt, hfetch⟩ := hread.fetch _ _ hend
  have hagrees := hread.agrees _ _ _ hfetch
  rw [← hlast, ← Function.iterate_succ_apply' st.next m] at hfits
  have hmeets : (following instrAt (w.asmBytesAddress pc navigate))^[m]
      (w.asmBytesAddress pc navigate) =
      w.lastAddressShown := by
    rw [hagrees.iterate_following (Nat.le_refl _) hfits (Nat.le_succ m), hlast]
  obtain ⟨m', heq, hbelow, hlast'⟩ := backwardAddresses_eq instrAt (w.asmBytesAddress pc navigate)
    w.lastAddressShown
  obtain rfl := eq_of_first hbelow hlast' hmeets
  have hle := w.withFlags_isLast_le navigate hmoved
  have hshown : w.shownAddresses contentsDim pc navigate instrAt = _ :=
    shownAddresses_backward hmoved
  rw [heq, keptBackward_iterate _ hle] at hshown
  split
  · next hcount =>
    rw [if_pos ⟨hmeets, hcount⟩] at hshown
    have hmono := (st.next_strictMono (w.asmBytesAddress pc navigate)).monotone
    have hfirst := hmono (Nat.zero_le (m + 1 - (w.moved navigate).natAbs - contentsDim))
    have hend : st.next^[contentsDim + (w.withFlags navigate).isLastAddressShownASymName.toNat]
        (st.next^[m + 1 - (w.moved navigate).natAbs - contentsDim]
          (w.asmBytesAddress pc navigate)) ≤
        w.asmBytesAddress pc navigate + w.asmBytesSize navigate := by
      rw [← Function.iterate_add_apply]
      exact Nat.le_trans (hmono (by omega)) hfits
    rw [hagrees.iterate_following (Nat.le_refl _) hfits (by omega),
      hagrees.iterate_list hfirst hend]
      at hshown
    have hskipped : w.skipped st navigate (st.next^[m + 1 - (w.moved navigate).natAbs - contentsDim]
        (w.asmBytesAddress pc navigate)) = 0 := by
      rw [skipped, keepsAddress_of_neg hmoved]
      rfl
    rw [disasm_of_iterate hread.symbolAt hfetch hagrees hshown (Nat.add_pos_left hdim _) hfirst
      hend, hskipped,
      List.drop_zero]
  · next hcount =>
    rw [if_neg fun h => hcount h.2] at hshown
    exact disasm_of_refused hfetch hshown

end DisasmWnd

end BugChecker.Disasm
