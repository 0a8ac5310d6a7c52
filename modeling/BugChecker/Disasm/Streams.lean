import BugChecker.Disasm.Bytes
import BugChecker.Disasm.Lines

/-!
# Streams from memory

Memory holds an instruction stream: what a decoder finds at an address depends
only on the bytes that it consumes, so that it finds the same in every part of
the memory that has all of them.
-/

namespace BugChecker.Disasm

/-- Only the bytes of the instruction matter. -/
def Decoder.Local (decoder : Decoder) : Prop :=
  ∀ xs ys n, decoder.decode xs = some n → ys.take n = xs.take n → decoder.decode ys = some n

namespace Source

variable (src : Source) (byteAt : Nat → UInt8)

def visibleByte (address : Nat) : UInt8 :=
  src.breakPoints.foldl (fun byte bp => if bp.address = address then bp.prevByte
    else byte) (byteAt address)

def bytesFrom (address n : Nat) : List UInt8 :=
  (List.range n).map fun i => src.visibleByte byteAt (address + i)

/-- The instruction at each address: no more than fifteen bytes are needed. -/
def stream (symbol : Nat → Option String) : Stream where
  instr address := src.instrAt (src.bytesFrom byteAt address 15) 0
  symbol := symbol

theorem hideBreakPoints_eq (address n : Nat) :
    src.hideBreakPoints address ((List.range n).map fun i => byteAt (address + i)) =
      src.bytesFrom byteAt address n := by
  unfold hideBreakPoints bytesFrom visibleByte
  simp only [List.length_map, List.length_range]
  generalize src.breakPoints = bps
  induction bps generalizing byteAt with
  | nil => rfl
  | cons bp bps ih =>
    have hset : (if bp.address ≥ address ∧ bp.address < address + n then
        ((List.range n).map fun i => byteAt (address + i)).set (bp.address - address) bp.prevByte
        else (List.range n).map fun i => byteAt (address + i)) =
        (List.range n).map fun i =>
          if bp.address = address + i then bp.prevByte else byteAt (address + i) := by
      apply List.ext_getElem?
      intro k
      by_cases hk : k < n
      · split
        · next hin =>
          simp only [List.getElem?_set, List.length_map, List.length_range, List.getElem?_map,
            List.getElem?_range hk, Option.map_some]
          by_cases heq : bp.address = address + k
          · rw [if_pos heq, if_pos (by omega), if_pos (by omega)]
          · rw [if_neg heq, if_neg (by omega)]
        · next hout =>
          simp only [List.getElem?_map, List.getElem?_range hk, Option.map_some]
          rw [if_neg (by omega)]
      · rw [List.getElem?_eq_none, List.getElem?_eq_none]
        · simp only [List.length_map, List.length_range]
          omega
        · split <;> simp only [List.length_set, List.length_map, List.length_range] <;> omega
    rw [List.foldl_cons, hset, ih fun a => if bp.address = a then bp.prevByte else byteAt a]
    rfl

theorem bytesFrom_drop (address : Nat) (h : offset ≤ n) :
    (src.bytesFrom byteAt address n).drop offset =
      src.bytesFrom byteAt (address + offset) (n - offset) := by
  obtain ⟨r, rfl⟩ := Nat.exists_eq_add_of_le h
  rw [Nat.add_sub_cancel_left]
  apply List.ext_getElem?
  intro k
  simp only [bytesFrom, List.getElem?_drop, List.getElem?_map]
  by_cases hk : k < r
  · rw [List.getElem?_range hk, List.getElem?_range (by omega)]
    simp only [Option.map_some, Nat.add_assoc]
  · rw [List.getElem?_eq_none (by simpa using Nat.le_of_not_lt hk), List.getElem?_eq_none (by
      rw [List.length_range]
      omega)]
    rfl

theorem bytesFrom_take (address : Nat) (h : k ≤ n) :
    (src.bytesFrom byteAt address n).take k = src.bytesFrom byteAt address k := by
  rw [bytesFrom, ← List.map_take, List.take_range, Nat.min_eq_left h]
  rfl

theorem length_bytesFrom (address n : Nat) : (src.bytesFrom byteAt address n).length = n := by
  rw [bytesFrom, List.length_map, List.length_range]

theorem instrAt_of_some (h : src.decoder.decode (src.decoderInput asmBytes offset) = some n) :
    (src.instrAt asmBytes offset).bytes = (src.decoderInput asmBytes offset).take n ∧
      (src.instrAt asmBytes offset).error = false := by
  unfold instrAt
  split
  · next n' hn =>
    obtain rfl := Option.some.inj (h.symm.trans hn)
    exact ⟨rfl, rfl⟩
  · next hnone =>
    rw [h] at hnone
    cases hnone

theorem instrAt_of_none (h : src.decoder.decode (src.decoderInput asmBytes offset) = none) :
    (src.instrAt asmBytes offset).bytes = [asmBytes.getD offset (src.stack offset)] ∧
      (src.instrAt asmBytes offset).error = true := by
  unfold instrAt
  split
  · next n hn =>
    rw [h] at hn
    cases hn
  · exact ⟨rfl, rfl⟩

theorem instr_ext {i j : Instr} (hbytes : i.bytes = j.bytes) (herror : i.error = j.error) :
    i = j := by
  cases i
  cases j
  cases hbytes
  cases herror
  rfl

theorem getD_bytesFrom (address : Nat) (h : offset < n) (d : UInt8) :
    (src.bytesFrom byteAt address n).getD offset d = src.visibleByte byteAt (address + offset) := by
  rw [bytesFrom, List.getD_eq_getElem?_getD, List.getElem?_map, List.getElem?_range h]
  rfl

variable {src byteAt} {symbol : Nat → Option String}

theorem agrees_bytesFrom (hlocal : src.decoder.Local) (address size : Nat) :
    Agrees (src.stream byteAt symbol)
      (src.instrAt (src.bytesFrom byteAt address size)) address size := by
  intro offset hend
  have hin : offset < size := by
    have := Instr.length_pos ((src.stream byteAt symbol).instr (address + offset))
    omega
  have hinput : src.decoderInput (src.bytesFrom byteAt address size) offset =
      src.bytesFrom byteAt (address + offset) (size - offset) := by
    rw [decoderInput, length_bytesFrom, if_pos (Nat.le_of_lt hin),
      bytesFrom_drop _ _ _ (Nat.le_of_lt hin)]
  have hfirst : src.decoderInput (src.bytesFrom byteAt (address + offset) 15) 0 =
      src.bytesFrom byteAt (address + offset) 15 := if_pos (Nat.zero_le _)
  change offset + (src.instrAt (src.bytesFrom byteAt (address + offset) 15) 0).length ≤ size at hend
  change src.instrAt (src.bytesFrom byteAt address size) offset =
    src.instrAt (src.bytesFrom byteAt (address + offset) 15) 0
  cases hdecode : src.decoder.decode (src.bytesFrom byteAt (address + offset) 15) with
  | some n =>
    have hfifteen := src.decoder.length_le hdecode
    obtain ⟨hbytes, herror⟩ := src.instrAt_of_some (hfirst ▸ hdecode)
    rw [Instr.length, hbytes, hfirst, List.length_take, length_bytesFrom, Nat.min_eq_left hfifteen]
      at hend
    have htake : (src.bytesFrom byteAt (address + offset) (size - offset)).take n =
        (src.bytesFrom byteAt (address + offset) 15).take n := by
      rw [bytesFrom_take _ _ _ (by omega), bytesFrom_take _ _ _ hfifteen]
    obtain ⟨hbytes', herror'⟩ := src.instrAt_of_some (hinput ▸ hlocal _ _ n hdecode htake)
    refine instr_ext ?_ (herror'.trans herror.symm)
    rw [hbytes', hbytes, hinput, hfirst, htake]
  | none =>
    have hdecode' : src.decoder.decode (src.bytesFrom byteAt (address + offset) (size - offset)) =
        none := by
      by_contra hsome
      obtain ⟨n, hn⟩ := Option.ne_none_iff_exists'.mp hsome
      have hle := src.decoder.length_le_length hn
      rw [length_bytesFrom] at hle
      have htake : (src.bytesFrom byteAt (address + offset) 15).take n =
          (src.bytesFrom byteAt (address + offset) (size - offset)).take n := by
        rw [bytesFrom_take _ _ _ hle, bytesFrom_take _ _ _ (src.decoder.length_le hn)]
      rw [hlocal _ _ n hn htake] at hdecode
      cases hdecode
    obtain ⟨hbytes, herror⟩ := src.instrAt_of_none (hfirst ▸ hdecode)
    obtain ⟨hbytes', herror'⟩ := src.instrAt_of_none (hinput ▸ hdecode')
    refine instr_ext ?_ (herror'.trans herror.symm)
    rw [hbytes', hbytes, getD_bytesFrom _ _ _ hin, getD_bytesFrom _ _ _ (by decide), Nat.add_zero]

theorem readBy_stream (hread : ∀ address n, address + n < 2 ^ 64 →
      src.read address n = some ((List.range n).map fun i => byteAt (address + i)))
    (hlocal : src.decoder.Local) :
    (src.stream byteAt symbol).ReadBy (src.code fun _ => symbol) where
  fetch address size hend := ⟨_, by
    change (src.read address size).map _ = _
    rw [hread address size hend]
    rfl⟩
  agrees address size instrAt hfetch := by
    obtain ⟨asmBytes, hasm, rfl⟩ := Option.map_eq_some_iff.mp hfetch
    obtain rfl := Option.some.inj ((hread address size (src.end_lt hasm)).symm.trans hasm)
    rw [hideBreakPoints_eq]
    exact agrees_bytesFrom hlocal address size
  symbolAt _ _ := rfl

end Source

end BugChecker.Disasm
