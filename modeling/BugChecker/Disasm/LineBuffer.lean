import BugChecker.Break.Machine
import BugChecker.Lib.Buffers
import BugChecker.Lib.Runs
import BugChecker.Wnd.DrawLine
import Mathlib.Data.Nat.Log

/-!
# The buffer of a line

`Disasm` prints each line to 512 bytes on the stack. The formatter is told how
much of them is left. Nothing else looks at the size, and the blanks in front of
a JUMP tag go up to the right border of the window, wherever the window was
scrolled to.
-/

namespace BugChecker.Disasm

open Buffers (Buffer)
open Wnd

-- ---------------------------------------------------------------------------
-- The formatter
-- ---------------------------------------------------------------------------

/-- A string with a fixed capacity. -/
structure ZyanString (capacity : Nat) where
  buffer : Buffer Char
  inside : buffer.Within capacity
  ends : buffer.Ends

/-- What the formatter does to its string: a text is appended, a remembered size restored, or it
fails for a reason of its own. -/
inductive FormatterOp where
  | append (source : List Char)
  | restore (length : Nat)
  | fail

namespace ZyanString

variable {capacity : Nat}

def init (h : 0 < capacity) : ZyanString capacity where
  buffer := Buffer.empty.append []
  inside := (Buffer.within_put _ _ _).mpr ⟨by simp [Buffer.Within, Buffer.empty], h⟩
  ends := Buffer.ends_append _ _

/-- `ZydisStringAppend`, which is `ZyanStringAppend` for such a string. -/
def append (string : ZyanString capacity) (source : List Char) : Option (ZyanString capacity) :=
  if h : string.buffer.text.length + source.length < capacity then
    some ⟨string.buffer.append source, (Buffer.within_put _ _ _).mpr ⟨string.inside, h⟩,
      Buffer.ends_append _ _⟩
  else none

/-- `ZydisFormatterBufferRestore`. -/
def restore (string : ZyanString capacity) (length : Nat) : ZyanString capacity where
  buffer := string.buffer.put (min length string.buffer.text.length) []
  inside := (Buffer.within_put _ _ _).mpr
    ⟨string.inside, (Nat.min_le_right _ _).trans_lt (string.ends.lt string.inside)⟩
  ends := by
    unfold Buffer.Ends Buffer.put
    rw [List.append_nil, List.length_take, min_assoc, min_self]
    exact List.mem_append_right _ List.mem_cons_self

def run : ZyanString capacity → List FormatterOp → ZyanString capacity
  | string, [] => string
  | string, .append source :: ops =>
    match string.append source with
    | some string => string.run ops
    | none => string
  | string, .restore length :: ops => (string.restore length).run ops
  | string, .fail :: _ => string

end ZyanString

-- ---------------------------------------------------------------------------
-- The line
-- ---------------------------------------------------------------------------

/-- `"%0*X"`. -/
def hexNumber (width n : Nat) : List Char :=
  (List.range (max width (Nat.log 16 n + 1))).reverse.map fun k =>
    "0123456789ABCDEF".toList.getD (n / 16 ^ k % 16) '0'

/-- The arguments of `Disasm`, and what it reads elsewhere. -/
structure LineContext where
  wndWidth : UInt32
  is32bit : Bool
  segCs : UInt32
  pc : UInt64
  jumpDest : UInt64
  clrs : Colors
  bldClr : UInt8
  rvrClr : UInt8
  breakPoints : List Break.BreakPoint
  moduleName : List Char
  /-- The name of a public symbol, and how far behind it an address is. -/
  symbolAt : UInt64 → Option (List Char × UInt32)

/-- What the formatter prints. An absolute address is left to `ZydisFormatterPrintAddressAbsolute`,
which may leave it to the formatter. -/
inductive Piece where
  | ops (ops : List FormatterOp)
  | address (stackWidth : Nat) (address : UInt64) (ops : List FormatterOp)

/-- An address with its bytes, and the length and the pieces of its instruction if there is one. -/
structure LineInput where
  address : UInt64
  bytes : List UInt8
  instruction : Option (Nat × List Piece)

namespace LineContext

variable (c : LineContext)

def destX0 : UInt32 := 1

def destX1 : UInt32 := c.wndWidth - 2

def lineDim (posX : UInt32) : UInt32 := c.destX1 - destX0 + 1 + posX

def hasBp (address : UInt64) : Bool := c.breakPoints.any fun bp => !bp.skip && bp.address = address

def addressText (address : UInt64) : List Char :=
  if c.is32bit then hexNumber 8 (address.toNat % 2 ^ 32) else hexNumber 16 address.toNat

def bpClr (address : UInt64) : UInt8 :=
  if c.hasBp address then c.clrs.special 0x0B else c.clrs.nrmClr

def lineColor (address : UInt64) : List Char :=
  if address = c.pc then tag c.rvrClr else tag (c.bpClr address)

def segment (address : UInt64) : List (List Char) :=
  if address = c.jumpDest then
    [['\n'], hexByte (c.clrs.special (if address = c.pc then 0x7B else 0x0B)),
      "===>".toList, ['\n'],
      hexByte (if address = c.pc then c.clrs.special 0x71 else c.bpClr address)]
  else [hexNumber 4 (c.segCs.toNat % 2 ^ 16)]

def instrBytes (i : LineInput) : List (List Char) :=
  (List.range 10).map fun k =>
    if k < (i.instruction.map Prod.fst).getD 1 then hexNumber 2 (i.bytes.getD k 0).toNat
      else "  ".toList

def bar : Char := Char.ofNat 0xB3

def heading (i : LineInput) : List (List Char) :=
  c.segment i.address ++ [[':'], c.addressText i.address, [bar], [' ']] ++
    instrBytes i ++ [[bar], [' ']]

def symbolPrologue (address : UInt64) : List Char :=
  if address = c.pc then [] else tag (c.clrs.special 0x0E)

def symbolEpilogue (address : UInt64) : List Char :=
  if address = c.pc then [] else tag (c.bpClr address)

/-- `ZydisFormatterPrintAddressAbsolute`. -/
def printPiece (runtimeAddress : UInt64) : Piece → List FormatterOp
  | .ops ops => ops
  | .address stackWidth address ops =>
    if stackWidth ≠ 32 ∧ stackWidth ≠ 64 then ops
    else
      match c.symbolAt address with
      | none => ops
      | some (symName, offset) =>
        ([c.symbolPrologue runtimeAddress, c.moduleName, ['!'], symName] ++
          (if offset ≠ 0 then ['+' :: hexNumber 4 offset.toNat] else []) ++
          [" @ 0x".toList ++
            if stackWidth = 32 then hexNumber 8 (address.toNat % 2 ^ 32)
              else hexNumber 16 address.toNat,
          c.symbolEpilogue runtimeAddress]).map .append

def formatInstruction (address : UInt64) (pieces : List Piece) (capacity : Nat) :
    Option (ZyanString capacity) :=
  if h : 0 < capacity then some ((ZyanString.init h).run (pieces.flatMap (c.printPiece address)))
    else none

def bufferSize : Nat := 512

def printInstruction (i : LineInput) (line : Buffer Char) : Buffer Char :=
  match i.instruction with
  | none => line.append "???".toList
  | some (_, pieces) =>
    match c.formatInstruction i.address pieces (bufferSize - line.text.length) with
    | none => line
    | some string => line.extend string.buffer

def pad : Nat → Buffer Char → Buffer Char
  | 0, line => line
  | n + 1, line => pad n (line.append [' '])

def printJump (posX : UInt32) (line : Buffer Char) : Buffer Char :=
  let line := pad ((c.lineDim posX).toNat - (strLenOut line.text).1) line
  match strCount (c.lineDim posX - 9).toNat line.text with
  | none => line
  | some rest =>
    let ptr := line.text.length - rest.length
    if c.jumpDest = -1 then line.put ptr (tag c.bldClr ++ "(NO JUMP)".toList)
    else
      (line.put (ptr + 1) (tag c.bldClr ++ "(JUMP X)".toList)).set (ptr + 10)
        (Char.ofNat (if c.jumpDest < c.pc then 0x18 else 0x19))

/-- A turn of the loop that fills `contents`: what becomes of `line`. -/
def printLine (posX : UInt32) (i : LineInput) : Buffer Char :=
  let line :=
    c.printInstruction i ((Buffer.empty.append (c.lineColor i.address)).appendAll (c.heading i))
  if i.address = c.pc ∧ c.jumpDest ≠ 0 then c.printJump posX line else line

end LineContext

inductive ScrollKey where
  | ctrlLeft
  | ctrlRight

/-- A call of `Disasm`, behind a key if it was one that scrolls. -/
structure Redraw where
  key : Option ScrollKey
  context : LineContext
  inputs : List LineInput

def ScrollKey.posX : ScrollKey → UInt32 → UInt32
  | .ctrlLeft, posX => if posX > 0 then posX - 1 else posX
  | .ctrlRight, posX => posX + 1

def Redraw.posX (posX : UInt32) (r : Redraw) : UInt32 := r.key.elim posX (ScrollKey.posX · posX)

def Redraw.lines (posX : UInt32) (r : Redraw) : List (Buffer Char) :=
  r.inputs.map (r.context.printLine (r.posX posX))

-- ---------------------------------------------------------------------------
-- What has room
-- ---------------------------------------------------------------------------

namespace LineContext

variable (c : LineContext)

def headTags (i : LineInput) : Nat := if i.address = c.jumpDest then 3 else 1

def headWidth : Nat := if c.is32bit then 37 else 45

def instructionText (i : LineInput) : List Char :=
  match i.instruction with
  | none => "???".toList
  | some (_, pieces) =>
    ((c.formatInstruction i.address pieces (bufferSize - (c.headWidth + 3 * c.headTags i))).map
      (·.buffer.text)).getD []

/-- At the program counter, with a jump: the blanks up to the right border have room, and so has the
JUMP tag, which is behind the tags in front of it and may be longer than what it is put over. -/
def HasRoom (posX : UInt32) (i : LineInput) : Prop :=
  i.address = c.pc → c.jumpDest ≠ 0 →
    let dim := (c.lineDim posX).toNat
    let ts := tokens (c.instructionText i)
    dim + 3 * (c.headTags i + tagCount ts) < bufferSize ∧
      (9 ≤ dim → dim + 3 * (c.headTags i + tagsBefore (dim - 9 - c.headWidth) ts) + 3 < bufferSize)

-- ---------------------------------------------------------------------------
-- The heading
-- ---------------------------------------------------------------------------

theorem length_hexNumber (hw : 0 < width) (h : n < 16 ^ width) :
    (hexNumber width n).length = width := by
  have hlog : Nat.log 16 n < width := by
    rcases Nat.eq_zero_or_pos n with rfl | hn
    · rwa [Nat.log_zero_right]
    · exact Nat.log_lt_of_lt_pow hn.ne' h
  rw [hexNumber, List.length_map, List.length_reverse, List.length_range]
  exact Nat.max_eq_left hlog

theorem not_mem_hexNumber (width n : Nat) : '\n' ∉ hexNumber width n := by
  intro h
  obtain ⟨k, -, hk⟩ := List.mem_map.mp h
  have := isHex_digit _ (Nat.mod_lt (n / 16 ^ k) (Nat.succ_pos 15))
  rw [hk] at this
  cases this

theorem whole_hexNumber (hw : 0 < width) (h : n < 16 ^ width) :
    Whole (hexNumber width n) width 0 := by
  have := whole_plain (not_mem_hexNumber width n)
  rwa [length_hexNumber hw h] at this

theorem whole_map (f : Nat → List Char) (h : ∀ k, Whole (f k) w 0) (ks : List Nat) :
    Whole (ks.map f).flatten (w * ks.length) 0 := by
  induction ks with
  | nil => exact whole_plain List.not_mem_nil
  | cons k ks ih =>
    have := (h k).append ih
    rwa [Nat.add_comm, ← Nat.mul_succ] at this

theorem whole_instrBytes (i : LineInput) : Whole (instrBytes i).flatten 20 0 := by
  have hbytes : Whole (instrBytes i).flatten (2 * (List.range 10).length) 0 := by
    refine whole_map _ (fun k => ?_) _
    split
    · exact whole_hexNumber Nat.two_pos (UInt8.toNat_lt _)
    · exact whole_plain (by decide)
  rwa [List.length_range] at hbytes

theorem whole_addressText (address : UInt64) :
    Whole (c.addressText address) (if c.is32bit then 8 else 16) 0 := by
  unfold addressText
  split
  · exact whole_hexNumber (by decide) (Nat.mod_lt _ (by decide))
  · exact whole_hexNumber (by decide) address.toNat_lt

theorem whole_segment (i : LineInput) :
    Whole (c.segment i.address).flatten 4 (c.headTags i - 1) := by
  unfold segment headTags
  split
  · exact ((whole_tag _).append (whole_plain (by decide : '\n' ∉ "===>".toList))).append
      (whole_tag _)
  · rw [List.flatten_singleton]
    exact whole_hexNumber (by decide) (Nat.mod_lt _ (by decide))

theorem whole_heading (i : LineInput) :
    Whole (c.lineColor i.address ++ (c.heading i).flatten) c.headWidth (c.headTags i) := by
  have hcolor : Whole (c.lineColor i.address) 0 1 := by
    unfold lineColor
    split
    · exact whole_tag _
    · exact whole_tag _
  have hbar : Whole [bar, ' '] 2 0 := whole_plain (by decide)
  have hcolon : Whole [':'] 1 0 := whole_plain (by decide)
  have hwhole := (hcolor.append (c.whole_segment i)).append
    (((hcolon.append (c.whole_addressText i.address)).append hbar).append
      ((whole_instrBytes i).append hbar))
  have htext : c.lineColor i.address ++ (c.heading i).flatten =
      c.lineColor i.address ++ (c.segment i.address).flatten ++
        ([':'] ++ c.addressText i.address ++ [bar,
          ' '] ++ ((instrBytes i).flatten ++ [bar, ' '])) := by
    unfold heading
    simp only [List.flatten_append, List.flatten_cons, List.flatten_nil, List.append_assoc,
      List.append_nil, List.cons_append, List.nil_append]
  have hwidth : 0 + 4 + (1 + (if c.is32bit then 8 else 16) + 2 + (20 + 2)) = c.headWidth := by
    unfold headWidth
    split <;> rfl
  have htags : 1 + (c.headTags i - 1) + (0 + 0 + 0 + (0 + 0)) = c.headTags i := by
    unfold headTags
    split <;> rfl
  rwa [← htext, hwidth, htags] at hwhole

-- ---------------------------------------------------------------------------
-- The line
-- ---------------------------------------------------------------------------

def headingLine (i : LineInput) : Buffer Char :=
  (Buffer.empty.append (c.lineColor i.address)).appendAll (c.heading i)

theorem text_headingLine (i : LineInput) :
    (c.headingLine i).text = c.lineColor i.address ++ (c.heading i).flatten := by
  rw [headingLine, Buffer.text_appendAll, Buffer.text_append]
  rfl

theorem length_headingLine (i : LineInput) :
    (c.headingLine i).text.length = c.headWidth + 3 * c.headTags i := by
  rw [text_headingLine, (c.whole_heading i).length_eq]

theorem headTags_le (i : LineInput) : c.headTags i ≤ 3 := by
  unfold headTags
  split <;> decide

theorem headWidth_le : c.headWidth ≤ 45 := by
  unfold headWidth
  split <;> decide

theorem ends_headingLine (i : LineInput) : (c.headingLine i).Ends :=
  (Buffer.ends_append _ _).appendAll _

theorem within_headingLine (i : LineInput) : (c.headingLine i).Within bufferSize := by
  have hlength := c.length_headingLine i
  rw [headingLine, Buffer.text_appendAll, List.length_append] at hlength
  have htags := c.headTags_le i
  have hwidth := c.headWidth_le
  refine (Buffer.within_appendAll (Buffer.ends_append _ _) _).mpr
    ⟨(Buffer.within_put _ _ _).mpr ⟨?_, ?_⟩, ?_⟩
  · exact fun _ h => absurd h List.not_mem_nil
  · rw [Buffer.text_append, List.length_append] at hlength
    unfold bufferSize
    omega
  · unfold bufferSize
    omega

theorem printInstruction_spec (i : LineInput) :
    (c.printInstruction i (c.headingLine i)).text = (c.headingLine i).text ++ c.instructionText i ∧
      (c.printInstruction i (c.headingLine i)).Ends ∧
      (c.printInstruction i (c.headingLine i)).Within bufferSize := by
  have hhead := c.within_headingLine i
  unfold printInstruction instructionText
  rw [← length_headingLine]
  cases i.instruction with
  | none =>
    have hlength := c.length_headingLine i
    have htags := c.headTags_le i
    have hwidth := c.headWidth_le
    refine ⟨Buffer.text_append _ _, Buffer.ends_append _ _,
      (Buffer.within_put _ _ _).mpr ⟨hhead, ?_⟩⟩
    have herror : "???".toList.length = 3 := rfl
    rw [hlength, herror]
    unfold bufferSize
    omega
  | some instruction =>
    dsimp only
    cases c.formatInstruction i.address instruction.2
      (bufferSize - (c.headingLine i).text.length) with
    | none => exact ⟨(List.append_nil _).symm, c.ends_headingLine i, hhead⟩
    | some string => exact ⟨rfl, string.ends.extend _, hhead.extend string.inside⟩

theorem pad_eq (n : Nat) (line : Buffer Char) :
    pad n line = line.appendAll (List.replicate n [' ']) := by
  induction n generalizing line with
  | zero => rfl
  | succ n ih => exact ih (line.append [' '])

theorem within_jumpTag (line : Buffer Char) (rest : List Char) (size : Nat) :
    Buffer.Within (if c.jumpDest = -1 then line.put (line.text.length - rest.length)
        (tag c.bldClr ++ "(NO JUMP)".toList)
      else (line.put (line.text.length - rest.length + 1) (tag c.bldClr ++ "(JUMP X)".toList)).set
        (line.text.length - rest.length + 10) (Char.ofNat (if c.jumpDest < c.pc then 0x18
          else 0x19))) size ↔
      line.Within size ∧ line.text.length - rest.length + 12 < size := by
  have hno : (tag c.bldClr ++ "(NO JUMP)".toList).length = 12 := rfl
  have hjump : (tag c.bldClr ++ "(JUMP X)".toList).length = 11 := rfl
  split
  · rw [Buffer.within_put, hno]
  · rw [Buffer.within_set, Buffer.within_put, hjump]
    constructor
    · rintro ⟨⟨hline, hput⟩, -⟩
      exact ⟨hline, by omega⟩
    · rintro ⟨hline, hput⟩
      exact ⟨⟨hline, by omega⟩, by omega⟩

theorem place_jumpTag (s rest : List Char) (n k : Nat)
    (h : strCount n (s ++ List.replicate k ' ') = some rest) :
    (s ++ List.replicate k ' ').length - rest.length = n + 3 * tagsBefore n (tokens s) := by
  cases n with
  | zero =>
    obtain rfl := Option.some.inj h
    rw [tagsBefore_zero]
    omega
  | succ n => rw [strCount_length n _ _ h, tokens_append_blanks, tagsBefore_append_blanks]

theorem within_printJump (posX : UInt32) (line : Buffer Char) (hends : line.Ends)
    (hline : line.Within bufferSize) :
    (c.printJump posX line).Within bufferSize ↔
      (c.lineDim posX).toNat + 3 * tagCount (tokens line.text) < bufferSize ∧
        (9 ≤ (c.lineDim posX).toNat →
          (c.lineDim posX).toNat + 3 * tagsBefore ((c.lineDim posX).toNat - 9)
            (tokens line.text) + 3 <
            bufferSize) := by
  have hlt := hends.lt hline
  have hlength := length_eq line.text
  have hsub := UInt32.toNat_sub (c.lineDim posX) 9
  have hdim := (c.lineDim posX).toNat_lt
  unfold printJump
  rw [strLenOut_eq, pad_eq]
  dsimp only
  generalize hk : (c.lineDim posX).toNat - (chars (tokens line.text)).length = k
  have htext : (line.appendAll (List.replicate k [' '])).text =
      line.text ++ List.replicate k ' ' := by
    rw [Buffer.text_appendAll, List.flatten_replicate_singleton]
  have hpad : (line.appendAll (List.replicate k [' '])).Within bufferSize ↔
      (c.lineDim posX).toNat + 3 * tagCount (tokens line.text) < bufferSize := by
    rw [Buffer.within_appendAll hends, List.flatten_replicate_singleton, List.length_replicate]
    constructor
    · rintro ⟨-, h⟩
      omega
    · intro h
      exact ⟨hline, by omega⟩
  have hchars : (chars (tokens (line.text ++ List.replicate k ' '))).length =
      (chars (tokens line.text)).length + k := by
    rw [tokens_append_blanks, length_chars_append_blanks]
  have hnine : (9 : UInt32).toNat = 9 := rfl
  have htag := c.within_jumpTag (line.appendAll (List.replicate k [' ']))
  unfold bufferSize at *
  rw [htext] at htag ⊢
  rw [hnine] at hsub
  cases hplace : strCount (c.lineDim posX - 9).toNat (line.text ++ List.replicate k ' ') with
  | none =>
    -- the window is narrower than the tag
    have hshort := (strCount_eq_none_iff _ _).mp hplace
    rw [hchars] at hshort
    exact hpad.trans (and_iff_left fun h => by omega).symm
  | some rest =>
    have hlong := mt (strCount_eq_none_iff _ _).mpr (hplace ▸ Option.some_ne_none rest)
    rw [hchars] at hlong
    have hplaced := place_jumpTag _ _ _ _ hplace
    refine (htag rest 512).trans (and_congr_left fun _ => hpad) |>.trans
      (and_congr_right fun hfits => ?_)
    have hsub' : (c.lineDim posX - 9).toNat = (c.lineDim posX).toNat - 9 := by omega
    rw [hplaced, hsub']
    constructor
    · intro h _
      omega
    · intro h
      have := h (by omega)
      omega

theorem tokens_line (i : LineInput) :
    ∃ ts, tokens ((c.headingLine i).text ++ c.instructionText i) =
      ts ++ tokens (c.instructionText i) ∧
      (chars ts).length = c.headWidth ∧ tagCount ts = c.headTags i := by
  obtain ⟨ts, htokens, hwidth, htags⟩ := c.whole_heading i
  exact ⟨ts, by rw [text_headingLine, htokens], hwidth, htags⟩

theorem within_printLine (posX : UInt32) (i : LineInput) :
    (c.printLine posX i).Within bufferSize ↔ c.HasRoom posX i := by
  obtain ⟨htext, hends, hin⟩ := c.printInstruction_spec i
  obtain ⟨ts, htokens, hwidth, htags⟩ := c.tokens_line i
  unfold printLine
  rw [← headingLine]
  dsimp only
  by_cases htagged : i.address = c.pc ∧ c.jumpDest ≠ 0
  · rw [if_pos htagged, within_printJump c posX _ hends hin, htext, htokens, tagCount_append, htags]
    refine Iff.trans (and_congr_right fun _ => imp_congr_right fun hnine => ?_)
      ⟨fun h _ _ => h, fun h => h htagged.1 htagged.2⟩
    have hwide := c.headWidth_le
    have hmany := c.headTags_le i
    unfold bufferSize
    rcases Nat.lt_or_ge c.headWidth ((c.lineDim posX).toNat - 9) with hlt | hle
    · -- the place is in the instruction
      obtain ⟨n, hn⟩ := Nat.exists_eq_add_of_lt hlt
      have hbefore := tagsBefore_add n ts (tokens (c.instructionText i))
      have hrest : (c.lineDim posX).toNat - 9 - c.headWidth = n + 1 := by omega
      rw [hwidth, ← Nat.add_assoc, ← hn, htags] at hbefore
      rw [hbefore, hrest]
    · -- the place is in the heading
      have hbefore := tagsBefore_append_le _ ts (tokens (c.instructionText i)) (hwidth ▸ hle)
      rw [Nat.sub_eq_zero_of_le hle, tagsBefore_zero]
      constructor
      · intro _
        omega
      · intro _
        omega
  · rw [if_neg htagged]
    exact iff_of_true hin fun hpc hdest => absurd ⟨hpc, hdest⟩ htagged

end LineContext

open Runs (Each)

/-- A line stays in its buffer except at the program counter, where it is filled up for a JUMP tag.
-/
theorem disasm_inBuffer_iff (redraws : List Redraw) :
    Each Redraw.posX (fun posX r => ∀ line ∈ r.lines posX, line.Within 512) 0 redraws ↔
      Each Redraw.posX (fun posX r => ∀ i ∈ r.inputs,
        r.context.HasRoom (r.posX posX) i) 0 redraws := by
  refine Runs.each_congr (fun posX r => ?_) 0 redraws
  unfold Redraw.lines
  rw [List.forall_mem_map]
  exact forall₂_congr fun i _ => r.context.within_printLine (r.posX posX) i

/-- `JMP 0x00401012` at the program counter, in a window of 80 columns. -/
def jumpScrolled : Redraw where
  key := some .ctrlRight
  context :=
    { wndWidth := 80, is32bit := true, segCs := 0x1B, pc := 0x401000, jumpDest := 0x401012
      clrs := ⟨0x07, 0x09⟩
      bldClr := 0x70, rvrClr := 0x71, breakPoints := [], moduleName := [], symbolAt :=
        fun _ => none }
  inputs :=
    [{ address := 0x401000, bytes := [0xEB, 0x10, 0x90, 0x90, 0x90, 0x90, 0x90, 0x90, 0x90, 0x90]
       instruction := some (2, [.ops [.append "JMP".toList, .append " ".toList],
        .address 32 0x401012 [.append "0x00401012".toList]]) }]

/-- The window is scrolled to the right until a write is behind the buffer. -/
theorem jumpScrolled_outside :
    ¬ Each Redraw.posX (fun posX r => ∀ line ∈ r.lines posX,
      line.Within 512) 0 (List.replicate 430 jumpScrolled) := by
  intro h
  rw [List.replicate_succ', Runs.each_append] at h
  have hposX : (List.replicate 429 jumpScrolled).foldl Redraw.posX 0 = 429 := by decide +kernel
  rw [hposX] at h
  have hline := h.2.1 _ (List.mem_map.mpr ⟨_, List.mem_cons_self, rfl⟩)
  have hroom := (LineContext.within_printLine _ _ _).mp hline rfl (by decide)
  exact absurd (hroom.2 (by decide)) (by decide +kernel)

end BugChecker.Disasm
