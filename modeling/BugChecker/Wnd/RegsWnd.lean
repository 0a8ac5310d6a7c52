import BugChecker.Cmd.HexArgs
import BugChecker.Lib.Runs
import BugChecker.Wnd.DrawLine

/-!
# The registers window

`DrawRegs` writes the registers and the flags into lines, each with a tag that
colors it if it is not what it was at the last time, and a tag that ends the
color. A run of the debugger draws the window again and again and forgets the
old registers in between.
-/

namespace BugChecker.Wnd

open Cmd (hexToString)
open Step (Gpr)

inductive Seg where
  | cs | ds | ss | es | fs | gs
  deriving DecidableEq

/-- What the window reads of a `CONTEXT`. -/
structure RegsContext where
  gpr : Gpr → UInt64
  seg : Seg → UInt16
  eFlags : UInt32

structure RegsWnd where
  contents : List (List Char)
  oldCtx : RegsContext
  oldCtxValid : Bool

/-- The lines so far and the line that is being written. -/
structure Draft where
  contents : List (List Char)
  line : List Char

def Draft.addLine (d : Draft) : Draft := ⟨d.contents ++ [d.line], []⟩

def ofSize (size : Nat) (value : UInt64) : UInt64 :=
  if size = 2 then value % 0x10000 else if size = 4 then value % 0x100000000 else value

def flags : List (UInt32 × Char) :=
  [(0x800, 'O'), (0x400, 'D'), (0x200, 'I'), (0x80, 'S'), (0x40, 'Z'), (0x10, 'A'),
    (0x4, 'P'), (0x1, 'C')]

section
variable (lineDim : Nat) (automaticAddLine : Bool) (clrs : Colors) (oldCtxValid : Bool)

def highlightTag (changed : Bool) : List Char :=
  if oldCtxValid && changed then tag (clrs.special 0x0B) else []

def drawReg (name : String) (value : UInt64) (size : Nat) (oldValue : UInt64) (d : Draft) : Draft :=
  let highlight := ofSize size value ≠ ofSize size oldValue
  let str := name.toList ++ '=' :: hexToString value size
  let d := if automaticAddLine && (strLenOut d.line).1 + str.length > lineDim then d.addLine else d
  { d with
    line := d.line ++ (highlightTag clrs oldCtxValid highlight ++ str ++
      tag clrs.nrmClr ++ "   ".toList ++
      if name = "R8" ∨ name = "R9" then [' '] else []) }

def flagChar (mask : UInt32) (idUppercase : Char) (value : UInt32) : Char :=
  if value &&& mask ≠ 0 then idUppercase else Char.ofNat (idUppercase.toNat + 32)

def drawFlag (value oldValue : UInt32) (flag : UInt32 × Char) : List Char :=
  highlightTag clrs oldCtxValid (value &&& flag.1 ≠ oldValue &&& flag.1) ++
    [flagChar flag.1 flag.2 value] ++ tag clrs.nrmClr ++ [' ']

def drawFlags (value oldValue : UInt32) (d : Draft) : Draft :=
  let str := flags.flatMap (drawFlag clrs oldCtxValid value oldValue) ++ "  ".toList
  let d := if automaticAddLine && (strLenOut d.line).1 + (8 * 2 - 1) > lineDim then d.addLine else d
  { d with line := d.line ++ str }

end

/-- What is drawn, in order: registers with their names and sizes, the flags, and ends of lines. -/
inductive Item where
  | gpr (name : String) (size : Nat) (r : Gpr)
  | seg (name : String) (r : Seg)
  | flags
  | addLine

def segItems : List Item :=
  [.seg "CS" .cs, .seg "DS" .ds, .seg "SS" .ss, .seg "ES" .es, .seg "FS" .fs, .seg "GS" .gs]

def gpr32Items : List Item :=
  [.gpr "EAX" 4 .rax, .gpr "EBX" 4 .rbx, .gpr "ECX" 4 .rcx, .gpr "EDX" 4 .rdx,
    .gpr "ESI" 4 .rsi, .addLine,
    .gpr "EDI" 4 .rdi, .gpr "EBP" 4 .rbp, .gpr "ESP" 4 .rsp, .gpr "EIP" 4 .rip]

def gpr64Items : List Item :=
  [.gpr "RAX" 8 .rax, .gpr "RBX" 8 .rbx, .gpr "RCX" 8 .rcx, .gpr "RDX" 8 .rdx, .gpr "RSI" 8 .rsi,
    .gpr "RDI" 8 .rdi, .gpr "RBP" 8 .rbp, .gpr "RSP" 8 .rsp, .gpr "R8" 8 .r8, .gpr "R9" 8 .r9,
    .gpr "R10" 8 .r10, .gpr "R11" 8 .r11, .gpr "R12" 8 .r12, .gpr "R13" 8 .r13, .gpr "R14" 8 .r14,
    .gpr "R15" 8 .r15, .gpr "RIP" 8 .rip]

def items (build : Build) (is32bitCompat : Bool) : List Item :=
  (if build = .x86 ∨ is32bitCompat then gpr32Items
    else gpr64Items) ++ [.flags, .addLine] ++ segItems ++ [.addLine]

section
variable (lineDim : Nat) (automaticAddLine : Bool) (clrs : Colors) (oldCtxValid : Bool)
  (oldCtx ctx : RegsContext)

def drawItem (d : Draft) : Item → Draft
  | .gpr name size r => drawReg lineDim automaticAddLine clrs oldCtxValid name (ctx.gpr r) size
    (oldCtx.gpr r) d
  | .seg name r =>
    drawReg lineDim automaticAddLine clrs oldCtxValid name (ctx.seg r).toUInt64 2
      (oldCtx.seg r).toUInt64 d
  | .flags => drawFlags lineDim automaticAddLine clrs oldCtxValid ctx.eFlags oldCtx.eFlags d
  | .addLine => d.addLine

end

def RegsWnd.drawRegs (build : Build) (lineDim : Nat) (clrs : Colors) (w : RegsWnd)
    (ctx : RegsContext)
    (is32bitCompat : Bool) : RegsWnd :=
  let automaticAddLine := build = .x64 && !is32bitCompat
  let d := (items build is32bitCompat).foldl
    (drawItem lineDim automaticAddLine clrs w.oldCtxValid w.oldCtx ctx) ⟨[], []⟩
  ⟨d.contents, ctx, true⟩

def RegsWnd.invalidateOldContext (w : RegsWnd) : RegsWnd := { w with oldCtxValid := false }

inductive RegsOp where
  | draw (lineDim : Nat) (clrs : Colors) (ctx : RegsContext) (is32bitCompat : Bool)
  | invalidate

def RegsWnd.step (build : Build) (w : RegsWnd) : RegsOp → RegsWnd
  | .draw lineDim clrs ctx is32bitCompat => w.drawRegs build lineDim clrs ctx is32bitCompat
  | .invalidate => w.invalidateOldContext

-- ---------------------------------------------------------------------------
-- What is to be seen
-- ---------------------------------------------------------------------------

/-- The registers that were drawn last and have not been forgotten. -/
def lastCtx : Option RegsContext → RegsOp → Option RegsContext
  | _, .draw _ _ ctx _ => some ctx
  | _, .invalidate => none

def inColor (clr : UInt8) (s : List Char) : List Cell := s.map (⟨·, clr⟩)

def valueClr (clrs : Colors) (old : Option β) (f : β → α) (value : α) [DecidableEq α] : UInt8 :=
  if old.any (fun old => decide (value ≠ f old)) then clrs.special 0x0B else clrs.nrmClr

def itemCells (clrs : Colors) (old : Option RegsContext) (ctx : RegsContext) : Item → List Cell
  | .gpr name size r =>
    inColor (valueClr clrs old (fun old => ofSize size (old.gpr r)) (ofSize size (ctx.gpr r)))
        (name.toList ++ '=' :: hexToString (ctx.gpr r) size) ++
      inColor clrs.nrmClr ("   ".toList ++ if name = "R8" ∨ name = "R9" then [' '] else [])
  | .seg name r =>
    inColor (valueClr clrs old (·.seg r) (ctx.seg r))
      (name.toList ++ '=' :: hexToString (ctx.seg r).toUInt64 2) ++
      inColor clrs.nrmClr ("   ".toList ++ if name = "R8" ∨ name = "R9" then [' '] else [])
  | .flags =>
    flags.flatMap (fun flag =>
      inColor (valueClr clrs old (·.eFlags &&& flag.1) (ctx.eFlags &&& flag.1))
        [flagChar flag.1 flag.2 ctx.eFlags] ++
        inColor clrs.nrmClr [' ']) ++ inColor clrs.nrmClr "  ".toList
  | .addLine => []

-- ---------------------------------------------------------------------------
-- Parts of a line
-- ---------------------------------------------------------------------------

/-- A text that draws cells in front of any other text, and the color that it leaves. -/
def Paints (clr : UInt8) (s : List Char) (cells : List Cell) (next : UInt8) : Prop :=
  ∀ rest, tokenCells clr (tokens (s ++ rest)) = cells ++ tokenCells next (tokens rest)

theorem paints_nil : Paints clr [] [] clr := fun _ => rfl

theorem Paints.append (hs : Paints clr s cells mid) (ht : Paints mid t cells' next) :
    Paints clr (s ++ t) (cells ++ cells') next := by
  intro rest
  rw [List.append_assoc, hs, ht, List.append_assoc]

theorem paints_plain (clr : UInt8) (h : '\n' ∉ s) : Paints clr s (inColor clr s) clr := by
  induction s with
  | nil => exact paints_nil
  | cons c s ih =>
    intro rest
    have hc : c ≠ '\n' := fun hc => h (hc ▸ List.mem_cons_self)
    rw [List.cons_append, tokens.eq_2 _ _ fun _ _ _ hc' => absurd hc' hc, tokenCells_chr,
      ih (fun hs => h (List.mem_cons_of_mem c hs)) rest]
    rfl

theorem paints_tag (clr c : UInt8) : Paints clr (tag c) [] c := by
  intro rest
  obtain ⟨a, b, htokens, hcolor⟩ := tokens_tag c
  rw [htokens, tokenCells_cons, hcolor]
  rfl

theorem Paints.tokenCells_eq (h : Paints clr s cs next) : tokenCells clr (tokens s) = cs := by
  have := h []
  simpa [tokens, tokenCells] using this

theorem newline_not_mem_hexToString : '\n' ∉ hexToString v size := by
  intro h
  exact absurd (Cmd.mem_hexToString h) (by decide)

-- ---------------------------------------------------------------------------
-- The items
-- ---------------------------------------------------------------------------

/-- The cells of what has been written so far. -/
def Drawn (nrmClr : UInt8) (d : Draft) (cells : List Cell) : Prop :=
  ∃ last, Paints nrmClr d.line last nrmClr ∧
    (d.contents.flatMap fun line => tokenCells nrmClr (tokens line)) ++ last = cells

theorem Drawn.addLine (h : Drawn nrmClr d cells) : Drawn nrmClr d.addLine cells := by
  obtain ⟨last, hlast, hcells⟩ := h
  refine ⟨[], paints_nil, ?_⟩
  simp [Draft.addLine, hlast.tokenCells_eq, ← hcells]

theorem Drawn.write (h : Drawn nrmClr d cells) (hs : Paints nrmClr s cells' nrmClr) :
    Drawn nrmClr { d with line := d.line ++ s } (cells ++ cells') := by
  obtain ⟨last, hlast, hcells⟩ := h
  exact ⟨last ++ cells', hlast.append hs, by rw [← hcells, List.append_assoc]⟩

theorem paints_highlight (clrs : Colors) (oldCtxValid changed : Bool) (hs : '\n' ∉ s) :
    Paints clrs.nrmClr (highlightTag clrs oldCtxValid changed ++ s ++ tag clrs.nrmClr)
      (inColor (if oldCtxValid && changed then clrs.special 0x0B
        else clrs.nrmClr) s) clrs.nrmClr := by
  have htext : Paints clrs.nrmClr (highlightTag clrs oldCtxValid changed ++ s)
      (inColor (if oldCtxValid && changed then clrs.special 0x0B else clrs.nrmClr) s)
      (if oldCtxValid && changed then clrs.special 0x0B else clrs.nrmClr) := by
    unfold highlightTag
    split
    · exact (paints_tag _ _).append (paints_plain _ hs)
    · exact paints_plain _ hs
  simpa using htext.append (paints_tag _ clrs.nrmClr)

/-- The old registers as `DrawRegs` keeps them. -/
def RegsWnd.old (w : RegsWnd) : Option RegsContext := if w.oldCtxValid then some w.oldCtx else none

theorem valueClr_old {α : Type} [DecidableEq α] (clrs : Colors) (w : RegsWnd)
    (f : RegsContext → α) (value : α) :
    valueClr clrs w.old f value =
      if w.oldCtxValid && decide (value ≠ f w.oldCtx) then clrs.special 0x0B else clrs.nrmClr := by
  unfold valueClr RegsWnd.old
  cases w.oldCtxValid <;> rfl

section
variable (lineDim : Nat) (automaticAddLine : Bool)

theorem Drawn.wrap (h : Drawn nrmClr d cells) (full : Bool) :
    Drawn nrmClr (if full then d.addLine else d) cells := by
  cases full with
  | true => exact h.addLine
  | false => exact h

theorem Drawn.reg (h : Drawn clrs.nrmClr d cells) (hname : '\n' ∉ name.toList) (oldCtxValid : Bool)
    (value : UInt64) (size : Nat) (oldValue : UInt64) :
    Drawn clrs.nrmClr (drawReg lineDim automaticAddLine clrs oldCtxValid name value size oldValue d)
      (cells ++
        (inColor (if oldCtxValid && decide (ofSize size value ≠ ofSize size oldValue)
          then clrs.special 0x0B
            else clrs.nrmClr) (name.toList ++ '=' :: hexToString value size) ++
          inColor clrs.nrmClr ("   ".toList ++ if name = "R8" ∨ name = "R9" then [' ']
            else []))) := by
  have hstr : '\n' ∉ name.toList ++ '=' :: hexToString value size := by
    simp [hname, newline_not_mem_hexToString]
  have hblanks : '\n' ∉ "   ".toList ++ if name = "R8" ∨ name = "R9" then [' '] else [] := by
    split <;> decide
  have hpaints :=
    (paints_highlight clrs oldCtxValid (ofSize size value ≠ ofSize size oldValue) hstr).append
    (paints_plain clrs.nrmClr hblanks)
  have hwrite := (h.wrap (automaticAddLine && (strLenOut d.line).1 +
    (name.toList ++ '=' :: hexToString value size).length > lineDim)).write hpaints
  simpa [drawReg] using hwrite

theorem paints_flags (clrs : Colors) (oldCtxValid : Bool) (value oldValue : UInt32)
    (fs : List (UInt32 × Char))
    (hfs : ∀ flag ∈ fs, flag ∈ flags) :
    Paints clrs.nrmClr (fs.flatMap (drawFlag clrs oldCtxValid value oldValue))
      (fs.flatMap fun flag =>
        inColor (if oldCtxValid && decide (value &&& flag.1 ≠ oldValue &&& flag.1)
          then clrs.special 0x0B
          else clrs.nrmClr) [flagChar flag.1 flag.2 value] ++ inColor clrs.nrmClr [' '])
            clrs.nrmClr := by
  induction fs with
  | nil => exact paints_nil
  | cons flag fs ih =>
    obtain ⟨hflag, hfs⟩ := List.forall_mem_cons.mp hfs
    have hletters : flags.all (fun flag => flag.2 ≠ '\n' && Char.ofNat (flag.2.toNat + 32) ≠ '\n') =
        true := by decide
    have hletter := List.all_eq_true.mp hletters flag hflag
    have hchar : '\n' ∉ [flagChar flag.1 flag.2 value] := by
      simp only [Bool.and_eq_true, decide_eq_true_eq] at hletter
      rw [List.mem_singleton, flagChar]
      split
      · exact hletter.1.symm
      · exact hletter.2.symm
    have hpaints :=
      (paints_highlight clrs oldCtxValid (value &&& flag.1 ≠ oldValue &&& flag.1) hchar).append
      (paints_plain clrs.nrmClr (by decide : '\n' ∉ [' ']))
    exact hpaints.append (ih hfs)

theorem Drawn.flags (h : Drawn clrs.nrmClr d cells) (oldCtxValid : Bool) (value oldValue : UInt32) :
    Drawn clrs.nrmClr (drawFlags lineDim automaticAddLine clrs oldCtxValid value oldValue d)
      (cells ++ ((Wnd.flags.flatMap fun flag =>
        inColor (if oldCtxValid && decide (value &&& flag.1 ≠ oldValue &&& flag.1)
          then clrs.special 0x0B
          else clrs.nrmClr) [flagChar flag.1 flag.2 value] ++ inColor clrs.nrmClr [' ']) ++
        inColor clrs.nrmClr "  ".toList)) := by
  have hpaints := (paints_flags clrs oldCtxValid value oldValue Wnd.flags fun _ h => h).append
    (paints_plain clrs.nrmClr (by decide : '\n' ∉ "  ".toList))
  have hwrite :=
    (h.wrap (automaticAddLine && (strLenOut d.line).1 + (8 * 2 - 1) > lineDim)).write hpaints
  simpa [drawFlags] using hwrite

def Item.plain : Item → Bool
  | .gpr name _ _ | .seg name _ => !name.toList.contains '\n'
  | .flags | .addLine => true

theorem items_plain (build : Build) (is32bitCompat : Bool) :
    ((items build is32bitCompat).all Item.plain) = true := by
  cases build <;> cases is32bitCompat <;> decide

theorem ofSize_seg (v v' : UInt16) : ofSize 2 v.toUInt64 ≠ ofSize 2 v'.toUInt64 ↔ v ≠ v' := by
  refine not_congr ?_
  rw [ofSize, if_pos rfl, ofSize, if_pos rfl, ← UInt64.toNat_inj, ← UInt16.toNat_inj]
  simp

theorem Drawn.item (h : Drawn clrs.nrmClr d cells) (w : RegsWnd) (ctx : RegsContext)
    (hit : it.plain = true) :
    Drawn clrs.nrmClr (drawItem lineDim automaticAddLine clrs w.oldCtxValid w.oldCtx ctx d it)
      (cells ++ itemCells clrs w.old ctx it) := by
  cases it with
  | gpr name size r =>
    rw [itemCells, valueClr_old]
    exact h.reg lineDim automaticAddLine (by simpa [Item.plain] using hit) _ _ _ _
  | seg name r =>
    rw [itemCells, valueClr_old]
    have hreg := h.reg lineDim automaticAddLine (by simpa [Item.plain] using hit) w.oldCtxValid
      (ctx.seg r).toUInt64 2 (w.oldCtx.seg r).toUInt64
    simp only [ofSize_seg] at hreg
    exact hreg
  | flags =>
    simp only [itemCells, valueClr_old]
    exact h.flags lineDim automaticAddLine _ _ _
  | addLine =>
    rw [itemCells, List.append_nil]
    exact h.addLine

theorem Drawn.items {clrs : Colors} {its : List Item} (h : Drawn clrs.nrmClr d cells) (w : RegsWnd)
    (ctx : RegsContext)
    (hits : its.all Item.plain = true) :
    Drawn clrs.nrmClr
      (its.foldl (drawItem lineDim automaticAddLine clrs w.oldCtxValid w.oldCtx ctx) d)
      (cells ++ its.flatMap (itemCells clrs w.old ctx)) := by
  induction its generalizing d cells with
  | nil => simpa using h
  | cons it its ih =>
    rw [List.all_cons, Bool.and_eq_true] at hits
    rw [List.foldl_cons, List.flatMap_cons, ← List.append_assoc]
    exact ih (h.item lineDim automaticAddLine w ctx hits.1) hits.2

end

-- ---------------------------------------------------------------------------
-- Runs
-- ---------------------------------------------------------------------------

theorem old_step (build : Build) (w : RegsWnd) (op : RegsOp) :
    (w.step build op).old = lastCtx w.old op := by
  cases op <;> rfl

theorem old_run (build : Build) (w : RegsWnd) (ops : List RegsOp) :
    (ops.foldl (RegsWnd.step build) w).old = ops.foldl lastCtx w.old := by
  induction ops generalizing w with
  | nil => rfl
  | cons op ops ih => rw [List.foldl_cons, ih, old_step, List.foldl_cons]

theorem special_ne_iff (clrs : Colors) : clrs.special 0x0B ≠ clrs.nrmClr ↔ clrs.nrmClr ≠ 0xB4 := by
  obtain ⟨nrmClr, hrzClr⟩ := clrs
  have hall : ∀ n < 256, (Colors.special ⟨UInt8.ofNat n, 0⟩ 0x0B ≠ UInt8.ofNat n ↔
      UInt8.ofNat n ≠ 0xB4) := by
    decide +kernel
  have hclr := hall nrmClr.toNat nrmClr.toNat_lt
  rw [UInt8.ofNat_toNat] at hclr
  exact hclr

/-- Whatever was drawn and forgotten before, the lines show every register and flag, in the other
color exactly where it differs from the last one that was shown, however the lines are broken.
The other color is another one on every background but one. -/
theorem drawRegs_cells (build : Build) (w : RegsWnd) (hw : w.oldCtxValid = false)
    (ops : List RegsOp)
    (lineDim : Nat) (clrs : Colors) (ctx : RegsContext) (is32bitCompat : Bool) :
    ((((ops.foldl (RegsWnd.step build) w).drawRegs build lineDim clrs ctx
      is32bitCompat).contents.flatMap
        fun line => tokenCells clrs.nrmClr (tokens line)) =
      (items build is32bitCompat).flatMap (itemCells clrs (ops.foldl lastCtx none) ctx)) ∧
    (clrs.special 0x0B ≠ clrs.nrmClr ↔ clrs.nrmClr ≠ 0xB4) := by
  have hold : (ops.foldl (RegsWnd.step build) w).old = ops.foldl lastCtx none := by
    rw [old_run, RegsWnd.old, hw, if_neg Bool.false_ne_true]
  generalize ops.foldl (RegsWnd.step build) w = w' at hold
  have hstart : Drawn clrs.nrmClr ⟨[], []⟩ [] := ⟨[], paints_nil, rfl⟩
  obtain ⟨last, hlast, hcells⟩ :=
    hstart.items lineDim (build = .x64 && !is32bitCompat) w' ctx (items_plain build is32bitCompat)
  -- the last item ends the last line
  have hline : ((items build is32bitCompat).foldl
      (drawItem lineDim (build = .x64 && !is32bitCompat) clrs w'.oldCtxValid w'.oldCtx ctx)
        ⟨[], []⟩).line = [] := by
    rw [items, List.foldl_append]
    rfl
  rw [hline] at hlast
  have hnil : last = [] := hlast.tokenCells_eq.symm
  rw [hnil, List.append_nil, List.nil_append, hold] at hcells
  exact ⟨hcells, special_ne_iff clrs⟩

def someRegs : RegsContext := ⟨fun r => if r = .rsp then 0xFFFF else 0, fun _ => 0x23, 0x246⟩

theorem drawRegs_cells_twice :
    ((([.draw 78 ⟨7, 2⟩ someRegs false].foldl (RegsWnd.step .x64) ⟨[], someRegs, false⟩).drawRegs
        .x64 78 ⟨7, 2⟩ { someRegs with eFlags := 0x202 } false).contents.flatMap
        fun line => tokenCells 7 (tokens line)) =
      (items .x64 false).flatMap (itemCells ⟨7, 2⟩
        ([RegsOp.draw 78 ⟨7, 2⟩ someRegs false].foldl lastCtx none)
          { someRegs with eFlags := 0x202 }) ∧
    (Colors.special ⟨7, 2⟩ 0x0B ≠ 7 ↔ (7 : UInt8) ≠ 0xB4) :=
  drawRegs_cells .x64 ⟨[], someRegs, false⟩ rfl [.draw 78 ⟨7, 2⟩ someRegs false] 78 ⟨7, 2⟩
    { someRegs with eFlags := 0x202 } false

-- ---------------------------------------------------------------------------
-- The width of the window
-- ---------------------------------------------------------------------------

/-- Nothing but blanks is behind the edge of the window. -/
def FitsIn (lineDim : Nat) (line : List Char) : Prop :=
  ∃ t k, chars (tokens line) = t ++ List.replicate k ' ' ∧ t.length ≤ lineDim

structure Draft.Fits (lineDim : Nat) (nrmClr : UInt8) (d : Draft) : Prop where
  contents : ∀ line ∈ d.contents, FitsIn lineDim line
  line : FitsIn lineDim d.line
  painted : ∃ cells, Paints nrmClr d.line cells nrmClr

theorem fitsIn_nil : FitsIn lineDim [] := ⟨[], 0, rfl, Nat.zero_le _⟩

theorem Paints.chars_eq (h : Paints clr s cells next) : chars (tokens s) = cells.map Cell.chr := by
  rw [← h.tokenCells_eq, chr_tokenCells]

theorem chr_inColor (clr : UInt8) (s : List Char) : (inColor clr s).map Cell.chr = s := by
  simp [inColor, Function.comp_def]

theorem Draft.Fits.addLine {d : Draft} (h : d.Fits lineDim nrmClr) :
    d.addLine.Fits lineDim nrmClr where
  contents line hline := by
    rcases List.mem_append.mp hline with hline | hline
    · exact h.contents line hline
    · rw [List.mem_singleton.mp hline]
      exact h.line
  line := fitsIn_nil
  painted := ⟨[], paints_nil⟩

theorem Draft.Fits.write {d : Draft} (h : d.Fits lineDim nrmClr) (hs : Paints nrmClr s cells nrmClr)
    (ht : cells.map Cell.chr = t ++ List.replicate k ' ') (hlen : t.length = n) (hdim : n ≤ lineDim)
    {d' : Draft} (hd' : d' = if (strLenOut d.line).1 + n > lineDim then d.addLine else d) :
    Draft.Fits lineDim nrmClr { d' with line := d'.line ++ s } := by
  have hd : d'.Fits lineDim nrmClr ∧ (chars (tokens d'.line)).length + n ≤ lineDim := by
    rw [hd', strLenOut_eq]
    split
    · exact ⟨h.addLine, by rw [Draft.addLine]; simpa [tokens, chars] using hdim⟩
    · next hle => exact ⟨h, Nat.not_lt.mp hle⟩
  obtain ⟨⟨hcontents, -, cells', hpainted⟩, hle⟩ := hd
  refine ⟨hcontents, ?_, _, hpainted.append hs⟩
  refine ⟨chars (tokens d'.line) ++ t, k, ?_, by simpa [hlen] using hle⟩
  rw [(hpainted.append hs).chars_eq, List.map_append, ht, hpainted.chars_eq, List.append_assoc]

def Item.size : Item → Nat
  | .gpr name size _ => name.toList.length + 1 + 2 * size
  | .seg name _ => name.toList.length + 1 + 2 * 2
  | .flags => 8 * 2 - 1
  | .addLine => 0

theorem drawReg_fits {clrs : Colors} (h : Draft.Fits lineDim clrs.nrmClr d)
    (hname : '\n' ∉ name.toList)
    (hsize : name.toList.length + 1 + 2 * size ≤ lineDim) (oldCtxValid : Bool)
      (value oldValue : UInt64) :
    Draft.Fits lineDim clrs.nrmClr
      (drawReg lineDim true clrs oldCtxValid name value size oldValue d) := by
  have hstr : '\n' ∉ name.toList ++ '=' :: hexToString value size := by
    simp [hname, newline_not_mem_hexToString]
  obtain ⟨k, hk⟩ : ∃ k, ("   ".toList ++ if name = "R8" ∨ name = "R9" then [' ']
      else []) = List.replicate k ' ' := by
    split
    · exact ⟨4, rfl⟩
    · exact ⟨3, rfl⟩
  have hblanks : '\n' ∉ "   ".toList ++ if name = "R8" ∨ name = "R9" then [' '] else [] := by
    rw [hk]
    intro hmem
    exact absurd (List.eq_of_mem_replicate hmem) (by decide)
  have hpaints :=
    (paints_highlight clrs oldCtxValid (ofSize size value ≠ ofSize size oldValue) hstr).append
    (paints_plain clrs.nrmClr hblanks)
  have hwrite := h.write hpaints (by rw [List.map_append, chr_inColor, chr_inColor, hk]) rfl
    (by rw [List.length_append, List.length_cons, Cmd.length_hexToString]; omega) rfl
  simpa [drawReg] using hwrite

theorem drawFlags_fits {clrs : Colors} (h : Draft.Fits lineDim clrs.nrmClr d)
    (hsize : 8 * 2 - 1 ≤ lineDim)
    (oldCtxValid : Bool) (value oldValue : UInt32) :
    Draft.Fits lineDim clrs.nrmClr (drawFlags lineDim true clrs oldCtxValid value oldValue d) := by
  have hpaints := (paints_flags clrs oldCtxValid value oldValue Wnd.flags fun _ h => h).append
    (paints_plain clrs.nrmClr (by decide : '\n' ∉ "  ".toList))
  -- the letters have a blank behind them each, and the last one has three
  have hwrite := h.write hpaints
    (show _ = ((Wnd.flags.flatMap fun flag => [flagChar flag.1 flag.2 value, ' ']).take 15) ++
      List.replicate 3 ' '
      from rfl) (show _ = 8 * 2 - 1 from rfl) hsize rfl
  simpa [drawFlags] using hwrite

theorem drawItem_fits {clrs : Colors} (h : Draft.Fits lineDim clrs.nrmClr d) (w : RegsWnd)
    (ctx : RegsContext)
    (hit : it.plain = true) (hsize : it.size ≤ lineDim) :
    Draft.Fits lineDim clrs.nrmClr
      (drawItem lineDim true clrs w.oldCtxValid w.oldCtx ctx d it) := by
  cases it with
  | gpr name size r => exact drawReg_fits h (by simpa [Item.plain] using hit) hsize _ _ _
  | seg name r => exact drawReg_fits h (by simpa [Item.plain] using hit) hsize _ _ _
  | flags => exact drawFlags_fits h hsize _ _ _
  | addLine => exact h.addLine

/-- In 64-bit code nothing is cut off in a window of twenty columns or more. -/
theorem drawRegs_fits (lineDim : Nat) (hdim : 20 ≤ lineDim) (clrs : Colors) (w : RegsWnd)
    (ctx : RegsContext) :
    ∀ line ∈ (w.drawRegs .x64 lineDim clrs ctx false).contents, FitsIn lineDim line := by
  have hrun : ∀ its : List Item, (its.all fun it => it.plain && decide (it.size ≤ 20)) = true →
      ∀ d : Draft,
      d.Fits lineDim clrs.nrmClr →
        (its.foldl (drawItem lineDim true clrs w.oldCtxValid w.oldCtx ctx) d).Fits lineDim
          clrs.nrmClr := by
    intro its hits
    induction its with
    | nil => exact fun d hd => hd
    | cons it its ih =>
      intro d hd
      rw [List.all_cons, Bool.and_eq_true, Bool.and_eq_true, decide_eq_true_eq] at hits
      exact ih hits.2 _ (drawItem_fits hd w ctx hits.1.1 (le_trans hits.1.2 hdim))
  exact (hrun (items .x64 false) (by decide) ⟨[], []⟩
    ⟨fun _ hline => absurd hline List.not_mem_nil, fitsIn_nil, [], paints_nil⟩).contents

theorem drawRegs_fits_narrow :
    ((⟨[], someRegs, false⟩ : RegsWnd).drawRegs .x64 20 ⟨7, 2⟩ someRegs false).contents.length =
    21 ∧
      ∀ line ∈ ((⟨[], someRegs, false⟩ : RegsWnd).drawRegs .x64 20 ⟨7, 2⟩ someRegs false).contents,
        FitsIn 20 line :=
  ⟨by decide +kernel, drawRegs_fits 20 (Nat.le_refl 20) ⟨7, 2⟩ ⟨[], someRegs, false⟩ someRegs⟩

end BugChecker.Wnd
