import BugChecker.Lib.Painting
import BugChecker.Wnd.Focus
import BugChecker.Wnd.Glyph
import BugChecker.Wnd.WndSize
import Mathlib.Tactic.Ring

/-!
# Drawing what has changed

The windows write into the back buffer, and `DrawAll_Final` draws the characters
that are not those of the front buffer. A zero in the front buffer stands for a
character that has to be drawn again, since it was covered by something else, or
since the cursor came or went. No character of the back buffer is a zero. After
any run of the debugger this gives the picture that drawing all characters would
give.
-/

namespace BugChecker.Wnd

open Painting

/-- A character with its color. A zero ends a text and is never one of its characters. -/
structure TextCell where
  chr : UInt8
  clr : UInt8
  chr_ne_zero : chr ≠ 0

def TextCell.toUInt16 (c : TextCell) : UInt16 := c.chr.toUInt16 ||| (c.clr.toUInt16 <<< 8)

/-- What is drawn into the back buffer: the colors and the lines of the frame, and what the windows,
the input line and the other texts write, with their indexes. -/
structure Contents where
  nrmClr : UInt8
  hlpClr : UInt8
  hrzClr : UInt8
  divLineYs : List Int32
  cells : List (Nat × TextCell)

structure Display where
  size : VideoSize
  frontBuffer : Nat → UInt16
  backBuffer : Nat → UInt16
  pixels : Nat → UInt32
  focus : CursorFocus
  cursorDisplayX : Int32
  cursorDisplayY : Int32
  cursorX : Int32
  cursorY : Int32
  logCursorX : Int32
  logCursorY : Int32
  codeCursorX : Int32
  codeCursorY : Int32

/-- The size that `GetScreenDim` finds, and where the script window begins if `CheckDivLineYs` finds
another layout. -/
structure Found where
  dim : UInt32 × UInt32
  codeCursorY : Option Int32

/-- What `DrawInterface` starts with, at a break or after a command: what is on the screen, and the
size of the window. -/
structure Interface where
  pixels : Nat → UInt32
  wndWidth : UInt32
  wndHeight : UInt32
  first : Found
  second : Found
  contents : Contents

inductive DisplayOp
  | drawInterface (i : Interface)
  -- ESC shows the script window if it was hidden
  | esc (shows : Option Found) (contents : Contents)
  | drawAllEnd (contents : Contents)
  | drawAllFinal
  -- the input line or a number in another color
  | write (cells : List (Nat × TextCell))
  | changeCursorX (newX newY : Int32)
  | blink (state : Bool)

namespace Display

def start (size : VideoSize) (pixels : Nat → UInt32) : Display :=
  ⟨size, fun _ => 0, fun _ => 0, pixels, .log, -1, -1, 2, 22, 2, 22, 2, 14⟩

section
variable (s : Display)

def cells : List (Nat × Nat) :=
  (List.range s.size.wndHeight.toNat).flatMap fun y =>
    (List.range s.size.wndWidth.toNat).map fun x => (x, y)

def slot (c : Nat × Nat) : Nat := c.2 * s.size.wndWidth.toNat + c.1

def hasCursor (c : Nat × Nat) : Bool :=
  UInt32.ofNat c.1 = s.cursorDisplayX.toUInt32 && UInt32.ofNat c.2 = s.cursorDisplayY.toUInt32

def cursorIndex : Nat := (s.cursorY.toUInt32 * s.size.wndWidth + s.cursorX.toUInt32).toNat

-- ---------------------------------------------------------------------------
-- The back buffer
-- ---------------------------------------------------------------------------

def frameCell (d : Contents) (x y : UInt32) : UInt16 :=
  let blank := (d.nrmClr.toUInt16 <<< 8) + 0x20
  let c := if x = 0 ∨ x = s.size.wndWidth - 1 then 0x03B3 else blank
  if y = 0 then
    if x = 0 then 0x03DA else if x = s.size.wndWidth - 1 then 0x03BF else 0x03C4
  else if y = s.size.wndHeight - 1 then
    if x = 0 then 0x03C0 else if x = s.size.wndWidth - 1 then 0x03D9 else 0x03C4
  else if y = s.size.wndHeight - 2 then
    if c = blank then (d.hlpClr.toUInt16 <<< 8) + (c &&& 0xFF) else c
  else if d.divLineYs.any (y = ·.toUInt32) then
    if c = blank then (d.hrzClr.toUInt16 <<< 8) + 0xC4 else c
  else c

def drawFrame (d : Contents) : Display :=
  { s with
    backBuffer := paint s.backBuffer (s.cells.map fun c =>
      (s.slot c, s.frameCell d (.ofNat c.1) (.ofNat c.2))) }

/-- There is no result when something else than the buffer is written to. -/
def write (cells : List (Nat × TextCell)) : Option Display :=
  if ∀ c ∈ cells, c.1 < textBuffersDim.toNat then
    some { s with backBuffer := paint s.backBuffer (cells.map fun c => (c.1, c.2.toUInt16)) }
  else none

def drawAllEnd (d : Contents) : Option Display :=
  if s.size.wndHeight.toNat * s.size.wndWidth.toNat ≤ textBuffersDim.toNat
    then (s.drawFrame d).write d.cells
  else none

-- ---------------------------------------------------------------------------
-- The front buffer
-- ---------------------------------------------------------------------------

/-- The reset of the cursor in `CheckDivLineYs`. -/
def checkDivLineYs (codeCursorY : Option Int32) : Display :=
  match codeCursorY with
  | none => s
  | some codeCursorY =>
    let y := (s.size.wndHeight - 3).toInt32
    { s with
      cursorDisplayX := -1, cursorDisplayY := -1, cursorX := 2, cursorY := y, logCursorX := 2
      logCursorY := y, codeCursorX := 2, codeCursorY := codeCursorY }

def drawAllStart (found : Found) : Display :=
  let s := { s with size := s.size.drawAllStart found.dim }.checkDivLineYs found.codeCursorY
  { s with frontBuffer := fun _ => 0 }

def eraseCursor : Option Display :=
  if s.cursorIndex < textBuffersDim.toNat then
    some { s with frontBuffer := Function.update s.frontBuffer s.cursorIndex 0 }
  else none

/-- A negative `newY` keeps the row. -/
def moveCursor (newX newY : Int32) : Display :=
  { s with
    cursorX := newX
    cursorDisplayX := if s.cursorDisplayX ≥ 0 then newX else s.cursorDisplayX
    cursorY := if newY ≥ 0 then newY else s.cursorY
    cursorDisplayY := if newY ≥ 0 ∧ s.cursorDisplayY ≥ 0 then newY else s.cursorDisplayY }

def changeCursorX (newX newY : Int32) : Option Display := do
  let s ← s.eraseCursor
  (s.moveCursor newX newY).eraseCursor

def switchBetweenLogCode (shows : Option Found) : Option Display :=
  let s := match shows with
    | none => s
    | some found => s.drawAllStart found
  match s.focus with
  | .log =>
    let s := { s with logCursorX := s.cursorX, logCursorY := s.cursorY }
    (s.changeCursorX s.codeCursorX s.codeCursorY).map ({ · with focus := .code })
  | .code =>
    let s := { s with codeCursorX := s.cursorX, codeCursorY := s.cursorY }
    (s.changeCursorX s.logCursorX s.logCursorY).map ({ · with focus := .log })

-- ---------------------------------------------------------------------------
-- The pixels
-- ---------------------------------------------------------------------------

variable (font : Nat → UInt32)

/-- What `Glyph::Draw` writes for a character of the window. -/
def tile (c : Nat × Nat) (cell : UInt16) : List (Nat × UInt32) :=
  Glyph.draw font s.size.fb (cell &&& 0xFF).toUInt8 (cell >>> 8).toUInt8 (.ofNat c.1) (.ofNat c.2)
    (centerX s.size.fb s.size.wndWidth) (centerY s.size.fb s.size.wndHeight) (s.hasCursor c)

def drawAllFinal : Display :=
  if checkWndWidthHeight s.size.fb s.size.wndWidth s.size.wndHeight then
    let drawn := refresh s.slot (s.tile font) s.backBuffer (s.frontBuffer, s.pixels) s.cells
    { s with frontBuffer := drawn.1, pixels := drawn.2 }
  else s

def showCursor (state : Bool) : Display :=
  { s with
    cursorDisplayX := if state then s.cursorX else -1
    cursorDisplayY := if state then s.cursorY else -1 }

def blink (state : Bool) : Option Display :=
  if s.cursorX ≥ 0 ∧ s.cursorY ≥ 0 then
    let current := s.cursorDisplayX ≥ 0 && s.cursorDisplayY ≥ 0
    if state ≠ current then (s.showCursor state).eraseCursor.map (·.drawAllFinal font) else some s
  else some s

def drawInterface (i : Interface) : Option Display :=
  let s := { s with pixels := i.pixels, size := ⟨s.size.fb, i.wndWidth, i.wndHeight⟩ }
  (((s.drawAllStart i.first).drawAllStart i.second).drawAllEnd i.contents).map (·.drawAllFinal font)

def step : DisplayOp → Option Display
  | .drawInterface i => s.drawInterface font i
  | .esc shows contents => do
    let s ← s.switchBetweenLogCode shows
    (s.drawAllEnd contents).map (·.drawAllFinal font)
  | .drawAllEnd contents => s.drawAllEnd contents
  | .drawAllFinal => some (s.drawAllFinal font)
  | .write cells => s.write cells
  | .changeCursorX newX newY => s.changeCursorX newX newY
  | .blink state => s.blink font state

def run (ops : List DisplayOp) : Option Display := ops.foldlM (fun s => s.step font) s

-- ---------------------------------------------------------------------------
-- The picture
-- ---------------------------------------------------------------------------

/-- All characters are drawn, whatever the front buffer says. -/
def redrawn : Nat → UInt32 := redraw s.slot (s.tile font) s.backBuffer s.pixels s.cells

def picture (px py : Nat) : UInt32 :=
  let c := (px / 9, py / 16)
  let cell := s.backBuffer (s.slot c)
  let clr := (cell >>> 8).toUInt8.toNat
  let lit := Glyph.glyphBit font (cell &&& 0xFF).toUInt8 (px % 9) (py % 16)
  Glyph.underCursor (s.hasCursor c) (Glyph.textColor (if lit then clr % 16 else clr / 16))

/-- Where a pixel of the window is, from the beginning of the mapping. -/
def pixelOffset (px py : Nat) : Nat :=
  ((s.size.fb.fbHeight.toNat - 16 * s.size.wndHeight.toNat) / 2 + py) * s.size.fb.fbStride.toNat +
    4 * ((s.size.fb.fbWidth.toNat - 9 * s.size.wndWidth.toNat) / 2 + px)

end

/-- The screen is counted with 32-bit numbers, its rows do not overlap, and the window fits. -/
structure Drawable (v : VideoSize) : Prop where
  width : 0 < v.fb.fbWidth.toNat
  height : 0 < v.fb.fbHeight.toNat
  bytes : v.fb.fbWidth.toNat * v.fb.fbHeight.toNat * 4 < 2 ^ 32
  stride : v.fb.fbWidth.toNat * 4 ≤ v.fb.fbStride.toNat
  dwords : v.fb.fbStride.toNat % 4 = 0
  noOverflow : NoOverflow v.fb v.wndWidth v.wndHeight
  check : checkWndWidthHeight v.fb v.wndWidth v.wndHeight = true

-- ---------------------------------------------------------------------------
-- The pixels of the characters
-- ---------------------------------------------------------------------------

theorem mul_add_inj {n a b a' b' : Nat} (hb : b < n) (hb' : b' < n) (h : a * n + b = a' * n + b') :
    a = a' ∧ b = b' := by
  have hdiv : ∀ {a b : Nat}, b < n → (a * n + b) / n = a ∧ (a * n + b) % n = b := by
    intro a b hb
    rw [Nat.mul_comm]
    exact ⟨by rw [Nat.mul_add_div (by omega), Nat.div_eq_of_lt hb, Nat.add_zero],
      by rw [Nat.mul_add_mod, Nat.mod_eq_of_lt hb]⟩
  exact ⟨(hdiv hb).1.symm.trans ((congrArg (· / n) h).trans (hdiv hb').1),
    (hdiv hb).2.symm.trans ((congrArg (· % n) h).trans (hdiv hb').2)⟩

variable {s s' : Display} {font : Nat → UInt32}

theorem mem_cells {c : Nat × Nat} :
    c ∈ s.cells ↔ c.2 < s.size.wndHeight.toNat ∧ c.1 < s.size.wndWidth.toNat := by
  obtain ⟨x, y⟩ := c
  simp [cells]

theorem slot_inj {c c' : Nat × Nat} (hc : c ∈ s.cells) (hc' : c' ∈ s.cells)
    (h : s.slot c = s.slot c') :
    c = c' := by
  obtain ⟨hy, hx⟩ := mul_add_inj (mem_cells.mp hc).2 (mem_cells.mp hc').2 h
  exact Prod.ext hx hy

theorem Drawable.placed (h : Drawable s.size) :
    Placed s.size.fb s.size.wndWidth s.size.wndHeight
      ((s.size.fb.fbWidth.toNat - 9 * s.size.wndWidth.toNat) / 2)
      ((s.size.fb.fbHeight.toNat - 16 * s.size.wndHeight.toNat) / 2) :=
  placed_of_check h.noOverflow h.check

theorem Drawable.accepted (h : Drawable s.size) :
    Accepted { s.size.fb with
      fbMapSize := .ofNat (s.size.fb.fbWidth.toNat * s.size.fb.fbHeight.toNat * 4) } :=
  ⟨h.width, h.height, ofNat_toNat h.bytes, h.stride⟩

theorem glyph_offset (h : Drawable s.size) {c : Nat × Nat} (hc : c ∈ s.cells) (i k : Nat) :
    displayStart s.size.fb (.ofNat c.1) (.ofNat c.2) (centerX s.size.fb s.size.wndWidth)
        (centerY s.size.fb s.size.wndHeight) + 4 * (i * lineDwords s.size.fb + k) =
      s.pixelOffset (9 * c.1 + k) (16 * c.2 + i) := by
  obtain ⟨hy, hx⟩ := mem_cells.mp hc
  have hp := h.placed
  have hfitsX := hp.fitsX
  have hrows := h.noOverflow.rows
  have hstride := h.stride
  have hdwords := h.dwords
  have hplace := displayStart_eq h.accepted
    ⟨hp.width, hp.height, hp.fitsX, hp.fitsY, hp.centerX, hp.centerY⟩ hrows hy hx
  have hstart : displayStart s.size.fb (.ofNat c.1) (.ofNat c.2) (centerX s.size.fb s.size.wndWidth)
      (centerY s.size.fb s.size.wndHeight) =
      ((s.size.fb.fbHeight.toNat - 16 * s.size.wndHeight.toNat) / 2 +
        16 * c.2) * s.size.fb.fbStride.toNat +
        ((s.size.fb.fbWidth.toNat - 9 * s.size.wndWidth.toNat) / 2 + 9 * c.1) * 4 :=
    hplace
  have hsmall : s.size.fb.fbStride.toNat < 2 ^ 31 := by
    have hle : 16 * s.size.fb.fbStride.toNat ≤
        ((s.size.fb.fbHeight.toNat - 16 * s.size.wndHeight.toNat) / 2 +
          16 * s.size.wndHeight.toNat) *
          s.size.fb.fbStride.toNat := Nat.mul_le_mul_right _ (by omega)
    omega
  have hline : 4 * lineDwords s.size.fb = s.size.fb.fbStride.toNat := by
    rw [lineDwords_eq (by omega) hsmall]
    omega
  rw [hstart, pixelOffset, Nat.mul_add, Nat.mul_left_comm, hline]
  ring

theorem pixelOffset_inj (h : Drawable s.size) {px py px' py' : Nat}
    (hpx : px < 9 * s.size.wndWidth.toNat)
    (hpx' : px' < 9 * s.size.wndWidth.toNat) (heq : s.pixelOffset px py = s.pixelOffset px' py') :
    px = px' ∧ py = py' := by
  have hfitsX := h.placed.fitsX
  have hstride := h.stride
  obtain ⟨hy, hx⟩ := mul_add_inj (by omega) (by omega) heq
  omega

theorem tile_eq (h : Drawable s.size) {c : Nat × Nat} (hc : c ∈ s.cells) (cell : UInt16) :
    s.tile font c cell = (List.range 16).flatMap fun i => (List.range 9).map fun k =>
      (s.pixelOffset (9 * c.1 + k) (16 * c.2 + i),
        if Glyph.glyphBit font (cell &&& 0xFF).toUInt8 k i then
          Glyph.foreColor (cell >>> 8).toUInt8 (s.hasCursor c)
        else Glyph.backColor (cell >>> 8).toUInt8 (s.hasCursor c)) := by
  simp only [tile, Glyph.draw_eq, glyph_offset h hc]

theorem mem_tile (h : Drawable s.size) {c : Nat × Nat} (hc : c ∈ s.cells) (cell : UInt16)
    {w : Nat × UInt32} :
    w ∈ s.tile font c cell ↔ ∃ i < 16, ∃ k < 9, w = (s.pixelOffset (9 * c.1 + k) (16 * c.2 + i),
      if Glyph.glyphBit font (cell &&& 0xFF).toUInt8 k i then
        Glyph.foreColor (cell >>> 8).toUInt8 (s.hasCursor c)
      else Glyph.backColor (cell >>> 8).toUInt8 (s.hasCursor c)) := by
  simp only [tile_eq h hc, List.mem_flatMap, List.mem_map, List.mem_range, eq_comm]

theorem tiling (h : Drawable s.size) : Tiling s.slot (s.tile font) s.cells where
  slots c hc c' hc' heq := slot_inj hc hc' heq
  agree c hc a := by
    intro w hw w' hw' heq
    obtain ⟨i, hi, k, hk, rfl⟩ := (mem_tile h hc a).mp hw
    obtain ⟨i', hi', k', hk', rfl⟩ := (mem_tile h hc a).mp hw'
    obtain ⟨-, hx⟩ := mem_cells.mp hc
    obtain ⟨hkk, hii⟩ := pixelOffset_inj h (by omega) (by omega) heq
    obtain rfl : k = k' := by omega
    obtain rfl : i = i' := by omega
    rfl
  apart c hc c' hc' hne a a' := by
    rintro w hw w' hw' heq
    obtain ⟨i, hi, k, hk, rfl⟩ := (mem_tile h hc a).mp hw
    obtain ⟨i', hi', k', hk', rfl⟩ := (mem_tile h hc' a').mp hw'
    obtain ⟨-, hx⟩ := mem_cells.mp hc
    obtain ⟨-, hx'⟩ := mem_cells.mp hc'
    obtain ⟨hkk, hii⟩ := pixelOffset_inj h (by omega) (by omega) heq
    exact hne (Prod.ext (by omega) (by omega))
  places c hc a a' := by
    intro w hw
    obtain ⟨i, hi, k, hk, rfl⟩ := (mem_tile h hc a).mp hw
    exact ⟨_, (mem_tile h hc a').mpr ⟨i, hi, k, hk, rfl⟩, rfl⟩

end Display

end BugChecker.Wnd
