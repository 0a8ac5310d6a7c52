import BugChecker.Wnd.FrameBuffer

/-!
# Glyphs

`Glyph::Draw` takes the bits of a character out of the font, line by line, and
writes a pixel for each. The font is a table of dwords, 32 characters wide; a
line of a character can begin in the middle of a dword and go on in the next.
-/

namespace BugChecker.Glyph

open Wnd (FrameBuffer displayStart glyphHeight glyphWidth lineDwords)

def fontTableWidthInBits : UInt32 := 9 * 32
def fontTableStrideInBits : UInt32 := 9 * 32

/-- `g_vdwColorTable00RRGGBB`. -/
def colorTable : List UInt32 :=
  [0x00000000, 0x00000080, 0x00008000, 0x00008080, 0x00800000, 0x00800080, 0x00808000, 0x00c0c0c0,
    0x00808080, 0x000000ff, 0x0000ff00, 0x0000ffff, 0x00ff0000, 0x00ff00ff, 0x00ffff00, 0x00ffffff]

def pixelColor (index : UInt8) (hasCursor : Bool) : UInt32 :=
  let color := colorTable.getD index.toNat 0
  if hasCursor then color ^^^ colorTable.getD 7 0 else color

def foreColor (bTextColor : UInt8) (hasCursor : Bool) : UInt32 :=
  pixelColor (bTextColor &&& 0xF) hasCursor
def backColor (bTextColor : UInt8) (hasCursor : Bool) : UInt32 :=
  pixelColor (bTextColor >>> 4) hasCursor

section
variable (font : Nat → UInt32)

/-- The pixels of a line that are still to be drawn. Below bit 0 the next dword begins. -/
def drawLine (dwFore dwBack : UInt32) : Nat → Nat → UInt32 → UInt32 → List UInt32
  | 0, _, _, _ => []
  | ulW + 1, pdwDwordPtrLine, dwDword, ulDwordBit =>
    let (pdwDwordPtrLine, dwDword, ulDwordBit) :=
      if ulDwordBit = 0xFFFFFFFF then (pdwDwordPtrLine + 1, font (pdwDwordPtrLine + 1), 31)
      else (pdwDwordPtrLine, dwDword, ulDwordBit)
    (if (dwDword >>> ulDwordBit) &&& 1 ≠ 0 then dwFore else dwBack) ::
      drawLine dwFore dwBack ulW pdwDwordPtrLine dwDword (ulDwordBit - 1)

def draw (fb : FrameBuffer) (bTextChar bTextColor : UInt8)
    (ulX ulY ulTargetStartX ulTargetStartY : UInt32)
    (hasCursor : Bool) : List (Nat × UInt32) :=
  let ulFontTableChrWidth := fontTableWidthInBits / glyphWidth
  let ulChrY := bTextChar.toUInt32 / ulFontTableChrWidth
  let ulChrX := bTextChar.toUInt32 - ulChrY * ulFontTableChrWidth
  let ulBitStart := ulChrY * glyphHeight * fontTableStrideInBits + ulChrX * glyphWidth
  (List.range glyphHeight.toNat).flatMap fun ulI =>
    let pdwDwordPtr := (ulBitStart / 32).toNat + ulI * (fontTableStrideInBits / 32).toNat
    let line := drawLine font (foreColor bTextColor hasCursor) (backColor bTextColor hasCursor)
      glyphWidth.toNat pdwDwordPtr (font pdwDwordPtr) (31 - ulBitStart % 32)
    line.zipIdx.map fun (pixel, w) =>
      (displayStart fb ulX ulY ulTargetStartX ulTargetStartY + 4 * (ulI * lineDwords fb + w), pixel)

/-- The bits of the table in the order of the picture: from the highest of the first dword on. -/
def fontBit (n : Nat) : Bool := (font (n / 32)).toNat.testBit (31 - n % 32)

def glyphBit (chr : UInt8) (x y : Nat) : Bool :=
  fontBit font ((chr.toNat / 32 * 16 + y) * 288 + (chr.toNat % 32 * 9 + x))

end

-- ---------------------------------------------------------------------------
-- The colors
-- ---------------------------------------------------------------------------

/-- The colors of a text screen as 00RRGGBB. A color has a bit each for blue, green, red and bright;
the two grays stand out of this order. -/
def textColor (n : Nat) : UInt32 :=
  let full : UInt32 := if n.testBit 3 then 0xFF else 0x80
  let channel (bit : Nat) : UInt32 := if n.testBit bit then full else 0
  if n = 7 then 0xC0C0C0
  else if n = 8 then 0x808080
  else channel 2 * 0x10000 + channel 1 * 0x100 + channel 0

/-- What is shown under the cursor. -/
def underCursor (hasCursor : Bool) (color : UInt32) : UInt32 :=
  if hasCursor then color ^^^ 0xC0C0C0 else color

theorem pixelColor_ofNat : ∀ n < 16, ∀ hasCursor,
    pixelColor (UInt8.ofNat n) hasCursor = underCursor hasCursor (textColor n) := by
  decide

theorem foreColor_eq (clr : UInt8) (hasCursor : Bool) :
    foreColor clr hasCursor = underCursor hasCursor (textColor (clr.toNat % 16)) := by
  rw [← pixelColor_ofNat _ (Nat.mod_lt _ (by decide)), foreColor]
  congr 1
  refine UInt8.toNat_inj.mp ?_
  rw [UInt8.toNat_and, UInt8.toNat_ofNat']
  change clr.toNat &&& 2 ^ 4 - 1 = _
  rw [Nat.and_two_pow_sub_one_eq_mod]
  omega

theorem backColor_eq (clr : UInt8) (hasCursor : Bool) :
    backColor clr hasCursor = underCursor hasCursor (textColor (clr.toNat / 16)) := by
  have hclr := clr.toNat_lt
  rw [← pixelColor_ofNat _ (by omega), backColor]
  congr 1
  refine UInt8.toNat_inj.mp ?_
  rw [UInt8.toNat_shiftRight, UInt8.toNat_ofNat']
  change clr.toNat >>> 4 = _
  rw [Nat.shiftRight_eq_div_pow]
  omega

variable {font : Nat → UInt32} {fore back : UInt32}

/-- Where the loop over a line is: before the bit `n` of the table. -/
inductive LineAt (font : Nat → UInt32) (n : Nat) : Nat → UInt32 → UInt32 → Prop
  | bit (h : bit.toNat = 31 - n % 32) : LineAt font n (n / 32) (font (n / 32)) bit
  | next (h : n = (ptr + 1) * 32) : LineAt font n ptr dwDword 0xFFFFFFFF

theorem bit_eq_fontBit {bit : UInt32} (h : bit.toNat = 31 - n % 32) :
    (font (n / 32) >>> bit) &&& 1 ≠ 0 ↔ fontBit font n = true := by
  have hmod : bit.toNat % 32 = bit.toNat := Nat.mod_eq_of_lt (by omega)
  rw [Ne, ← UInt32.toNat_inj, UInt32.toNat_and, UInt32.toNat_shiftRight, hmod, h, fontBit]
  change ¬((font (n / 32)).toNat >>> (31 - n % 32) &&& 1) = 0 ↔ _
  rw [Nat.and_one_is_mod, Nat.shiftRight_eq_div_pow, Nat.testBit_eq_decide_div_mod_eq]
  simp

theorem drawLine_bit {bit : UInt32} (h : bit.toNat = 31 - n % 32) (w : Nat) :
    drawLine font fore back (w + 1) (n / 32) (font (n / 32)) bit =
      (if fontBit font n then fore else back) ::
        drawLine font fore back w (n / 32) (font (n / 32)) (bit - 1) := by
  have hne : bit ≠ 0xFFFFFFFF := by
    rintro rfl
    change 4294967295 = _ at h
    omega
  simp [drawLine, hne, ← bit_eq_fontBit h]

theorem LineAt.step {bit : UInt32} (h : bit.toNat = 31 - n % 32) :
    LineAt font (n + 1) (n / 32) (font (n / 32)) (bit - 1) := by
  by_cases hzero : n % 32 = 31
  · have hbit : bit = 0 := UInt32.toNat_inj.mp (by simp [h, hzero])
    subst hbit
    exact .next (by omega)
  · have hdiv : (n + 1) / 32 = n / 32 := by omega
    rw [← hdiv]
    refine .bit ?_
    rw [UInt32.toNat_sub_of_le _ _ (UInt32.le_iff_toNat_le.mpr (by simp; omega)), h]
    change 31 - n % 32 - 1 = _
    omega

theorem drawLine_eq (h : LineAt font n ptr dwDword bit) (w : Nat) :
    drawLine font fore back w ptr dwDword bit =
      (List.range w).map fun k => if fontBit font (n + k) then fore else back := by
  induction w generalizing n ptr dwDword bit with
  | zero => rfl
  | succ w ih =>
    -- at the end of a dword the loop goes on as it does at the beginning of the next one
    have hstart : ∃ bit' : UInt32, bit'.toNat = 31 - n % 32 ∧
        drawLine font fore back (w + 1) ptr dwDword bit =
          drawLine font fore back (w + 1) (n / 32) (font (n / 32)) bit' := by
      cases h with
      | bit h => exact ⟨_, h, rfl⟩
      | next h =>
        have hdiv : n / 32 = ptr + 1 := by omega
        refine ⟨31, by rw [h]; simp, ?_⟩
        rw [hdiv]
        rfl
    obtain ⟨bit', hbit, hline⟩ := hstart
    rw [hline, drawLine_bit hbit, ih (LineAt.step hbit), List.range_succ_eq_map, List.map_cons,
      List.map_map]
    congr 1
    apply List.map_congr_left
    intro k _
    simp [Nat.add_assoc, Nat.add_comm 1]

def bitStart (chr : UInt8) : UInt32 :=
  chr.toUInt32 / (fontTableWidthInBits / glyphWidth) * glyphHeight * fontTableStrideInBits +
    (chr.toUInt32 - chr.toUInt32 / (fontTableWidthInBits / glyphWidth) *
      (fontTableWidthInBits / glyphWidth)) *
      glyphWidth

theorem bitStart_toNat (chr : UInt8) :
    (bitStart chr).toNat = chr.toNat / 32 * 16 * 288 + chr.toNat % 32 * 9 := by
  have hchr : chr.toNat < 256 := chr.toNat_lt
  have hdim : fontTableWidthInBits / glyphWidth = 32 := by decide
  have hdiv : (chr.toUInt32 / 32).toNat = chr.toNat / 32 := by simp
  have hrow : (chr.toUInt32 / 32 * 32).toNat = chr.toNat / 32 * 32 := by
    rw [UInt32.toNat_mul, hdiv]
    exact Nat.mod_eq_of_lt (by simp; omega)
  have hcol : (chr.toUInt32 - chr.toUInt32 / 32 * 32).toNat = chr.toNat % 32 := by
    rw [UInt32.toNat_sub_of_le _ _ (UInt32.le_iff_toNat_le.mpr (by rw [hrow]; simp; omega)), hrow]
    simp
    omega
  rw [bitStart, hdim, UInt32.toNat_add, UInt32.toNat_mul, UInt32.toNat_mul, UInt32.toNat_mul, hdiv,
    hcol]
  change ((chr.toNat / 32 * 16 % 2 ^ 32) * 288 % 2 ^ 32 + chr.toNat % 32 * 9 % 2 ^ 32) % 2 ^ 32 = _
  omega

theorem draw_eq (fb : FrameBuffer) (chr clr : UInt8) (ulX ulY startX startY : UInt32)
    (hasCursor : Bool) :
    draw font fb chr clr ulX ulY startX startY hasCursor =
      (List.range 16).flatMap fun i => (List.range 9).map fun k =>
        (displayStart fb ulX ulY startX startY + 4 * (i * lineDwords fb + k),
          if glyphBit font chr k i then foreColor clr hasCursor else backColor clr hasCursor) := by
  have hstart := bitStart_toNat chr
  apply List.flatMap_congr
  intro i hi
  -- the bit at which the line begins
  have hbit : (chr.toNat / 32 * 16 + i) * 288 + chr.toNat % 32 * 9 =
      (bitStart chr).toNat + i * 288 := by
    omega
  have hline : LineAt font ((bitStart chr).toNat + i * 288) ((bitStart chr / 32).toNat + i * 9)
      (font ((bitStart chr / 32).toNat + i * 9)) (31 - bitStart chr % 32) := by
    have hdiv : (bitStart chr / 32).toNat + i * 9 = ((bitStart chr).toNat + i * 288) / 32 := by
      simp
      omega
    rw [hdiv]
    refine .bit ?_
    rw [UInt32.toNat_sub_of_le _ _ (UInt32.le_iff_toNat_le.mpr (by simp; omega))]
    simp
    omega
  simp only [glyphBit, ← Nat.add_assoc, hbit]
  change (List.zipIdx (drawLine font _ _ 9 ((bitStart chr / 32).toNat + i * 9)
    (font ((bitStart chr / 32).toNat + i * 9)) (31 - bitStart chr % 32))).map _ = _
  rw [drawLine_eq hline]
  rfl

end BugChecker.Glyph
