import Mathlib.Algebra.Group.Nat.Defs
import Mathlib.Data.List.Basic

/-!
# The framebuffer

Which bytes of the mapping are read and written: by the glyphs of the window,
which is drawn in the middle of the screen, and by saving and restoring what is
under it. Numbers are the 32-bit ones of the driver; what is added to the
address of the mapping is not reduced any further.
-/

namespace BugChecker.Wnd

def glyphWidth : UInt32 := 9
def glyphHeight : UInt32 := 16
def textBuffersDim : UInt32 := 128 * 128
/-- `sizeof(Root::I->VideoRestoreBuffer)`. -/
def restoreBufferSize : UInt32 := 4 * 1024 * 1024

structure FrameBuffer where
  fbWidth : UInt32
  fbHeight : UInt32
  fbStride : UInt32
  fbMapSize : UInt32
  deriving DecidableEq

/-- `DriverEntry` maps the framebuffer that the configuration describes. -/
def mapFrameBuffer (fbWidth fbHeight : UInt32) (fbAddress : UInt64) (fbStride : UInt32) :
    Option FrameBuffer :=
  let fbStride := if fbStride = 0 ∧ fbWidth ≠ 0 then fbWidth * 4 else fbStride
  if fbWidth ≠ 0 ∧ fbHeight ≠ 0 ∧ fbAddress ≠ 0 ∧ fbStride ≠ 0 then
    some ⟨fbWidth, fbHeight, fbStride, fbWidth * fbHeight * 4⟩
  else none

def checkWndWidthHeight (fb : FrameBuffer) (widthChr heightChr : UInt32) : Bool :=
  let sizeChr := widthChr * heightChr
  let sizePx := sizeChr * glyphWidth * glyphHeight
  !(fb.fbWidth * fb.fbHeight * 4 > fb.fbMapSize) && !(sizeChr > textBuffersDim) &&
    !(sizePx * (32 / 8) > restoreBufferSize) && !(widthChr * glyphWidth > fb.fbWidth) &&
    !(heightChr * glyphHeight > fb.fbHeight)

def centerX (fb : FrameBuffer) (wndWidth : UInt32) : UInt32 :=
  (fb.fbWidth - wndWidth * glyphWidth) / 2

def centerY (fb : FrameBuffer) (wndHeight : UInt32) : UInt32 :=
  (fb.fbHeight - wndHeight * glyphHeight) / 2

-- ---------------------------------------------------------------------------
-- SaveOrRestoreFrameBuffer
-- ---------------------------------------------------------------------------

/-- `lineStart`, from the beginning of the mapping. -/
def lineStart (fb : FrameBuffer) (wndWidth wndHeight : UInt32) (y : Nat) : Nat :=
  ((centerY fb wndHeight + UInt32.ofNat y) * fb.fbStride).toNat +
    (centerX fb wndWidth * (32 / 8)).toNat

/-- Whether `SaveOrRestoreFrameBuffer` gets past its checks of the sizes. -/
def savesOrRestores (fb : FrameBuffer) (wndWidth wndHeight : UInt32) : Bool :=
  checkWndWidthHeight fb wndWidth wndHeight &&
    !((wndWidth * glyphWidth) * (wndHeight * glyphHeight) * (32 / 8) > restoreBufferSize)

def savedOffsets (fb : FrameBuffer) (wndWidth wndHeight : UInt32) : List Nat :=
  (List.range (wndHeight * glyphHeight).toNat).flatMap fun y =>
    (List.range (wndWidth * glyphWidth).toNat).map fun x =>
      lineStart fb wndWidth wndHeight y + 4 * x

-- ---------------------------------------------------------------------------
-- Glyph::Draw
-- ---------------------------------------------------------------------------

/-- `pbDisplayStart`, from the beginning of the mapping. -/
def displayStart (fb : FrameBuffer) (ulX ulY ulTargetStartX ulTargetStartY : UInt32) : Nat :=
  ((ulTargetStartY + ulY * glyphHeight) * fb.fbStride).toNat +
    ((ulTargetStartX + ulX * glyphWidth) * (32 / 8)).toNat

/-- From one line of a glyph to the next, in dwords: those that were drawn, and
`ulFinalFrameBufStrideInDwords`. The pitch is a signed number. -/
def lineDwords (fb : FrameBuffer) : Nat :=
  glyphWidth.toNat + ((fb.fbStride.toInt32 / 4).toUInt32 - glyphWidth).toNat

def glyphOffsets (fb : FrameBuffer) (ulX ulY ulTargetStartX ulTargetStartY : UInt32) : List Nat :=
  (List.range glyphHeight.toNat).flatMap fun i =>
    (List.range glyphWidth.toNat).map fun w =>
      displayStart fb ulX ulY ulTargetStartX ulTargetStartY + 4 * (i * lineDwords fb + w)

/-- What `DrawAll_Final` can draw: every cell of the window may have changed. -/
def drawnOffsets (fb : FrameBuffer) (wndWidth wndHeight : UInt32) : List Nat :=
  (List.range wndHeight.toNat).flatMap fun y => (List.range wndWidth.toNat).flatMap fun x =>
    glyphOffsets fb (UInt32.ofNat x) (UInt32.ofNat y) (centerX fb wndWidth) (centerY fb wndHeight)

/-- All pixels that are read or written through `VideoAddr`. -/
def accesses (fb : FrameBuffer) (wndWidth wndHeight : UInt32) : List Nat :=
  (if checkWndWidthHeight fb wndWidth wndHeight then drawnOffsets fb wndWidth wndHeight else []) ++
    if savesOrRestores fb wndWidth wndHeight then savedOffsets fb wndWidth wndHeight else []

-- ---------------------------------------------------------------------------
-- Inside the mapping
-- ---------------------------------------------------------------------------

/-- A pixel is four bytes. -/
def Inside (fb : FrameBuffer) (offset : Nat) : Prop := ∀ i < 4, offset + i < fb.fbMapSize.toNat

theorem inside_iff : Inside fb offset ↔ offset + 4 ≤ fb.fbMapSize.toNat := by
  unfold Inside
  constructor
  · intro h
    have := h 3 (by decide)
    omega
  · intro h i hi
    omega

/-- The right end of each row of the window, and the last pixel of each cell. -/
structure RowsFit (fb : FrameBuffer) (wndWidth wndHeight : UInt32) : Prop where
  saved : 0 < (wndWidth * glyphWidth).toNat → ∀ y < (wndHeight * glyphHeight).toNat,
    lineStart fb wndWidth wndHeight y + 4 * (wndWidth * glyphWidth).toNat ≤ fb.fbMapSize.toNat
  drawn : ∀ y < wndHeight.toNat, ∀ x < wndWidth.toNat,
    displayStart fb (UInt32.ofNat x) (UInt32.ofNat y) (centerX fb wndWidth) (centerY fb wndHeight) +
      4 * (15 * lineDwords fb + 9) ≤ fb.fbMapSize.toNat

theorem savedOffsets_inside_iff : (∀ o ∈ savedOffsets fb w h, Inside fb o) ↔
    (0 < (w * glyphWidth).toNat → ∀ y < (h * glyphHeight).toNat,
      lineStart fb w h y + 4 * (w * glyphWidth).toNat ≤ fb.fbMapSize.toNat) := by
  simp only [savedOffsets, List.mem_flatMap, List.mem_map, List.mem_range, inside_iff]
  constructor
  · intro hall hpos y hy
    have := hall _ ⟨y, hy, (w * glyphWidth).toNat - 1, by omega, rfl⟩
    omega
  · rintro hrows _ ⟨y, hy, x, hx, rfl⟩
    have := hrows (by omega) y hy
    omega

theorem drawnOffsets_inside_iff : (∀ o ∈ drawnOffsets fb w h, Inside fb o) ↔
    ∀ y < h.toNat, ∀ x < w.toNat,
      displayStart fb (UInt32.ofNat x) (UInt32.ofNat y) (centerX fb w) (centerY fb h) +
        4 * (15 * lineDwords fb + 9) ≤ fb.fbMapSize.toNat := by
  have hw : glyphWidth.toNat = 9 := rfl
  have hh : glyphHeight.toNat = 16 := rfl
  simp only [drawnOffsets, glyphOffsets, List.mem_flatMap, List.mem_map, List.mem_range, inside_iff,
    hw, hh]
  constructor
  · intro hall y hy x hx
    have := hall _ ⟨y, hy, x, hx, 15, by decide, 8, by decide, rfl⟩
    omega
  · rintro hcells _ ⟨y, hy, x, hx, i, hi, k, hk, rfl⟩
    have hcell := hcells y hy x hx
    have hline : i * lineDwords fb ≤ 15 * lineDwords fb := Nat.mul_le_mul_right _ (by omega)
    omega

theorem savesOrRestores_of_check (h : checkWndWidthHeight fb w h' = true) :
    savesOrRestores fb w h' = true := by
  have hpx : w * glyphWidth * (h' * glyphHeight) = w * h' * glyphWidth * glyphHeight := by
    grind
  simp only [checkWndWidthHeight, Bool.and_eq_true] at h
  simp only [savesOrRestores, checkWndWidthHeight, Bool.and_eq_true, hpx]
  exact ⟨h, h.1.1.2⟩

theorem accesses_inside_iff_rowsFit (hcheck : checkWndWidthHeight fb w h = true) :
    (∀ o ∈ accesses fb w h, Inside fb o) ↔ RowsFit fb w h := by
  simp only [accesses, hcheck, savesOrRestores_of_check hcheck, if_true, List.forall_mem_append]
  rw [drawnOffsets_inside_iff, savedOffsets_inside_iff]
  exact ⟨fun ⟨hd, hs⟩ => ⟨hs, hd⟩, fun ⟨hs, hd⟩ => ⟨hd, hs⟩⟩

-- ---------------------------------------------------------------------------
-- Addresses that do not overflow
-- ---------------------------------------------------------------------------

/-- What the configuration promises of the framebuffer that was mapped. -/
structure Accepted (fb : FrameBuffer) : Prop where
  fbWidth : 0 < fb.fbWidth.toNat
  fbHeight : 0 < fb.fbHeight.toNat
  mapSize : fb.fbMapSize.toNat = fb.fbWidth.toNat * fb.fbHeight.toNat * 4
  stride : fb.fbWidth.toNat * 4 ≤ fb.fbStride.toNat

theorem pos_of_ne_zero {n : UInt32} (h : n ≠ 0) : 0 < n.toNat := by
  rcases Nat.eq_zero_or_pos n.toNat with h0 | hpos
  · exact absurd (UInt32.toNat_inj.mp h0) h
  · exact hpos

theorem accepted_of_map (h : mapFrameBuffer fbWidth fbHeight fbAddress fbStride = some fb)
    (hsize : fb.fbWidth.toNat * fb.fbHeight.toNat * 4 < 2 ^ 32)
    (hstride : fb.fbWidth.toNat * 4 ≤ fb.fbStride.toNat) : Accepted fb := by
  simp only [mapFrameBuffer, Option.ite_none_right_eq_some] at h
  obtain ⟨⟨hwidth, hheight, -⟩, heq⟩ := h
  obtain rfl := Option.some.inj heq
  refine ⟨pos_of_ne_zero hwidth, pos_of_ne_zero hheight, ?_, hstride⟩
  have hpx : fbWidth.toNat * fbHeight.toNat < 2 ^ 32 := by
    dsimp only at hsize
    omega
  rw [UInt32.toNat_mul, UInt32.toNat_mul, Nat.mod_eq_of_lt hpx]
  exact Nat.mod_eq_of_lt hsize

/-- The numbers of the window and the offsets of its rows stay below `2 ^ 32`. -/
structure NoOverflow (fb : FrameBuffer) (wndWidth wndHeight : UInt32) : Prop where
  width : 9 * wndWidth.toNat < 2 ^ 32
  height : 16 * wndHeight.toNat < 2 ^ 32
  rows : ((fb.fbHeight.toNat - 16 * wndHeight.toNat) / 2 +
    16 * wndHeight.toNat) * fb.fbStride.toNat <
    2 ^ 32

instance : Decidable (NoOverflow fb w h) :=
  decidable_of_iff (_ ∧ _ ∧ _) ⟨fun h => ⟨h.1, h.2.1, h.2.2⟩, fun h => ⟨h.1, h.2, h.3⟩⟩

/-- The last row of the window ends inside `fbWidth * fbHeight` pixels. -/
def LastRowFits (fb : FrameBuffer) (wndWidth wndHeight : UInt32) : Prop :=
  ((fb.fbHeight.toNat - 16 * wndHeight.toNat) / 2 + 16 * wndHeight.toNat - 1) * fb.fbStride.toNat +
    ((fb.fbWidth.toNat - 9 * wndWidth.toNat) / 2 + 9 * wndWidth.toNat) * 4 ≤
      fb.fbWidth.toNat * fb.fbHeight.toNat * 4

/-- Numbers as they are without overflow. -/
structure Placed (fb : FrameBuffer) (w h : UInt32) (left top : Nat) : Prop where
  width : (w * glyphWidth).toNat = 9 * w.toNat
  height : (h * glyphHeight).toNat = 16 * h.toNat
  fitsX : left + 9 * w.toNat ≤ fb.fbWidth.toNat
  fitsY : top + 16 * h.toNat ≤ fb.fbHeight.toNat
  centerX : (centerX fb w).toNat = left
  centerY : (centerY fb h).toNat = top

theorem placed_of_check (hno : NoOverflow fb w h) (hcheck : checkWndWidthHeight fb w h = true) :
    Placed fb w h ((fb.fbWidth.toNat - 9 * w.toNat) / 2)
      ((fb.fbHeight.toNat - 16 * h.toNat) / 2) := by
  have hw : (w * glyphWidth).toNat = 9 * w.toNat := by
    rw [UInt32.toNat_mul, show glyphWidth.toNat = 9 from rfl, Nat.mod_eq_of_lt] <;>
      have := hno.width <;> omega
  have hh : (h * glyphHeight).toNat = 16 * h.toNat := by
    rw [UInt32.toNat_mul, show glyphHeight.toNat = 16 from rfl, Nat.mod_eq_of_lt] <;>
      have := hno.height <;> omega
  simp only [checkWndWidthHeight, Bool.and_eq_true, Bool.not_eq_true', decide_eq_false_iff_not,
    gt_iff_lt, UInt32.not_lt, UInt32.le_iff_toNat_le, hw, hh] at hcheck
  obtain ⟨⟨-, hfitsX⟩, hfitsY⟩ := hcheck
  refine ⟨hw, hh, by omega, by omega, ?_, ?_⟩
  · rw [Wnd.centerX, UInt32.toNat_div, UInt32.toNat_sub_of_le _ _ (by
      rw [UInt32.le_iff_toNat_le, hw]
      exact hfitsX), hw]
    rfl
  · rw [Wnd.centerY, UInt32.toNat_div, UInt32.toNat_sub_of_le _ _ (by
      rw [UInt32.le_iff_toNat_le, hh]
      exact hfitsY), hh]
    rfl

section
variable {fb : FrameBuffer} {w h : UInt32} {left top : Nat}

theorem fbWidth_le (hfb : Accepted fb) : fb.fbWidth.toNat * 4 < 2 ^ 32 := by
  have hmap := fb.fbMapSize.toNat_lt
  rw [hfb.mapSize] at hmap
  have hle : fb.fbWidth.toNat * 1 ≤ fb.fbWidth.toNat * fb.fbHeight.toNat :=
    Nat.mul_le_mul_left _ hfb.fbHeight
  omega

theorem row_toNat (hrows : (top + 16 * h.toNat) * fb.fbStride.toNat < 2 ^ 32) {row : UInt32}
    (hrow : row.toNat < top + 16 * h.toNat) :
    (row * fb.fbStride).toNat = row.toNat * fb.fbStride.toNat := by
  rw [UInt32.toNat_mul]
  exact Nat.mod_eq_of_lt (Nat.lt_of_le_of_lt (Nat.mul_le_mul_right _ (Nat.le_of_lt hrow)) hrows)

theorem add_toNat {a b : UInt32} (h : a.toNat + b.toNat < 2 ^ 32) :
    (a + b).toNat = a.toNat + b.toNat := by
  rw [UInt32.toNat_add]
  exact Nat.mod_eq_of_lt h

theorem four_mul_toNat {a : UInt32} (h : a.toNat * 4 < 2 ^ 32) :
    (a * (32 / 8)).toNat = a.toNat * 4 := by
  rw [UInt32.toNat_mul]
  exact Nat.mod_eq_of_lt h

theorem ofNat_toNat {n : Nat} (h : n < 2 ^ 32) : (UInt32.ofNat n).toNat = n :=
  UInt32.toNat_ofNat_of_lt' h

theorem lineStart_eq (hfb : Accepted fb) (hp : Placed fb w h left top)
    (hrows : (top + 16 * h.toNat) * fb.fbStride.toNat < 2 ^ 32) (hy : y < 16 * h.toNat) :
    lineStart fb w h y = (top + y) * fb.fbStride.toNat + left * 4 := by
  have hwidth := fbWidth_le hfb
  have hheight := fb.fbHeight.toNat_lt
  have hfitsX := hp.fitsX
  have hfitsY := hp.fitsY
  have hy' : (UInt32.ofNat y).toNat = y := ofNat_toNat (by omega)
  have hrow : (Wnd.centerY fb h + UInt32.ofNat y).toNat = top + y := by
    rw [add_toNat, hp.centerY, hy']
    rw [hp.centerY, hy']
    omega
  rw [lineStart, row_toNat hrows (by omega), hrow, four_mul_toNat, hp.centerX]
  rw [hp.centerX]
  omega

theorem displayStart_eq (hfb : Accepted fb) (hp : Placed fb w h left top)
    (hrows : (top + 16 * h.toNat) * fb.fbStride.toNat < 2 ^ 32) (hy : y < h.toNat)
      (hx : x < w.toNat) :
    displayStart fb (UInt32.ofNat x) (UInt32.ofNat y) (Wnd.centerX fb w) (Wnd.centerY fb h) =
      (top + 16 * y) * fb.fbStride.toNat + (left + 9 * x) * 4 := by
  have hwidth := fbWidth_le hfb
  have hheight := fb.fbHeight.toNat_lt
  have hfitsX := hp.fitsX
  have hfitsY := hp.fitsY
  have hy' : (UInt32.ofNat y * glyphHeight).toNat = 16 * y := by
    rw [UInt32.toNat_mul, ofNat_toNat (by omega), show glyphHeight.toNat = 16 from rfl]
    omega
  have hx' : (UInt32.ofNat x * glyphWidth).toNat = 9 * x := by
    rw [UInt32.toNat_mul, ofNat_toNat (by omega), show glyphWidth.toNat = 9 from rfl]
    omega
  have hrow : (Wnd.centerY fb h + UInt32.ofNat y * glyphHeight).toNat = top + 16 * y := by
    rw [add_toNat, hp.centerY, hy']
    rw [hp.centerY, hy']
    omega
  have hcol : (Wnd.centerX fb w + UInt32.ofNat x * glyphWidth).toNat = left + 9 * x := by
    rw [add_toNat, hp.centerX, hx']
    rw [hp.centerX, hx']
    omega
  rw [displayStart, row_toNat hrows (by omega), hrow, four_mul_toNat, hcol]
  rw [hcol]
  omega

theorem lineDwords_eq (hlo : 36 ≤ fb.fbStride.toNat) (hhi : fb.fbStride.toNat < 2 ^ 31) :
    lineDwords fb = fb.fbStride.toNat / 4 := by
  have hdiv : (fb.fbStride.toInt32 / 4).toUInt32 = fb.fbStride / 4 := by
    apply UInt32.eq_of_toBitVec_eq
    have hmsb : fb.fbStride.toBitVec.msb = false := by
      rw [BitVec.msb_eq_false_iff_two_mul_lt]
      have : fb.fbStride.toBitVec.toNat = fb.fbStride.toNat := rfl
      omega
    change fb.fbStride.toBitVec.sdiv 4#32 = fb.fbStride.toBitVec / 4#32
    rw [BitVec.sdiv_eq, hmsb]
    rfl
  have hle : glyphWidth ≤ fb.fbStride / 4 := by
    rw [UInt32.le_iff_toNat_le, UInt32.toNat_div]
    change 9 ≤ fb.fbStride.toNat / 4
    omega
  rw [lineDwords, hdiv, UInt32.toNat_sub_of_le _ _ hle, UInt32.toNat_div]
  change 9 + (fb.fbStride.toNat / 4 - 9) = fb.fbStride.toNat / 4
  omega

theorem rowsFit_iff_lastRowFits (hfb : Accepted fb) (hp : Placed fb w h left top)
    (hrows : (top + 16 * h.toNat) * fb.fbStride.toNat < 2 ^ 32) (hw : 0 < w.toNat)
      (hh : 0 < h.toNat) :
    RowsFit fb w h ↔ (top + 16 * h.toNat - 1) * fb.fbStride.toNat + (left + 9 * w.toNat) * 4 ≤
      fb.fbMapSize.toNat := by
  have hfitsX := hp.fitsX
  have hstride := hfb.stride
  have hsmall : fb.fbStride.toNat < 2 ^ 31 := by
    have hle : 16 * fb.fbStride.toNat ≤ (top + 16 * h.toNat) * fb.fbStride.toNat :=
      Nat.mul_le_mul_right _ (by omega)
    omega
  constructor
  · intro hfit
    have hlast := hfit.saved (by rw [hp.width]; omega) (16 * h.toNat - 1) (by rw [hp.height]; omega)
    rw [lineStart_eq hfb hp hrows (by omega), hp.width] at hlast
    rw [show top + 16 * h.toNat - 1 = top + (16 * h.toNat - 1) by omega]
    omega
  · intro hlast
    have hrow : ∀ r ≤ top + 16 * h.toNat - 1,
        r * fb.fbStride.toNat + (left + 9 * w.toNat) * 4 ≤ fb.fbMapSize.toNat := by
      intro r hr
      have := Nat.mul_le_mul_right fb.fbStride.toNat hr
      omega
    constructor
    · intro _ y hy
      rw [hp.height] at hy
      rw [lineStart_eq hfb hp hrows hy, hp.width]
      have := hrow (top + y) (by omega)
      omega
    · intro y hy x hx
      rw [displayStart_eq hfb hp hrows hy hx, lineDwords_eq (by omega) hsmall]
      have hcell := hrow (top + 16 * y + 15) (by omega)
      rw [Nat.add_mul (top + 16 * y) 15] at hcell
      omega

/-- The condition under which the accesses are inside: without overflow, the last row decides. -/
def Fits (fb : FrameBuffer) (wndWidth wndHeight : UInt32) : Prop :=
  if NoOverflow fb wndWidth wndHeight then
    wndWidth.toNat = 0 ∨ wndHeight.toNat = 0 ∨ LastRowFits fb wndWidth wndHeight
  else RowsFit fb wndWidth wndHeight

theorem rowsFit_of_empty (hempty : w.toNat = 0 ∨ h.toNat = 0) :
    RowsFit fb w h := by
  have hw : (w * glyphWidth).toNat ≤ w.toNat * 9 := by
    rw [UInt32.toNat_mul]
    exact Nat.mod_le _ _
  have hh : (h * glyphHeight).toNat ≤ h.toNat * 16 := by
    rw [UInt32.toNat_mul]
    exact Nat.mod_le _ _
  constructor
  · intro hpos y hy
    omega
  · intro y hy x hx
    omega

theorem accesses_inside_iff (fbWidth fbHeight fbStride : UInt32) (fbAddress : UInt64)
    (hmap : mapFrameBuffer fbWidth fbHeight fbAddress fbStride = some fb)
    (hsize : fb.fbWidth.toNat * fb.fbHeight.toNat * 4 < 2 ^ 32)
    (hstride : fb.fbWidth.toNat * 4 ≤ fb.fbStride.toNat)
    (hcheck : checkWndWidthHeight fb w h = true) :
    (∀ o ∈ accesses fb w h, Inside fb o) ↔ Fits fb w h := by
  have hfb := accepted_of_map hmap hsize hstride
  rw [accesses_inside_iff_rowsFit hcheck, Fits]
  split
  · next hno =>
    have hp := placed_of_check hno hcheck
    rcases Nat.eq_zero_or_pos w.toNat with hw | hw
    · exact ⟨fun _ => Or.inl hw, fun _ => rowsFit_of_empty (Or.inl hw)⟩
    · rcases Nat.eq_zero_or_pos h.toNat with hh | hh
      · exact ⟨fun _ => Or.inr (Or.inl hh), fun _ => rowsFit_of_empty (Or.inr hh)⟩
      · rw [rowsFit_iff_lastRowFits hfb hp hno.rows hw hh, hfb.mapSize, LastRowFits]
        exact ⟨fun hlast => Or.inr (Or.inr hlast), fun hfits => by
          rcases hfits with hw0 | hh0 | hlast
          · exact absurd hw0 (Nat.ne_of_gt hw)
          · exact absurd hh0 (Nat.ne_of_gt hh)
          · exact hlast⟩
  · rfl

theorem fits_of_packed (hfb : Accepted fb) (hcheck : checkWndWidthHeight fb w h = true)
    (hstride : fb.fbStride.toNat = fb.fbWidth.toNat * 4) (hw : 9 * w.toNat < 2 ^ 32)
    (hh : 16 * h.toNat < 2 ^ 32) : Fits fb w h := by
  have hmap := fb.fbMapSize.toNat_lt
  rw [hfb.mapSize] at hmap
  have hbound : ∀ r ≤ fb.fbHeight.toNat,
      r * (fb.fbWidth.toNat * 4) ≤ fb.fbWidth.toNat * fb.fbHeight.toNat * 4 := by
    intro r hr
    calc r * (fb.fbWidth.toNat * 4) ≤ fb.fbHeight.toNat * (fb.fbWidth.toNat * 4) :=
          Nat.mul_le_mul_right _ hr
      _ = fb.fbWidth.toNat * fb.fbHeight.toNat * 4 := by
          rw [← Nat.mul_assoc, Nat.mul_comm fb.fbHeight.toNat]
  have hfitsY : 16 * h.toNat ≤ fb.fbHeight.toNat := by
    have hpx : (h * glyphHeight).toNat = 16 * h.toNat := by
      rw [UInt32.toNat_mul, show glyphHeight.toNat = 16 from rfl]
      omega
    simp only [checkWndWidthHeight, Bool.and_eq_true, Bool.not_eq_true', decide_eq_false_iff_not,
      gt_iff_lt, UInt32.not_lt, UInt32.le_iff_toNat_le] at hcheck
    have := hcheck.2
    omega
  have hno : NoOverflow fb w h := by
    refine ⟨hw, hh, ?_⟩
    rw [hstride]
    exact Nat.lt_of_le_of_lt (hbound _ (by omega)) hmap
  rw [Fits, if_pos hno]
  rcases Nat.eq_zero_or_pos h.toNat with hh0 | hpos
  · exact Or.inr (Or.inl hh0)
  · refine Or.inr (Or.inr ?_)
    have hp := placed_of_check hno hcheck
    have hfitsX := hp.fitsX
    have hlast := hbound ((fb.fbHeight.toNat - 16 * h.toNat) / 2 + 16 * h.toNat) hp.fitsY
    rw [LastRowFits, hstride]
    rw [show (fb.fbHeight.toNat - 16 * h.toNat) / 2 + 16 * h.toNat =
      (fb.fbHeight.toNat - 16 * h.toNat) / 2 + 16 * h.toNat - 1 + 1 by omega, Nat.add_mul] at hlast
    omega

end

/-- 1024 by 768, with rows that follow each other or have a gap. -/
def screen (fbStride : UInt32) : FrameBuffer := ⟨1024, 768, fbStride, 1024 * 768 * 4⟩

theorem screen_packed_inside :
    mapFrameBuffer 1024 768 0xE8000000 4096 = some (screen 4096) ∧
    checkWndWidthHeight (screen 4096) 80 25 = true ∧
    ∀ o ∈ accesses (screen 4096) 80 25, Inside (screen 4096) o := by
  have hfb : Accepted (screen 4096) := ⟨by decide, by decide, rfl, by decide⟩
  refine ⟨by decide, by decide, ?_⟩
  exact (accesses_inside_iff 1024 768 4096 0xE8000000 (by decide) (by decide) (by decide)
    (by decide)).mpr (fits_of_packed hfb (by decide) rfl (by decide) (by decide))

/-- With a gap, the last pixel of the window is saved from behind the mapping. -/
theorem screen_gap_outside :
    mapFrameBuffer 1024 768 0xE8000000 8192 = some (screen 8192) ∧
    (screen 8192).fbWidth.toNat * (screen 8192).fbHeight.toNat * 4 < 2 ^ 32 ∧
    (screen 8192).fbWidth.toNat * 4 ≤ (screen 8192).fbStride.toNat ∧
    checkWndWidthHeight (screen 8192) 80 25 = true ∧
    ¬ ∀ o ∈ accesses (screen 8192) 80 25, Inside (screen 8192) o := by
  refine ⟨by decide, by decide, by decide, by decide, fun hall => ?_⟩
  have hmem : lineStart (screen 8192) 80 25 399 + 4 * 719 ∈ accesses (screen 8192) 80 25 := by
    refine List.mem_append_right _ ?_
    rw [if_pos (by decide), savedOffsets]
    exact List.mem_flatMap.mpr ⟨399, List.mem_range.mpr (by decide),
      List.mem_map.mpr ⟨719, List.mem_range.mpr (by decide), rfl⟩⟩
  have hinside := inside_iff.mp (hall _ hmem)
  revert hinside
  decide

end BugChecker.Wnd
