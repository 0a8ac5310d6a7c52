import BugChecker.Wnd.HexNumbers

/-!
# The numbers in color

The numbers that were found are colored, and the one that was asked for is put
in the place of the word.
-/

namespace BugChecker.Wnd

open Stretches

/-- The cells of a number are colored, and its characters read. -/
def paintCells (color : UInt16) : List Nat → List UInt16 → Option (List UInt16 × List Char)
  | [], cells => some (cells, [])
  | i :: is, cells => do
    let cell ← cells[i]?
    let cell := (cell &&& 0xFF) ||| color
    let (cells, text) ← paintCells color is (cells.set i cell)
    return (cells, cellChar cell :: text)

def paintMatches (width : Nat) (index : Int) :
    Nat → List Match → List UInt16 → Option (List UInt16 × List Char)
  | _, [], cells => some (cells, [])
  | i, m :: ms, cells => do
    let selected := (i : Int) = index
    let (cells, text) ← paintCells (if selected then 0xCF00 else 0x4700)
      ((List.range' m.x0 (m.x1 + 1 - m.x0)).map (m.y * width + ·)) cells
    let (cells, retVal) ← paintMatches width index (i + 1) ms cells
    return (cells, if selected then text ++ retVal else retVal)

def upperHex (c : Char) : Char :=
  if 'a' ≤ c ∧ c ≤ 'f' then Char.ofNat (c.toNat - ('a'.toNat - 'A'.toNat)) else c

/-- The number of that index, how many there are, and the screen with the numbers colored. -/
def highlightHexNumber (fuel : Nat) (s : TextScreen) (pattern : List Char) (index : Int) :
    Option (List Char × Nat × List UInt16) := do
  if pattern = [] then return ([], 0, s.cells)
  let text := pattern.map upperHex
  if !text.all isHex then return ([], 0, s.cells)
  let st ← s.scanRows text fuel s.height 0 ⟨0, 0, 0, []⟩
  if st.found = [] then return ([], 0, s.cells)
  let (cells, retVal) ← paintMatches s.width index 0 st.found s.cells
  return ('0' :: 'x' :: retVal, st.found.length, cells)

-- ---------------------------------------------------------------------------
-- The colors
-- ---------------------------------------------------------------------------

theorem cellChar_color {color : UInt16} (hcolor : color.toNat % 256 = 0) (cell : UInt16) :
    cellChar ((cell &&& 0xFF) ||| color) = cellChar cell := by
  have hbyte : ((cell &&& 0xFF) ||| color).toNat % 2 ^ 8 = cell.toNat % 2 ^ 8 := by
    rw [UInt16.toNat_or, UInt16.toNat_and, Nat.or_mod_two_pow, hcolor, Nat.or_zero]
    rw [show (0xFF : UInt16).toNat = 2 ^ 8 - 1 from rfl, Nat.and_two_pow_sub_one_eq_mod,
      Nat.mod_mod]
  exact congrArg Char.ofNat hbyte

def charsAt (cells : List UInt16) (is : List Nat) : List Char :=
  is.filterMap ((cells.map cellChar)[·]?)

/-- The colors of some cells were changed, and nothing else. -/
structure Painted (is : List Nat) (cells cells' : List UInt16) : Prop where
  chars : cells'.map cellChar = cells.map cellChar
  others : ∀ k, k ∉ is → cells'[k]? = cells[k]?

theorem Painted.trans (h : Painted is cells cells') (h' : Painted is' cells' cells'') :
    Painted (is ++ is') cells cells'' where
  chars := h'.chars.trans h.chars
  others k hk := by
    rw [List.mem_append, not_or] at hk
    exact (h'.others k hk.2).trans (h.others k hk.1)

theorem Painted.length_eq (h : Painted is cells cells') : cells'.length = cells.length := by
  simpa using congrArg List.length h.chars

theorem paintCells_painted {color : UInt16} (hcolor : color.toNat % 256 = 0)
    (h : ∀ i ∈ is, i < cells.length) :
    ∃ cells', paintCells color is cells = some (cells', charsAt cells is) ∧
      Painted is cells cells' := by
  induction is generalizing cells with
  | nil => exact ⟨cells, rfl, rfl, fun k hk => rfl⟩
  | cons i is ih =>
    have hi : i < cells.length := h i List.mem_cons_self
    have hset : Painted [i] cells (cells.set i ((cells[i] &&& 0xFF) ||| color)) := by
      constructor
      · have hi' : i < (cells.map cellChar).length := by rwa [List.length_map]
        rw [List.map_set, cellChar_color hcolor]
        simpa using List.set_getElem_self hi'
      · intro k hk
        rw [List.mem_singleton] at hk
        exact List.getElem?_set_ne (Ne.symm hk)
    obtain ⟨cells', hcells', hpainted⟩ :=
      @ih (cells.set i ((cells[i] &&& 0xFF) ||| color))
        (by rw [hset.length_eq]; exact fun j hj => h j (List.mem_cons_of_mem i hj))
    refine ⟨cells', ?_, hset.trans hpainted⟩
    have hchars : charsAt cells (i :: is) = cellChar cells[i] :: charsAt cells is := by
      simp [charsAt, List.getElem?_eq_getElem hi]
    rw [paintCells, List.getElem?_eq_getElem hi, hchars]
    simp only [Option.bind_eq_bind, Option.bind_some, hcells', cellChar_color hcolor]
    rw [charsAt, hset.chars]
    rfl

/-- The number of an index, where the first one has the index `i`. -/
def picked (index : Int) (i : Nat) (ms : List Match) : Option Match :=
  if index < i then none else ms[(index - i).toNat]?

theorem picked_cons (index : Int) (i : Nat) (m : Match) (ms : List Match) :
    picked index i (m :: ms) = if (i : Int) = index then some m else picked index (i + 1) ms := by
  unfold picked
  rcases Int.lt_trichotomy index i with h | rfl | h
  · rw [if_pos h, if_neg (by omega), if_pos (by omega)]
  · simp
  · rw [if_neg (by omega), if_neg (by omega), if_neg (by omega),
      show (index - i).toNat = (index - (i + 1 : Nat)).toNat + 1 by omega, List.getElem?_cons_succ]

theorem picked_of_lt {i : Nat} (h : index < (i : Int)) (ms : List Match) :
    picked index i ms = none := if_pos h

theorem mem_of_picked {i : Nat} (h : picked index i ms = some m) : m ∈ ms := by
  unfold picked at h
  split at h
  · cases h
  · exact List.mem_of_getElem? h

section
variable {s : TextScreen} {text : List Char}

theorem paintMatches_painted (index : Int) (h : ∀ m ∈ ms, ∀ i ∈ s.places m, i < cells.length) :
    ∃ cells', paintMatches s.width index i ms cells =
        some (cells', ((picked index i ms).map fun m => charsAt cells (s.places m)).getD []) ∧
      Painted (ms.flatMap s.places) cells cells' := by
  induction ms generalizing i cells with
  | nil =>
    refine ⟨cells, ?_, rfl, fun k hk => rfl⟩
    unfold picked
    split <;> rfl
  | cons m ms ih =>
    have hcolor : (if (i : Int) = index then 0xCF00 else 0x4700 : UInt16).toNat % 256 = 0 := by
      split <;> rfl
    obtain ⟨cells₁, hcells₁, hpainted₁⟩ := paintCells_painted hcolor (h m List.mem_cons_self)
    obtain ⟨cells₂, hcells₂, hpainted₂⟩ := @ih (i + 1) cells₁
      (by rw [hpainted₁.length_eq]; exact fun m' hm' => h m' (List.mem_cons_of_mem m hm'))
    refine ⟨cells₂, ?_, hpainted₁.trans hpainted₂⟩
    rw [TextScreen.places] at hcells₁
    rw [paintMatches]
    simp only [Option.bind_eq_bind, hcells₁, Option.bind_some, hcells₂, picked_cons]
    by_cases hsel : (i : Int) = index
    · simp [hsel, picked_of_lt (show index < (i + 1 : Nat) by omega), TextScreen.places]
    · simp [hsel, charsAt, hpainted₁.chars]

theorem filterMap_range' (l : List α) (b a n : Nat) :
    (List.range' a n).filterMap (fun x => l[b + x]?) = (l.drop (b + a)).take n := by
  induction n generalizing a with
  | zero => rfl
  | succ n ih =>
    rw [List.range'_succ, List.filterMap_cons, ih]
    cases hx : l[b + a]? with
    | none =>
      rw [List.getElem?_eq_none_iff] at hx
      rw [List.drop_eq_nil_of_le hx, List.drop_eq_nil_of_le (by omega)]
      simp
    | some x =>
      obtain ⟨hlt, rfl⟩ := List.getElem?_eq_some_iff.mp hx
      rw [List.drop_eq_getElem_cons hlt]
      rfl

theorem TextScreen.IsNumber.places (h : s.IsNumber text m) :
    (∀ i ∈ s.places m, i < s.cells.length) ∧
      charsAt s.cells (s.places m) = ((s.row m.y).drop m.x0).take (m.x1 + 1 - m.x0) := by
  have hlt := holds_lt (h.digits m.x1 h.x0_le (Nat.le_refl _))
  rw [TextScreen.length_row h.y_lt] at hlt
  have hrow := TextScreen.row_le h.y_lt
  constructor
  · intro i hi
    rw [TextScreen.places, List.mem_map] at hi
    obtain ⟨x, hx, rfl⟩ := hi
    rw [List.mem_range'_1] at hx
    omega
  · have hle := h.x0_le
    have hrow : ((s.row m.y).drop m.x0).take (m.x1 + 1 - m.x0) =
        ((s.cells.map cellChar).drop (m.y * s.width + m.x0)).take (m.x1 + 1 - m.x0) := by
      rw [TextScreen.row, List.map_take, List.map_drop, List.drop_take, List.take_take,
        Nat.min_eq_left (by omega), List.drop_drop]
    rw [hrow, ← filterMap_range', TextScreen.places, charsAt, List.filterMap_map]
    rfl

/-- The number of the index as it is returned. -/
def TextScreen.pickedText (s : TextScreen) (index : Int) (ms : List Match) : List Char :=
  if ms = [] then []
  else '0' :: 'x' :: ((picked index 0 ms).map fun m =>
    ((s.row m.y).drop m.x0).take (m.x1 + 1 - m.x0)).getD []

theorem pickedText_of_getElem? {i : Nat} (h : ms[i]? = some m) :
    s.pickedText i ms = '0' :: 'x' :: ((s.row m.y).drop m.x0).take (m.x1 + 1 - m.x0) := by
  have hpicked : picked i 0 ms = some m := by simpa [picked] using h
  rw [TextScreen.pickedText, if_neg (List.ne_nil_of_mem (List.mem_of_getElem? h)), hpicked]
  rfl

theorem highlightHexNumber_eq (hpattern : pattern ≠ [])
    (hhex : ∀ c ∈ pattern, isHex (upperHex c) = true) (index : Int) (hfuel : s.scanFuel ≤ fuel) :
    ∃ cells, highlightHexNumber fuel s pattern index =
        some (s.pickedText index (s.numbers (pattern.map upperHex)),
          (s.numbers (pattern.map upperHex)).length, cells) ∧
      Painted ((s.numbers (pattern.map upperHex)).flatMap s.places) s.cells cells := by
  have htext : pattern.map upperHex ≠ [] := by simpa using hpattern
  obtain ⟨st, hst, hfound⟩ := TextScreen.scanRows_start htext hfuel
  rw [← hfound]
  have hall : (pattern.map upperHex).all isHex = true := by simpa using hhex
  have hplaces : ∀ m ∈ st.found, (∀ i ∈ s.places m, i < s.cells.length) ∧
      charsAt s.cells (s.places m) = ((s.row m.y).drop m.x0).take (m.x1 + 1 - m.x0) := by
    intro m hm
    rw [hfound, TextScreen.mem_numbers] at hm
    exact hm.places
  obtain ⟨cells, hcells, hpainted⟩ :=
    paintMatches_painted (i := 0) index fun m hm => (hplaces m hm).1
  have htexts : ((picked index 0 st.found).map fun m => charsAt s.cells (s.places m)) =
      (picked index 0 st.found).map fun m =>
        ((s.row m.y).drop m.x0).take (m.x1 + 1 - m.x0) := by
    cases hm : picked index 0 st.found with
    | none => rfl
    | some m => rw [Option.map_some, Option.map_some, (hplaces m (mem_of_picked hm)).2]
  have hrun : highlightHexNumber fuel s pattern index =
      if st.found = [] then some ([], 0, s.cells)
      else some ('0' :: 'x' :: ((picked index 0 st.found).map fun m =>
        charsAt s.cells (s.places m)).getD [], st.found.length, cells) := by
    unfold highlightHexNumber
    rw [if_neg hpattern]
    simp only [hall, Bool.not_true, Bool.false_eq_true, if_false, Option.bind_eq_bind, hst,
      Option.bind_some, hcells]
    rfl
  rw [hrun, TextScreen.pickedText, htexts]
  by_cases hnone : st.found = []
  · rw [if_pos hnone, if_pos hnone, hnone]
    exact ⟨s.cells, rfl, rfl, fun k hk => rfl⟩
  · rw [if_neg hnone, if_neg hnone]
    exact ⟨cells, rfl, hpainted⟩

/-- The longest rows of digits that a hexadecimal text is a proper part of are counted, each of them
once, and colored. The one of the index is what is returned. -/
theorem highlightHexNumber_numbers (s : TextScreen) (pattern : List Char) (hpattern : pattern ≠ [])
    (hhex : ∀ c ∈ pattern, isHex (upperHex c) = true) (index : Int) (hfuel : s.scanFuel ≤ fuel) :
    ∃ (numbers : List Match) (retVal : List Char) (cells : List UInt16),
      highlightHexNumber fuel s pattern index = some (retVal, numbers.length, cells) ∧
      (∀ m, m ∈ numbers ↔ s.IsNumber (pattern.map upperHex) m) ∧ numbers.Pairwise Match.Before ∧
      (∀ (i : Nat) (m : Match), index = i → numbers[i]? = some m →
        retVal = '0' :: 'x' :: ((s.row m.y).drop m.x0).take (m.x1 + 1 - m.x0)) ∧
      Painted (numbers.flatMap s.places) s.cells cells := by
  obtain ⟨cells, hrun, hpainted⟩ := highlightHexNumber_eq hpattern hhex index hfuel
  refine ⟨_, _, cells, hrun, fun m => TextScreen.mem_numbers, TextScreen.numbers_pairwise,
    ?_, hpainted⟩
  rintro i m rfl hm
  exact pickedText_of_getElem? hm

/-- A row on which the text is found by its second character only. -/
def twoNumbers : TextScreen where
  width := 8
  height := 1
  cells := ['A', 'A', 'A', 'B', ' ', 'A', 'A', 'B'].map fun c => UInt16.ofNat c.toNat
  length_cells := rfl

theorem twoNumbers_numbers :
    ∃ (numbers : List Match) (retVal : List Char) (cells : List UInt16),
      highlightHexNumber twoNumbers.scanFuel twoNumbers ['a', 'A', 'b'] 0 =
        some (retVal, numbers.length, cells) ∧
      (∀ m, m ∈ numbers ↔ twoNumbers.IsNumber ['A', 'A', 'B'] m) ∧ numbers.Pairwise Match.Before ∧
      (∀ (i : Nat) (m : Match), (0 : Int) = i → numbers[i]? = some m →
        retVal = '0' :: 'x' :: ((twoNumbers.row m.y).drop m.x0).take (m.x1 + 1 - m.x0)) ∧
      Painted (numbers.flatMap twoNumbers.places) twoNumbers.cells cells :=
  highlightHexNumber_numbers twoNumbers ['a', 'A',
    'b'] (by decide) (List.all_eq_true.mp (by decide)) 0 (Nat.le_refl _)

example : (highlightHexNumber twoNumbers.scanFuel twoNumbers ['a', 'A', 'b'] 0).map
    (fun r => (r.1, r.2.1)) = some (['0', 'x', 'A', 'A', 'A', 'B'], 1) := by decide

end

end BugChecker.Wnd
