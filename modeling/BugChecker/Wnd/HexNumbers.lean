import BugChecker.Lib.Stretches
import BugChecker.Wnd.Colors

/-!
# The numbers on the screen

`HighlightHexNumber` looks on the screen for the hexadecimal numbers that a
text is a part of. A text that is compared and found to differ is looked for
again one column further, and behind a number that was found the scan goes on
at its end.
-/

namespace BugChecker.Wnd

open Stretches

/-- The part of the back buffer that is on the screen: characters with their colors. -/
structure TextScreen where
  width : Nat
  height : Nat
  cells : List UInt16
  length_cells : cells.length = width * height

def cellChar (cell : UInt16) : Char := Char.ofNat (cell.toNat % 256)

structure Match where
  y : Nat
  x0 : Nat
  x1 : Nat
  deriving DecidableEq

/-- The order of the rows, and in a row from the left to the right. -/
def Match.Before (m m' : Match) : Prop := m.y < m'.y ∨ m.y = m'.y ∧ m.x1 < m'.x0

/-- The place of the scan, the characters of the text that were found before it, and the numbers. -/
structure Scan where
  x : Nat
  back : Int
  pos : Nat
  found : List Match

/-- The next place of the scan, after its place was moved by `scanCell`. -/
def Scan.next (st : Scan) : Scan := { st with x := st.x + 1, back := st.back + 1 }

/-- The scan is one column further, or the text is looked for further to the right. -/
def Scan.Progress (st st' : Scan) : Prop :=
  (st'.x - st'.pos = st.x - st.pos ∧ st.x < st'.x) ∨ st.x - st.pos < st'.x - st'.pos

/-- How many characters are left at most. Each column to the right of the start of the search may
be looked at once more for each of them. -/
def Scan.left (width : Nat) (st : Scan) : Nat :=
  (width - (st.x - st.pos)) * (width + 1) + (width - st.x)

theorem Scan.Progress.left_lt {st st' : Scan} (h : st.Progress st') (hx : st.x < width) :
    st'.left width < st.left width := by
  unfold Scan.left
  rcases h with ⟨hstart, hx'⟩ | hstart
  · rw [hstart]
    omega
  · have hle : (width - (st'.x - st'.pos)) + 1 ≤ width - (st.x - st.pos) := by omega
    have hmul := Nat.mul_le_mul_right (width + 1) hle
    rw [Nat.succ_mul] at hmul
    omega

namespace TextScreen

section
variable (s : TextScreen)

def read (i : Int) : Option Char := if i < 0 then none else s.cells[i.toNat]?.map cellChar

/-- The loop over `x2`, for as many columns as there are to the right. -/
def extendRight : Nat → Nat → Int → Option Nat
  | 0, x2, _ => some x2
  | n + 1, x2, back2 => do
    let c2 ← s.read back2
    if isHex c2 then extendRight n (x2 + 1) (back2 + 1) else return x2

/-- The loop over `x3`, for as many columns as there are to the left. -/
def extendLeft : Nat → Int → Int → Option Int
  | 0, x3, _ => some x3
  | n + 1, x3, back3 => do
    let c3 ← s.read back3
    if isHex c3 then extendLeft n (x3 - 1) (back3 - 1) else return x3

def scanCell (text : List Char) (y : Nat) (st : Scan) : Option Scan := do
  let c ← s.read st.back
  if !isHex c then return { st with pos := 0 }
  let st : Scan :=
    if text[st.pos]? = some c then { st with pos := st.pos + 1 }
    else { st with x := st.x - st.pos, back := st.back - st.pos, pos := 0 }
  if st.pos = text.length then
    let x2 ← s.extendRight (s.width - (st.x + 1)) (st.x + 1) (st.back + 1)
    let x3 ← s.extendLeft (st.x - text.length + 1 : Int).toNat (st.x - text.length)
      (st.back - text.length)
    if (x2 ≠ st.x + 1 ∨ x3 ≠ st.x - text.length) ∧ x3 + 1 ≥ 0 ∧ x2 - 1 < s.width then
      let diff := x2 - 1 - st.x
      return { x := st.x + diff, back := st.back + diff, pos := 0
               found := st.found ++ [⟨y, (x3 + 1).toNat, x2 - 1⟩] }
    return { st with pos := 0 }
  return st

def scanRow (text : List Char) (y : Nat) : Nat → Scan → Option Scan
  | 0, _ => none
  | fuel + 1, st =>
    if st.x < s.width then do
      let st ← if y + 3 = s.height then some st else s.scanCell text y st
      scanRow text y fuel { st with x := st.x + 1, back := st.back + 1 }
    else some st

def scanRows (text : List Char) (fuel : Nat) : Nat → Nat → Scan → Option Scan
  | 0, _, st => some st
  | n + 1, y, st => do
    let st ← s.scanRow text y fuel { st with x := 0, pos := 0 }
    scanRows text fuel n (y + 1) st

end

end TextScreen

-- ---------------------------------------------------------------------------
-- The numbers that the text is a part of
-- ---------------------------------------------------------------------------

namespace TextScreen

section
variable (s : TextScreen)

def row (y : Nat) : List Char := ((s.cells.drop (y * s.width)).take s.width).map cellChar

/-- The number that starts at a column of a row, when the text is a proper part of it. -/
def numberAt (text : List Char) (y x : Nat) : Option Match :=
  if starts isHex (s.row y) x = true ∧ text <:+: stretch isHex (s.row y) x ∧
      text.length < (stretch isHex (s.row y) x).length then
    some ⟨y, x, x + (stretch isHex (s.row y) x).length - 1⟩
  else none

/-- The numbers that start at a column of a row or behind it. -/
def numbersFrom (text : List Char) (y x : Nat) : List Match :=
  (List.range' x (s.width - x)).filterMap (s.numberAt text y)

def numbers (text : List Char) : List Match :=
  (List.range s.height).flatMap fun y => if y + 3 = s.height then [] else s.numbersFrom text y 0

/-- A longest row of digits, outside of the input line, that the text is a proper part of. -/
structure IsNumber (text : List Char) (m : Match) : Prop where
  y_lt : m.y < s.height
  not_input : m.y + 3 ≠ s.height
  x0_le : m.x0 ≤ m.x1
  digits : ∀ x, m.x0 ≤ x → x ≤ m.x1 → holds isHex (s.row m.y) x = true
  free_left : m.x0 = 0 ∨ holds isHex (s.row m.y) (m.x0 - 1) = false
  free_right : holds isHex (s.row m.y) (m.x1 + 1) = false
  within : text <:+: ((s.row m.y).drop m.x0).take (m.x1 + 1 - m.x0)
  longer : text.length < m.x1 + 1 - m.x0

def places (m : Match) : List Nat := (List.range' m.x0 (m.x1 + 1 - m.x0)).map (m.y * s.width + ·)

end

variable {s : TextScreen} {text : List Char}

theorem row_le (hy : y < s.height) : y * s.width + s.width ≤ s.cells.length := by
  rw [s.length_cells, ← Nat.succ_mul, Nat.mul_comm]
  exact Nat.mul_le_mul_left _ hy

@[simp] theorem length_row (hy : y < s.height) : (s.row y).length = s.width := by
  have := row_le hy
  simp only [row, List.length_map, List.length_take, List.length_drop]
  omega

theorem read_row (hx : x < s.width) (i : Int) (hi : i = (y * s.width + x : Nat)) :
    s.read i = (s.row y)[x]? := by
  subst hi
  rw [read, if_neg (by omega), Int.toNat_natCast, row, List.getElem?_map,
    List.getElem?_take_of_lt hx, List.getElem?_drop]

theorem holds_row (hy : y < s.height) (hx : x < s.width) :
    ∃ c, (s.row y)[x]? = some c ∧ holds isHex (s.row y) x = isHex c := by
  have hlt : x < (s.row y).length := by rwa [length_row hy]
  exact ⟨_, List.getElem?_eq_getElem hlt,
    by rw [holds, List.getElem?_eq_getElem hlt, Option.any_some]⟩

theorem not_holds_width (hy : y < s.height) (hx : s.width ≤ x) :
    holds isHex (s.row y) x = false := by
  rw [holds, List.getElem?_eq_none (by rwa [length_row hy]), Option.any_none]

theorem numberAt_eq (hy : y < s.height)
    (hfree : a = 0 ∨ holds isHex (s.row y) (a - 1) = false ∨ holds isHex (s.row y) a = false)
    (hab : a ≤ b) (hb : b ≤ s.width)
    (hall : ∀ i, a ≤ i → i < b → holds isHex (s.row y) i = true)
    (hend : holds isHex (s.row y) b = false) :
    s.numberAt text y a =
      if text <:+: ((s.row y).drop a).take (b - a) ∧ text.length < b - a then some ⟨y, a, b - 1⟩
      else none := by
  have hlen : (((s.row y).drop a).take (b - a)).length = b - a := by
    rw [List.length_take, List.length_drop, length_row hy]
    omega
  rw [numberAt, stretch_eq hab hall hend, hlen]
  rcases Nat.eq_or_lt_of_le hab with rfl | hlt
  · simp
  · have hstarts : starts isHex (s.row y) a = true := by
      have ha := hall a (Nat.le_refl a) hlt
      rcases hfree with rfl | hfree | hfree
      · simp [starts, ha]
      · simp [starts, ha, hfree]
      · rw [ha] at hfree
        cases hfree
    rw [show a + (b - a) - 1 = b - 1 by omega]
    simp only [hstarts, true_and]

theorem numberAt_of_not (h : starts isHex (s.row y) a = false) : s.numberAt text y a = none := by
  simp [numberAt, h]

theorem numbersFrom_eq (hab : a ≤ b) (hb : b ≤ s.width)
    (hall : ∀ i, a ≤ i → i < b → holds isHex (s.row y) i = true)
    (hend : holds isHex (s.row y) b = false) :
    s.numbersFrom text y a = (s.numberAt text y a).toList ++ s.numbersFrom text y b := by
  rcases Nat.eq_or_lt_of_le hab with rfl | hlt
  · rw [numberAt_of_not (by simp [starts, hend]), Option.toList_none, List.nil_append]
  · have hinner : (List.range' (a + 1) (b - (a + 1))).filterMap (s.numberAt text y) = [] := by
      rw [List.filterMap_eq_nil_iff]
      intro i hi
      rw [List.mem_range'_1] at hi
      obtain ⟨j, rfl⟩ := Nat.exists_eq_add_of_lt hi.1
      exact numberAt_of_not (starts_eq_false (hall (a + j) (by omega) (by omega)))
    have hsplit : List.range' a (s.width - a) =
        a :: (List.range' (a + 1) (b - (a + 1)) ++ List.range' b (s.width - b)) := by
      rw [show s.width - a = s.width - (a + 1) + 1 by omega, List.range'_succ]
      congr 1
      rw [show s.width - (a + 1) = (b - (a + 1)) + (s.width - b) by omega]
      conv_rhs => rw [show b = a + 1 + (b - (a + 1)) by omega]
      rw [← List.range'_append_1]
      congr 2 <;> omega
    rw [numbersFrom, hsplit, List.filterMap_cons, List.filterMap_append, hinner, List.nil_append]
    cases s.numberAt text y a <;> rfl

theorem numbersFrom_succ (h : holds isHex (s.row y) b = false) (hb : b < s.width) :
    s.numbersFrom text y b = s.numbersFrom text y (b + 1) := by
  rw [numbersFrom, show s.width - b = s.width - (b + 1) + 1 by omega, List.range'_succ,
    List.filterMap_cons_none (numberAt_of_not (by simp [starts, h]))]
  rfl

theorem numbersFrom_width (h : s.width ≤ b) : s.numbersFrom text y b = [] := by
  rw [numbersFrom, Nat.sub_eq_zero_of_le h]
  rfl

theorem numberAt_eq_some_iff (hy : y < s.height) (hrow : y + 3 ≠ s.height) :
    s.numberAt text y x = some m ↔ m.y = y ∧ m.x0 = x ∧ s.IsNumber text m := by
  constructor
  · intro h
    have hcond : starts isHex (s.row y) x = true := by
      cases hs : starts isHex (s.row y) x with
      | true => rfl
      | false => rw [numberAt_of_not hs] at h; cases h
    rw [starts, Bool.and_eq_true, Bool.or_eq_true, beq_iff_eq, Bool.not_eq_true'] at hcond
    obtain ⟨hx, hfree⟩ := hcond
    have hlt := holds_lt hx
    obtain ⟨b, hxb, hb, hall, hend⟩ := exists_end (p := isHex) (Nat.le_of_lt hlt)
    have hne : x ≠ b := by
      rintro rfl
      rw [hx] at hend
      cases hend
    rw [length_row hy] at hb
    rw [numberAt_eq hy (by tauto) hxb hb hall hend] at h
    split at h
    · next hcond =>
      cases h
      refine ⟨rfl, rfl, hy, hrow, by dsimp only; omega, fun i hi hi' => ?_, hfree, ?_, ?_, ?_⟩
      · exact hall i hi (by dsimp only at hi'; omega)
      all_goals dsimp only; rw [Nat.sub_add_cancel (by omega)]
      · exact hend
      · exact hcond.1
      · exact hcond.2
    · cases h
  · rintro ⟨rfl, rfl, h⟩
    have hle := h.x0_le
    have hlt := holds_lt (h.digits m.x1 hle (Nat.le_refl _))
    rw [length_row hy] at hlt
    rw [numberAt_eq hy (by have := h.free_left; tauto) (Nat.le_succ_of_le hle) hlt
      (fun i hi hi' => h.digits i hi (Nat.le_of_lt_succ hi')) h.free_right,
        if_pos ⟨h.within, h.longer⟩]
    rfl

theorem mem_numbers : m ∈ s.numbers text ↔ s.IsNumber text m := by
  simp only [numbers, List.mem_flatMap, List.mem_range]
  constructor
  · rintro ⟨y, hy, hm⟩
    by_cases hrow : y + 3 = s.height
    · rw [if_pos hrow] at hm
      cases hm
    · rw [if_neg hrow, numbersFrom, List.mem_filterMap] at hm
      obtain ⟨x, -, hx⟩ := hm
      exact ((numberAt_eq_some_iff hy hrow).mp hx).2.2
  · intro h
    refine ⟨m.y, h.y_lt, ?_⟩
    rw [if_neg h.not_input, numbersFrom, List.mem_filterMap]
    refine ⟨m.x0, ?_, (numberAt_eq_some_iff h.y_lt h.not_input).mpr ⟨rfl, rfl, h⟩⟩
    have hlt := holds_lt (h.digits m.x0 (Nat.le_refl _) h.x0_le)
    rw [length_row h.y_lt] at hlt
    rw [List.mem_range'_1]
    omega

theorem numbers_pairwise : (s.numbers text).Pairwise Match.Before := by
  have hfrom {y : Nat} {m : Match} (hy : y < s.height)
      (hm : m ∈ if y + 3 = s.height then [] else s.numbersFrom text y 0) :
      y + 3 ≠ s.height ∧ m.y = y := by
    by_cases hrow : y + 3 = s.height
    · rw [if_pos hrow] at hm
      cases hm
    · rw [if_neg hrow, numbersFrom, List.mem_filterMap] at hm
      obtain ⟨x, -, hx⟩ := hm
      exact ⟨hrow, ((numberAt_eq_some_iff hy hrow).mp hx).1⟩
  rw [numbers, List.pairwise_flatMap]
  constructor
  · intro y hy
    rw [List.mem_range] at hy
    by_cases hrow : y + 3 = s.height
    · rw [if_pos hrow]
      exact .nil
    · rw [if_neg hrow, numbersFrom, List.pairwise_filterMap]
      refine List.Pairwise.imp ?_ (List.pairwise_lt_range' 1)
      intro x x' hlt m hm m' hm'
      obtain ⟨hmy, rfl, hnumber⟩ := (numberAt_eq_some_iff hy hrow).mp hm
      obtain ⟨hmy', rfl, hnumber'⟩ := (numberAt_eq_some_iff hy hrow).mp hm'
      refine .inr ⟨hmy.trans hmy'.symm, Nat.lt_of_not_le fun hle => ?_⟩
      -- the second number would start in the first one
      have hdigit := hnumber.digits (m'.x0 - 1) (by omega) (by omega)
      rcases hnumber'.free_left with hfree | hfree
      · omega
      · rw [hmy, ← hmy', hfree] at hdigit
        cases hdigit
  · refine List.pairwise_lt_range.imp_of_mem fun {y y'} hy hy' hlt m hm m' hm' => ?_
    rw [List.mem_range] at hy hy'
    exact .inl (by rw [(hfrom hy hm).2, (hfrom hy' hm').2]; exact hlt)

-- ---------------------------------------------------------------------------
-- The scan
-- ---------------------------------------------------------------------------

theorem extendRight_eq (hy : y < s.height) (hxb : x ≤ b) (hb : b ≤ s.width)
    (hall : ∀ i, x ≤ i → i < b → holds isHex (s.row y) i = true)
    (hend : holds isHex (s.row y) b = false) :
    s.extendRight (s.width - x) x (y * s.width + x : Nat) = some b := by
  induction hn : s.width - x generalizing x with
  | zero => simp [extendRight, show x = b by omega]
  | succ n ih =>
    have hx : x < s.width := by omega
    obtain ⟨c, hc, hhex⟩ := holds_row hy hx
    rw [extendRight, read_row hx _ rfl, hc]
    rcases Nat.eq_or_lt_of_le hxb with rfl | hlt
    · simp [← hhex, hend]
    · have ih := ih (x := x + 1) (by omega) (fun i hi hi' => hall i (by omega) hi') (by omega)
      simpa [← hhex, hall x (Nat.le_refl x) hlt, Nat.add_assoc, Int.add_assoc] using ih

theorem extendLeft_eq (hy : y < s.height) (hx : x ≤ s.width) (ha : a ≤ x)
    (hfree : a = 0 ∨ holds isHex (s.row y) (a - 1) = false)
    (hall : ∀ i, a ≤ i → i < x → holds isHex (s.row y) i = true) :
    s.extendLeft x (x - 1) (y * s.width + x - 1) = some ((a : Int) - 1) := by
  induction x with
  | zero =>
    obtain rfl : a = 0 := by omega
    rfl
  | succ x ih =>
    obtain ⟨c, hc, hhex⟩ := holds_row hy (show x < s.width by omega)
    rw [extendLeft, read_row (y := y) (x := x) (by omega) _ (by push_cast; omega), hc]
    rcases Nat.eq_or_lt_of_le ha with rfl | hlt
    · have hnot : isHex c = false := by
        rw [← hhex]
        simpa using hfree
      simp [hnot]
    · have hdigit : isHex c = true := by rw [← hhex]; exact hall x (by omega) (by omega)
      have ih := ih (by omega) (by omega) (fun i hi hi' => hall i hi (by omega))
      simp only [hdigit, if_true, Option.bind_eq_bind, Option.bind_some]
      rw [← ih]
      congr 1 <;> push_cast <;> omega

/-- What is known while a row is scanned. All numbers that start in front of `a` were found, and
since `a` there are only digits; the text may start where the search has begun. -/
structure Searching (s : TextScreen) (text : List Char) (y a : Nat) (st : Scan) : Prop where
  pos_le : st.pos ≤ st.x
  x_le : st.x ≤ s.width
  back_eq : st.back = (y * s.width + st.x : Nat)
  pos_lt : st.pos < text.length
  start_le : a ≤ st.x - st.pos
  free : a = 0 ∨ holds isHex (s.row y) (a - 1) = false ∨ holds isHex (s.row y) a = false
  digits : ∀ i, a ≤ i → i < st.x → holds isHex (s.row y) i = true
  begun : text.take st.pos <+: (s.row y).drop (st.x - st.pos)
  absent : ∀ t, a ≤ t → t < st.x - st.pos → ¬ text <+: (s.row y).drop t

theorem Searching.numbersFrom_eq (h : s.Searching text y a st) (hy : y < s.height)
    (hend : holds isHex (s.row y) st.x = false) :
    s.numbersFrom text y a = s.numbersFrom text y st.x := by
  have hax : a ≤ st.x := Nat.le_trans h.start_le (Nat.sub_le _ _)
  have hnone : s.numberAt text y a = none := by
    rw [numberAt_eq hy h.free hax h.x_le h.digits hend, if_neg]
    rintro ⟨hin, -⟩
    obtain ⟨t, hat, hlen, hpre⟩ :=
      (infix_take_drop_iff hax (by rw [length_row hy]; exact h.x_le) text).mp hin
    have hpos := h.pos_lt
    have hpos' := h.pos_le
    exact h.absent t hat (by omega) hpre
  rw [TextScreen.numbersFrom_eq hax h.x_le h.digits hend, hnone]
  rfl

theorem searching_at {st : Scan} (hx : x ≤ s.width) (hback : st.back = (y * s.width + st.x : Nat))
    (hstx : st.x = x) (hpos : st.pos = 0) (htext : 0 < text.length)
    (hfree : x = 0 ∨ holds isHex (s.row y) (x - 1) = false ∨ holds isHex (s.row y) x = false) :
    s.Searching text y x st := by
  subst hstx
  exact {
    pos_le := by omega
    x_le := hx
    back_eq := hback
    pos_lt := by omega
    start_le := by omega
    free := hfree
    digits := fun i hi hi' => by omega
    begun := by rw [hpos, List.take_zero]; exact List.nil_prefix
    absent := fun t ht ht' => by omega }

/-- What one character does for the rest of the row. -/
structure Stepped (s : TextScreen) (text : List Char) (y a : Nat) (st st' : Scan) : Prop where
  searching : ∃ a', s.Searching text y a' st' ∧
    st'.found ++ s.numbersFrom text y a' = st.found ++ s.numbersFrom text y a
  progress : Scan.Progress st st'

/-- The whole text was found: the number that it is a part of is taken, unless it is the text. -/
theorem scanCell_whole (h : s.Searching text y a st) (hy : y < s.height) (hx : st.x < s.width)
    (hc : (s.row y)[st.x]? = some c) (hdigit : isHex c = true) (hsame : text[st.pos]? = some c)
    (hlen : st.pos + 1 = text.length) :
    ∃ st', s.scanCell text y st = some st' ∧ s.Stepped text y a st st'.next := by
  have htext : 0 < text.length := Nat.lt_of_le_of_lt (Nat.zero_le _) h.pos_lt
  have hpos_le := h.pos_le
  have hback := h.back_eq
  have hstart := h.start_le
  have hx_digit : holds isHex (s.row y) st.x = true := by rw [holds, hc, Option.any_some, hdigit]
  obtain ⟨b, hxb, hb, hright, hend⟩ :=
    @exists_end _ isHex (s.row y) (st.x + 1) (by rw [length_row hy]; exact hx)
  rw [length_row hy] at hb
  have hall : ∀ i, a ≤ i → i < b → holds isHex (s.row y) i = true := by
    intro i hi hi'
    rcases Nat.lt_trichotomy i st.x with hi'' | rfl | hi''
    · exact h.digits i hi hi''
    · exact hx_digit
    · exact hright i hi'' hi'
  -- the number does not go on to the left of where the search has begun
  have hfree : a = 0 ∨ holds isHex (s.row y) (a - 1) = false := by
    rcases h.free with hfree | hfree | hfree
    · exact .inl hfree
    · exact .inr hfree
    · rw [hall a (Nat.le_refl a) (by omega)] at hfree
      cases hfree
  have hr : s.extendRight (s.width - (st.x + 1)) (st.x + 1) (st.back + 1) = some b := by
    rw [← extendRight_eq hy hxb hb hright hend]
    congr 1
    omega
  have hl : s.extendLeft (st.x - text.length + 1 : Int).toNat (st.x - text.length)
      (st.back - text.length) = some ((a : Int) - 1) := by
    rw [← extendLeft_eq (x := st.x - st.pos) hy (by omega) hstart hfree
      (fun i hi hi' => h.digits i hi (by omega))]
    congr 1 <;> omega
  have hfound : s.numberAt text y a =
      if text.length < b - a then some ⟨y, a, b - 1⟩ else none := by
    rw [numberAt_eq hy h.free (by omega) hb hall hend]
    have hin : text <:+: ((s.row y).drop a).take (b - a) := by
      refine (infix_take_drop_iff (by omega) (by rwa [length_row hy]) text).mpr
        ⟨st.x - st.pos, hstart, by omega, ?_⟩
      have hwhole : text.take (st.pos + 1) <+: (s.row y).drop (st.x - st.pos) := by
        refine take_succ_prefix h.begun hsame ?_
        rw [List.getElem?_drop, Nat.sub_add_cancel hpos_le, hc]
      rwa [hlen, List.take_length] at hwhole
    simp only [hin, true_and]
  have hnumbers : s.numbersFrom text y a = _ := numbersFrom_eq (show a ≤ b by omega) hb hall hend
  rw [hfound] at hnumbers
  have hscan : s.scanCell text y st =
      if (b ≠ st.x + 1 ∨ (a : Int) - 1 ≠ st.x - text.length) ∧ (a : Int) - 1 + 1 ≥ 0 ∧
          b - 1 < s.width then
        pure { x := st.x + (b - 1 - st.x), back := st.back + (b - 1 - st.x : Nat), pos := 0
               found := st.found ++ [⟨y, ((a : Int) - 1 + 1).toNat, b - 1⟩] }
      else pure { st with pos := 0 } := by
    simp only [scanCell, read_row hx _ hback, hc, hdigit, hsame, hlen, hr, hl, Option.bind_eq_bind,
      Option.bind_some, Bool.not_true, Bool.false_eq_true, if_false, if_true]
  by_cases hlong : text.length < b - a
  · refine ⟨{ x := b - 1, back := (y * s.width + (b - 1) : Nat), pos := 0
              found := st.found ++ [⟨y, a, b - 1⟩] }, ?_, ⟨b, ?_, ?_⟩, ?_⟩
    · have hcond : (b ≠ st.x + 1 ∨ (a : Int) - 1 ≠ st.x - text.length) ∧ (a : Int) - 1 + 1 ≥ 0 ∧
          b - 1 < s.width := by omega
      rw [hscan, if_pos hcond]
      simp only [Option.pure_def, Option.some.injEq, Scan.mk.injEq, List.append_cancel_left_eq,
        List.cons.injEq, Match.mk.injEq, true_and, and_true]
      omega
    · refine searching_at hb ?_ ?_ rfl htext (.inr (.inr hend)) <;>
        simp only [Scan.next] <;> omega
    · rw [hnumbers, if_pos hlong]
      simp [Scan.next]
    · exact .inr (by simp only [Scan.next]; omega)
  · refine ⟨{ st with pos := 0 }, ?_, ⟨b, ?_, ?_⟩, ?_⟩
    · rw [hscan, if_neg (by omega)]
      rfl
    · refine searching_at hb ?_ ?_ rfl htext (.inr (.inr hend)) <;>
        simp only [Scan.next] <;> omega
    · rw [hnumbers, if_neg hlong]
      rfl
    · exact .inr (by simp only [Scan.next]; omega)

theorem scanCell_stepped (h : s.Searching text y a st) (hy : y < s.height) (hx : st.x < s.width) :
    ∃ st', s.scanCell text y st = some st' ∧ s.Stepped text y a st st'.next := by
  obtain ⟨c, hc, hhex⟩ := holds_row hy hx
  have htext : 0 < text.length := Nat.lt_of_le_of_lt (Nat.zero_le _) h.pos_lt
  have hpos_le := h.pos_le
  have hpos_lt := h.pos_lt
  have hback := h.back_eq
  have hstart := h.start_le
  have hcell := read_row hx _ hback
  have hdrop : ((s.row y).drop (st.x - st.pos))[st.pos]? = some c := by
    rw [List.getElem?_drop, Nat.sub_add_cancel hpos_le, hc]
  cases hdigit : isHex c with
  | false =>
    rw [hdigit] at hhex
    refine ⟨{ st with pos := 0 }, ?_, ⟨st.x + 1, ?_, ?_⟩, ?_⟩
    · simp [scanCell, hcell, hc, hdigit]
    · refine searching_at (by omega) ?_ rfl rfl htext (.inr (.inl hhex))
      simp only [Scan.next]
      omega
    · rw [h.numbersFrom_eq hy hhex, numbersFrom_succ hhex hx]
      rfl
    · exact .inr (by simp only [Scan.next]; omega)
  | true =>
    rw [hdigit] at hhex
    have hdigits : ∀ i, a ≤ i → i < st.x + 1 → holds isHex (s.row y) i = true := by
      intro i hi hi'
      rcases Nat.lt_succ_iff_lt_or_eq.mp hi' with hi' | rfl
      · exact h.digits i hi hi'
      · exact hhex
    by_cases hsame : text[st.pos]? = some c
    · by_cases hlen : st.pos + 1 = text.length
      · exact scanCell_whole h hy hx hc hdigit hsame hlen
      · -- one more character of the text
        refine ⟨{ st with pos := st.pos + 1 }, ?_, ⟨a, ?_, rfl⟩, ?_⟩
        · simp [scanCell, hcell, hc, hdigit, hsame, hlen]
        · exact {
            pos_le := by simp only [Scan.next]; omega
            x_le := hx
            back_eq := by simp only [Scan.next]; omega
            pos_lt := by simp only [Scan.next]; omega
            start_le := by simp only [Scan.next]; omega
            free := h.free
            digits := hdigits
            begun := by
              simp only [Scan.next, Nat.add_sub_add_right]
              exact take_succ_prefix h.begun hsame hdrop
            absent := by
              simp only [Scan.next, Nat.add_sub_add_right]
              exact h.absent }
        · exact .inl (by simp only [Scan.next]; omega)
    · -- the text is looked for again one column further than before
      refine ⟨{ st with x := st.x - st.pos, back := st.back - st.pos, pos := 0 }, ?_,
        ⟨a, ?_, rfl⟩, ?_⟩
      · simp [scanCell, hcell, hc, hdigit, hsame, Nat.ne_of_lt htext]
      · exact {
          pos_le := Nat.zero_le _
          x_le := by simp only [Scan.next]; omega
          back_eq := by simp only [Scan.next]; omega
          pos_lt := htext
          start_le := by simp only [Scan.next]; omega
          free := h.free
          digits := fun i hi hi' => hdigits i hi (by simp only [Scan.next] at hi'; omega)
          begun := by rw [Scan.next, List.take_zero]; exact List.nil_prefix
          absent := by
            intro t ht ht' hpre
            rcases Nat.lt_succ_iff_lt_or_eq.mp ht' with ht' | rfl
            · exact h.absent t ht ht' hpre
            · obtain ⟨r, hr⟩ := hpre
              rw [← hr, List.getElem?_append_left hpos_lt] at hdrop
              exact hsame hdrop }
      · exact .inr (by simp only [Scan.next]; omega)

theorem scanRow_searching (h : s.Searching text y a st) (hy : y < s.height)
    (hrow : y + 3 ≠ s.height) (hfuel : st.left s.width < fuel) :
    ∃ st', s.scanRow text y fuel st = some st' ∧ st'.back = (y * s.width + s.width : Nat) ∧
      st'.found = st.found ++ s.numbersFrom text y a := by
  induction fuel generalizing a st with
  | zero => omega
  | succ fuel ih =>
    rw [scanRow]
    by_cases hx : st.x < s.width
    · obtain ⟨st', hst', ⟨a', ha', hfound⟩, hprogress⟩ := scanCell_stepped h hy hx
      obtain ⟨last, hlast, hback, hfound'⟩ :=
        ih ha' (by have := hprogress.left_lt hx; omega)
      rw [if_pos hx, if_neg hrow, hst']
      exact ⟨last, hlast, hback, hfound'.trans hfound⟩
    · obtain hend : st.x = s.width := Nat.le_antisymm h.x_le (by omega)
      refine ⟨st, if_neg hx, by rw [h.back_eq, hend], ?_⟩
      rw [h.numbersFrom_eq hy (not_holds_width hy (by omega)), numbersFrom_width (by omega),
        List.append_nil]

theorem scanRow_skipped (hrow : y + 3 = s.height) (hx : st.x ≤ s.width)
    (hfuel : s.width - st.x < fuel) :
    s.scanRow text y fuel st =
      some { st with x := s.width, back := st.back + (s.width - st.x : Nat) } := by
  induction fuel generalizing st with
  | zero => omega
  | succ fuel ih =>
    rw [scanRow]
    rcases Nat.eq_or_lt_of_le hx with hx | hx
    · rw [if_neg (by omega), ← hx]
      simp
    · have hrest := ih (show st.next.x ≤ s.width from hx)
        (show s.width - st.next.x < fuel by simp only [Scan.next]; omega)
      rw [if_pos hx, if_pos hrow]
      refine hrest.trans ?_
      simp only [Scan.next, Option.some.injEq, Scan.mk.injEq, true_and, and_true]
      omega

def scanFuel (s : TextScreen) : Nat := (s.width + 1) * (s.width + 1)

theorem scanRows_numbers (htext : text ≠ []) (hfuel : s.scanFuel ≤ fuel) (hn : y + n = s.height)
    {st : Scan} (hback : st.back = (y * s.width : Nat)) :
    ∃ st', s.scanRows text fuel n y st = some st' ∧
      st'.found = st.found ++ (List.range' y n).flatMap fun y =>
        if y + 3 = s.height then [] else s.numbersFrom text y 0 := by
  induction n generalizing y st with
  | zero => exact ⟨st, rfl, by simp⟩
  | succ n ih =>
    have hfuel' : (s.width + 1) * s.width + (s.width + 1) ≤ fuel := hfuel
    have hrow : ∃ st', s.scanRow text y fuel { st with x := 0, pos := 0 } = some st' ∧
        st'.back = (y * s.width + s.width : Nat) ∧
        st'.found = st.found ++ if y + 3 = s.height then [] else s.numbersFrom text y 0 := by
      by_cases hskip : y + 3 = s.height
      · refine ⟨_, scanRow_skipped hskip (Nat.zero_le _) (by dsimp only; omega), ?_, ?_⟩
        · dsimp only
          omega
        · rw [if_pos hskip, List.append_nil]
      · rw [if_neg hskip]
        have hstart : s.Searching text y 0 { st with x := 0, pos := 0 } :=
          searching_at (Nat.zero_le _) hback rfl rfl (List.length_pos_of_ne_nil htext) (.inl rfl)
        exact scanRow_searching hstart (by omega) hskip
          (by rw [Scan.left]; dsimp only; rw [Nat.sub_zero, Nat.mul_comm]; omega)
    obtain ⟨st', hst', hback', hfound'⟩ := hrow
    obtain ⟨last, hlast, hfound⟩ := ih (y := y + 1) (by omega) (hback'.trans (by rw [Nat.succ_mul]))
    refine ⟨last, by rw [scanRows, hst']; exact hlast, ?_⟩
    rw [hfound, hfound', List.range'_succ, List.flatMap_cons, List.append_assoc]

theorem scanRows_start (htext : text ≠ []) (hfuel : s.scanFuel ≤ fuel) :
    ∃ st', s.scanRows text fuel s.height 0 ⟨0, 0, 0, []⟩ = some st' ∧
      st'.found = s.numbers text := by
  obtain ⟨st', hst', hfound⟩ :=
    scanRows_numbers htext hfuel (Nat.zero_add s.height)
      (show (⟨0, 0, 0, []⟩ : Scan).back = _ by simp)
  exact ⟨st', hst', by rw [hfound, List.nil_append, numbers, List.range_eq_range']⟩

end TextScreen

end BugChecker.Wnd
