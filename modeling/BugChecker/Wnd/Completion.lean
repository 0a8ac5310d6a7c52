import BugChecker.Wnd.HexColors

/-!
# The words that complete

TAB completes a word with the numbers on the screen, and then with the names of
the symbols that contain it, in upper or lower case.
-/

namespace BugChecker.Wnd

/-- What there is to complete from. -/
structure Sources where
  screen : TextScreen
  names : List (List Char)

def toLower (c : Char) : Char :=
  if 'A' ≤ c ∧ c ≤ 'Z' then Char.ofNat (c.toNat - 'A'.toNat + 'a'.toNat) else c

/-- Two texts are the same up to the case, over a number of characters. -/
def memicmp (first last : List Char) (count : Nat) : Bool :=
  (first.take count).map toLower == (last.take count).map toLower

def stristr (string strCharSet : List Char) : Bool :=
  decide (strCharSet.length ≤ string.length) &&
    (List.range (string.length - strCharSet.length + 1)).any fun i =>
      memicmp (string.drop i) strCharSet strCharSet.length

def completes (t name : List Char) : Bool := ' ' ∉ name && stristr name t

/-- The callback of `EnumPublics`. -/
def enumName (t : List Char) (index : Int) (st : List Char × Int) (name : List Char) :
    List Char × Int :=
  if ' ' ∈ name then st
  else if stristr name t then (if index = st.2 then name else st.1, st.2 + 1)
  else st

namespace Sources

section
variable (sources : Sources)

def complete (t : List Char) (index : Int) : List Char × Int :=
  match highlightHexNumber sources.screen.scanFuel sources.screen t index with
  | some (r, numOfItems, _) => sources.names.foldl (enumName t index) (r, numOfItems)
  | none => ([], 0)

def numbers (t : List Char) : List (List Char) :=
  if t ≠ [] ∧ (t.map upperHex).all isHex = true then
    (sources.screen.numbers (t.map upperHex)).map fun m =>
      '0' :: 'x' :: ((sources.screen.row m.y).drop m.x0).take (m.x1 + 1 - m.x0)
  else []

def words (t : List Char) : List (List Char) :=
  sources.numbers t ++ sources.names.filter (completes t)

end

variable {sources : Sources} {t : List Char}

theorem stristr_length (h : stristr string t = true) : t.length ≤ string.length := by
  rw [stristr, Bool.and_eq_true, decide_eq_true_eq] at h
  exact h.1

theorem length_le_words (h : word ∈ sources.words t) : t.length ≤ word.length := by
  rw [words, List.mem_append, List.mem_filter] at h
  rcases h with h | ⟨-, h⟩
  · unfold numbers at h
    split at h
    · obtain ⟨m, hm, rfl⟩ := List.mem_map.mp h
      have hnumber := TextScreen.mem_numbers.mp hm
      have hlen := hnumber.longer
      have hlt := Stretches.holds_lt (hnumber.digits m.x1 hnumber.x0_le (Nat.le_refl _))
      rw [List.length_map] at hlen
      simp only [List.length_cons, List.length_take, List.length_drop]
      omega
    · cases h
  · rw [completes, Bool.and_eq_true] at h
    exact stristr_length h.2

theorem foldl_enumName (t : List Char) (index : Int) (names : List (List Char)) (r : List Char)
    (n : Nat) :
    names.foldl (enumName t index) (r, n) =
      (if index < n then r else ((names.filter (completes t))[(index - n).toNat]?).getD r,
        ((n + (names.filter (completes t)).length : Nat) : Int)) := by
  induction names generalizing r n with
  | nil => simp
  | cons name names ih =>
    rw [List.foldl_cons]
    by_cases hname : completes t name = true
    · rw [List.filter_cons_of_pos hname]
      rw [completes, Bool.and_eq_true, decide_eq_true_eq] at hname
      have hstep : enumName t index (r, n) name = (if index = n then name
          else r, ((n + 1 : Nat) : Int)) := by
        rw [enumName, if_neg hname.1, if_pos hname.2]
        rfl
      rw [hstep, ih, List.length_cons]
      refine Prod.ext ?_ (by dsimp only; omega)
      dsimp only
      rcases Int.lt_trichotomy index n with hlt | rfl | hlt
      · rw [if_pos (by omega), if_neg (by omega), if_pos hlt]
      · rw [if_pos (by omega), if_pos rfl, if_neg (Int.lt_irrefl _), Int.sub_self]
        rfl
      · rw [if_neg (by omega), if_neg (by omega), if_neg (by omega),
          show (index - n).toNat = (index - (n + 1 : Nat)).toNat + 1 by omega,
          List.getElem?_cons_succ]
    · rw [List.filter_cons_of_neg hname, ← ih]
      congr 1
      rw [completes, Bool.and_eq_true, decide_eq_true_eq] at hname
      unfold enumName
      split
      · rfl
      · next hblank => rw [if_neg fun h => hname ⟨hblank, h⟩]

theorem numbers_highlight (sources : Sources) (ht : t ≠ []) (index : Int) :
    ∃ (r : List Char) (cells : List UInt16),
      highlightHexNumber sources.screen.scanFuel sources.screen t index =
        some (r, (sources.numbers t).length, cells) ∧
      (sources.numbers t = [] → r = []) ∧
      ∀ (i : Nat) (word : List Char), index = i →
        (sources.numbers t)[i]? = some word → r = word := by
  by_cases hall : (t.map upperHex).all isHex = true
  · have hhex : ∀ c ∈ t, isHex (upperHex c) = true := fun c hc =>
      List.all_eq_true.mp hall _ (List.mem_map_of_mem hc)
    obtain ⟨cells, hrun, -⟩ := highlightHexNumber_eq ht hhex index (Nat.le_refl _)
    rw [numbers, if_pos ⟨ht, hall⟩]
    refine ⟨_, cells, hrun.trans (by rw [List.length_map]), fun h => ?_, ?_⟩
    · exact if_pos (List.map_eq_nil_iff.mp h)
    rintro i word rfl hword
    rw [List.getElem?_map, Option.map_eq_some_iff] at hword
    obtain ⟨m, hm, rfl⟩ := hword
    exact pickedText_of_getElem? hm
  · rw [numbers, if_neg fun h => hall h.2]
    refine ⟨[], sources.screen.cells, ?_, fun _ => rfl, fun i word _ hword => by cases hword⟩
    simp [highlightHexNumber, ht, Bool.eq_false_iff.mpr hall]

theorem complete_eq (sources : Sources) (ht : t ≠ []) (index : Int) :
    ∃ r, sources.complete t index =
        (if index < (sources.numbers t).length then r
          else ((sources.names.filter (completes t))[
            (index - (sources.numbers t).length).toNat]?).getD r,
            ((sources.words t).length : Int)) ∧
      (sources.numbers t = [] → r = []) ∧
      ∀ (i : Nat) (word : List Char), index = i →
        (sources.numbers t)[i]? = some word → r = word := by
  obtain ⟨r, cells, hrun, hnil, hpicked⟩ := numbers_highlight sources ht index
  refine ⟨r, ?_, hnil, hpicked⟩
  rw [complete, hrun, words, List.length_append]
  exact foldl_enumName t index sources.names r _

theorem complete_words {i : Nat} (ht : t ≠ []) (h : (sources.words t)[i]? = some word) :
    sources.complete t i = (word, ((sources.words t).length : Int)) := by
  obtain ⟨r, heq, -, hpicked⟩ := complete_eq sources ht i
  rw [heq]
  refine Prod.ext ?_ rfl
  dsimp only
  by_cases hi : i < (sources.numbers t).length
  · rw [words, List.getElem?_append_left hi] at h
    rw [if_pos (by omega)]
    exact hpicked i word rfl h
  · rw [words, List.getElem?_append_right (by omega)] at h
    rw [if_neg (by omega), show ((i : Int) - (sources.numbers t).length).toNat =
      i - (sources.numbers t).length by omega, h, Option.getD_some]

theorem complete_of_words_nil (ht : t ≠ []) (h : sources.words t = []) (index : Int) :
    sources.complete t index = ([], 0) := by
  obtain ⟨r, heq, hnil, -⟩ := complete_eq sources ht index
  rw [words, List.append_eq_nil_iff] at h
  rw [heq, words, h.1, h.2, hnil h.1]
  simp

end Sources

end BugChecker.Wnd
