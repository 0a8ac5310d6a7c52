import BugChecker.Lib.Finding

/-!
# The words of a command

`TokenizeVec` splits a command at the words that it is given. Each of them is
looked for by its first occurrence, and only that one is tested for being a word
of the command.
-/

namespace BugChecker.Cmd

open Finding

abbrev Text := List Char

def isBlank (c : Char) : Bool := c = ' ' || c = '\t'

/-- `eastl::string::trim`. -/
def trim (s : Text) : Text := Finding.trim isBlank s

/-- The blanks at both ends are removed, and nothing else. -/
theorem trim_spec (s : Text) : ∃ front back, s = front ++ trim s ++ back ∧
    (∀ c ∈ front ++ back, isBlank c = true) ∧ (∀ c ∈ (trim s).head?, isBlank c = false) ∧
    ∀ c ∈ (trim s).getLast?, isBlank c = false := by
  have hback : trim s ++ (s.dropWhile isBlank).rtakeWhile isBlank = s.dropWhile isBlank :=
    List.rdropWhile_append_rtakeWhile
  refine ⟨s.takeWhile isBlank, (s.dropWhile isBlank).rtakeWhile isBlank, ?_, ?_, ?_, ?_⟩
  · rw [List.append_assoc, hback, List.takeWhile_append_dropWhile]
  · intro c hc
    rcases List.mem_append.mp hc with hc | hc
    · exact List.mem_takeWhile_imp hc
    · exact List.mem_rtakeWhile_imp hc
  · intro c hc
    have hhead : (s.dropWhile isBlank).head? = some c := by
      rw [← hback, List.head?_append, Option.mem_def.mp hc]
      rfl
    have hnot := List.head?_dropWhile_not isBlank s
    rw [hhead] at hnot
    simpa using hnot
  · intro c hc
    obtain ⟨hne, hlast⟩ := List.mem_getLast?_eq_getLast hc
    rw [hlast]
    exact Bool.eq_false_iff.mpr (List.rdropWhile_last_not isBlank (s.dropWhile isBlank) hne)

/-- `Utils::ToLower`. -/
def toLower (s : Text) : Text := s.map Char.toLower

-- ---------------------------------------------------------------------------
-- Words
-- ---------------------------------------------------------------------------

/-- Between blanks, or at an end of the text. -/
def Bounded (sL : Text) (f n : Nat) : Prop :=
  (f = 0 ∨ sL[f - 1]? = some ' ') ∧ (f + n ≥ sL.length ∨ sL[f + n]? = some ' ')

instance (sL : Text) (f n : Nat) : Decidable (Bounded sL f n) := by
  unfold Bounded
  infer_instance

/-- The place of a delimiter, when its first occurrence is a word. -/
def wordPlace (sL del : Text) : Option Nat := (find del sL).filter fun f => Bounded sL f del.length

/-- `find`: where the first one is, and which of the delimiters it is. -/
def findDelimiter (delimiters : List Text) (sL : Text) : Option (Nat × Nat) :=
  delimiters.zipIdx.foldl (better (wordPlace sL)) none

def piece (token : Text) : List Text := if token = [] then [] else [token]

def split (find : List Text → Text → Option (Nat × Nat)) : Nat → Text → List Text → List Text
  | 0, s, _ => piece (trim s)
  | n + 1, s, delimiters =>
    match find delimiters (toLower s) with
    | none => piece (trim s)
    | some (pos, i) =>
      let delimiter := delimiters.getD i []
      piece (trim (s.take pos)) ++ delimiter ::
        split find n (s.drop (pos + delimiter.length)) (delimiters.eraseIdx i)

def tokenizeVec (str : Text) (delimiters : List Text) : List Text :=
  split findDelimiter delimiters.length (trim str) (delimiters.map toLower)

-- ---------------------------------------------------------------------------
-- What it is for
-- ---------------------------------------------------------------------------

/-- A delimiter that is a word of the text. -/
def WordAt (sL : Text) (p : Nat) (del : Text) : Prop := del <+: sL.drop p ∧ Bounded sL p del.length

instance (sL : Text) (p : Nat) (del : Text) : Decidable (WordAt sL p del) := by
  unfold WordAt
  infer_instance

def leftmost (delimiters : List Text) (sL : Text) : Option (Nat × Nat) :=
  (List.range (sL.length + 1)).findSome? fun p =>
    (delimiters.findIdx? (WordAt sL p ·)).map fun i => (p, i)

def splitAtWords (str : Text) (delimiters : List Text) : List Text :=
  split leftmost delimiters.length (trim str) (delimiters.map toLower)

/-- Each delimiter that is reached does not occur in the text before it. -/
def Recognised : Nat → Text → List Text → Prop
  | 0, _, _ => True
  | n + 1, s, delimiters =>
    match leftmost delimiters (toLower s) with
    | none => True
    | some (pos, i) =>
      let delimiter := delimiters.getD i []
      find delimiter (toLower s) = some pos ∧
        Recognised n (s.drop (pos + delimiter.length)) (delimiters.eraseIdx i)

instance decidableRecognised : (n : Nat) → (s : Text) → (delimiters : List Text) →
    Decidable (Recognised n s delimiters)
  | 0, _, _ => .isTrue trivial
  | n + 1, s, delimiters =>
    match h : leftmost delimiters (toLower s) with
    | none => .isTrue (by rw [Recognised, h]; trivial)
    | some (pos, i) =>
      have := decidableRecognised n (s.drop (pos + (delimiters.getD i []).length))
          (delimiters.eraseIdx i)
      decidable_of_iff (find (delimiters.getD i []) (toLower s) = some pos ∧
        Recognised n (s.drop (pos + (delimiters.getD i []).length)) (delimiters.eraseIdx i))
        (by rw [Recognised, h])

def letters (s : Text) : Text := (toLower s).filter fun c => !isBlank c

-- ---------------------------------------------------------------------------
-- Capitals and blanks
-- ---------------------------------------------------------------------------

theorem toNat_toLower (c : Char) :
    c.toLower.toNat = if 65 ≤ c.toNat ∧ c.toNat ≤ 90 then c.toNat + 32 else c.toNat := by
  unfold Char.toLower
  split
  · next h =>
    have hge : 65 ≤ c.toNat := h.1
    have hle : c.toNat ≤ 90 := h.2
    rw [if_pos ⟨hge, hle⟩]
    change (c.val + ('a'.val - 'A'.val)).toNat = c.toNat + 32
    rw [UInt32.toNat_add]
    exact Nat.mod_eq_of_lt (show c.toNat + 32 < 2 ^ 32 by omega)
  · next h => exact (if_neg h).symm

theorem toLower_eq_iff (c : Char) {d : Char} (h : d.toNat < 65) : c.toLower = d ↔ c = d := by
  rw [← Char.toNat_inj, ← Char.toNat_inj, toNat_toLower]
  split <;> omega

theorem isBlank_toLower (c : Char) : isBlank c.toLower = isBlank c := by
  unfold isBlank
  rw [decide_eq_decide.mpr (toLower_eq_iff c (by decide)), decide_eq_decide.mpr
    (toLower_eq_iff c (by decide))]

theorem toLower_toLower (s : Text) : toLower (toLower s) = toLower s := by
  have hchar : ∀ c : Char, c.toLower.toLower = c.toLower := by
    intro c
    rw [← Char.toNat_inj, toNat_toLower c.toLower, if_neg]
    rw [toNat_toLower c]
    split <;> omega
  unfold toLower
  rw [List.map_map]
  exact List.map_congr_left fun c _ => hchar c

theorem letters_eq (s : Text) : letters s = toLower (s.filter fun c => !isBlank c) := by
  unfold letters toLower
  rw [List.filter_map]
  congr 1
  refine List.filter_congr fun c _ => ?_
  rw [Function.comp_apply, isBlank_toLower]

theorem letters_append (s t : Text) : letters (s ++ t) = letters s ++ letters t := by
  unfold letters toLower
  rw [List.map_append, List.filter_append]

theorem letters_toLower (s : Text) : letters (toLower s) = letters s := by
  unfold letters
  rw [toLower_toLower]

theorem letters_trim (s : Text) : letters (trim s) = letters s := by
  rw [letters_eq, letters_eq, trim, filter_trim]

theorem letters_piece (s : Text) : letters (piece s).flatten = letters s := by
  unfold piece
  split
  · next h => rw [h]; rfl
  · rw [List.flatten_singleton]

-- ---------------------------------------------------------------------------
-- What both find
-- ---------------------------------------------------------------------------

theorem wordPlace_eq_some_iff {sL del : Text} {f : Nat} :
    wordPlace sL del = some f ↔ FirstAt del sL f ∧ Bounded sL f del.length := by
  rw [wordPlace, Option.filter_eq_some_iff, find_eq_some_iff, decide_eq_true_eq]

theorem getElem?_of_prefix_drop {s pat : Text} (h : pat <+: s.drop p) (hi : i < pat.length) :
    s[p + i]? = pat[i]? := by
  obtain ⟨rest, hrest⟩ := h
  rw [← List.getElem?_drop, ← hrest, List.getElem?_append_left hi]

theorem WordAt.length_le {sL del del' : Text} (h : WordAt sL p del) (h' : del' <+: sL.drop p)
    (hspace : ' ' ∉ del') :
    del'.length ≤ del.length := by
  by_contra hlt
  have hlt := Nat.lt_of_not_le hlt
  have hget := getElem?_of_prefix_drop h' hlt
  rw [List.getElem?_eq_getElem hlt] at hget
  rcases h.2.2 with hend | hafter
  · rw [List.getElem?_eq_none hend] at hget
    cases hget
  · rw [hget] at hafter
    exact hspace (Option.some.inj hafter ▸ List.getElem_mem hlt)

theorem WordAt.eq {sL del del' : Text} (h : WordAt sL p del) (h' : WordAt sL p del')
    (hspace : ' ' ∉ del)
    (hspace' : ' ' ∉ del') : del = del' :=
  (List.prefix_of_prefix_length_le h.1 h'.1 (h'.length_le h.1 hspace)).eq_of_length_le
    (h.length_le h'.1 hspace')

/-- The first delimiter at the first place with one. -/
structure LeftmostAt (delimiters : List Text) (sL : Text) (p i : Nat) : Prop where
  le_length : p ≤ sL.length
  word : ∃ del, delimiters[i]? = some del ∧ WordAt sL p del
  least : ∀ q < p, ∀ del ∈ delimiters, ¬ WordAt sL q del
  first : ∀ j < i, ∀ del, delimiters[j]? = some del → ¬ WordAt sL p del

theorem leftmostAt_of_some (h : leftmost delimiters sL = some (p, i)) :
    LeftmostAt delimiters sL p i := by
  obtain ⟨before, a, after, hrange, ha, hbefore⟩ := List.findSome?_eq_some_iff.mp h
  obtain ⟨i', hi, heq⟩ := Option.map_eq_some_iff.mp ha
  obtain ⟨rfl, rfl⟩ := Prod.mk.inj heq
  obtain ⟨hlt, hword, hfirst⟩ := List.findIdx?_eq_some_iff_getElem.mp hi
  rw [List.range_eq_range', List.range'_eq_append_iff] at hrange
  obtain ⟨k, hk, rfl, hafter⟩ := hrange
  obtain ⟨r, hr⟩ : ∃ r, sL.length + 1 - k = r + 1 := by
    refine Nat.exists_eq_add_one_of_ne_zero fun hzero => ?_
    rw [hzero] at hafter
    cases hafter
  rw [hr, List.range'_succ] at hafter
  obtain ⟨rfl, -⟩ := List.cons.inj hafter
  rw [Nat.zero_add, Nat.mul_one] at *
  refine ⟨by omega, ⟨_, List.getElem?_eq_getElem hlt, of_decide_eq_true hword⟩,
    fun q hq del hdel => ?_,
    fun j hj del hdel => ?_⟩
  · have hnone := hbefore q (List.mem_range'_1.mpr ⟨Nat.zero_le q, by omega⟩)
    exact of_decide_eq_false (List.findIdx?_eq_none_iff.mp
      (Option.map_eq_none_iff.mp hnone) del hdel)
  · obtain ⟨hjlt, rfl⟩ := List.getElem?_eq_some_iff.mp hdel
    exact fun hw => hfirst j hj (decide_eq_true hw)

theorem not_wordAt_of_none (h : leftmost delimiters sL = none) (hp : p ≤ sL.length)
    (hdel : del ∈ delimiters) :
    ¬ WordAt sL p del := by
  have hnone := List.findSome?_eq_none_iff.mp h p (List.mem_range.mpr (Nat.lt_succ_of_le hp))
  have hall := List.findIdx?_eq_none_iff.mp (Option.map_eq_none_iff.mp hnone) del hdel
  exact of_decide_eq_false hall

-- ---------------------------------------------------------------------------
-- When the first occurrences are the words
-- ---------------------------------------------------------------------------

theorem wordAt_of_wordPlace {sL del : Text} (h : wordPlace sL del = some f) : WordAt sL f del :=
  ⟨(wordPlace_eq_some_iff.mp h).1.1, (wordPlace_eq_some_iff.mp h).2⟩

theorem exists_of_placeAt {delimiters : List Text}
    (h : placeAt (wordPlace sL) delimiters j = some q) :
    ∃ del ∈ delimiters, delimiters[j]? = some del ∧ wordPlace sL del = some q := by
  obtain ⟨del, hdel, hplace⟩ := Option.bind_eq_some_iff.mp h
  exact ⟨del, List.mem_of_getElem? hdel, hdel, hplace⟩

theorem findDelimiter_of_none {delimiters : List Text} (h : leftmost delimiters sL = none) :
    findDelimiter delimiters sL = none := by
  have hbest : BestOf (wordPlace sL) delimiters (findDelimiter delimiters sL) :=
    bestOf_foldl delimiters
  cases hfind : findDelimiter delimiters sL with
  | none => rfl
  | some b =>
    obtain ⟨q, j⟩ := b
    rw [hfind] at hbest
    obtain ⟨del, hmem, -, hplace⟩ := exists_of_placeAt hbest.place_eq
    exact absurd (wordAt_of_wordPlace hplace)
      (not_wordAt_of_none h (wordPlace_eq_some_iff.mp hplace).1.2.1 hmem)

theorem findDelimiter_of_first {delimiters : List Text} (h : LeftmostAt delimiters sL p i)
    (hfirst : find (delimiters.getD i []) sL = some p) :
    findDelimiter delimiters sL = some (p, i) := by
  obtain ⟨del, hdel, hword⟩ := h.word
  rw [List.getD_eq_getElem?_getD, hdel, Option.getD_some] at hfirst
  have hplace : wordPlace sL del = some p :=
    wordPlace_eq_some_iff.mpr ⟨find_eq_some_iff.mp hfirst, hword.2⟩
  refine (bestOf_foldl delimiters).eq_some ⟨?_, fun j q hj => ?_, fun j hj => ?_⟩
  · rw [placeAt, hdel]
    exact hplace
  · obtain ⟨del', hmem, -, hplace'⟩ := exists_of_placeAt hj
    by_contra hlt
    exact h.least q (Nat.lt_of_not_le hlt) del' hmem (wordAt_of_wordPlace hplace')
  · obtain ⟨del', -, hdel', hplace'⟩ := exists_of_placeAt hj
    by_contra hlt
    exact h.first j (Nat.lt_of_not_le hlt) del' hdel' (wordAt_of_wordPlace hplace')

theorem findDelimiter_of_not_first {delimiters : List Text} (h : LeftmostAt delimiters sL p i)
    (hfirst : find (delimiters.getD i []) sL ≠ some p)
      (hfind : findDelimiter delimiters sL = some (q, j)) :
    p ≤ q ∧ delimiters.getD j [] ≠ delimiters.getD i [] := by
  obtain ⟨del, hdel, hword⟩ := h.word
  have hbest : BestOf (wordPlace sL) delimiters (findDelimiter delimiters sL) :=
    bestOf_foldl delimiters
  rw [hfind] at hbest
  obtain ⟨del', hmem, hdel', hplace⟩ := exists_of_placeAt hbest.place_eq
  have hle : p ≤ q := by
    by_contra hlt
    exact h.least q (Nat.lt_of_not_le hlt) del' hmem (wordAt_of_wordPlace hplace)
  refine ⟨hle, fun heq => ?_⟩
  rw [List.getD_eq_getElem?_getD, List.getD_eq_getElem?_getD, hdel, hdel', Option.getD_some,
    Option.getD_some] at heq
  subst heq
  rw [List.getD_eq_getElem?_getD, hdel, Option.getD_some] at hfirst
  obtain ⟨hat, -⟩ := wordPlace_eq_some_iff.mp hplace
  refine hfirst (find_eq_some_iff.mpr ?_)
  rcases Nat.eq_or_lt_of_le hle with rfl | hlt
  · exact hat
  · exact absurd hword.1 (hat.2.2 p hlt)

theorem blank_of_not_first {s del : Text} (hword : WordAt (toLower s) p del) (hp : p ≤ s.length)
    (hspace : ' ' ∉ del) (hfirst : find del (toLower s) ≠ some p)
      (hblank : ∀ c ∈ s.take p, isBlank c = true) :
    ∀ c ∈ del, isBlank c = true := by
  obtain ⟨f, hle, hfind⟩ := find_le hword.1 (by rwa [toLower, List.length_map])
  have hlt : f < p := by
    rcases Nat.eq_or_lt_of_le hle with rfl | hlt
    · exact absurd hfind hfirst
    · exact hlt
  obtain ⟨hstart, -, -⟩ := find_eq_some_iff.mp hfind
  -- A space ends the text before the word, so the occurrence is in front of it.
  have hend : f + del.length ≤ p := by
    by_contra hgt
    have hbefore : (toLower s)[p - 1]? = some ' ' := by
      rcases hword.2.1 with hzero | hbefore
      · omega
      · exact hbefore
    have hin : p - 1 - f < del.length := by omega
    have hget := getElem?_of_prefix_drop hstart hin
    rw [show f + (p - 1 - f) = p - 1 by omega, hbefore] at hget
    exact hspace (List.mem_of_getElem? hget.symm)
  intro c hc
  obtain ⟨k, hk, rfl⟩ := List.mem_iff_getElem.mp hc
  have hget := getElem?_of_prefix_drop hstart hk
  rw [List.getElem?_eq_getElem hk, toLower, List.getElem?_map] at hget
  obtain ⟨d, hd, heq⟩ := Option.map_eq_some_iff.mp hget
  rw [← heq, isBlank_toLower]
  refine hblank d (List.mem_of_getElem? (i := f + k) ?_)
  rw [List.getElem?_take_of_lt (by omega), hd]

-- ---------------------------------------------------------------------------
-- The tokens
-- ---------------------------------------------------------------------------

theorem trim_take_ne_nil {s : Text} (hle : p ≤ q) (h : trim (s.take p) ≠ []) :
    trim (s.take q) ≠ [] := by
  intro hnil
  refine h (trim_eq_nil_iff.mpr fun c hc => trim_eq_nil_iff.mp hnil c ?_)
  exact List.take_subset_take_left s hle hc

theorem trim_ne_of_blank {s del : Text} (h : trim s ≠ []) (hdel : ∀ c ∈ del, isBlank c = true) :
    trim s ≠ del := by
  rintro rfl
  refine h (trim_eq_nil_iff.mpr fun c hc => ?_)
  by_contra hne
  have hkeep : c ∈ s.filter fun c => !isBlank c := by
    rw [List.mem_filter, Bool.eq_false_iff.mpr hne]
    exact ⟨hc, rfl⟩
  rw [← filter_trim s] at hkeep
  exact hne (hdel c (List.mem_of_mem_filter hkeep))

theorem piece_append_ne {t₀ t₁ del del' : Text} (hne : del' ≠ del) (hlonger : t₀ ≠ [] → t₁ ≠ [])
    (hblank : t₀ = [] → t₁ ≠ [] → t₁ ≠ del) (rest rest' : List Text) :
    piece t₁ ++ del' :: rest' ≠ piece t₀ ++ del :: rest := by
  unfold piece
  by_cases h₀ : t₀ = []
  · rw [if_pos h₀]
    by_cases h₁ : t₁ = []
    · rw [if_pos h₁]
      exact fun heq => hne (List.cons.inj heq).1
    · rw [if_neg h₁]
      exact fun heq => hblank h₀ h₁ (List.cons.inj heq).1
  · rw [if_neg h₀, if_neg (hlonger h₀)]
    exact fun heq => hne (List.cons.inj (List.cons.inj heq).2).1

theorem piece_ne {t₀ t₁ del : Text} (hblank : t₀ = [] → t₁ ≠ [] → t₁ ≠ del) (rest : List Text) :
    piece t₁ ≠ piece t₀ ++ del :: rest := by
  unfold piece
  by_cases h₁ : t₁ = []
  · rw [if_pos h₁]
    exact fun heq => by simp at heq
  · rw [if_neg h₁]
    by_cases h₀ : t₀ = []
    · rw [if_pos h₀]
      exact fun heq => hblank h₀ h₁ (List.cons.inj heq).1
    · rw [if_neg h₀]
      exact fun heq => by simp at heq

theorem split_ne_of_not_first {s : Text} {delimiters : List Text}
    (h : LeftmostAt delimiters (toLower s) p i)
    (hspace : ∀ del ∈ delimiters, ' ' ∉ del)
      (hfirst : find (delimiters.getD i []) (toLower s) ≠ some p) :
    split findDelimiter (n + 1) s delimiters ≠
      piece (trim (s.take p)) ++ delimiters.getD i [] :: rest := by
  have hp : p ≤ s.length := by
    have hle := h.le_length
    rwa [toLower, List.length_map] at hle
  have hblank : ∀ x, trim (s.take p) = [] → trim x ≠ [] → trim x ≠ delimiters.getD i [] := by
    intro x hnil hx
    obtain ⟨del, hdel, hword⟩ := h.word
    rw [List.getD_eq_getElem?_getD, hdel, Option.getD_some] at hfirst ⊢
    exact trim_ne_of_blank hx (blank_of_not_first hword hp
      (hspace del (List.mem_of_getElem? hdel)) hfirst
      (trim_eq_nil_iff.mp hnil))
  rw [split]
  cases hfind : findDelimiter delimiters (toLower s) with
  | none => exact piece_ne (hblank s) rest
  | some b =>
    obtain ⟨q, j⟩ := b
    obtain ⟨hle, hne⟩ := findDelimiter_of_not_first h hfirst hfind
    exact piece_append_ne hne (trim_take_ne_nil hle) (hblank _) _ _

theorem split_eq_iff {s : Text} {delimiters : List Text} (hspace : ∀ del ∈ delimiters, ' ' ∉ del) :
    split findDelimiter n s delimiters = split leftmost n s delimiters ↔
    Recognised n s delimiters := by
  induction n generalizing s delimiters with
  | zero => exact iff_of_true rfl trivial
  | succ n ih =>
    rw [Recognised]
    cases hleft : leftmost delimiters (toLower s) with
    | none =>
      refine iff_of_true ?_ trivial
      rw [split, split, hleft, findDelimiter_of_none hleft]
    | some b =>
      obtain ⟨p, i⟩ := b
      have hat := leftmostAt_of_some hleft
      by_cases hfirst : find (delimiters.getD i []) (toLower s) = some p
      · have herase : ∀ del ∈ delimiters.eraseIdx i, ' ' ∉ del :=
          fun del hdel => hspace del (List.mem_of_mem_eraseIdx hdel)
        rw [split, split, hleft, findDelimiter_of_first hat hfirst]
        simp only [List.append_cancel_left_eq, List.cons.injEq, true_and]
        rw [ih herase, and_iff_right hfirst]
      · refine iff_of_false ?_ fun hrec => hfirst hrec.1
        have href : split leftmost (n + 1) s delimiters =
            piece (trim (s.take p)) ++ delimiters.getD i [] ::
            split leftmost n (s.drop (p + (delimiters.getD i []).length))
              (delimiters.eraseIdx i) := by
          rw [split, hleft]
        rw [href]
        exact split_ne_of_not_first hat hspace hfirst

theorem letters_split {s : Text} {delimiters : List Text}
    (hlower : ∀ del ∈ delimiters, toLower del = del) :
    letters (split findDelimiter n s delimiters).flatten = letters s := by
  induction n generalizing s delimiters with
  | zero => rw [split, letters_piece, letters_trim]
  | succ n ih =>
    rw [split]
    cases hfind : findDelimiter delimiters (toLower s) with
    | none => exact (letters_piece _).trans (letters_trim s)
    | some b =>
      obtain ⟨p, i⟩ := b
      have hbest : BestOf (wordPlace (toLower s)) delimiters
          (findDelimiter delimiters (toLower s)) :=
        bestOf_foldl delimiters
      rw [hfind] at hbest
      obtain ⟨del, hmem, hdel, hplace⟩ := exists_of_placeAt hbest.place_eq
      have hgetD : delimiters.getD i [] = del := by
        rw [List.getD_eq_getElem?_getD, hdel, Option.getD_some]
      have hrest := @ih (s.drop (p + del.length)) (delimiters.eraseIdx i)
        fun del' hdel' => hlower del' (List.mem_of_mem_eraseIdx hdel')
      have hword : letters ((s.drop p).take del.length) = letters del := by
        have htake := List.prefix_iff_eq_take.mp (wordAt_of_wordPlace hplace).1
        rw [← letters_toLower ((s.drop p).take del.length), toLower, List.map_take, List.map_drop]
        exact congrArg letters htake.symm
      dsimp only
      rw [hgetD, List.flatten_append, List.flatten_cons, letters_append, letters_append,
        letters_piece, letters_trim, hrest, ← hword, ← letters_append, ← letters_append,
        ← List.drop_drop, List.take_append_drop, List.take_append_drop]

/-- The tokens are those of the words, with all the letters, exactly if no delimiter that is reached
occurs before. -/
theorem tokenizeVec_eq_iff (str : Text) (delimiters : List Text)
    (hspace : ∀ del ∈ delimiters, ' ' ∉ del) :
    tokenizeVec str delimiters = splitAtWords str delimiters ∧
        letters (tokenizeVec str delimiters).flatten = letters str ↔
      Recognised delimiters.length (trim str) (delimiters.map toLower) := by
  have hspace' : ∀ del ∈ delimiters.map toLower, ' ' ∉ del := by
    intro del hdel
    obtain ⟨del, hmem, rfl⟩ := List.mem_map.mp hdel
    intro hin
    obtain ⟨c, hc, heq⟩ := List.mem_map.mp hin
    exact hspace del hmem ((toLower_eq_iff c (by decide)).mp heq ▸ hc)
  have hlower : ∀ del ∈ delimiters.map toLower, toLower del = del := by
    intro del hdel
    obtain ⟨del, -, rfl⟩ := List.mem_map.mp hdel
    exact toLower_toLower del
  rw [tokenizeVec, splitAtWords, ← split_eq_iff hspace', letters_split hlower, letters_trim]
  exact and_iff_left rfl

theorem tokenizeVec_bpx :
    tokenizeVec "BPX nt!f -t 5".toList ["BPX".toList, "-t".toList] =
        splitAtWords "BPX nt!f -t 5".toList ["BPX".toList, "-t".toList] ∧
      letters (tokenizeVec "BPX nt!f -t 5".toList ["BPX".toList, "-t".toList]).flatten =
        letters "BPX nt!f -t 5".toList := by
  exact (tokenizeVec_eq_iff _ _ (by decide)).mpr (by decide +kernel)

/-- `-t` also occurs in the name. -/
theorem tokenizeVec_bpx_name :
    tokenizeVec "BPX a-tag -t 5".toList ["BPX".toList, "-t".toList] =
    ["bpx".toList, "a-tag -t 5".toList] ∧
      splitAtWords "BPX a-tag -t 5".toList ["BPX".toList, "-t".toList] =
        ["bpx".toList, "a-tag".toList, "-t".toList, "5".toList] ∧
      tokenizeVec "BPX a-tag -t 5".toList ["BPX".toList, "-t".toList] ≠
        splitAtWords "BPX a-tag -t 5".toList ["BPX".toList, "-t".toList] := by
  decide +kernel

end BugChecker.Cmd
