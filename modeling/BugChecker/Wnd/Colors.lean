import Mathlib.Data.List.Basic

/-!
# Colored lines

A line of a window has color tags in it: a line feed and two hexadecimal
digits. `SyntaxColor` puts tags around the strings, the comments and the
keywords of a script. What is left without the tags is the script.
-/

namespace BugChecker.Wnd

def isHex (c : Char) : Bool := ('0' ≤ c && c ≤ '9') || ('A' ≤ c && c ≤ 'F')

/-- What `StrLen` leaves: the line without its tags. -/
def uncolored : List Char → List Char
  | '\n' :: a :: b :: s =>
    if isHex a && isHex b then uncolored s else '\n' :: uncolored (a :: b :: s)
  | c :: s => c :: uncolored s
  | [] => []

def strLen (s : List Char) : Nat := (uncolored s).length

-- ---------------------------------------------------------------------------
-- SyntaxColor
-- ---------------------------------------------------------------------------

/-- `"%02X"`. -/
def hexByte (clr : UInt8) : List Char :=
  let digit n := "0123456789ABCDEF".toList.getD n '0'
  [digit (clr.toNat / 16), digit (clr.toNat % 16)]

def tag (clr : UInt8) : List Char := '\n' :: hexByte clr

structure Colors where
  nrmClr : UInt8
  hrzClr : UInt8

def Colors.special (clrs : Colors) (clr : UInt8) : UInt8 :=
  let clr :=
    if clr &&& 0xF0 = 0 then clr ||| (clrs.nrmClr &&& 0xF0)
    else if clr &&& 0xF0 = clrs.nrmClr &&& 0xF0 then (~~~clr &&& 0xF0) ||| (clr &&& 0x0F)
    else clr
  if clr = clrs.nrmClr ∨ clr >>> 4 = clr &&& 0x0F then (clr &&& 0xF0) ||| (~~~clr &&& 0x0F) else clr

def indexToPos (text : List Char) (index : Nat) : Nat := strLen (text.take index)

/-- The ranges that are not searched for keywords. One without an end is up to the end of the line.
-/
abbrev Exclusion := List (Nat × Option Nat)

def exAdd (text : List Char) (start : Nat) (stop : Option Nat) (exclusion : Exclusion) :
    Exclusion :=
  exclusion.filter (·.2.isSome) ++ [(indexToPos text start, stop.map (indexToPos text))]

def exCheck (text : List Char) (exclusion : Exclusion) (index : Nat) : Bool :=
  let index := indexToPos text index
  exclusion.any fun p => index > p.1 && (p.2.all (index < ·))

def isQuote (c : Char) : Bool := c = '\x27' || c = '\x22' || c = '\x60'

/-- The loop over the characters, at those in `rest`. It colors strings and comments. -/
def colorStrings (clrs : Colors) (exclusion : Exclusion) (strIndex : Option Nat) (slashCn : Nat)
    (done : List Char) : List Char → List Char × Exclusion
  | [] => (done, exclusion)
  | c :: rest =>
    let text := done ++ c :: rest
    let i := done.length
    let slashes (strIndex : Option Nat) := if c = '\x5C' ∧ strIndex.isSome then slashCn + 1 else 0
    if c = '/' ∧ strIndex = none ∧ done.getLast? = some '/' then
      (done.dropLast ++ (tag clrs.hrzClr ++ '/' :: c :: rest), exAdd text (i - 1) none exclusion)
    else if isQuote c ∧ strIndex = none then
      colorStrings clrs (exAdd text i none exclusion) (some (i + 3)) (slashes (some (i + 3)))
        (done ++ (tag (clrs.special 0x04) ++ [c])) rest
    else if isQuote c ∧ strIndex.bind (done[·]?) = some c ∧ slashCn % 2 = 0 then
      colorStrings clrs (exAdd text (strIndex.getD 0) (some i) exclusion) none (slashes none)
        (done ++ (c :: tag clrs.nrmClr)) rest
    else colorStrings clrs exclusion strIndex (slashes strIndex) (done ++ [c]) rest

def isIdChar (text textUnc : List Char) (pos : Nat) (offset : Int) : Bool :=
  if pos ≥ text.length then false
  else
    let posUnc : Int := indexToPos text pos + offset
    if posUnc < 0 ∨ posUnc ≥ textUnc.length then false
    else
      let c := textUnc.getD posUnc.toNat ' '
      ('0' ≤ c && c ≤ '9') || ('a' ≤ c && c ≤ 'z') || ('A' ≤ c && c ≤ 'Z')

/-- The search for a keyword in `rest`. Of one that was found, `left` characters are still to pass,
and then its color ends if it was `marked`. -/
def colorKeyword (clrs : Colors) (textUnc : List Char) (exclusion : Exclusion) (keyword : List Char)
    (left : Nat) (marked : Bool) (done : List Char) : List Char → List Char
  | [] => done
  | c :: rest =>
    let endTag (left : Nat) (marked : Bool) := if left = 0 ∧ marked then tag clrs.nrmClr else []
    match left with
    | left + 1 =>
      colorKeyword clrs textUnc exclusion keyword left marked (done ++ c :: endTag left marked) rest
    | 0 =>
      if keyword.isPrefixOf (c :: rest) then
        let text := done ++ c :: rest
        let pos := done.length
        let marked :=
          !isIdChar text textUnc pos (-1) && !isIdChar text textUnc pos keyword.length &&
          !exCheck text exclusion pos
        let startTag := if marked then tag (clrs.special 0x03) else []
        let left := keyword.length - 1
        colorKeyword clrs textUnc exclusion keyword left marked
          (done ++ (startTag ++ c :: endTag left marked)) rest
      else colorKeyword clrs textUnc exclusion keyword 0 false (done ++ [c]) rest

def keywords : List (List Char) :=
  ["break", "case", "catch", "continue", "debugger", "default", "delete", "do", "else",
   "finally", "for", "function", "if", "in", "instanceof", "new", "return", "switch",
   "this", "throw", "try", "typeof", "while", "with", "class", "const", "enum", "import",
   "export", "extends", "super", "implements", "interface", "let", "package", "private",
   "protected", "public", "static", "yield", "undefined", "null", "true", "false",
   "Infinity", "NaN", "eval", "arguments", "await", "async", "void", "var"].map String.toList

def syntaxColor (clrs : Colors) (textUnc : List Char) : List Char :=
  let (text, exclusion) := colorStrings clrs [] none 0 [] textUnc
  keywords.foldl (fun text keyword =>
    colorKeyword clrs textUnc exclusion keyword 0 false [] text) text

-- ---------------------------------------------------------------------------
-- Whole tags
-- ---------------------------------------------------------------------------

/-- How many digits of a tag are still to come after some characters, with `k` before them. It is
`none` if one of them is not a digit. -/
def tagState : Nat → List Char → Option Nat
  | k, [] => some k
  | 0, c :: s => if c = '\n' then tagState 2 s else tagState 0 s
  | k + 1, c :: s => if isHex c then tagState k s else none

/-- The characters that are not of tags, with `k` digits of a tag to come. -/
def visible : Nat → List Char → List Char
  | _, [] => []
  | 0, c :: s => if c = '\n' then visible 2 s else c :: visible 0 s
  | k + 1, _ :: s => visible k s

/-- All tags of a line are whole. -/
def Tagged (s : List Char) : Prop := tagState 0 s = some 0

theorem tagState_append (k : Nat) (a b : List Char) :
    tagState k (a ++ b) = (tagState k a).bind (tagState · b) := by
  induction a generalizing k with
  | nil => rfl
  | cons c a ih =>
    cases k with
    | zero =>
      simp only [List.cons_append, tagState]
      split
      · exact ih 2
      · exact ih 0
    | succ k =>
      simp only [List.cons_append, tagState]
      split
      · exact ih k
      · rfl

theorem visible_append (k : Nat) (a b : List Char) (h : tagState k a = some k') :
    visible k (a ++ b) = visible k a ++ visible k' b := by
  induction a generalizing k with
  | nil =>
    obtain rfl : k = k' := Option.some.inj h
    rfl
  | cons c a ih =>
    cases k with
    | zero =>
      simp only [List.cons_append, visible]
      rw [tagState] at h
      split at h
      · next hc =>
        rw [if_pos hc, if_pos hc]
        exact ih 2 h
      · next hc =>
        rw [if_neg hc, if_neg hc, List.cons_append, ih 0 h]
    | succ k =>
      simp only [List.cons_append, visible]
      rw [tagState] at h
      split at h
      · exact ih k h
      · cases h

theorem Tagged.append (ha : Tagged a) (hb : Tagged b) : Tagged (a ++ b) := by
  rw [Tagged, tagState_append, ha, Option.bind_some]
  exact hb

theorem Tagged.visible_append (ha : Tagged a) : visible 0 (a ++ b) = visible 0 a ++ visible 0 b :=
  Wnd.visible_append 0 a b ha

theorem tagged_tag (clr : UInt8) : Tagged (tag clr) ∧ visible 0 (tag clr) = [] := by
  have hdigit : ∀ n < 16, isHex ("0123456789ABCDEF".toList.getD n '0') = true := by decide
  have hhi := hdigit (clr.toNat / 16) (by have := clr.toNat_lt; omega)
  have hlo := hdigit (clr.toNat % 16) (by omega)
  constructor
  · simp only [Tagged, tag, hexByte, tagState, if_true, hhi, hlo]
  · simp only [tag, hexByte, visible, if_true]

theorem tagged_singleton (h : c ≠ '\n') : Tagged [c] ∧ visible 0 [c] = [c] := by
  simp [Tagged, tagState, visible, h]

theorem tagged_of_plain (h : '\n' ∉ s) : Tagged s ∧ visible 0 s = s := by
  induction s with
  | nil => exact ⟨rfl, rfl⟩
  | cons c s ih =>
    obtain ⟨hc, hs⟩ : c ≠ '\n' ∧ '\n' ∉ s := by
      simpa [eq_comm] using h
    obtain ⟨htag, hvis⟩ := ih hs
    refine ⟨?_, ?_⟩
    · rw [Tagged, tagState, if_neg hc]
      exact htag
    · rw [visible, if_neg hc, hvis]

theorem newline_not_mem_visible (k : Nat) (s : List Char) : '\n' ∉ visible k s := by
  induction s generalizing k with
  | nil => simp [visible]
  | cons c s ih =>
    cases k with
    | zero =>
      rw [visible]
      split
      · exact ih 2
      · next hc =>
        rw [List.mem_cons]
        rintro (heq | hmem)
        · exact hc heq.symm
        · exact ih 0 hmem
    | succ k => exact ih k

theorem Tagged.split (h : Tagged (a ++ c :: b)) (hc : isHex c = false) :
    Tagged a ∧ Tagged (c :: b) := by
  rw [Tagged, tagState_append] at h
  obtain ⟨k, hk, hrest⟩ := Option.bind_eq_some_iff.mp h
  cases k with
  | zero => exact ⟨hk, hrest⟩
  | succ k =>
    rw [tagState, hc] at hrest
    cases hrest

theorem uncolored_of_tagged (h : Tagged s) : uncolored s = visible 0 s := by
  induction s using uncolored.induct with
  | case1 a b s hhex ih =>
    have hab : isHex a = true ∧ isHex b = true := by simpa using hhex
    have hs : Tagged s := by
      simpa [Tagged, tagState, hab] using h
    rw [uncolored, if_pos hhex, ih hs]
    simp [visible]
  | case2 a b s hhex ih =>
    simp only [Tagged, tagState, if_true] at h
    split at h
    · split at h
      · simp_all
      · cases h
    · cases h
  | case3 c s hnot ih =>
    have hc : c ≠ '\n' := by
      rintro rfl
      match s with
      | [] => cases h
      | [a] =>
        simp only [Tagged, tagState, if_true] at h
        split at h
        · cases h
        · cases h
      | a :: b :: s => exact hnot a b s rfl rfl
    have hs : Tagged s := by
      rw [Tagged, tagState, if_neg hc] at h
      exact h
    rw [uncolored, visible, if_neg hc, ih hs]
    exact hnot
  | case4 => rfl

/-- What a line shows. -/
structure Shows (s text : List Char) : Prop where
  tagged : Tagged s
  visible : visible 0 s = text

theorem Shows.uncolored (h : Shows s text) : Wnd.uncolored s = text :=
  (uncolored_of_tagged h.tagged).trans h.visible

theorem Shows.newline_not_mem (h : Shows s text) : '\n' ∉ text :=
  h.visible ▸ newline_not_mem_visible 0 s

theorem shows_of_plain (h : '\n' ∉ s) : Shows s s := ⟨(tagged_of_plain h).1, (tagged_of_plain h).2⟩

theorem Shows.append (ha : Shows a s) (hb : Shows b t) : Shows (a ++ b) (s ++ t) :=
  ⟨ha.tagged.append hb.tagged, by rw [ha.tagged.visible_append, ha.visible, hb.visible]⟩

theorem shows_tag (clr : UInt8) : Shows (tag clr) [] := ⟨(tagged_tag clr).1, (tagged_tag clr).2⟩

theorem shows_singleton (h : c ≠ '\n') : Shows [c] [c] :=
  ⟨(tagged_singleton h).1, (tagged_singleton h).2⟩

theorem Shows.split (h : Shows (a ++ c :: b) text) (hc : isHex c = false) :
    ∃ s t, Shows a s ∧ Shows (c :: b) t ∧ text = s ++ t := by
  obtain ⟨ha, hb⟩ := h.tagged.split hc
  refine ⟨Wnd.visible 0 a, Wnd.visible 0 (c :: b), ⟨ha, rfl⟩, ⟨hb, rfl⟩, ?_⟩
  rw [← h.visible, ha.visible_append]

theorem Shows.cons_inv (h : Shows (c :: b) text) (hc : c ≠ '\n') :
    ∃ t, text = c :: t ∧ Shows b t := by
  obtain ⟨htag, hvis⟩ := h
  rw [Tagged, tagState, if_neg hc] at htag
  rw [Wnd.visible, if_neg hc] at hvis
  exact ⟨Wnd.visible 0 b, hvis.symm, htag, rfl⟩

theorem colorStrings_shows (clrs : Colors) (exclusion : Exclusion) (strIndex : Option Nat)
    (slashCn : Nat) (done rest : List Char) (hdone : Shows done text) (hrest : '\n' ∉ rest) :
    Shows (colorStrings clrs exclusion strIndex slashCn done rest).1 (text ++ rest) := by
  induction rest generalizing exclusion strIndex slashCn done text with
  | nil =>
    rw [List.append_nil]
    exact hdone
  | cons c rest ih =>
    obtain ⟨hc, hrest'⟩ : c ≠ '\n' ∧ '\n' ∉ rest := by
      simpa [eq_comm] using hrest
    have hmove : Shows (done ++ [c]) (text ++ [c]) := hdone.append (shows_singleton hc)
    have htext : text ++ c :: rest = text ++ [c] ++ rest := by simp
    simp only [colorStrings]
    split
    · next hcomment =>
      -- the tag goes before the first of the two slashes
      obtain ⟨-, -, hlast⟩ := hcomment
      obtain ⟨front, hfront⟩ := List.getLast?_eq_some_iff.mp hlast
      obtain ⟨s, t, hs, ht, rfl⟩ := Shows.split (hfront ▸ hdone) (c := '/') (by decide)
      have hslash : Shows ('/' :: c :: rest) (t ++ (c :: rest)) := by
        have happ := ht.append (shows_of_plain hrest)
        rwa [List.cons_append, List.nil_append] at happ
      have hall := hs.append ((shows_tag clrs.hrzClr).append hslash)
      rw [hfront, List.dropLast_concat]
      rw [List.nil_append, ← List.append_assoc s t] at hall
      exact hall
    · split
      · rw [htext]
        refine ih _ _ _ _ ?_ hrest'
        exact hdone.append ((shows_tag _).append (shows_singleton hc))
      · split
        · rw [htext]
          refine ih _ _ _ _ ?_ hrest'
          have happ := hmove.append (shows_tag clrs.nrmClr)
          rw [List.append_nil, List.append_assoc, List.singleton_append] at happ
          exact happ
        · rw [htext]
          exact ih _ _ _ _ hmove hrest'

/-- The characters of keywords stand in no tag. -/
def Letters (s : List Char) : Prop := ∀ c ∈ s, isHex c = false ∧ c ≠ '\n'

theorem Shows.mark (h : Shows (done ++ c :: rest) text) (hhex : isHex c = false) (hc : c ≠ '\n')
    (startTag endTag : List Char) (hstart : Shows startTag []) (hend : Shows endTag []) :
    Tagged (done ++ (startTag ++ c :: endTag)) ∧
      Shows (done ++ (startTag ++ c :: endTag) ++ rest) text := by
  obtain ⟨s, t, hs, ht, rfl⟩ := h.split hhex
  obtain ⟨t, rfl, hrest⟩ := ht.cons_inv hc
  have hmarked : Shows (startTag ++ c :: endTag) [c] := by
    have happ := hstart.append ((shows_singleton hc).append hend)
    rwa [List.nil_append, List.append_nil, List.singleton_append] at happ
  have hdone := hs.append hmarked
  refine ⟨hdone.tagged, ?_⟩
  have hall := hdone.append hrest
  rwa [List.append_assoc s, List.singleton_append] at hall

theorem shows_tag_if (clr : UInt8) (p : Prop) [Decidable p] :
    Shows (if p then tag clr else []) [] := by
  split
  · exact shows_tag clr
  · exact shows_of_plain (by simp)

theorem colorKeyword_shows (clrs : Colors) (textUnc : List Char) (exclusion : Exclusion)
    (hkeyword : Letters keyword) (hne : keyword ≠ []) (left : Nat) (marked : Bool)
    (done rest : List Char) (h : Shows (done ++ rest) text)
    (hleft : left ≠ 0 → Tagged done ∧ Letters (rest.take left)) :
    Shows (colorKeyword clrs textUnc exclusion keyword left marked done rest) text := by
  induction rest generalizing left marked done with
  | nil =>
    rw [List.append_nil] at h
    exact h
  | cons c rest ih =>
    cases left with
    | succ left =>
      -- inside a keyword
      obtain ⟨-, hletters⟩ := hleft (Nat.succ_ne_zero left)
      rw [List.take_succ_cons] at hletters
      obtain ⟨hhex, hc⟩ := hletters c List.mem_cons_self
      simp only [colorKeyword]
      obtain ⟨htag, hall⟩ := h.mark hhex hc [] _ (shows_of_plain (by simp))
        (shows_tag_if clrs.nrmClr (left = 0 ∧ marked = true))
      exact ih left marked _ hall fun _ => ⟨htag,
        fun x hx => hletters x (List.mem_cons_of_mem _ hx)⟩
    | zero =>
      simp only [colorKeyword]
      split
      · next hstart =>
        obtain ⟨k, kws, rfl⟩ := List.exists_cons_of_ne_nil hne
        obtain ⟨tail, htail⟩ := List.isPrefixOf_iff_prefix.mp hstart
        rw [List.cons_append] at htail
        obtain ⟨rfl, hrest⟩ := List.cons.inj htail
        obtain ⟨hhex, hc⟩ := hkeyword k List.mem_cons_self
        have hmark := h.mark hhex hc
        refine ih _ _ _ ?_ ?_
        · exact (hmark _ _ (shows_tag_if _ _) (shows_tag_if _ _)).2
        refine fun _ => ⟨(hmark _ _ (shows_tag_if _ _) (shows_tag_if _ _)).1, fun x hx => ?_⟩
        rw [List.length_cons, Nat.add_sub_cancel, ← hrest, List.take_left] at hx
        exact hkeyword x (List.mem_cons_of_mem _ hx)
      · refine ih 0 false _ ?_ fun hno => absurd rfl hno
        rwa [List.append_assoc, List.singleton_append]

theorem letters_of_mem_keywords (h : keyword ∈ keywords) : Letters keyword ∧ keyword ≠ [] := by
  have hall : keywords.all (fun kw => kw.all (fun c => !isHex c && c != '\n') && !kw.isEmpty) =
      true := rfl
  have hkeyword := List.all_eq_true.mp hall keyword h
  simpa [Letters] using hkeyword

theorem colorKeywords_shows (clrs : Colors) (textUnc : List Char) (exclusion : Exclusion)
    (kws : List (List Char)) (hkws : ∀ kw ∈ kws, Letters kw ∧ kw ≠ []) (h : Shows text textUnc) :
    Shows (kws.foldl (fun text keyword =>
      colorKeyword clrs textUnc exclusion keyword 0 false [] text) text) textUnc := by
  induction kws generalizing text with
  | nil => exact h
  | cons kw kws ih =>
    obtain ⟨⟨hkw, hne⟩, hkws⟩ := List.forall_mem_cons.mp hkws
    exact ih hkws (colorKeyword_shows clrs textUnc exclusion hkw hne 0 false [] text h
      fun hno => absurd rfl hno)

theorem syntaxColor_shows (clrs : Colors) (h : '\n' ∉ textUnc) :
    Shows (syntaxColor clrs textUnc) textUnc := by
  have hstrings : Shows (colorStrings clrs [] none 0 [] textUnc).1 textUnc :=
    colorStrings_shows clrs [] none 0 [] textUnc (shows_of_plain (by simp)) h
  unfold syntaxColor
  rcases hcolored : colorStrings clrs [] none 0 [] textUnc with ⟨text, exclusion⟩
  rw [hcolored] at hstrings
  exact colorKeywords_shows clrs textUnc exclusion keywords
    (fun _ => letters_of_mem_keywords) hstrings

end BugChecker.Wnd
