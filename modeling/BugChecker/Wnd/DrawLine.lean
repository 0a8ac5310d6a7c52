import BugChecker.Wnd.Colors

/-!
# Drawing a line

`Wnd::Draw` shows a part of a line, and colors it as the tags in the line say.
The tags are passed over in the same way by `StrLen`, which takes the text out
of a line, and by `StrCount`, which looks for a place in it. The end of a list
of characters is the terminator of a line.
-/

namespace BugChecker.Wnd

/-- A character of the back buffer, with its color. -/
structure Cell where
  chr : Char
  clr : UInt8
  deriving DecidableEq

def toHex (c : Char) : UInt8 :=
  if '0' ≤ c ∧ c ≤ '9' then .ofNat (c.toNat - '0'.toNat)
  else if 'A' ≤ c ∧ c ≤ 'F' then .ofNat (c.toNat - 'A'.toNat + 10)
  else 0

/-- The loop over the tags at a place in a line: the color, and the place behind them. -/
def readTags (clr : UInt8) : List Char → UInt8 × List Char
  | '\n' :: a :: b :: s =>
    if isHex a && isHex b then readTags ((toHex a <<< 4) ||| toHex b) s
      else (clr, '\n' :: a :: b :: s)
  | s => (clr, s)

def passTags (s : List Char) : List Char := (readTags 0 s).2

def skipChars : Nat → UInt8 → List Char → UInt8 × List Char
  | 0, clr, s => (clr, s)
  | n + 1, clr, s =>
    if s = [] then skipChars n clr s
    else
      let (clr, s) := readTags clr s
      skipChars n clr s.tail

/-- The cells from a place in a line on. A blank has the color that there was before the tags. -/
def drawChars : Nat → UInt8 → List Char → List Cell
  | 0, _, _ => []
  | n + 1, clr, s =>
    match readTags clr s with
    | (next, []) => ⟨' ', clr⟩ :: drawChars n next []
    | (next, c :: s) => ⟨c, next⟩ :: drawChars n next s

/-- A row of `Wnd::Draw`, with or without a line to draw. -/
def drawRow (nrmClr : UInt8) (posX width : Nat) (line : Option (List Char)) : List Cell :=
  match line with
  | none => drawChars width nrmClr []
  | some s =>
    let (clr, s) := skipChars posX nrmClr s
    drawChars width clr s

/-- The loop of `StrLen`. Each turn takes a character. -/
def strLenLoop : Nat → Nat → List Char → List Char → Nat × List Char
  | 0, ret, out, _ => (ret, out)
  | n + 1, ret, out, s =>
    match passTags s with
    | [] => (ret, out)
    | c :: s => strLenLoop n (ret + 1) (out ++ [c]) s

/-- `StrLen`, with the text that it takes out. -/
def strLenOut (s : List Char) : Nat × List Char := strLenLoop (s.length + 1) 0 [] s

def strCount : Nat → List Char → Option (List Char)
  | 0, s => some s
  | n + 1, s =>
    match passTags s with
    | [] => none
    | _ :: s => strCount n s

-- ---------------------------------------------------------------------------
-- What a line is
-- ---------------------------------------------------------------------------

inductive Token where
  | tag (a b : Char)
  | chr (c : Char)
  deriving DecidableEq

def Token.text : Token → List Char
  | .tag a b => ['\n', a, b]
  | .chr c => [c]

def Token.chr? : Token → Option Char
  | .tag _ _ => none
  | .chr c => some c

def Token.color (clr : UInt8) : Token → UInt8
  | .tag a b => (toHex a <<< 4) ||| toHex b
  | .chr _ => clr

def tokens : List Char → List Token
  | '\n' :: a :: b :: s => if isHex a && isHex b then .tag a b :: tokens s
    else .chr '\n' :: tokens (a :: b :: s)
  | c :: s => .chr c :: tokens s
  | [] => []

def chars (ts : List Token) : List Char := ts.filterMap Token.chr?

def lastColor (nrmClr : UInt8) (ts : List Token) : UInt8 := ts.foldl Token.color nrmClr

/-- The characters, each in the color of the last tag before it. -/
def tokenCells (nrmClr : UInt8) (ts : List Token) : List Cell :=
  ts.zipIdx.filterMap fun t => t.1.chr?.map fun c => ⟨c, lastColor nrmClr (ts.take t.2)⟩

-- ---------------------------------------------------------------------------
-- Tokens
-- ---------------------------------------------------------------------------

theorem text_tokens (s : List Char) : (tokens s).flatMap Token.text = s := by
  induction s using tokens.induct with
  | case1 a b s hhex ih => rw [tokens, if_pos hhex, List.flatMap_cons, ih]; rfl
  | case2 a b s hhex ih => rw [tokens, if_neg hhex, List.flatMap_cons, ih]; rfl
  | case3 c s hne ih => rw [tokens.eq_2 _ _ hne, List.flatMap_cons, ih]; rfl
  | case4 => rfl

theorem chars_tokens (s : List Char) : chars (tokens s) = uncolored s := by
  induction s using tokens.induct with
  | case1 a b s hhex ih => rw [tokens, uncolored, if_pos hhex, if_pos hhex, ← ih]; rfl
  | case2 a b s hhex ih => rw [tokens, uncolored, if_neg hhex, if_neg hhex, ← ih]; rfl
  | case3 c s hne ih => rw [tokens.eq_2 _ _ hne, uncolored.eq_2 _ _ hne, ← ih]; rfl
  | case4 => rfl

theorem isHex_digit : ∀ n < 16, isHex ("0123456789ABCDEF".toList.getD n '0') = true := by decide

theorem toHex_digits : ∀ n < 256, (toHex ("0123456789ABCDEF".toList.getD (n / 16) '0') <<< 4) |||
    toHex ("0123456789ABCDEF".toList.getD (n % 16) '0') = UInt8.ofNat n := by
  decide +kernel

/-- The tag that the windows write for a color is one token, and sets this color. -/
theorem tokens_tag (clr : UInt8) :
    ∃ a b, (∀ rest, tokens (tag clr ++ rest) = .tag a b :: tokens rest) ∧
      ∀ nrmClr, Token.color nrmClr (.tag a b) = clr := by
  have hhigh := isHex_digit (clr.toNat / 16) (Nat.div_lt_of_lt_mul clr.toNat_lt)
  have hlow := isHex_digit (clr.toNat % 16) (Nat.mod_lt _ (Nat.succ_pos 15))
  have hcolor := toHex_digits clr.toNat clr.toNat_lt
  rw [UInt8.ofNat_toNat] at hcolor
  refine ⟨_, _, fun rest => (tokens.eq_1 _ _ rest).trans (if_pos ?_), fun _ => hcolor⟩
  rw [hhigh, hlow, Bool.and_self]

theorem tokenCells_cons (nrmClr : UInt8) (t : Token) (ts : List Token) :
    tokenCells nrmClr (t :: ts) = (t.chr?.map fun c => ⟨c, nrmClr⟩).toList ++
    tokenCells (t.color nrmClr) ts := by
  have hrest : ((ts.zipIdx 1).filterMap fun u =>
      u.1.chr?.map fun c => (⟨c, lastColor nrmClr ((t :: ts).take u.2)⟩ : Cell)) =
        tokenCells (t.color nrmClr) ts := by
    rw [List.zipIdx_succ, List.filterMap_map]
    rfl
  rw [tokenCells, List.zipIdx_cons, List.filterMap_cons, hrest]
  cases t with
  | tag a b => rfl
  | chr c => rfl

theorem tokenCells_tag (nrmClr : UInt8) (a b : Char) (ts : List Token) :
    tokenCells nrmClr (.tag a b :: ts) =
    tokenCells ((toHex a <<< 4) ||| toHex b) ts := tokenCells_cons nrmClr _ ts

theorem tokenCells_chr (nrmClr : UInt8) (c : Char) (ts : List Token) :
    tokenCells nrmClr (.chr c :: ts) =
    ⟨c, nrmClr⟩ :: tokenCells nrmClr ts := tokenCells_cons nrmClr _ ts

theorem chr_tokenCells (nrmClr : UInt8) (ts : List Token) :
    (tokenCells nrmClr ts).map Cell.chr = chars ts := by
  induction ts generalizing nrmClr with
  | nil => rfl
  | cons t ts ih =>
    rw [tokenCells_cons, List.map_append, ih]
    cases t with
    | tag a b => rfl
    | chr c => rfl

theorem readTags_spec (clr : UInt8) (s : List Char) :
    ∃ tags, chars tags = [] ∧ tokens s = tags ++ tokens (readTags clr s).2 ∧
      tokenCells clr (tokens s) = tokenCells (readTags clr s).1 (tokens (readTags clr s).2) ∧
      ∀ c rest, (readTags clr s).2 = c :: rest → tokens (c :: rest) = .chr c :: tokens rest := by
  induction clr, s using readTags.induct with
  | case1 clr a b s hhex ih =>
    obtain ⟨tags, hplain, htokens, hcells, hchr⟩ := ih
    rw [readTags, if_pos hhex, tokens, if_pos hhex, tokenCells_tag]
    exact ⟨.tag a b :: tags, hplain, congrArg _ htokens, hcells, hchr⟩
  | case2 clr a b s hhex =>
    rw [readTags, if_neg hhex]
    refine ⟨[], rfl, rfl, rfl, fun c rest h => ?_⟩
    cases h
    rw [tokens, if_neg hhex]
  | case3 clr s hne =>
    rw [readTags.eq_2 _ _ hne]
    refine ⟨[], rfl, rfl, rfl, fun c rest h => ?_⟩
    dsimp only at h
    subst h
    exact tokens.eq_2 _ _ fun a b t hc ht => hne a b t (by rw [hc, ht])

theorem chars_append (ts us : List Token) : chars (ts ++ us) = chars ts ++ chars us :=
  List.filterMap_append

theorem passTags_cons (h : passTags s = c :: rest) :
    ∃ tags, chars tags = [] ∧ tokens s = tags ++ .chr c :: tokens rest := by
  obtain ⟨tags, hplain, htokens, -, hchr⟩ := readTags_spec 0 s
  refine ⟨tags, hplain, ?_⟩
  rw [htokens, show (readTags 0 s).2 = c :: rest from h, hchr c rest h]

theorem passTags_nil (h : passTags s = []) : chars (tokens s) = [] := by
  obtain ⟨tags, hplain, htokens, -, -⟩ := readTags_spec 0 s
  rw [htokens, show (readTags 0 s).2 = [] from h, chars_append, hplain]
  rfl

theorem chars_passTags (h : passTags s = c :: rest) :
    chars (tokens s) = c :: chars (tokens rest) := by
  obtain ⟨tags, hplain, htokens⟩ := passTags_cons h
  rw [htokens, chars_append, hplain]
  rfl

-- ---------------------------------------------------------------------------
-- StrLen and StrCount
-- ---------------------------------------------------------------------------

theorem strLenLoop_eq (n ret : Nat) (out s : List Char) (h : (chars (tokens s)).length < n) :
    strLenLoop n ret out s = (ret + (chars (tokens s)).length, out ++ chars (tokens s)) := by
  induction n generalizing ret out s with
  | zero => cases h
  | succ n ih =>
    rw [strLenLoop]
    cases hpass : passTags s with
    | nil =>
      rw [passTags_nil hpass, List.append_nil]
      rfl
    | cons c rest =>
      rw [chars_passTags hpass] at h ⊢
      rw [List.length_cons] at h
      dsimp only
      rw [ih _ _ _ (Nat.lt_of_succ_lt_succ h), List.append_assoc, List.length_cons]
      congr 1
      omega

theorem length_chars_le (s : List Char) : (chars (tokens s)).length ≤ s.length := by
  rw [chars_tokens]
  induction s using uncolored.induct with
  | case1 a b s hhex ih =>
    rw [uncolored, if_pos hhex]
    simp only [List.length_cons]
    omega
  | case2 a b s hhex ih =>
    rw [uncolored, if_neg hhex]
    exact Nat.succ_le_succ ih
  | case3 c s hne ih =>
    rw [uncolored.eq_2 _ _ hne]
    exact Nat.succ_le_succ ih
  | case4 => exact Nat.le_refl 0

theorem strLenOut_eq (s : List Char) :
    strLenOut s = ((chars (tokens s)).length, chars (tokens s)) := by
  rw [strLenOut, strLenLoop_eq _ _ _ _ (Nat.lt_succ_of_le (length_chars_le s)), Nat.zero_add,
    List.nil_append]

theorem strCount_eq_none_iff (n : Nat) (s : List Char) :
    strCount n s = none ↔ (chars (tokens s)).length < n := by
  induction n generalizing s with
  | zero => exact iff_of_false (Option.some_ne_none s) (Nat.not_lt_zero _)
  | succ n ih =>
    rw [strCount]
    cases hpass : passTags s with
    | nil =>
      rw [passTags_nil hpass]
      exact iff_of_true rfl (Nat.succ_pos n)
    | cons c rest =>
      rw [chars_passTags hpass, List.length_cons, Nat.add_lt_add_iff_right]
      exact ih rest

theorem strCount_place (n : Nat) (s rest : List Char) (h : strCount (n + 1) s = some rest) :
    ∃ ts c, tokens s = ts ++ .chr c :: tokens rest ∧ (chars ts).length = n := by
  induction n generalizing s with
  | zero =>
    rw [strCount] at h
    cases hpass : passTags s with
    | nil =>
      rw [hpass] at h
      cases h
    | cons c t =>
      rw [hpass] at h
      cases h
      obtain ⟨tags, hplain, htokens⟩ := passTags_cons hpass
      exact ⟨tags, c, htokens, by rw [hplain]; rfl⟩
  | succ n ih =>
    rw [strCount] at h
    cases hpass : passTags s with
    | nil =>
      rw [hpass] at h
      cases h
    | cons c t =>
      rw [hpass] at h
      obtain ⟨tags, hplain, htokens⟩ := passTags_cons hpass
      obtain ⟨ts, d, hts, hlength⟩ := ih t h
      refine ⟨tags ++ .chr c :: ts, d, ?_, ?_⟩
      · rw [htokens, hts, List.append_assoc, List.cons_append]
      · have hcons : chars (.chr c :: ts) = c :: chars ts := rfl
        rw [chars_append, hplain, hcons, List.nil_append, List.length_cons, hlength]

-- ---------------------------------------------------------------------------
-- Draw
-- ---------------------------------------------------------------------------

theorem skipChars_spec (n : Nat) (clr : UInt8) (s : List Char) :
    tokenCells (skipChars n clr s).1 (tokens (skipChars n clr s).2) =
    (tokenCells clr (tokens s)).drop n := by
  induction n generalizing clr s with
  | zero => rfl
  | succ n ih =>
    rw [skipChars]
    by_cases hs : s = []
    · rw [if_pos hs, ih, hs]
      exact List.drop_nil.trans List.drop_nil.symm
    · obtain ⟨tags, -, -, hcells, hchr⟩ := readTags_spec clr s
      rw [if_neg hs]
      dsimp only
      rw [ih, hcells]
      cases hread : (readTags clr s).2 with
      | nil => exact List.drop_nil.trans List.drop_nil.symm
      | cons c rest =>
        rw [hchr c rest hread, tokenCells_chr, List.drop_succ_cons]
        rfl

theorem drawChars_spec (n : Nat) (clr : UInt8) (s : List Char) :
    ∃ blanks, drawChars n clr s = (tokenCells clr (tokens s)).take n ++ blanks ∧
      (drawChars n clr s).length = n ∧ ∀ c ∈ blanks, c.chr = ' ' := by
  induction n generalizing clr s with
  | zero => exact ⟨[], rfl, rfl, fun _ h => by cases h⟩
  | succ n ih =>
    obtain ⟨tags, -, -, hcells, hchr⟩ := readTags_spec clr s
    obtain ⟨next, place, hread⟩ : ∃ next place, readTags clr s = (next, place) := ⟨_, _, rfl⟩
    rw [hread] at hcells hchr
    rw [drawChars, hread, hcells]
    cases place with
    | nil =>
      obtain ⟨blanks, hdraw, hlength, hblanks⟩ := ih next []
      refine ⟨⟨' ', clr⟩ :: blanks, ?_, congrArg Nat.succ hlength,
        List.forall_mem_cons.mpr ⟨rfl, hblanks⟩⟩
      have hnil : ∀ k, (tokenCells next (tokens [])).take k = [] := fun k => List.take_nil
      dsimp only
      rw [hdraw, hnil, hnil]
      rfl
    | cons c rest =>
      obtain ⟨blanks, hdraw, hlength, hblanks⟩ := ih next rest
      refine ⟨blanks, ?_, congrArg Nat.succ hlength, hblanks⟩
      dsimp only
      rw [hdraw, hchr c rest rfl, tokenCells_chr, List.take_succ_cons]
      rfl

/-- A row shows a part of the text that `StrLen` takes out of the line, in the colors of the line,
and `StrCount` finds the places of its characters. -/
theorem drawRow_slice (nrmClr : UInt8) (posX width : Nat) (line : List Char) :
    (∃ blanks, drawRow nrmClr posX width (some line) =
        ((tokenCells nrmClr (tokens line)).drop posX).take width ++ blanks ∧
      (drawRow nrmClr posX width (some line)).length = width ∧ ∀ c ∈ blanks, c.chr = ' ') ∧
      (strLenOut line).2 = (tokenCells nrmClr (tokens line)).map Cell.chr ∧
      (strLenOut line).1 = (strLenOut line).2.length ∧
      (∀ n, strCount n line = none ↔ (strLenOut line).2.length < n) ∧ strCount 0 line = some line ∧
      ∀ n rest, strCount (n + 1) line = some rest →
        ∃ ts c, tokens line = ts ++ .chr c :: tokens rest ∧ (chars ts).length = n ∧
          (tokens rest).flatMap Token.text = rest ∧ (tokens line).flatMap Token.text = line := by
  refine ⟨?_, ?_, ?_, fun n => ?_, rfl, fun n rest h => ?_⟩
  · obtain ⟨blanks, hdraw, hlength, hblanks⟩ :=
      drawChars_spec width (skipChars posX nrmClr line).1 (skipChars posX nrmClr line).2
    rw [skipChars_spec] at hdraw
    exact ⟨blanks, hdraw, hlength, hblanks⟩
  · rw [strLenOut_eq, chr_tokenCells]
  · rw [strLenOut_eq]
  · rw [strLenOut_eq]
    exact strCount_eq_none_iff n line
  · obtain ⟨ts, c, htokens, hlength⟩ := strCount_place n line rest h
    exact ⟨ts, c, htokens, hlength, text_tokens rest, text_tokens line⟩

-- ---------------------------------------------------------------------------
-- Widths
-- ---------------------------------------------------------------------------

def tagCount : List Token → Nat
  | [] => 0
  | .tag _ _ :: ts => tagCount ts + 1
  | .chr _ :: ts => tagCount ts

/-- The tags in front of the `n`-th character. -/
def tagsBefore : Nat → List Token → Nat
  | 0, _ => 0
  | _ + 1, [] => 0
  | n + 1, .tag _ _ :: ts => tagsBefore (n + 1) ts + 1
  | n + 1, .chr _ :: ts => tagsBefore n ts

@[simp] theorem tagsBefore_zero (ts : List Token) : tagsBefore 0 ts = 0 := by cases ts <;> rfl

theorem chars_tag (a b : Char) (ts : List Token) : chars (.tag a b :: ts) = chars ts := rfl

theorem length_chars_chr (c : Char) (ts : List Token) :
    (chars (.chr c :: ts)).length = (chars ts).length + 1 := rfl

theorem tagCount_append (ts us : List Token) : tagCount (ts ++ us) = tagCount ts + tagCount us := by
  induction ts using tagCount.induct with
  | case1 => exact (Nat.zero_add _).symm
  | case2 a b ts ih =>
    rw [List.cons_append, tagCount, tagCount, ih]
    omega
  | case3 c ts ih => rw [List.cons_append, tagCount, tagCount, ih]

theorem length_text (ts : List Token) :
    (ts.flatMap Token.text).length = (chars ts).length + 3 * tagCount ts := by
  induction ts using tagCount.induct with
  | case1 => rfl
  | case2 a b ts ih =>
    rw [List.flatMap_cons, List.length_append, ih, chars_tag, tagCount, Token.text]
    simp only [List.length_cons, List.length_nil]
    omega
  | case3 c ts ih =>
    rw [List.flatMap_cons, List.length_append, ih, length_chars_chr, tagCount, Token.text]
    simp only [List.length_cons, List.length_nil]
    omega

theorem length_eq (s : List Char) :
    s.length = (chars (tokens s)).length + 3 * tagCount (tokens s) := by
  rw [← length_text, text_tokens]

theorem tagsBefore_add (n : Nat) (ts us : List Token) :
    tagsBefore ((chars ts).length + (n + 1)) (ts ++ us) = tagCount ts + tagsBefore (n + 1) us := by
  induction ts using tagCount.induct with
  | case1 =>
    rw [List.nil_append, tagCount, Nat.zero_add]
    exact congrArg (tagsBefore · us) (Nat.zero_add _)
  | case2 a b ts ih =>
    rw [← Nat.add_assoc] at ih ⊢
    rw [chars_tag, List.cons_append, tagsBefore, ih, tagCount]
    omega
  | case3 c ts ih => rw [length_chars_chr, Nat.add_right_comm, List.cons_append, tagsBefore, ih,
    tagCount]

theorem tagsBefore_append_le (n : Nat) (ts us : List Token) (h : n ≤ (chars ts).length) :
    tagsBefore n (ts ++ us) ≤ tagCount ts := by
  induction n, ts using tagsBefore.induct with
  | case1 ts =>
    rw [tagsBefore_zero]
    exact Nat.zero_le _
  | case2 n => cases h
  | case3 n a b ts ih =>
    rw [List.cons_append, tagsBefore, tagCount]
    exact Nat.add_le_add_right (ih h) 1
  | case4 n c ts ih =>
    rw [List.cons_append, tagsBefore, tagCount]
    exact ih (Nat.le_of_succ_le_succ h)

theorem strCount_length (n : Nat) (s rest : List Char) (h : strCount (n + 1) s = some rest) :
    s.length - rest.length = n + 1 + 3 * tagsBefore (n + 1) (tokens s) := by
  obtain ⟨ts, c, htokens, hlength⟩ := strCount_place n s rest h
  have hbefore : tagsBefore (n + 1) (tokens s) = tagCount ts := by
    have hhead := tagsBefore_add 0 ts (.chr c :: tokens rest)
    rwa [tagsBefore, hlength, Nat.zero_add, tagsBefore_zero, Nat.add_zero, ← htokens] at hhead
  have htext := length_text (tokens s)
  rw [text_tokens, htokens, chars_append, List.length_append, length_chars_chr, tagCount_append,
    tagCount, hlength] at htext
  have hrest := length_text (tokens rest)
  rw [text_tokens] at hrest
  omega

theorem tagsBefore_append_blanks (n k : Nat) (ts : List Token) :
    tagsBefore n (ts ++ List.replicate k (.chr ' ')) = tagsBefore n ts := by
  have hblanks (n k : Nat) : tagsBefore n (List.replicate k (.chr ' ')) = 0 := by
    induction k generalizing n with
    | zero => cases n <;> rfl
    | succ k ih =>
      cases n with
      | zero => rfl
      | succ n => exact ih n
  induction n, ts using tagsBefore.induct with
  | case1 ts => rw [tagsBefore_zero, tagsBefore_zero]
  | case2 n => exact hblanks (n + 1) k
  | case3 n a b ts ih => exact congrArg Nat.succ ih
  | case4 n c ts ih => exact ih

theorem length_chars_append_blanks (k : Nat) (ts : List Token) :
    (chars (ts ++ List.replicate k (.chr ' '))).length = (chars ts).length + k := by
  have hblanks : chars (List.replicate k (.chr ' ')) = List.replicate k ' ' :=
    List.filterMap_replicate
  rw [chars_append, hblanks, List.length_append, List.length_replicate]

/-- A text whose tokens are the same in front of any other text. -/
def Whole (s : List Char) (width tags : Nat) : Prop :=
  ∃ ts, (∀ rest, tokens (s ++ rest) = ts ++ tokens rest) ∧ (chars ts).length = width ∧
    tagCount ts = tags

theorem Whole.append (hs : Whole s w k) (ht : Whole t x l) : Whole (s ++ t) (w + x) (k + l) := by
  obtain ⟨ts, htokens, rfl, rfl⟩ := hs
  obtain ⟨us, hrest, rfl, rfl⟩ := ht
  refine ⟨ts ++ us, fun rest => ?_, ?_, tagCount_append ts us⟩
  · rw [List.append_assoc, htokens, hrest, List.append_assoc]
  · rw [chars_append, List.length_append]

theorem Whole.length_eq (h : Whole s w k) : s.length = w + 3 * k := by
  obtain ⟨ts, htokens, rfl, rfl⟩ := h
  have hts : tokens s = ts := by simpa only [List.append_nil, tokens] using htokens []
  rw [BugChecker.Wnd.length_eq, hts]

theorem whole_plain (h : '\n' ∉ s) : Whole s s.length 0 := by
  induction s with
  | nil => exact ⟨[], fun _ => rfl, rfl, rfl⟩
  | cons c s ih =>
    obtain ⟨ts, htokens, hwidth, htags⟩ := ih fun hs => h (List.mem_cons_of_mem c hs)
    refine ⟨.chr c :: ts, fun rest => ?_, congrArg Nat.succ hwidth, htags⟩
    have hc : c ≠ '\n' := fun hc => h (hc ▸ List.mem_cons_self)
    rw [List.cons_append, tokens.eq_2 _ _ fun _ _ _ hc' => absurd hc' hc, htokens, List.cons_append]

theorem whole_tag (clr : UInt8) : Whole (tag clr) 0 1 := by
  obtain ⟨a, b, htokens, -⟩ := tokens_tag clr
  exact ⟨[.tag a b], htokens, rfl, rfl⟩

theorem tokens_cons (c : Char) (s : List Char)
    (h : ∀ a b rest, c = '\n' → s = a :: b :: rest → (isHex a && isHex b) = false) :
    tokens (c :: s) = .chr c :: tokens s := by
  by_cases hs : c = '\n' ∧ ∃ a b rest, s = a :: b :: rest
  · obtain ⟨rfl, a, b, rest, rfl⟩ := hs
    rw [tokens, h a b rest rfl rfl, if_neg Bool.false_ne_true]
  · exact tokens.eq_2 _ _ fun a b rest hc hrest => hs ⟨hc, a, b, rest, hrest⟩

theorem tokens_append_blanks (s : List Char) (k : Nat) :
    tokens (s ++ List.replicate k ' ') = tokens s ++ List.replicate k (.chr ' ') := by
  have hblank : isHex ' ' = false := rfl
  have hblanks (k : Nat) : tokens (List.replicate k ' ') = List.replicate k (.chr ' ') := by
    induction k with
    | zero => rfl
    | succ k ih =>
      rw [List.replicate_succ, tokens_cons _ _ fun _ _ _ hc => absurd hc (by decide), ih,
        List.replicate_succ]
  induction s using tokens.induct with
  | case1 a b s hhex ih =>
    rw [tokens, if_pos hhex, List.cons_append, List.cons_append, List.cons_append, tokens,
      if_pos hhex, ih, List.cons_append]
  | case2 a b s hhex ih =>
    rw [tokens, if_neg hhex, List.cons_append, List.cons_append, List.cons_append, tokens,
      if_neg hhex, ← List.cons_append, ← List.cons_append, ih, List.cons_append]
  | case3 c s hne ih =>
    rw [tokens.eq_2 _ _ hne, List.cons_append, tokens_cons, ih, List.cons_append]
    intro a b rest hc hs
    -- a tag cannot be cut off in front of a blank
    match s with
    | [] =>
      have hs : List.replicate k ' ' = a :: b :: rest := hs
      have ha : a ∈ List.replicate k ' ' := hs ▸ List.mem_cons_self
      rw [List.eq_of_mem_replicate ha, hblank, Bool.false_and]
    | [d] =>
      have hs : List.replicate k ' ' = b :: rest := (List.cons.inj hs).2
      have hb : b ∈ List.replicate k ' ' := hs ▸ List.mem_cons_self
      rw [List.eq_of_mem_replicate hb, hblank, Bool.and_false]
    | d :: e :: s => exact absurd rfl (hne d e s hc)
  | case4 => exact hblanks k

end BugChecker.Wnd
