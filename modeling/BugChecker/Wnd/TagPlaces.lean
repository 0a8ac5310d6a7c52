import BugChecker.Wnd.Editor

/-!
# Where the tags are

A tag of a colored line stands between two characters of the script. It is at
a quote, before a comment or at the end of a word, so that no keyword and no
opener of a comment is cut in two by it.
-/

namespace BugChecker.Wnd

-- ---------------------------------------------------------------------------
-- Places
-- ---------------------------------------------------------------------------

/-- The places of the tags of a line, with `k` digits of a tag to come and `n` characters of the
script before. -/
def tagPlaces : Nat → Nat → List Char → List Nat
  | _, _, [] => []
  | 0, n, c :: s => if c = '\n' then n :: tagPlaces 2 n s else tagPlaces 0 (n + 1) s
  | k + 1, n, _ :: s => tagPlaces k n s

theorem tagPlaces_append (k n : Nat) (a b : List Char) (h : tagState k a = some k') :
    tagPlaces k n (a ++ b) = tagPlaces k n a ++ tagPlaces k' (n + (visible k a).length) b := by
  induction a generalizing k n with
  | nil =>
    obtain rfl : k = k' := Option.some.inj h
    rfl
  | cons c a ih =>
    cases k with
    | zero =>
      rw [tagState] at h
      simp only [List.cons_append, tagPlaces, visible]
      split at h
      · next hc =>
        rw [if_pos hc, if_pos hc, if_pos hc, ih 2 n h, List.cons_append]
      · next hc =>
        rw [if_neg hc, if_neg hc, if_neg hc, ih 0 (n + 1) h, List.length_cons, Nat.add_assoc,
          Nat.add_comm 1]
    | succ k =>
      simp only [List.cons_append, tagPlaces, visible]
      rw [tagState] at h
      split at h
      · exact ih k n h
      · cases h

theorem Shows.tagPlaces_append (h : Shows a s) (n : Nat) (b : List Char) :
    tagPlaces 0 n (a ++ b) = tagPlaces 0 n a ++ tagPlaces 0 (n + s.length) b := by
  rw [Wnd.tagPlaces_append 0 n a b h.tagged, h.visible]

theorem tagPlaces_tag (n : Nat) (clr : UInt8) : tagPlaces 0 n (tag clr) = [n] := rfl

theorem tagPlaces_plain (h : '\n' ∉ s) (n : Nat) : tagPlaces 0 n s = [] := by
  induction s generalizing n with
  | nil => rfl
  | cons c s ih =>
    obtain ⟨hc, hs⟩ : c ≠ '\n' ∧ '\n' ∉ s := by simpa [eq_comm] using h
    rw [tagPlaces, if_neg hc, ih hs]

theorem tagPlaces_cons (h : c ≠ '\n') (n : Nat) (s : List Char) :
    tagPlaces 0 n (c :: s) = tagPlaces 0 (n + 1) s := if_neg h

theorem tagPlaces_singleton (h : c ≠ '\n') (n : Nat) : tagPlaces 0 n [c] = [] :=
  tagPlaces_plain (by simpa using Ne.symm h) n

-- ---------------------------------------------------------------------------
-- What a tag may stand between
-- ---------------------------------------------------------------------------

def idChar (c : Char) : Bool :=
  ('0' ≤ c && c ≤ '9') || ('a' ≤ c && c ≤ 'z') || ('A' ≤ c && c ≤ 'Z')

def commentOpeners : List (List Char) := [['/', '/'], ['/', '*']]

/-- The two characters at a place are not both of a word, and do not open a comment. -/
def Apart (text : List Char) (n : Nat) : Prop :=
  ∀ x ∈ (text.take n).getLast?, ∀ y ∈ (text.drop n).head?,
    (idChar x && idChar y) = false ∧ [x, y] ∉ commentOpeners

/-- A token begins before a place and ends after it. -/
def SplitsAt (text : List Char) (n : Nat) (token : List Char) : Prop :=
  ∃ a b, a ≠ [] ∧ b ≠ [] ∧ token = a ++ b ∧ a <:+ text.take n ∧ b <+: text.drop n

theorem Apart.of_left (h : ∀ x ∈ (text.take n).getLast?, idChar x = false ∧ x ≠ '/') :
    Apart text n := by
  intro x hx y _
  obtain ⟨hid, hslash⟩ := h x hx
  exact ⟨by rw [hid, Bool.false_and], by simp [commentOpeners, hslash]⟩

theorem Apart.of_right (h : ∀ y ∈ (text.drop n).head?, idChar y = false ∧ y ≠ '/' ∧ y ≠ '*') :
    Apart text n := by
  intro x _ y hy
  obtain ⟨hid, hslash, hstar⟩ := h y hy
  exact ⟨by rw [hid, Bool.and_false], by simp [commentOpeners, hslash, hstar]⟩

theorem keywords_idChar (h : keyword ∈ keywords) : ∀ c ∈ keyword, idChar c = true := by
  have hall : keywords.all (fun kw => kw.all idChar) = true := rfl
  exact List.all_eq_true.mp (List.all_eq_true.mp hall keyword h)

theorem Apart.not_splitsAt (h : Apart text n) (htoken : token ∈ keywords ++ commentOpeners) :
    ¬ SplitsAt text n token := by
  rintro ⟨a, b, ha, hb, rfl, hsuffix, hstart⟩
  obtain ⟨front, x, rfl⟩ := (List.eq_nil_or_concat a).resolve_left ha
  obtain ⟨y, back, rfl⟩ := List.exists_cons_of_ne_nil hb
  rw [List.concat_eq_append] at hsuffix htoken
  obtain ⟨before, hbefore⟩ := hsuffix
  obtain ⟨after, hafter⟩ := hstart
  obtain ⟨hid, hopener⟩ := h x (by rw [← hbefore]; simp) y (by rw [← hafter]; simp)
  rcases List.mem_append.mp htoken with hkeyword | hcomment
  · have hx := keywords_idChar hkeyword x (by simp)
    have hy := keywords_idChar hkeyword y (by simp)
    rw [hx, hy] at hid
    cases hid
  · refine hopener ?_
    have hlength : ∀ token ∈ commentOpeners, token.length = 2 := by decide
    have htwo := hlength _ hcomment
    simp only [List.length_append, List.length_cons, List.length_nil] at htwo
    obtain rfl : front = [] := List.eq_nil_of_length_eq_zero (by omega)
    obtain rfl : back = [] := List.eq_nil_of_length_eq_zero (by omega)
    exact hcomment

-- ---------------------------------------------------------------------------
-- Strings and comments
-- ---------------------------------------------------------------------------

theorem quote_cases (h : isQuote c = true) : idChar c = false ∧ c ≠ '/' ∧ c ≠ '*' := by
  simp only [isQuote, Bool.or_eq_true, decide_eq_true_eq] at h
  rcases h with (rfl | rfl) | rfl
  · decide
  · decide
  · decide

theorem apart_before (h : idChar c = false ∧ c ≠ '/' ∧ c ≠ '*') :
    Apart (text ++ [c] ++ rest) text.length := by
  refine Apart.of_right fun y hy => ?_
  obtain rfl : c = y := by simpa using hy
  exact h

theorem apart_after (h : idChar c = false ∧ c ≠ '/' ∧ c ≠ '*') :
    Apart (text ++ [c] ++ rest) (text ++ [c]).length := by
  refine Apart.of_left fun x hx => ?_
  rw [List.take_left, List.getLast?_concat] at hx
  obtain rfl : c = x := Option.some.inj hx
  exact ⟨h.1, h.2.1⟩

theorem apart_slash (h : text.getLast? ≠ some '/') : Apart (text ++ ('/' :: rest)) text.length := by
  intro x hx y hy
  rw [List.take_left] at hx
  obtain rfl : '/' = y := by simpa using hy
  have hne : x ≠ '/' := fun heq => h (heq ▸ hx)
  exact ⟨Bool.and_false _, by simp [commentOpeners, hne]⟩

/-- Outside of a string two slashes in a row are a comment, so no pair of them is passed over; and
the line is cut behind a slash only where a slash was read. -/
structure NoPair (strIndex : Option Nat) (done text : List Char) : Prop where
  slash : strIndex = none → text.getLast? = some '/' → done.getLast? = some '/'
  pair : strIndex = none → ¬ ['/', '/'] <:+ text

theorem noPair_of_ne (h : c ≠ '/') (done : List Char) : NoPair strIndex done (text ++ [c]) := by
  constructor
  · intro _ hlast
    rw [List.getLast?_concat] at hlast
    exact absurd (Option.some.inj hlast) h
  · rintro _ ⟨front, hfront⟩
    rw [← List.singleton_append, ← List.append_assoc] at hfront
    exact h (List.append_singleton_inj.mp hfront).2.symm

theorem colorStrings_apart (clrs : Colors) (exclusion : Exclusion) (strIndex : Option Nat)
    (slashCn : Nat) (done rest : List Char) (hdone : Shows done text) (hrest : '\n' ∉ rest)
    (hpair : NoPair strIndex done text)
    (hplaces : ∀ n ∈ tagPlaces 0 0 done, Apart (text ++ rest) n) :
    ∀ n ∈ tagPlaces 0 0 (colorStrings clrs exclusion strIndex slashCn done rest).1,
      Apart (text ++ rest) n := by
  induction rest generalizing exclusion strIndex slashCn done text with
  | nil => exact hplaces
  | cons c rest ih =>
    obtain ⟨hc, hrest'⟩ : c ≠ '\n' ∧ '\n' ∉ rest := by
      simpa [eq_comm] using hrest
    have hmove : Shows (done ++ [c]) (text ++ [c]) := hdone.append (shows_singleton hc)
    have htext : text ++ c :: rest = text ++ [c] ++ rest := by simp
    simp only [colorStrings]
    split
    · next hcomment =>
      obtain ⟨rfl, hnone, hlast⟩ := hcomment
      obtain ⟨front, rfl⟩ := List.getLast?_eq_some_iff.mp hlast
      obtain ⟨s, t, hs, ht, rfl⟩ := hdone.split (c := '/') (b := []) (by decide)
      obtain rfl : t = ['/'] := by
        obtain ⟨t', rfl, ht'⟩ := ht.cons_inv (by decide)
        rw [← ht'.visible]
        rfl
      intro n hn
      rw [List.dropLast_concat, hs.tagPlaces_append, (shows_tag _).tagPlaces_append, tagPlaces_tag,
        tagPlaces_plain (by simpa using hrest' : '\n' ∉ '/' :: '/' :: rest), List.append_nil,
        List.mem_append] at hn
      rcases hn with hn | hn
      · exact hplaces n (by rw [hs.tagPlaces_append]; exact List.mem_append_left _ hn)
      · -- before the first of the two slashes there is none
        obtain rfl : n = s.length := by simpa using hn
        rw [List.append_assoc]
        exact apart_slash fun hlast => by
          obtain ⟨before, rfl⟩ := List.getLast?_eq_some_iff.mp hlast
          exact hpair.pair hnone ⟨before, by simp⟩
    · next hcomment =>
      split
      · next hopen =>
        rw [htext] at hplaces ⊢
        refine ih _ _ _ _ (hdone.append ((shows_tag _).append (shows_singleton hc))) hrest'
          (noPair_of_ne (quote_cases hopen.1).2.1 _) fun n hn => ?_
        rw [hdone.tagPlaces_append, List.mem_append] at hn
        rcases hn with hn | hn
        · exact hplaces n hn
        · obtain rfl : n = text.length := by
            rw [(shows_tag _).tagPlaces_append, tagPlaces_tag, tagPlaces_singleton hc] at hn
            simpa using hn
          exact apart_before (quote_cases hopen.1)
      · split
        · next hclose =>
          rw [htext] at hplaces ⊢
          have happ := hmove.append (shows_tag clrs.nrmClr)
          rw [List.append_nil, List.append_assoc, List.singleton_append] at happ
          refine ih _ _ _ _ happ hrest' (noPair_of_ne (quote_cases hclose.1).2.1 _) fun n hn => ?_
          rw [← List.singleton_append, ← List.append_assoc, hmove.tagPlaces_append, tagPlaces_tag,
            hdone.tagPlaces_append, tagPlaces_singleton hc, List.append_nil, List.mem_append] at hn
          rcases hn with hn | hn
          · exact hplaces n hn
          · obtain rfl : n = (text ++ [c]).length := by simpa using hn
            exact apart_after (quote_cases hclose.1)
        · rw [htext] at hplaces ⊢
          refine ih _ _ _ _ hmove hrest' ?_ fun n hn => ?_
          · by_cases hslash : c = '/'
            · subst hslash
              refine ⟨fun _ _ => List.getLast?_concat, ?_⟩
              rintro hnone ⟨before, hbefore⟩
              have hlast : text.getLast? = some '/' := by
                rw [← List.singleton_append, ← List.append_assoc] at hbefore
                rw [← (List.append_singleton_inj.mp hbefore).1]
                exact List.getLast?_concat
              exact hcomment ⟨rfl, hnone, hpair.slash hnone hlast⟩
            · exact noPair_of_ne hslash _
          · rw [hdone.tagPlaces_append, tagPlaces_singleton hc, List.append_nil] at hn
            exact hplaces n hn

-- ---------------------------------------------------------------------------
-- Keywords
-- ---------------------------------------------------------------------------

theorem tagPlaces_tag_if (n : Nat) (clr : UInt8) (p : Prop) [Decidable p] :
    tagPlaces 0 n (if p then tag clr else []) = if p then [n] else [] := by
  split
  · rfl
  · rfl

theorem mem_tagPlaces_mark (h : Shows (done ++ c :: rest) text) (hhex : isHex c = false)
    (hc : c ≠ '\n') (p q : Prop) [Decidable p] [Decidable q] (clr clr' : UInt8)
    (hn : n ∈ tagPlaces 0 0
      (done ++ ((if p then tag clr else []) ++ c :: (if q then tag clr' else [])) ++ rest)) :
    n ∈ tagPlaces 0 0 (done ++ c :: rest) ∨ (p ∧ n = (visible 0 done).length) ∨
      (q ∧ n = (visible 0 done).length + 1) := by
  obtain ⟨s, t, hs, -, -⟩ := h.split hhex
  have hlen : (visible 0 done).length = s.length := by rw [hs.visible]
  rw [List.append_assoc, hs.tagPlaces_append, List.append_assoc,
    (shows_tag_if _ _).tagPlaces_append, tagPlaces_tag_if, List.cons_append, tagPlaces_cons hc,
    (shows_tag_if _ _).tagPlaces_append, tagPlaces_tag_if] at hn
  rw [hs.tagPlaces_append, tagPlaces_cons hc, hlen]
  simp only [List.mem_append, List.length_nil, Nat.add_zero, Nat.zero_add] at hn ⊢
  rcases hn with hn | hn | hn | hn
  · exact .inl (.inl hn)
  · split at hn
    · next hp => exact .inr (.inl ⟨hp, List.mem_singleton.mp hn⟩)
    · cases hn
  · split at hn
    · next hq => exact .inr (.inr ⟨hq, List.mem_singleton.mp hn⟩)
    · cases hn
  · exact .inl (.inr hn)

theorem length_visible_mark (h : Shows (done ++ c :: rest) text) (hhex : isHex c = false)
    (hc : c ≠ '\n') (hstart : Shows startTag []) (hend : Shows endTag []) :
    (visible 0 (done ++ (startTag ++ c :: endTag))).length = (visible 0 done).length + 1 := by
  obtain ⟨s, t, hs, -, -⟩ := h.split hhex
  have hall := hs.append (hstart.append ((shows_singleton hc).append hend))
  rw [List.singleton_append] at hall
  rw [hall.visible, hs.visible]
  simp

theorem visible_letters (h : Letters word) (s : List Char) :
    visible 0 (word ++ s) = word ++ visible 0 s := by
  have hplain := tagged_of_plain (s := word) fun hmem => (h _ hmem).2 rfl
  rw [hplain.1.visible_append, hplain.2]

theorem idChar_of_isIdChar {text textUnc : List Char} {pos n : Nat} {offset : Int}
    (h : isIdChar text textUnc pos offset = false) (hpos : pos < text.length)
    (hn : (indexToPos text pos : Int) + offset = n) : ∀ c ∈ textUnc[n]?, idChar c = false := by
  intro c hc
  rw [isIdChar, if_neg (Nat.not_le.mpr hpos)] at h
  simp only [hn] at h
  obtain ⟨hlt, rfl⟩ := List.getElem?_eq_some_iff.mp hc
  rw [if_neg (by omega), Int.toNat_natCast, List.getD_eq_getElem _ _ hlt] at h
  exact h

theorem not_opener_of_idChar (h : idChar x = true ∨ idChar y = true) : [x, y] ∉ commentOpeners := by
  intro hmem
  have hall : ∀ token ∈ commentOpeners, token.all (!idChar ·) = true := by decide
  have hx := List.all_eq_true.mp (hall _ hmem) x (by simp)
  have hy := List.all_eq_true.mp (hall _ hmem) y (by simp)
  rw [Bool.not_eq_true'] at hx hy
  simp [hx, hy] at h

theorem marked_apart {done rest keyword text : List Char} {exclusion : Exclusion}
    (h : Shows (done ++ keyword ++ rest) text)
    (hkeyword : Letters keyword) (hid : ∀ c ∈ keyword, idChar c = true) (hne : keyword ≠ [])
    (hmarked : (!isIdChar (done ++ keyword ++ rest) text done.length (-1) &&
      !isIdChar (done ++ keyword ++ rest) text done.length keyword.length &&
      !exCheck (done ++ keyword ++ rest) exclusion done.length) = true) :
    Apart text (visible 0 done).length ∧ Apart text ((visible 0 done).length + keyword.length) := by
  obtain ⟨k, kws, rfl⟩ := List.exists_cons_of_ne_nil hne
  have hk := hkeyword k List.mem_cons_self
  obtain ⟨s, t, hs, ht, rfl⟩ :=
    Shows.split (a := done) (c := k) (b := kws ++ rest) (by simpa using h) hk.1
  have hvisible : t = (k :: kws) ++ visible 0 rest := by
    rw [← visible_letters hkeyword, ← ht.visible]
    rfl
  have hindex : indexToPos (done ++ (k :: kws) ++ rest) done.length = s.length := by
    rw [indexToPos, List.append_assoc, List.take_left, strLen, hs.uncolored]
  have hpos : done.length < (done ++ (k :: kws) ++ rest).length := by simp
  simp only [Bool.and_eq_true, Bool.not_eq_true'] at hmarked
  obtain ⟨⟨hbefore, hafter⟩, -⟩ := hmarked
  rw [hs.visible]
  subst hvisible
  constructor
  · intro x hx y hy
    rw [List.take_left] at hx
    obtain ⟨front, rfl⟩ := List.getLast?_eq_some_iff.mp hx
    obtain rfl : k = y := by simpa using hy
    have hidx := idChar_of_isIdChar (n := front.length) hbefore hpos
      (by rw [hindex, List.length_append, List.length_singleton]; omega) x (by simp)
    exact ⟨by rw [hidx, Bool.false_and], not_opener_of_idChar (.inr (hid k List.mem_cons_self))⟩
  · intro x hx y hy
    rw [← List.append_assoc, ← List.length_append] at hx hy
    rw [List.take_left] at hx
    rw [List.drop_left] at hy
    have hidx := hid x (List.mem_of_getLast? (by simpa using hx))
    have hidy := idChar_of_isIdChar (n := s.length + (k :: kws).length) hafter hpos
      (by rw [hindex, Int.natCast_add]) y (by
        rw [← List.append_assoc, ← List.length_append, List.getElem?_append_right (Nat.le_refl _),
          Nat.sub_self, ← List.head?_eq_getElem?]
        exact hy)
    exact ⟨by rw [hidy, Bool.and_false], not_opener_of_idChar (.inl hidx)⟩

theorem colorKeyword_apart (clrs : Colors) (exclusion : Exclusion) (hkeyword : Letters keyword)
    (hid : ∀ c ∈ keyword, idChar c = true) (hne : keyword ≠ []) (left : Nat) (marked : Bool)
    (done rest : List Char) (h : Shows (done ++ rest) text)
    (hleft : left ≠ 0 → Tagged done ∧ Letters (rest.take left))
    (hend : left ≠ 0 → marked = true → Apart text ((visible 0 done).length + left))
    (hplaces : ∀ n ∈ tagPlaces 0 0 (done ++ rest), Apart text n) :
    ∀ n ∈ tagPlaces 0 0 (colorKeyword clrs text exclusion keyword left marked done rest),
      Apart text n := by
  induction rest generalizing left marked done with
  | nil =>
    rw [List.append_nil] at hplaces
    exact hplaces
  | cons c rest ih =>
    cases left with
    | succ left =>
      obtain ⟨-, hletters⟩ := hleft (Nat.succ_ne_zero left)
      rw [List.take_succ_cons] at hletters
      obtain ⟨hhex, hc⟩ := hletters c List.mem_cons_self
      simp only [colorKeyword]
      have hend' := shows_tag_if clrs.nrmClr (left = 0 ∧ marked = true)
      obtain ⟨htag, hall⟩ := h.mark hhex hc [] _ (shows_of_plain (by simp)) hend'
      have hlen := length_visible_mark h hhex hc (shows_of_plain (by simp)) hend'
      refine ih left marked _ hall
        (fun _ => ⟨htag, fun x hx => hletters x (List.mem_cons_of_mem _ hx)⟩)
          (fun _ hmarked => ?_) ?_
      · rw [List.nil_append] at hlen
        rw [hlen, Nat.add_assoc, Nat.add_comm 1]
        exact hend (Nat.succ_ne_zero left) hmarked
      · intro n hn
        rcases mem_tagPlaces_mark h hhex hc False (left = 0 ∧ marked = true) clrs.nrmClr clrs.nrmClr
          (by simpa using hn) with hold | ⟨hno, -⟩ | ⟨⟨rfl, hmarked⟩, rfl⟩
        · exact hplaces n hold
        · exact hno.elim
        · exact hend (Nat.succ_ne_zero 0) hmarked
    | zero =>
      simp only [colorKeyword]
      split
      · next hstart =>
        obtain ⟨k, kws, rfl⟩ := List.exists_cons_of_ne_nil hne
        obtain ⟨tail, htail⟩ := List.isPrefixOf_iff_prefix.mp hstart
        obtain ⟨hhex, hc⟩ : isHex c = false ∧ c ≠ '\n' := by
          rw [List.cons_append] at htail
          exact (List.cons.inj htail).1 ▸ hkeyword k List.mem_cons_self
        have hapart := fun hmarked => @marked_apart done tail _ text exclusion
          (by rwa [List.append_assoc, htail]) hkeyword hid hne hmarked
        rw [List.append_assoc, htail] at hapart
        generalize (!isIdChar (done ++ c :: rest) text done.length (-1) &&
          !isIdChar (done ++ c :: rest) text done.length (k :: kws).length &&
          !exCheck (done ++ c :: rest) exclusion done.length) = marked at hapart ⊢
        have hstart := shows_tag_if (clrs.special 0x03) (marked = true)
        have hend' := shows_tag_if clrs.nrmClr ((k :: kws).length - 1 = 0 ∧ marked = true)
        obtain ⟨htag, hall⟩ := h.mark hhex hc _ _ hstart hend'
        have hlen := length_visible_mark h hhex hc hstart hend'
        refine ih _ _ _ hall (fun _ => ⟨htag, fun x hx => ?_⟩) (fun _ hmarked => ?_) ?_
        · rw [List.cons_append] at htail
          rw [← (List.cons.inj htail).2, List.length_cons, Nat.add_sub_cancel, List.take_left] at hx
          exact hkeyword x (List.mem_cons_of_mem _ hx)
        · rw [hlen, Nat.add_assoc, List.length_cons, Nat.add_sub_cancel, Nat.add_comm 1]
          exact (hapart hmarked).2
        · intro n hn
          rcases mem_tagPlaces_mark h hhex hc _ _ _ _ hn with hold | ⟨hmarked, rfl⟩ |
            ⟨⟨hone, hmarked⟩, rfl⟩
          · exact hplaces n hold
          · exact (hapart hmarked).1
          · have hlength : (k :: kws).length = 1 := by
              rw [List.length_cons] at hone ⊢
              omega
            exact hlength ▸ (hapart hmarked).2
      · refine ih 0 false _ ?_ (fun hno => absurd rfl hno) (fun hno => absurd rfl hno) ?_
        · rwa [List.append_assoc, List.singleton_append]
        · rwa [List.append_assoc, List.singleton_append]

theorem colorKeywords_apart (clrs : Colors) (exclusion : Exclusion) (kws : List (List Char))
    (hkws : ∀ kw ∈ kws, kw ∈ keywords) (h : Shows s text)
    (hplaces : ∀ n ∈ tagPlaces 0 0 s, Apart text n) :
    ∀ n ∈ tagPlaces 0 0 (kws.foldl (fun s keyword =>
      colorKeyword clrs text exclusion keyword 0 false [] s) s), Apart text n := by
  induction kws generalizing s with
  | nil => exact hplaces
  | cons kw kws ih =>
    obtain ⟨hkw, hkws⟩ := List.forall_mem_cons.mp hkws
    obtain ⟨hletters, hne⟩ := letters_of_mem_keywords hkw
    refine ih hkws (colorKeyword_shows clrs text exclusion hletters hne 0 false [] s h
      fun hno => absurd rfl hno) ?_
    exact colorKeyword_apart clrs exclusion hletters (keywords_idChar hkw) hne 0 false [] s h
      (fun hno => absurd rfl hno) (fun hno => absurd rfl hno) hplaces

theorem syntaxColor_apart (clrs : Colors) (h : '\n' ∉ text) :
    ∀ n ∈ tagPlaces 0 0 (syntaxColor clrs text), Apart text n := by
  have hstart : Shows [] [] := shows_of_plain (by simp)
  have hshows := colorStrings_shows clrs [] none 0 [] text hstart h
  have hplaces := colorStrings_apart clrs [] none 0 [] text hstart h
    ⟨fun _ hno => by simp at hno, fun _ hno => by simpa using hno.length_le⟩ (by simp [tagPlaces])
  unfold syntaxColor
  rcases hcolored : colorStrings clrs [] none 0 [] text with ⟨s, exclusion⟩
  rw [hcolored] at hshows hplaces
  exact colorKeywords_apart clrs exclusion keywords (fun _ hkw => hkw) hshows hplaces

-- ---------------------------------------------------------------------------
-- What is executed
-- ---------------------------------------------------------------------------

/-- `CodeWnd::Eval`: the script, line by line. -/
def evalScript : List (List Char) → List Char
  | [] => []
  | line :: contents => uncolored line ++ '\n' :: evalScript contents

theorem evalScript_eq (contents : List (List Char)) :
    evalScript contents = (plain contents).flatMap (· ++ ['\n']) := by
  induction contents with
  | nil => rfl
  | cons line contents ih =>
    rw [evalScript, ih]
    simp [plain]

/-- The colors change nothing of a line, are the same when it is colored again and cut nothing in
two; and after every run of the editor the script that is executed is what was typed. -/
theorem syntaxColor_keeps_script (clrs : Colors) (text : List Char)
    (htext : ∀ c ∈ text, 32 ≤ c.toNat ∧ c.toNat ≤ 127) :
    (uncolored (syntaxColor clrs text) = text ∧
      syntaxColor clrs (uncolored (syntaxColor clrs text)) = syntaxColor clrs text ∧
      Tagged (syntaxColor clrs text) ∧
      ∀ n ∈ tagPlaces 0 0 (syntaxColor clrs text), ∀ token ∈ keywords ++ commentOpeners,
        ¬ SplitsAt text n token) ∧
    ∀ (scr : Screen) (ops : List Op),
      let w := (CodeWnd.init scr).run clrs scr ops
      let e := plainRun clrs scr (CodeWnd.init scr) TextEditor.empty ops
      evalScript w.contents = (e.lines.take w.contents.length).flatMap (· ++ ['\n']) ∧
        ∀ line ∈ e.lines.drop w.contents.length, line = [] := by
  have hnewline : '\n' ∉ text := fun hmem => absurd (htext _ hmem).1 (by decide)
  have hshows := syntaxColor_shows clrs hnewline
  refine ⟨⟨hshows.uncolored, by rw [hshows.uncolored], hshows.tagged, fun n hn token htoken => ?_⟩,
    ?_⟩
  · exact (syntaxColor_apart clrs hnewline n hn).not_splitsAt htoken
  · intro scr ops w e
    have h : Refines scr w e := (Refines.init scr).run clrs ops
    rw [← h.lines, pad, ← length_plain, List.take_left, List.drop_left]
    exact ⟨evalScript_eq w.contents, fun line hline => List.eq_of_mem_replicate hline⟩

/-- `if(a)//in`. -/
theorem ifComment_keeps_script :
    uncolored (syntaxColor ⟨0x07, 0x02⟩ "if(a)//in".toList) = "if(a)//in".toList :=
  have htext : "if(a)//in".toList.all (fun c => decide (32 ≤ c.toNat ∧ c.toNat ≤ 127)) = true :=
    by decide
  (syntaxColor_keeps_script ⟨0x07, 0x02⟩ "if(a)//in".toList fun c hc =>
    of_decide_eq_true (List.all_eq_true.mp htext c hc)).1.1

end BugChecker.Wnd
