import Mathlib.Data.List.Basic

/-!
# Texts cut at a delimiter

A text is cut at each occurrence of a delimiter, from the left. Pieces that do
not have the first character of the delimiter are found again, and a text that
is too short for the delimiter is one piece.
-/

namespace Tokens

-- ---------------------------------------------------------------------------
-- Lines that go on
-- ---------------------------------------------------------------------------

/-- Lines that go on with the pieces of more text: the first piece belongs to the last line. -/
def continued (lines pieces : List (List α)) : List (List α) :=
  lines.dropLast ++ pieces.modifyHead (lines.getLast?.getD [] ++ ·)

@[simp] theorem continued_concat (lines : List (List α)) (l : List α) (pieces : List (List α)) :
    continued (lines ++ [l]) pieces = lines ++ pieces.modifyHead (l ++ ·) := by
  simp [continued]

theorem getLast_continued {P : List α → Prop} {pieces : List (List α)} (hne : pieces ≠ [])
    (h : ∀ p ∈ pieces, P p) (hgo : ∀ p ∈ pieces, P (lines.getLast?.getD [] ++ p)) :
    ∀ l ∈ (continued lines pieces).getLast?, P l := by
  intro l hl
  match pieces with
  | [] => exact absurd rfl hne
  | [p] =>
    have hlast : lines.getLast?.getD [] ++ p = l := by simpa [continued] using hl
    rw [← hlast]
    exact hgo p List.mem_cons_self
  | p :: q :: ps =>
    have hlast : (q :: ps).getLast? = some l := by
      simpa [continued, List.getLast?_append] using hl
    exact h l (List.mem_cons_of_mem p (List.mem_of_getLast? hlast))

theorem continued_assoc {ys : List (List α)} (h : ys ≠ []) (xs zs : List (List α)) :
    continued (continued xs ys) zs = continued xs (continued ys zs) := by
  rcases List.eq_nil_or_concat ys with rfl | ⟨ys, y, rfl⟩
  · exact absurd rfl h
  · rw [List.concat_eq_append, continued_concat]
    cases ys with
    | nil =>
      -- the one piece between joins both sides
      cases zs with
      | nil => simp [continued]
      | cons z zs => simp [continued]
    | cons x ys =>
      have hfront : continued xs (x :: ys ++ [y]) =
          xs.dropLast ++ (xs.getLast?.getD [] ++ x) :: ys ++ [y] := by simp [continued]
      rw [hfront, continued_concat]
      simp [continued]

-- ---------------------------------------------------------------------------
-- Cutting
-- ---------------------------------------------------------------------------

variable [BEq α]

/-- The pieces of a text, after `skip` characters of a delimiter and with the piece so far. -/
def tokensFrom (delim : List α) : Nat → List α → List α → List (List α)
  | _, piece, [] => [piece]
  | skip + 1, piece, _ :: s => tokensFrom delim skip piece s
  | 0, piece, c :: s =>
    if delim.isPrefixOf (c :: s) then piece :: tokensFrom delim (delim.length - 1) [] s
    else tokensFrom delim 0 (piece ++ [c]) s

def tokenize (delim s : List α) : List (List α) := tokensFrom delim 0 [] s

theorem tokensFrom_skip (delim piece p s : List α) :
    tokensFrom delim p.length piece (p ++ s) = tokensFrom delim 0 piece s := by
  induction p with
  | nil => rfl
  | cons c p ih =>
    rw [List.length_cons, List.cons_append, tokensFrom]
    exact ih

theorem tokensFrom_ne_nil (delim : List α) (skip : Nat) (piece s : List α) :
    tokensFrom delim skip piece s ≠ [] := by
  induction s generalizing skip piece with
  | nil => simp [tokensFrom]
  | cons c s ih =>
    cases skip with
    | zero =>
      rw [tokensFrom]
      split
      · exact List.cons_ne_nil _ _
      · exact ih _ _
    | succ skip => exact ih _ _

theorem splitOn_append (first : α) (a b : List α) :
    (a ++ b).splitOn first = continued (a.splitOn first) (b.splitOn first) := by
  induction a with
  | nil => exact (congrFun List.modifyHead_id (b.splitOn first)).symm
  | cons c a ih =>
    rw [List.cons_append, List.splitOn_cons_eq_if_modifyHead, List.splitOn_cons_eq_if_modifyHead,
      ih]
    obtain ⟨p, ps, hp⟩ := List.exists_cons_of_ne_nil (List.splitOn_ne_nil first a)
    rw [hp]
    split
    · simp [continued]
    · cases ps with
      | nil =>
        cases b.splitOn first with
        | nil => simp [continued]
        | cons q qs => simp [continued]
      | cons q qs => simp [continued]

variable [LawfulBEq α] {first : α} {rest : List α}

theorem tokensFrom_short {delim : List α} (s : List α) (h : s.length < delim.length) :
    tokensFrom delim 0 piece s = [piece ++ s] := by
  induction s generalizing piece with
  | nil => rw [tokensFrom, List.append_nil]
  | cons c s ih =>
    have hnot : delim.isPrefixOf (c :: s) = false := by
      cases hp : delim.isPrefixOf (c :: s) with
      | false => rfl
      | true =>
        have hlen := (List.isPrefixOf_iff_prefix.mp hp).length_le
        omega
    rw [tokensFrom, hnot, if_neg Bool.false_ne_true, ih (by rw [List.length_cons] at h; omega),
      List.append_assoc, List.singleton_append]

theorem tokensFrom_plain (t s : List α) (h : first ∉ t) :
    tokensFrom (first :: rest) 0 piece (t ++ s) = tokensFrom (first :: rest) 0 (piece ++ t) s := by
  induction t generalizing piece with
  | nil => rw [List.nil_append, List.append_nil]
  | cons c t ih =>
    obtain ⟨hc, ht⟩ : first ≠ c ∧ first ∉ t := by simpa using h
    have hnot : (first :: rest).isPrefixOf (c :: (t ++ s)) = false := by
      rw [List.isPrefixOf, beq_eq_false_iff_ne.mpr hc, Bool.false_and]
    rw [List.cons_append, tokensFrom, hnot, if_neg Bool.false_ne_true, ih ht, List.append_assoc,
      List.singleton_append]

theorem tokensFrom_delim (piece s : List α) :
    tokensFrom (first :: rest) 0 piece (first :: rest ++ s) =
    piece :: tokensFrom (first :: rest) 0 [] s := by
  have hstart : (first :: rest).isPrefixOf (first :: (rest ++ s)) = true := by
    rw [List.isPrefixOf_iff_prefix]
    exact List.prefix_append (first :: rest) s
  rw [List.cons_append, tokensFrom, hstart, if_pos rfl, List.length_cons, Nat.add_sub_cancel,
    tokensFrom_skip]

theorem tokenize_cons (t s : List α) (h : first ∉ t) :
    tokenize (first :: rest) (t ++ (first :: rest ++ s)) = t :: tokenize (first :: rest) s := by
  rw [tokenize, tokensFrom_plain t _ h, List.nil_append, tokensFrom_delim]
  rfl

theorem tokenize_last (t s : List α) (h : first ∉ t) (hs : s.length ≤ rest.length) :
    tokenize (first :: rest) (t ++ s) = [t ++ s] := by
  rw [tokenize, tokensFrom_plain t s h, List.nil_append, tokensFrom_short s (by
    rw [List.length_cons]
    omega)]

-- ---------------------------------------------------------------------------
-- Delimiters of one character
-- ---------------------------------------------------------------------------

theorem tokensFrom_singleton (piece s : List α) :
    tokensFrom [first] 0 piece s = (s.splitOn first).modifyHead (piece ++ ·) := by
  induction s generalizing piece with
  | nil => simp [tokensFrom]
  | cons c s ih =>
    rw [tokensFrom, List.splitOn_cons_eq_if_modifyHead]
    by_cases hc : c = first
    · subst hc
      rw [if_pos (by simp [List.isPrefixOf]), if_pos (beq_self_eq_true c)]
      have hself : (s.splitOn c).modifyHead (fun x => x) = s.splitOn c :=
        congrFun List.modifyHead_id _
      simp [ih, hself]
    · have hne : (first == c) = false := beq_eq_false_iff_ne.mpr (Ne.symm hc)
      simp [ih, List.isPrefixOf, hne, hc, Function.comp_def]

theorem tokenize_singleton (s : List α) : tokenize [first] s = s.splitOn first := by
  rw [tokenize, tokensFrom_singleton]
  exact congrFun List.modifyHead_id _

end Tokens
