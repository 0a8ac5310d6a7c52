import BugChecker.Config.Scan

/-!
# Scanning well-formed lines

Over a file made of CR LF lines the scanner is a search in the list of lines.
`seek` states that search on pairs of an indentation and a text, and
`parseLoop_render` says that the loop of the source computes it. The pointer
the scanner returns is past the tabulations of the matching line: read again
from there, that line has indentation zero.
-/

namespace BugChecker.Config

abbrev OutlineLine := Nat × Text

def renderLine (l : OutlineLine) : Text := List.replicate l.1 TAB ++ l.2 ++ [CR, LF]

def render (ls : List OutlineLine) : Text := ls.flatMap renderLine

@[simp] theorem render_nil : render [] = [] := rfl

@[simp] theorem render_cons (l : OutlineLine) (ls : List OutlineLine) :
    render (l :: ls) = renderLine l ++ render ls := rfl

@[simp] theorem render_append (ls ms : List OutlineLine) :
    render (ls ++ ms) = render ls ++ render ms := by
  simp [render]

/-- A text that the scanner reads back from one line. -/
structure LineOk (l : OutlineLine) : Prop where
  noTab : l.2.head? ≠ some TAB
  plain : ∀ c ∈ l.2, c ≠ CR ∧ c ≠ NUL
  short : l.1 + l.2.length < outputSize

theorem LineOk.unindented (h : LineOk (n, s)) : LineOk (0, s) :=
  ⟨h.noTab, h.plain, by have := h.short; simp only at this ⊢; omega⟩

/-- The search that the scanner performs. `tnReached` and `firstLine` are the
flags of the source. -/
def seek (tabsNum : Nat) (string : Option Text) : Bool → Bool → List OutlineLine →
    Option (Text × List OutlineLine)
  | _, _, [] => none
  | tnReached, firstLine, (n, s) :: ls =>
    if ((string.isNone && !firstLine) || tnReached) && decide (n < tabsNum) then none
    else if s ≠ [] ∧ tabsNum = n ∧ (string = none ∨ string = some s) then some (s, ls)
    else seek tabsNum string (tnReached || decide (tabsNum ≤ n)) false ls

-- ---------------------------------------------------------------------------
-- One line
-- ---------------------------------------------------------------------------

theorem readLine_plain (hs : ∀ c ∈ s, c ≠ CR ∧ c ≠ NUL) (hroom : s.length < room) :
    readLine room (s ++ CR :: LF :: rest) = ⟨s, rest, true, false⟩ := by
  induction s generalizing room with
  | nil =>
    cases room with
    | zero => simp at hroom
    | succ room => simp [readLine, skipLf]
  | cons c s ih =>
    cases room with
    | zero => simp at hroom
    | succ room =>
      have hc := hs c (by simp)
      have hrest := ih (fun d hd => hs d (by simp [hd])) (by simpa using hroom)
      simp [readLine, hc.1, hc.2, hrest]

theorem readLine_renderLine (h : LineOk l) :
    readLine outputSize (renderLine l ++ rest) =
      ⟨List.replicate l.1 TAB ++ l.2, rest, true, false⟩ := by
  have hplain : ∀ c ∈ List.replicate l.1 TAB ++ l.2, c ≠ CR ∧ c ≠ NUL := by
    intro c hc
    rcases List.mem_append.mp hc with hc | hc
    · rw [List.eq_of_mem_replicate hc]
      decide
    · exact h.plain c hc
  have hlen : (List.replicate l.1 TAB ++ l.2).length < outputSize := by simpa using h.short
  simpa [renderLine] using @readLine_plain _ _ rest hplain hlen

theorem numOfTabs_indented (h : s.head? ≠ some TAB) :
    numOfTabs (List.replicate n TAB ++ s) = n := by
  have hs : s.takeWhile (· = TAB) = [] := by
    cases s with
    | nil => rfl
    | cons c s =>
      have hc : c ≠ TAB := by simpa using h
      simp [hc]
  simp [numOfTabs, hs]

theorem renderLine_pos (l : OutlineLine) : 0 < (renderLine l).length := by
  simp only [renderLine, List.length_append, List.length_cons]
  omega

theorem length_le_render (ls : List OutlineLine) : ls.length ≤ (render ls).length := by
  induction ls with
  | nil => simp
  | cons l ls ih =>
    have := renderLine_pos l
    simp only [render_cons, List.length_cons, List.length_append]
    omega

theorem renderLine_unindented_le (n : Nat) (s : Text) :
    (renderLine (0, s)).length ≤ (renderLine (n, s)).length := by
  simp [renderLine]

theorem drop_renderLine (l : OutlineLine) (rest : Text) :
    (renderLine l ++ rest).drop l.1 = renderLine (0, l.2) ++ rest := by
  simp [renderLine]

-- ---------------------------------------------------------------------------
-- All lines
-- ---------------------------------------------------------------------------

theorem parseLoop_render (hok : ∀ l ∈ ls, LineOk l) (hfuel : (render ls).length < fuel) :
    parseLoop tabsNum string fuel tnReached firstLine (render ls) =
      (seek tabsNum string tnReached firstLine ls).map fun r =>
        (render ((0, r.1) :: r.2), List.replicate tabsNum TAB ++ r.1) := by
  induction ls generalizing fuel tnReached firstLine with
  | nil =>
    cases fuel with
    | zero => simp at hfuel
    | succ fuel => simp [parseLoop, readLine, outputSize, seek, numOfTabs]
  | cons l ls ih =>
    cases fuel with
    | zero => simp at hfuel
    | succ fuel =>
      obtain ⟨n, s⟩ := l
      have hl := hok (n, s) (by simp)
      have hpos := renderLine_pos (n, s)
      simp only [render_cons, List.length_append] at hfuel
      have hrest := @ih fuel (tnReached || decide (tabsNum ≤ n)) false
        (fun l hm => hok l (by simp [hm])) (by omega)
      simp only [parseLoop, render_cons, readLine_renderLine hl, numOfTabs_indented hl.noTab, seek]
      split
      · simp_all
      split
      · simp
      have hdrop : (List.replicate n TAB ++ s).drop n = s := by simp
      rw [hdrop]
      split
      · rename_i hmatch
        obtain ⟨-, rfl, -⟩ := hmatch
        simpa using drop_renderLine (tabsNum, s) (render ls)
      · simpa using hrest

theorem render_eq_nil (h : render ls = []) : ls = [] := by
  cases ls with
  | nil => rfl
  | cons l ls =>
    have hpos := renderLine_pos l
    rw [render_cons, List.append_eq_nil_iff] at h
    simp [h.1] at hpos

theorem seek_suffix (h : seek tabsNum string tnReached firstLine ls = some (s, ms)) :
    ∃ pre, ls = pre ++ (tabsNum, s) :: ms := by
  induction ls generalizing tnReached firstLine with
  | nil => simp [seek] at h
  | cons l ls ih =>
    obtain ⟨n, t⟩ := l
    simp only [seek] at h
    split at h
    · cases h
    split at h
    · rename_i hmatch
      obtain ⟨-, rfl, -⟩ := hmatch
      obtain ⟨rfl, rfl⟩ : t = s ∧ ls = ms := by simpa using h
      exact ⟨[], rfl⟩
    · obtain ⟨pre, rfl⟩ := ih h
      exact ⟨(n, t) :: pre, rfl⟩

theorem scanFile_start (hok : ∀ l ∈ ls, LineOk l) (hne : ls ≠ [])
    (hargs : ¬(tabsNum = 0 ∧ string = none)) :
    scanFile (render ls) tabsNum string none =
      (seek tabsNum string false true ls).map fun r =>
        (render ((0, r.1) :: r.2), List.replicate tabsNum TAB ++ r.1) := by
  have hfile : render ls ≠ [] := fun h => hne (render_eq_nil h)
  simp only [scanFile, hfile, hargs, or_self, if_false, Option.getD_none]
  exact parseLoop_render hok (Nat.lt_succ_self _)

-- ---------------------------------------------------------------------------
-- Cursors
-- ---------------------------------------------------------------------------

/-- A pointer that a caller of the scanner may hold: past the tabulations of a
line with text `s`, the lines `ls` following. -/
structure Cursor (file s : Text) (ls : List OutlineLine) : Prop where
  ok : ∀ l ∈ (0, s) :: ls, LineOk l
  le : (render ((0, s) :: ls)).length ≤ file.length

theorem Cursor.scan (h : Cursor file s ls) (hnum : 0 < num) (string : Option Text) :
    scanFile file num string (some (render ((0, s) :: ls))) =
      (seek num string false true ((0, s) :: ls)).map fun r =>
        (render ((0, r.1) :: r.2), List.replicate num TAB ++ r.1) := by
  have hle := h.le
  have hpos := renderLine_pos (0, s)
  have hfile : file ≠ [] := by
    rintro rfl
    simp only [render_cons, List.length_append, List.length_nil] at hle
    omega
  have hnum : num ≠ 0 := by omega
  simp only [scanFile, hfile, hnum, false_and, or_self, if_false, Option.getD_some]
  exact parseLoop_render h.ok (by omega)

theorem Cursor.suffix (h : Cursor file s (pre ++ (n, s') :: ls)) : Cursor file s' ls := by
  constructor
  · intro l hl
    rcases List.mem_cons.mp hl with rfl | hl
    · exact (h.ok (n, s') (by simp)).unindented
    · exact h.ok l (by simp [hl])
  · have hle := h.le
    have := renderLine_unindented_le n s'
    simp only [render_cons, render_append, List.length_append] at hle ⊢
    omega

theorem Cursor.seek (h : Cursor file s ls) (hnum : 0 < num)
    (hseek : seek num string false true ((0, s) :: ls) = some (s', ms)) : Cursor file s' ms := by
  obtain ⟨pre, hpre⟩ := seek_suffix hseek
  cases pre with
  | nil =>
    have : num = 0 := by simpa using (congrArg (·.head?.map Prod.fst) hpre).symm
    omega
  | cons l pre =>
    obtain ⟨-, rfl⟩ := List.cons.inj hpre
    exact h.suffix

end BugChecker.Config
