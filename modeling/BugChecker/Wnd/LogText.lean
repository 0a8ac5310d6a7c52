import BugChecker.Wnd.LogWnd

/-!
# Output in pieces

What a script prints comes to the log in pieces of any size, cut anywhere. The
log ends with a line that the next piece goes on with, so the lines are those
of the whole text, however it was cut.
-/

namespace BugChecker.Wnd

namespace LogWnd

/-- The marker of a color tag is a line feed, and a backspace stands for it in what is printed. -/
def shown (c : UInt8) : UInt8 := if c = 8 then 10 else c

def printedChar (c : UInt8) : UInt8 :=
  if c = 8 then 10 else if 0x20 ≤ c ∧ c < 0x80 then c else 0x3F

def printedLines (s : List UInt8) : List (List UInt8) := (s.splitOn 10).map (List.map printedChar)

section
variable (w : LogWnd)

def lines : List (List UInt8) := w.contents.map EaString.text

def openLines : List (List UInt8) :=
  if w.newLine then w.lines ++ [[]]
  else w.lines.dropLast ++ w.lines.getLast?.toList.map (List.map shown)

/-- `AddString` drops no line. -/
def Untrimmed (s : List UInt8) : Prop :=
  (w.addTrimmed s true).contents = (w.addLines s true).contents

def addPieces (pieces : List (List UInt8)) : LogWnd :=
  pieces.foldl (fun w piece => w.addString piece true) w

def NoneTrimmed : LogWnd → List (List UInt8) → Prop
  | _, [] => True
  | w, piece :: pieces => w.Untrimmed piece ∧ NoneTrimmed (w.addString piece true) pieces

end

section
variable {w : LogWnd}

@[simp] theorem shown_shown (c : UInt8) : shown (shown c) = shown c := by
  unfold shown
  split
  · rfl
  · rfl

@[simp] theorem shown_printedChar (c : UInt8) : shown (printedChar c) = printedChar c := by
  unfold shown printedChar
  grind

theorem printable_eq_newline (c : UInt8) : printable c = 10 ↔ c = 10 := by
  unfold printable
  grind

theorem shown_printable (h : c ≠ 10) : shown (printable c) = printedChar c := by
  unfold shown printable printedChar
  grind

theorem shown_of_mem_printedLines (h : l ∈ printedLines s) : l.map shown = l := by
  obtain ⟨piece, -, rfl⟩ := List.mem_map.mp h
  simp

theorem printedLines_cons (c : UInt8) (s : List UInt8) :
    printedLines (c :: s) =
      if c = 10 then [] :: printedLines s
        else (printedLines s).modifyHead (printedChar c :: ·) := by
  unfold printedLines List.splitOn
  rw [List.splitOnP_cons_eq_if_modifyHead]
  by_cases h : c = 10
  · simp [h]
  · simp [h]
    cases List.splitOnP (· == 10) s with
    | nil => rfl
    | cons l ls => rfl

theorem printedLines_eq (s : List UInt8) :
    printedLines s = ((s.map printable).splitOn 10).map (List.map shown) := by
  induction s with
  | nil => rfl
  | cons c s ih =>
    rw [printedLines_cons, ih]
    simp only [List.splitOn, List.map_cons, List.splitOnP_cons_eq_if_modifyHead]
    by_cases h : c = 10
    · simp [h, printable]
    · have hnewline : printable c ≠ 10 := fun h' => h ((printable_eq_newline c).mp h')
      simp [h, hnewline]
      cases List.splitOnP (· == 10) (s.map printable) with
      | nil => rfl
      | cons l ls => simp [shown_printable h]

theorem shown_openLines (w : LogWnd) :
    (w.openLines.getLast?.getD []).map shown = w.openLines.getLast?.getD [] := by
  rw [openLines]
  split
  · simp
  · rcases List.eq_nil_or_concat w.lines with hnil | ⟨front, back, hback⟩
    · simp [hnil]
    · simp [hback]

theorem printedLines_ne_nil (s : List UInt8) : printedLines s ≠ [] := by
  simp [printedLines, List.splitOn_ne_nil]

theorem printedLines_append (a b : List UInt8) :
    printedLines (a ++ b) = Tokens.continued (printedLines a) (printedLines b) := by
  simp only [printedLines, Tokens.splitOn_append, Tokens.continued, List.map_append,
    List.map_dropLast, List.getLast?_map]
  cases b.splitOn 10 with
  | nil => rfl
  | cons p ps =>
    cases (List.splitOn 10 a).getLast? with
    | none => rfl
    | some l => simp

theorem addLines_lines (w : LogWnd) (s : List UInt8) :
    (w.addLines s true).lines = Tokens.continued w.openLines (printedLines s) := by
  have htext := text_tokenizeLines (s.map printable)
  rw [Tokens.tokenize_singleton] at htext
  rcases hv : tokenizeLines (s.map printable) with _ | ⟨l, v⟩
  · exact absurd hv (tokenizeLines_ne_nil _)
  · rw [hv] at htext
    have hprinted : printedLines s = ((l :: v).map unescape).map EaString.text := by
      rw [printedLines_eq, ← htext, List.map_map, List.map_map]
      rfl
    rw [addLines_eq, lines, List.map_append, hprinted]
    simp only [newLines, hv, if_true, List.map_cons]
    cases hnew : w.newLine with
    | true => simp [keptLines, joined, openLines, lines, hnew]
    | false =>
      rcases List.eq_nil_or_concat w.contents with hnil | ⟨front, back, hback⟩
      · simp [keptLines, joined, openLines, lines, hnew, hnil, Tokens.continued]
      · rw [List.concat_eq_append] at hback
        simp [keptLines, joined, openLines, lines, hnew, hback, unescape, EaString.ofText, shown]

theorem openLines_addLines (w : LogWnd) (s : List UInt8) :
    (w.addLines s true).openLines = (w.addLines s true).lines := by
  have hnew : (w.addLines s true).newLine = false := by rw [addLines_eq]; rfl
  have hlast : ∀ l ∈ (w.addLines s true).lines.getLast?, l.map shown = l := by
    rw [addLines_lines]
    refine Tokens.getLast_continued (printedLines_ne_nil s)
      (fun p hp => shown_of_mem_printedLines hp)
      fun p hp => ?_
    rw [List.map_append, shown_openLines, shown_of_mem_printedLines hp]
  rw [openLines, hnew, if_neg Bool.false_ne_true]
  rcases List.eq_nil_or_concat (w.addLines s true).lines with hnil | ⟨front, back, hback⟩
  · rw [hnil]
    rfl
  · rw [List.concat_eq_append] at hback
    have hshown : back.map shown = back := hlast back (by rw [hback]; simp)
    simp [hback, hshown]

theorem addString_lines (h : w.Untrimmed s) :
    (w.addString s true).lines = (w.addLines s true).lines ∧
      (w.addString s true).openLines = (w.addLines s true).lines ∧
      (w.addString s true).newLine = false := by
  obtain ⟨posY, pending, hend⟩ := goToEnd_eq (w.addTrimmed s true)
  have hlines : (w.addString s true).lines = (w.addLines s true).lines := by
    rw [addString, lines, goToEnd_contents, h]
    rfl
  have hnew : (w.addLines s true).newLine = false := by rw [addLines_eq]; rfl
  have hnew' : (w.addString s true).newLine = false := by
    rw [addString, hend]
    exact hnew
  refine ⟨hlines, ?_, hnew'⟩
  have hopen := openLines_addLines w s
  rw [openLines, hnew] at hopen
  rw [openLines, hnew', hlines]
  exact hopen

theorem addPieces_lines (w : LogWnd) (piece : List UInt8) (pieces : List (List UInt8))
    (h : NoneTrimmed w (piece :: pieces)) :
    (w.addPieces (piece :: pieces)).lines =
        Tokens.continued w.openLines (printedLines (piece :: pieces).flatten) ∧
      (w.addPieces (piece :: pieces)).newLine = false := by
  induction pieces generalizing w piece with
  | nil =>
    obtain ⟨hlines, -, hnew⟩ := addString_lines h.1
    refine ⟨?_, hnew⟩
    rw [List.flatten_cons, List.flatten_nil, List.append_nil, ← addLines_lines]
    exact hlines
  | cons next pieces ih =>
    obtain ⟨hfirst, hrest⟩ := h
    obtain ⟨-, hopen, -⟩ := addString_lines hfirst
    obtain ⟨hlines, hnew⟩ := ih (w.addString piece true) next hrest
    refine ⟨hlines.trans ?_, hnew⟩
    rw [hopen, addLines_lines, List.flatten_cons (l := piece), printedLines_append,
      Tokens.continued_assoc (printedLines_ne_nil _)]

end

/-- However a text is cut up, the log has the same lines after its pieces as after all of it at
once, and after a line that was ended these are the lines of the text. -/
theorem addString_cut (w : LogWnd) (strings pieces : List (List UInt8)) (hne : pieces ≠ [])
    (hcut : pieces.flatten = strings.flatten) (hpieces : NoneTrimmed w pieces)
    (hwhole : w.Untrimmed strings.flatten) :
    (w.addPieces pieces).lines = (w.addString strings.flatten true).lines ∧
      (w.addPieces pieces).newLine = (w.addString strings.flatten true).newLine ∧
      (w.newLine = true → (w.addPieces pieces).lines =
        w.lines ++ printedLines strings.flatten) := by
  obtain ⟨piece, rest, rfl⟩ := List.exists_cons_of_ne_nil hne
  obtain ⟨hlines, hnew⟩ := addPieces_lines w piece rest hpieces
  obtain ⟨hlines', -, hnew'⟩ := addString_lines hwhole
  rw [hcut] at hlines
  refine ⟨?_, hnew.trans hnew'.symm, fun hnewLine => ?_⟩
  · rw [hlines, hlines', addLines_lines]
  · rw [hlines, openLines, if_pos hnewLine, Tokens.continued_concat]
    exact congrArg _ (congrFun List.modifyHead_id _)

/-- A bell, a backspace, `a`, a line feed and `b`, cut before the line feed. -/
theorem twoPieces_cut :
    (init.addPieces [[7, 8, 0x61], [10, 0x62]]).lines = [[0x3F, 10, 0x61], [0x62]] ∧
      (init.addString [7, 8, 0x61, 10, 0x62] true).lines = [[0x3F, 10, 0x61], [0x62]] := by
  obtain ⟨hlines, -, hnew⟩ := addString_cut init [[7, 8, 0x61, 10], [0x62]]
    [[7, 8, 0x61], [10, 0x62]] (by decide) rfl ⟨rfl, rfl, trivial⟩ rfl
  have hprinted := hnew rfl
  exact ⟨hprinted, hlines ▸ hprinted⟩

end LogWnd

end BugChecker.Wnd
