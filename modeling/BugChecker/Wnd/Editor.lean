import Mathlib.Data.List.GetD
import Mathlib.Data.List.InsertIdx
import BugChecker.Lib.TextEditor
import BugChecker.Wnd.CodeWnd

/-!
# The script window is a text editor

Without its colors, and with empty lines up to that of the cursor, the script
window is a plain text editor. The position in the text is that of the window
and of the cursor in it. Colors change nothing of this, so `Finalize` is one
lemma, and every operation is about plain lines and about two coordinates.
-/

namespace BugChecker.Wnd

-- ---------------------------------------------------------------------------
-- Lines
-- ---------------------------------------------------------------------------

def plain (contents : List (List Char)) : List (List Char) := contents.map uncolored

def AllTagged (contents : List (List Char)) : Prop := ∀ s ∈ contents, Tagged s

theorem Tagged.shows (h : Tagged s) : Shows s (uncolored s) := ⟨h, (uncolored_of_tagged h).symm⟩

theorem lineAt_pad (contents : List (List Char)) (y z : Nat) :
    lineAt (pad contents y) z = lineAt contents z := by
  unfold lineAt pad
  rw [List.getD_eq_getElem?_getD, List.getD_eq_getElem?_getD, List.getElem?_append]
  split
  · rfl
  · next hz =>
    rw [List.getElem?_replicate, List.getElem?_eq_none (Nat.not_lt.mp hz)]
    split <;> rfl

theorem lineAt_plain (contents : List (List Char)) (y : Nat) :
    lineAt (plain contents) y = uncolored (lineAt contents y) := by
  unfold lineAt plain
  rw [List.getD_eq_getElem?_getD, List.getD_eq_getElem?_getD, List.getElem?_map]
  cases contents[y]? <;> rfl

theorem lineAt_eraseIdx_of_lt (contents : List (List Char)) (h : z < y) :
    lineAt (contents.eraseIdx y) z = lineAt contents z := by
  unfold lineAt
  rw [List.getD_eq_getElem?_getD, List.getD_eq_getElem?_getD, List.getElem?_eraseIdx_of_lt h]

theorem length_pad (contents : List (List Char)) (y : Nat) :
    (pad contents y).length = max contents.length (y + 1) := by
  unfold pad
  rw [List.length_append, List.length_replicate]
  omega

theorem pad_of_lt (h : y < contents.length) : pad contents y = contents := by
  unfold pad
  rw [Nat.sub_eq_zero_of_le h, List.replicate_zero, List.append_nil]

theorem plain_pad (contents : List (List Char)) (y : Nat) :
    plain (pad contents y) = pad (plain contents) y := by
  unfold plain pad
  rw [List.map_append, List.map_replicate, List.length_map]
  rfl

theorem length_plain (contents : List (List Char)) : (plain contents).length = contents.length :=
  List.length_map uncolored

theorem AllTagged.lineAt (h : AllTagged contents) (y : Nat) : Tagged (lineAt contents y) := by
  unfold Wnd.lineAt
  rw [List.getD_eq_getElem?_getD]
  cases hy : contents[y]? with
  | none => exact rfl
  | some s => exact h s (List.mem_of_getElem? hy)

theorem AllTagged.pad (h : AllTagged contents) (y : Nat) : AllTagged (pad contents y) := by
  intro s hs
  rcases List.mem_append.mp hs with hs | hs
  · exact h s hs
  · rw [List.eq_of_mem_replicate hs]
    exact rfl

theorem AllTagged.set (h : AllTagged contents) (hs : Tagged s) (y : Nat) :
    AllTagged (contents.set y s) := by
  intro t ht
  rcases List.mem_or_eq_of_mem_set ht with ht | rfl
  · exact h t ht
  · exact hs

theorem AllTagged.eraseIdx (h : AllTagged contents) (y : Nat) : AllTagged (contents.eraseIdx y) :=
  fun s hs => h s (List.mem_of_mem_eraseIdx hs)

theorem AllTagged.insertIdx (h : AllTagged contents) (hs : Tagged s) (y : Nat) :
    AllTagged (contents.insertIdx y s) := by
  intro t ht
  rcases List.eq_or_mem_of_mem_insertIdx ht with rfl | ht
  · exact hs
  · exact h t ht

theorem set_insertIdx (l : List α) (n : Nat) (a b : α) :
    (l.insertIdx n a).set n b = l.insertIdx n b := by
  induction n generalizing l with
  | zero => rfl
  | succ n ih =>
    cases l with
    | nil => rfl
    | cons x l =>
      rw [List.insertIdx_succ_cons, List.insertIdx_succ_cons, List.set_cons_succ, ih]

theorem Tagged.plain_line (h : Tagged s) :
    '\n' ∉ uncolored s ∧ uncolored (uncolored s) = uncolored s :=
  ⟨h.shows.newline_not_mem, (shows_of_plain h.shows.newline_not_mem).uncolored⟩

theorem plain_set (hs : uncolored s = lineAt (plain contents) y) :
    plain (contents.set y s) = plain contents := by
  unfold plain at *
  rw [List.map_set, hs]
  refine List.ext_getElem? fun z => ?_
  rw [List.getElem?_set]
  split
  · next hz =>
    subst hz
    split
    · next hy => rw [lineAt, List.getD_eq_getElem _ _ hy, List.getElem?_eq_getElem hy]
    · next hy => rw [List.getElem?_eq_none (Nat.not_lt.mp hy)]
  · rfl

theorem set_spec (h : AllTagged contents) (ht : '\n' ∉ text) (y : Nat) :
    AllTagged (contents.set y text) ∧
    plain (contents.set y text) = (plain contents).set y text := by
  have hshows := shows_of_plain ht
  refine ⟨h.set hshows.tagged y, ?_⟩
  unfold plain
  rw [List.map_set, hshows.uncolored]

theorem getLine_spec (h : AllTagged contents) (y : Nat) :
    AllTagged (getLine contents y) ∧ plain (getLine contents y) = pad (plain contents) y ∧
      lineAt (getLine contents y) y = lineAt (plain contents) y := by
  have hline := (h.lineAt y).plain_line
  simp only [getLine, lineAt_pad]
  refine ⟨(h.pad y).set (shows_of_plain hline.1).tagged y, ?_, ?_⟩
  · rw [plain_set, plain_pad]
    rw [hline.2, plain_pad, lineAt_pad, lineAt_plain]
  · rw [lineAt_plain, lineAt, List.getD_eq_getElem _ _ (by rw [List.length_set, length_pad]; omega),
      List.getElem_set_self]

theorem syntaxColorAt_spec (clrs : Colors) (h : AllTagged contents) (y : Nat) :
    AllTagged (syntaxColorAt clrs contents y) ∧
      plain (syntaxColorAt clrs contents y) = pad (plain contents) y := by
  obtain ⟨htagged, hplain, hline⟩ := getLine_spec h y
  have hshows : Shows (syntaxColor clrs (lineAt (plain contents) y))
      (lineAt (plain contents) y) := by
    rw [lineAt_plain]
    exact syntaxColor_shows clrs (h.lineAt y).plain_line.1
  simp only [syntaxColorAt, hline]
  refine ⟨htagged.set hshows.tagged y, ?_⟩
  rw [plain_set, hplain]
  rw [hshows.uncolored, hplain, lineAt_pad]

-- ---------------------------------------------------------------------------
-- Coordinates
-- ---------------------------------------------------------------------------

/-- The row of the text, of a row of the screen and the window's first line. -/
structure RowAt (scr : Screen) (y : Int × Nat) (row : Nat) : Prop where
  eq : y.2 + (y.1 - scr.destY0) = row
  ge : scr.destY0 ≤ y.1
  le : y.1 ≤ scr.destY1

structure ColAt (scr : Screen) (x : Int × Nat) (col : Nat) : Prop where
  eq : x.1 - 2 + x.2 = col
  ge : 2 ≤ x.1
  le : x.1 ≤ (scr.wndWidth : Int) - 2

variable {scr : Screen} {w : CodeWnd} {e : TextEditor Char}

theorem RowAt.currentLineId (h : RowAt scr (w.cursorY, w.posY) row) :
    CodeWnd.currentLineId scr w = row := by
  have heq := h.eq
  unfold CodeWnd.currentLineId
  omega

theorem RowAt.upY (h : RowAt scr (w.cursorY, w.posY) row) :
    RowAt scr (CodeWnd.upY scr w) (row - 1) := by
  obtain ⟨heq, hge, hle⟩ := h
  dsimp only at heq hge hle
  unfold CodeWnd.upY
  split <;> constructor <;> dsimp only <;> omega

theorem RowAt.downY (h : RowAt scr (w.cursorY, w.posY) row) :
    RowAt scr (CodeWnd.downY scr w) (row + 1) := by
  obtain ⟨heq, hge, hle⟩ := h
  dsimp only at heq hge hle
  unfold CodeWnd.downY
  split <;> constructor <;> dsimp only <;> omega

theorem colAt_first (scr : Screen) : ColAt scr (2, 0) 0 := by
  have hwidth := scr.wndWidth_ge
  constructor <;> dsimp only <;> omega

theorem colAt_placeX (scr : Screen) (n : Nat) : ColAt scr (CodeWnd.placeX scr (n + 2) n) n := by
  have hwidth := scr.wndWidth_ge
  unfold CodeWnd.placeX
  split <;> constructor <;> dsimp only <;> omega

theorem ColAt.wantX (h : ColAt scr (w.cursorX, w.posX) col) (n : Nat) :
    ColAt scr (CodeWnd.wantX scr w n) (min (w.cursorX - 2).toNat n) := by
  obtain ⟨-, hge, hle⟩ := h
  dsimp only at hge hle
  unfold CodeWnd.wantX CodeWnd.placeX
  -- the cursor is in the window already, so the window goes to its first column
  rw [if_neg (by omega)]
  constructor <;> dsimp only <;> omega

theorem ColAt.shiftRight (h : ColAt scr (w.cursorX, w.posX) col) (n : Nat)
    (hlimit : limit + n ≤ (scr.wndWidth : Int) - 1) :
    ColAt scr ((w.shiftRight n limit).cursorX, (w.shiftRight n limit).posX) (col + n) := by
  obtain ⟨heq, hge, hle⟩ := h
  dsimp only at heq hge hle
  unfold CodeWnd.shiftRight CodeWnd.changeCursorX
  split <;> constructor <;> dsimp only <;> omega

theorem ColAt.shiftLeft (h : ColAt scr (w.cursorX, w.posX) col) (hcol : col ≠ 0) :
    ColAt scr (w.shiftLeft.cursorX, w.shiftLeft.posX) (col - 1) := by
  obtain ⟨heq, hge, hle⟩ := h
  dsimp only at heq hge hle
  unfold CodeWnd.shiftLeft CodeWnd.changeCursorX
  split
  · constructor <;> dsimp only <;> omega
  · rw [if_pos (by omega)]
    constructor <;> dsimp only <;> omega

theorem moveTo_eq (w : CodeWnd) (x : Int × Nat) (h : RowAt scr y row) :
    w.moveTo x y =
      { contents := w.contents, posX := x.2, posY := y.2, cursorX := x.1, cursorY := y.1 } := by
  have hge := h.ge
  unfold CodeWnd.moveTo CodeWnd.changeCursorX
  rw [if_pos (by omega)]

theorem shiftRight_frame (w : CodeWnd) (n : Nat) (limit : Int) :
    (w.shiftRight n limit).contents = w.contents ∧ (w.shiftRight n limit).posY = w.posY ∧
      (w.shiftRight n limit).cursorY = w.cursorY := by
  unfold CodeWnd.shiftRight CodeWnd.changeCursorX
  split <;> exact ⟨rfl, rfl, rfl⟩

theorem shiftLeft_frame (w : CodeWnd) :
    w.shiftLeft.contents = w.contents ∧ w.shiftLeft.posY = w.posY ∧
      w.shiftLeft.cursorY = w.cursorY := by
  unfold CodeWnd.shiftLeft CodeWnd.changeCursorX
  split
  · exact ⟨rfl, rfl, rfl⟩
  · split <;> exact ⟨rfl, rfl, rfl⟩

-- ---------------------------------------------------------------------------
-- The refinement
-- ---------------------------------------------------------------------------

/-- The window shows the editor. Only an empty script has no line for the cursor. -/
structure Refines (scr : Screen) (w : CodeWnd) (e : TextEditor Char) : Prop where
  tagged : AllTagged w.contents
  lines : pad (plain w.contents) e.row = e.lines
  row_lt : e.row ≠ 0 → e.row < w.contents.length
  row : RowAt scr (w.cursorY, w.posY) e.row
  col : ColAt scr (w.cursorX, w.posX) e.col
  col_le : e.col ≤ e.line.length

namespace Refines

theorem currentLineId (h : Refines scr w e) : w.currentLineId scr = e.row := h.row.currentLineId

theorem pos (h : Refines scr w e) : w.pos = e.col := h.col.eq

theorem length_lines (h : Refines scr w e) :
    e.lines.length = max w.contents.length (e.row + 1) := by
  rw [← h.lines, length_pad, length_plain]

theorem lineAt_eq (h : Refines scr w e) (y : Nat) : lineAt (plain w.contents) y = e.lineAt y := by
  have hpad := lineAt_pad (plain w.contents) e.row y
  rw [h.lines] at hpad
  exact hpad.symm

theorem plain_eq (h : Refines scr w e) (hrow : e.row < w.contents.length) :
    plain w.contents = e.lines := by
  rw [← h.lines, pad_of_lt (by rwa [length_plain])]

theorem newline_not_mem (h : Refines scr w e) (y : Nat) : '\n' ∉ e.lineAt y := by
  rw [← h.lineAt_eq, lineAt_plain]
  exact (h.tagged.lineAt y).plain_line.1

theorem of_plain (htagged : AllTagged w.contents) (hplain : plain w.contents = e.lines)
    (hlt : e.row < e.lines.length) (hrow : RowAt scr (w.cursorY, w.posY) e.row)
    (hcol : ColAt scr (w.cursorX, w.posX) e.col) (hle : e.col ≤ e.line.length) :
      Refines scr w e where
  tagged := htagged
  lines := by rw [hplain, pad_of_lt hlt]
  row_lt := fun _ => by rwa [← length_plain, hplain]
  row := hrow
  col := hcol
  col_le := hle

theorem getLine (h : Refines scr w e) :
    AllTagged (getLine w.contents e.row) ∧ plain (Wnd.getLine w.contents e.row) = e.lines ∧
      Wnd.lineAt (Wnd.getLine w.contents e.row) e.row = e.line := by
  obtain ⟨htagged, hplain, hline⟩ := getLine_spec h.tagged e.row
  exact ⟨htagged, hplain.trans h.lines, hline.trans (h.lineAt_eq e.row)⟩

theorem row_lt_lines (h : Refines scr w e) : e.row < e.lines.length := by
  rw [h.length_lines]
  omega

theorem with_getLine (h : Refines scr w e) :
    Refines scr { w with contents := Wnd.getLine w.contents e.row } e := by
  obtain ⟨htagged, hplain, -⟩ := h.getLine
  exact of_plain htagged hplain h.row_lt_lines h.row h.col h.col_le

theorem finalize (h : Refines scr w e) (clrs : Colors) : Refines scr (w.finalize clrs scr) e := by
  unfold CodeWnd.finalize
  rw [h.currentLineId]
  obtain ⟨htagged, hplain⟩ := syntaxColorAt_spec clrs h.tagged e.row
  exact of_plain htagged (hplain.trans h.lines) h.row_lt_lines h.row h.col h.col_le

theorem of_frame {w' : CodeWnd}
    (hframe : w'.contents = w.contents ∧ w'.posY = w.posY ∧ w'.cursorY = w.cursorY)
    (htagged : AllTagged w.contents) (hplain : plain w.contents = e.lines)
    (hlt : e.row < e.lines.length) (hrow : RowAt scr (w.cursorY, w.posY) e.row)
    (hcol : ColAt scr (w'.cursorX, w'.posX) e.col) (hle : e.col ≤ e.line.length) :
    Refines scr w' e := by
  obtain ⟨hcontents, hposY, hcursorY⟩ := hframe
  refine of_plain ?_ ?_ hlt ?_ hcol hle
  · rwa [hcontents]
  · rwa [hcontents]
  · rwa [hposY, hcursorY]

-- ---------------------------------------------------------------------------
-- Text
-- ---------------------------------------------------------------------------

theorem add (h : Refines scr w e) (clrs : Colors) (hstr : '\n' ∉ str) :
    Refines scr (w.add clrs scr str) (e.insert str) := by
  obtain ⟨htagged, hplain, hline⟩ := h.getLine
  have hle := h.col_le
  have hlt := h.row_lt_lines
  have htext : '\n' ∉ e.line.take e.col ++ (str ++ e.line.drop e.col) := by
    have hno := h.newline_not_mem e.row
    rintro hmem
    rcases List.mem_append.mp hmem with hmem | hmem
    · exact hno (List.mem_of_mem_take hmem)
    · rcases List.mem_append.mp hmem with hmem | hmem
      · exact hstr hmem
      · exact hno (List.mem_of_mem_drop hmem)
  obtain ⟨htagged', hplain'⟩ := set_spec htagged htext e.row
  rw [hplain] at hplain'
  unfold CodeWnd.add
  simp only [h.currentLineId, h.pos, hline, Int.toNat_natCast]
  rw [if_neg (by omega)]
  refine finalize ?_ clrs
  refine of_frame (shiftRight_frame _ _ _) htagged' hplain' ?_ h.row ?_ ?_
  · unfold TextEditor.insert
    rwa [List.length_set]
  · refine ColAt.shiftRight ?_ str.length (by omega)
    exact h.col
  · unfold TextEditor.insert
    rw [TextEditor.line_set hlt]
    simp only [List.length_append, List.length_take, List.length_drop]
    omega

theorem tab (h : Refines scr w e) (clrs : Colors) : Refines scr (w.tab clrs scr) (e.tab 4 ' ') := by
  have hmod : e.col % 4 < 4 := Nat.mod_lt _ (by omega)
  have hpos : (4 : Int) - (e.col : Int).tmod 4 = (4 - e.col % 4 : Nat) := by
    rw [Int.tmod_eq_emod_of_nonneg (by omega)]
    omega
  unfold CodeWnd.tab
  rw [h.pos, hpos]
  simp only [Int.toNat_natCast]
  rw [if_neg (by omega)]
  exact h.add clrs fun hmem => absurd (List.eq_of_mem_replicate hmem) (by decide)

theorem newline_not_mem_eraseIdx (h : Refines scr w e) (k : Nat) : '\n' ∉ e.line.eraseIdx k :=
  fun hmem => h.newline_not_mem e.row (List.mem_of_mem_eraseIdx hmem)

theorem newline_not_mem_append (h : Refines scr w e) (y z : Nat) :
    '\n' ∉ e.lineAt y ++ e.lineAt z := by
  intro hmem
  rcases List.mem_append.mp hmem with hmem | hmem
  · exact h.newline_not_mem y hmem
  · exact h.newline_not_mem z hmem

theorem enter (h : Refines scr w e) (clrs : Colors) : Refines scr (w.enter clrs scr) e.enter := by
  obtain ⟨htagged, hplain, hline⟩ := h.getLine
  have hle := h.col_le
  have hlt := h.row_lt_lines
  have hno := h.newline_not_mem e.row
  -- the first part stays, the other one is inserted after it
  have htake : '\n' ∉ e.line.take e.col := fun hmem => hno (List.mem_of_mem_take hmem)
  have hdrop : '\n' ∉ e.line.drop e.col := fun hmem => hno (List.mem_of_mem_drop hmem)
  obtain ⟨htagged1, hplain1⟩ := set_spec htagged htake e.row
  have htagged2 := htagged1.insertIdx (shows_of_plain hdrop).tagged (e.row + 1)
  have hplain2 : plain (((Wnd.getLine w.contents e.row).set e.row (e.line.take e.col)).insertIdx
      (e.row + 1) (e.line.drop e.col)) = e.enter.lines := by
    rw [plain, List.map_insertIdx, ← plain, hplain1, hplain, (shows_of_plain hdrop).uncolored]
    rfl
  have hlen : e.enter.lines.length = e.lines.length + 1 := by
    unfold TextEditor.enter
    rw [List.length_insertIdx_of_le_length (by rwa [List.length_set]), List.length_set]
  have hpad : pad ((Wnd.getLine w.contents e.row).set e.row (e.line.take e.col)) e.row =
      (Wnd.getLine w.contents e.row).set e.row (e.line.take e.col) :=
    pad_of_lt (by rwa [List.length_set, ← length_plain, hplain])
  have hdown := h.row.downY
  unfold CodeWnd.enter
  simp only [h.currentLineId, h.pos, hline, Int.toNat_natCast, getLineAdd, hpad]
  rw [if_neg (by omega), set_insertIdx, moveTo_eq _ _ hdown]
  have hid : CodeWnd.currentLineId scr
      { contents := ((Wnd.getLine w.contents e.row).set e.row (e.line.take e.col)).insertIdx
          (e.row + 1) (e.line.drop e.col)
        posX := 0, posY := (w.downY scr).2, cursorX := 2, cursorY :=
          (w.downY scr).1 } = e.row + 1 :=
    RowAt.currentLineId hdown
  rw [hid, Nat.add_sub_cancel]
  obtain ⟨htagged3, hplain3⟩ := syntaxColorAt_spec clrs htagged2 e.row
  rw [hplain2, pad_of_lt (by omega)] at hplain3
  refine finalize ?_ clrs
  refine of_plain htagged3 hplain3 ?_ hdown (colAt_first scr) (Nat.zero_le _)
  rw [hlen]
  exact Nat.succ_lt_succ hlt

theorem toLineBefore (h : Refines scr w e) {lines contents : List (List Char)}
    (htagged : AllTagged contents) (hplain : plain contents = lines)
    (hlt : e.row - 1 < lines.length) (hle : n ≤ (lines.getD (e.row - 1) []).length) :
    Refines scr (({ w with contents := contents } : CodeWnd).moveTo
      (CodeWnd.placeX scr (n + 2) n) (w.upY scr)) ⟨lines, e.row - 1, n⟩ := by
  rw [moveTo_eq _ _ h.row.upY]
  exact of_plain htagged hplain hlt h.row.upY (colAt_placeX scr n) hle

theorem backSpace (h : Refines scr w e) (clrs : Colors) :
    Refines scr (w.backSpace clrs scr) e.backSpace := by
  have hle := h.col_le
  have hlt := h.row_lt_lines
  unfold CodeWnd.backSpace TextEditor.backSpace
  simp only [h.currentLineId, h.pos]
  by_cases hcol : e.col = 0
  · -- the line is joined to the one before it
    rw [if_neg (by omega), if_neg (not_not.mpr hcol)]
    by_cases hrow : e.row = 0
    · rw [if_pos hrow, if_neg (not_not.mpr hrow)]
      exact h
    rw [if_neg hrow, if_pos hrow]
    have hplain : plain ((pad w.contents e.row).eraseIdx e.row) = e.lines.eraseIdx e.row := by
      rw [plain, ← List.eraseIdx_map, ← plain, plain_pad, h.lines]
    have hshort : e.row - 1 < (e.lines.eraseIdx e.row).length := by
      rw [List.length_eraseIdx_of_lt hlt]
      omega
    obtain ⟨htagged1, hplain1, hline1⟩ :=
      getLine_spec ((h.tagged.pad e.row).eraseIdx e.row) (e.row - 1)
    rw [hplain, pad_of_lt hshort] at hplain1
    rw [hplain, lineAt_eraseIdx_of_lt e.lines (by omega)] at hline1
    obtain ⟨htagged2, hplain2⟩ :=
      set_spec htagged1 (h.newline_not_mem_append (e.row - 1) e.row) (e.row - 1)
    rw [hplain1] at hplain2
    have hdel : uncolored (Wnd.lineAt (pad w.contents e.row) e.row) = e.line := by
      rw [lineAt_pad, ← lineAt_plain]
      exact h.lineAt_eq e.row
    simp only [getLineDel, hline1, hdel]
    refine finalize ?_ clrs
    refine h.toLineBefore htagged2 hplain2 ?_ ?_
    · rwa [List.length_set]
    · rw [List.getD_eq_getElem _ _ (by rwa [List.length_set]), List.getElem_set_self,
        List.length_append]
      exact Nat.le_add_right _ _
  · obtain ⟨htagged, hplain, hline⟩ := h.getLine
    obtain ⟨htagged', hplain'⟩ := set_spec htagged (h.newline_not_mem_eraseIdx (e.col - 1)) e.row
    rw [hplain] at hplain'
    have hpos : ((e.col : Int) - 1).toNat = e.col - 1 := by omega
    rw [if_pos (by omega), hline, if_neg (by omega), if_pos hcol, hpos]
    refine finalize ?_ clrs
    refine of_frame (shiftLeft_frame _) htagged' hplain' ?_ h.row (ColAt.shiftLeft h.col hcol) ?_
    · rwa [List.length_set]
    · rw [TextEditor.line_set hlt, List.length_eraseIdx]
      split <;> dsimp only <;> omega

theorem del (h : Refines scr w e) (clrs : Colors) : Refines scr (w.del clrs scr) e.del := by
  obtain ⟨htagged, hplain, hline⟩ := h.getLine
  have hle := h.col_le
  have hlt := h.row_lt_lines
  have hlen : (Wnd.getLine w.contents e.row).length = e.lines.length := by
    rw [← length_plain, hplain]
  unfold CodeWnd.del TextEditor.del
  simp only [h.currentLineId, h.pos, hline, hlen, Int.toNat_natCast]
  rw [if_neg (by omega)]
  by_cases hcol : e.col < e.line.length
  · rw [if_pos (by omega), if_pos hcol]
    obtain ⟨htagged', hplain'⟩ := set_spec htagged (h.newline_not_mem_eraseIdx e.col) e.row
    rw [hplain] at hplain'
    refine finalize ?_ clrs
    refine of_plain htagged' hplain' ?_ h.row h.col ?_
    · rwa [List.length_set]
    · rw [TextEditor.line_set hlt, List.length_eraseIdx_of_lt hcol]
      exact Nat.le_sub_one_of_lt hcol
  rw [if_neg (by omega), if_neg hcol]
  by_cases hrow : e.row + 1 < e.lines.length
  · -- the next line is joined to this one
    rw [if_neg (by omega), if_pos hrow]
    have hpad : pad (Wnd.getLine w.contents e.row) (e.row + 1) = Wnd.getLine w.contents e.row :=
      pad_of_lt (by omega)
    have hdel : uncolored (Wnd.lineAt (Wnd.getLine w.contents e.row) (e.row + 1)) =
        e.lineAt (e.row + 1) := by
      rw [← lineAt_plain, hplain]
      rfl
    have hplain1 : plain ((Wnd.getLine w.contents e.row).eraseIdx (e.row + 1)) =
        e.lines.eraseIdx (e.row + 1) := by
      rw [plain, ← List.eraseIdx_map, ← plain, hplain]
    obtain ⟨htagged2, hplain2⟩ := set_spec (htagged.eraseIdx (e.row + 1))
      (h.newline_not_mem_append e.row (e.row + 1)) e.row
    rw [hplain1] at hplain2
    have hshort : e.row < (e.lines.eraseIdx (e.row + 1)).length := by
      rw [List.length_eraseIdx_of_lt hrow]
      omega
    simp only [getLineDel, hpad, hdel]
    refine finalize ?_ clrs
    refine of_plain htagged2 hplain2 ?_ h.row h.col ?_
    · rwa [List.length_set]
    · rw [TextEditor.line_set hshort, List.length_append]
      exact Nat.le_add_right_of_le hle
  · rw [if_pos (by omega), if_neg hrow]
    exact h.with_getLine

-- ---------------------------------------------------------------------------
-- Moves
-- ---------------------------------------------------------------------------

theorem left (h : Refines scr w e) (clrs : Colors) : Refines scr (w.left clrs scr) e.left := by
  have heq := h.col.eq
  have hge := h.col.ge
  have hle := h.col_le
  dsimp only at heq hge
  unfold CodeWnd.left TextEditor.left
  by_cases hcol : e.col = 0
  · rw [if_neg (by omega), if_neg (not_not.mpr hcol)]
    simp only [h.currentLineId]
    by_cases hrow : e.row = 0
    · rw [if_pos hrow, if_neg (not_not.mpr hrow)]
      exact h
    rw [if_neg hrow, if_pos hrow]
    have hlt := h.row_lt hrow
    have hlen := length_plain w.contents
    obtain ⟨htagged, hplain, hline⟩ := getLine_spec h.tagged (e.row - 1)
    rw [pad_of_lt (by omega), h.plain_eq hlt] at hplain
    rw [h.lineAt_eq] at hline
    rw [hline]
    exact finalize (h.toLineBefore htagged hplain (by rw [← h.plain_eq hlt]; omega)
      (Nat.le_refl _)) clrs
  · rw [if_pos (by omega), if_pos hcol]
    obtain ⟨hcontents, hposY, hcursorY⟩ := shiftLeft_frame w
    refine finalize ⟨?_, ?_, ?_, ?_, h.col.shiftLeft hcol, ?_⟩ clrs
    · rw [hcontents]
      exact h.tagged
    · rw [hcontents]
      exact h.lines
    · rw [hcontents]
      exact h.row_lt
    · rw [hposY, hcursorY]
      exact h.row
    · exact Nat.le_trans (Nat.sub_le _ _) hle

theorem right (h : Refines scr w e) (clrs : Colors) : Refines scr (w.right clrs scr) e.right := by
  obtain ⟨htagged, hplain, hline⟩ := h.getLine
  have hle := h.col_le
  have hlt := h.row_lt_lines
  have hlen : (Wnd.getLine w.contents e.row).length = e.lines.length := by
    rw [← length_plain, hplain]
  unfold CodeWnd.right TextEditor.right
  simp only [h.currentLineId, h.pos, hline, hlen]
  rw [if_neg (by omega)]
  by_cases hcol : e.col < e.line.length
  · rw [if_pos (by omega), if_pos hcol]
    refine finalize ?_ clrs
    refine of_frame (shiftRight_frame _ _ _) htagged hplain hlt h.row ?_ hcol
    refine ColAt.shiftRight ?_ 1 (by omega)
    exact h.col
  rw [if_neg (by omega), if_neg hcol]
  by_cases hrow : e.row + 1 < e.lines.length
  · rw [if_neg (by omega), if_pos hrow]
    have hdown : RowAt scr (CodeWnd.downY scr { w with contents := Wnd.getLine w.contents e.row })
        (e.row + 1) := RowAt.downY h.row
    obtain ⟨htagged', hplain'⟩ := syntaxColorAt_spec clrs htagged e.row
    rw [hplain, pad_of_lt hlt] at hplain'
    rw [moveTo_eq _ _ hdown]
    refine finalize ?_ clrs
    exact of_plain htagged' hplain' hrow hdown (colAt_first scr) (Nat.zero_le _)
  · rw [if_pos (by omega), if_neg hrow]
    exact h.with_getLine

theorem goTo (h : Refines scr w e) (clrs : Colors) (hrow : e.row < w.contents.length)
    (hlt : row' < w.contents.length) (hy : RowAt scr y row') :
    Refines scr ((({ w with contents := Wnd.getLine w.contents row' } : CodeWnd).moveTo
      (w.wantX scr (Wnd.lineAt (Wnd.getLine w.contents row') row').length) y).finalize clrs scr)
      (e.goTo row' (w.cursorX - 2).toNat) := by
  obtain ⟨htagged, hplain, hline⟩ := getLine_spec h.tagged row'
  have hlen := length_plain w.contents
  rw [pad_of_lt (by omega), h.plain_eq hrow] at hplain
  rw [h.lineAt_eq] at hline
  rw [hline, moveTo_eq _ _ hy]
  refine finalize ?_ clrs
  refine of_plain htagged hplain ?_ hy (h.col.wantX _) (Nat.min_le_right _ _)
  change row' < e.lines.length
  rwa [← h.plain_eq hrow, length_plain]

theorem up (h : Refines scr w e) (clrs : Colors) :
    Refines scr (w.up clrs scr) (e.up (w.cursorX - 2).toNat) := by
  unfold CodeWnd.up TextEditor.up
  simp only [h.currentLineId]
  by_cases hrow : e.row = 0
  · rw [if_pos hrow, if_neg (not_not.mpr hrow)]
    exact h
  · rw [if_neg hrow, if_pos hrow]
    have hlt := h.row_lt hrow
    exact h.goTo clrs hlt (by omega) h.row.upY

theorem down (h : Refines scr w e) (clrs : Colors) :
    Refines scr (w.down clrs scr) (e.down (w.cursorX - 2).toNat) := by
  have hlen := h.length_lines
  unfold CodeWnd.down TextEditor.down
  simp only [h.currentLineId]
  by_cases hrow : e.row + 1 < w.contents.length
  · rw [if_neg (by omega), if_pos (by omega)]
    exact h.goTo clrs (by omega) hrow h.row.downY
  · rw [if_pos (by omega), if_neg (by omega)]
    exact h

theorem pgUp (h : Refines scr w e) (clrs : Colors) :
    Refines scr (w.pgUp clrs scr) (e.pgUp (CodeWnd.winDim scr) (w.cursorX - 2).toNat) := by
  obtain ⟨heq, hge, hle⟩ := h.row
  dsimp only at heq hge hle
  unfold CodeWnd.pgUp TextEditor.pgUp
  simp only [h.currentLineId]
  by_cases hrow : e.row = 0
  · rw [if_pos hrow, if_neg (not_not.mpr hrow)]
    exact h
  · rw [if_neg hrow, if_pos hrow]
    have hlt := h.row_lt hrow
    refine h.goTo clrs hlt (by omega) ?_
    unfold CodeWnd.winDim
    split <;> constructor <;> dsimp only <;> omega

theorem pgDn (h : Refines scr w e) (clrs : Colors) :
    Refines scr (w.pgDn clrs scr) (e.pgDn (CodeWnd.winDim scr) (w.cursorX - 2).toNat) := by
  have hlen := h.length_lines
  obtain ⟨heq, hge, hle⟩ := h.row
  dsimp only at heq hge hle
  unfold CodeWnd.pgDn TextEditor.pgDn
  simp only [h.currentLineId]
  by_cases hrow : e.row + 1 < w.contents.length
  · rw [if_neg (Nat.not_le.mpr hrow), if_pos (by omega : e.row + 1 < e.lines.length)]
    have htarget : (if e.row + CodeWnd.winDim scr ≥ w.contents.length then w.contents.length - 1
        else e.row + CodeWnd.winDim scr) =
          min (e.row + CodeWnd.winDim scr) (e.lines.length - 1) := by
      split <;> omega
    rw [htarget]
    generalize hrow' : min (e.row + CodeWnd.winDim scr) (e.lines.length - 1) = row'
    have hlt : row' < w.contents.length := by omega
    have hlen' : (Wnd.getLine w.contents row').length = w.contents.length := by
      rw [← length_plain, (getLine_spec h.tagged row').2.1, length_pad, length_plain]
      omega
    rw [hlen']
    refine h.goTo clrs (by omega) hlt ?_
    -- the window goes down as long as there is a line for its first row
    unfold CodeWnd.winDim at *
    split <;> constructor <;> dsimp only <;> omega
  · rw [if_pos (by omega), if_neg (by omega)]
    exact h

theorem home (h : Refines scr w e) (clrs : Colors) : Refines scr (w.home clrs scr) e.home := by
  unfold CodeWnd.home
  refine finalize ?_ clrs
  exact ⟨h.tagged, h.lines, h.row_lt, h.row, colAt_first scr, Nat.zero_le _⟩

theorem toEnd (h : Refines scr w e) (clrs : Colors) : Refines scr (w.toEnd clrs scr) e.toEnd := by
  obtain ⟨htagged, hplain, hline⟩ := h.getLine
  unfold CodeWnd.toEnd CodeWnd.changeCursorX
  simp only [h.currentLineId, hline]
  refine finalize ?_ clrs
  exact of_plain htagged hplain h.row_lt_lines h.row (colAt_placeX scr _) (Nat.le_refl _)

end Refines

-- ---------------------------------------------------------------------------
-- Runs
-- ---------------------------------------------------------------------------

inductive Op where
  | add (c : Char) (printable : 32 ≤ c.toNat ∧ c.toNat < 128)
  | tab | enter | backSpace | del
  | left | right | up | down | home | toEnd | pgUp | pgDn

namespace CodeWnd

def init (scr : Area) : CodeWnd where
  contents := []
  posX := 0
  posY := 0
  cursorX := 2
  cursorY := scr.destY0

def apply (clrs : Colors) (scr : Area) (w : CodeWnd) : Op → CodeWnd
  | .add c _ => w.add clrs scr [c]
  | .tab => w.tab clrs scr
  | .enter => w.enter clrs scr
  | .backSpace => w.backSpace clrs scr
  | .del => w.del clrs scr
  | .left => w.left clrs scr
  | .right => w.right clrs scr
  | .up => w.up clrs scr
  | .down => w.down clrs scr
  | .home => w.home clrs scr
  | .toEnd => w.toEnd clrs scr
  | .pgUp => w.pgUp clrs scr
  | .pgDn => w.pgDn clrs scr

def run (clrs : Colors) (scr : Area) (w : CodeWnd) (ops : List Op) : CodeWnd :=
  ops.foldl (apply clrs scr) w

end CodeWnd

/-- The operation of a plain editor. `want` is the column of the cursor on the screen. -/
def plainOp (rows want : Nat) (e : TextEditor Char) : Op → TextEditor Char
  | .add c _ => e.insert [c]
  | .tab => e.tab 4 ' '
  | .enter => e.enter
  | .backSpace => e.backSpace
  | .del => e.del
  | .left => e.left
  | .right => e.right
  | .up => e.up want
  | .down => e.down want
  | .home => e.home
  | .toEnd => e.toEnd
  | .pgUp => e.pgUp rows want
  | .pgDn => e.pgDn rows want

/-- The plain editor that is given the operations of the window `w`. -/
def plainRun (clrs : Colors) (scr : Area) :
    CodeWnd → TextEditor Char → List Op → TextEditor Char
  | _, e, [] => e
  | w, e, op :: ops =>
    plainRun clrs scr (w.apply clrs scr op)
      (plainOp (CodeWnd.winDim scr) (w.cursorX - 2).toNat e op) ops

theorem Refines.init (scr : Screen) : Refines scr (CodeWnd.init scr) TextEditor.empty where
  tagged := fun _ hs => nomatch hs
  lines := rfl
  row_lt := fun hno => absurd rfl hno
  row := by
    have hrows := scr.destY1_ge
    constructor <;> simp only [CodeWnd.init, TextEditor.empty] <;> omega
  col := colAt_first scr
  col_le := Nat.zero_le _

theorem Refines.apply (h : Refines scr w e) (clrs : Colors) (op : Op) :
    Refines scr (w.apply clrs scr op)
      (plainOp (CodeWnd.winDim scr) (w.cursorX - 2).toNat e op) := by
  cases op with
  | add c printable =>
    refine h.add clrs fun hmem => ?_
    rw [List.mem_singleton] at hmem
    subst hmem
    exact absurd printable (by decide)
  | tab => exact h.tab clrs
  | enter => exact h.enter clrs
  | backSpace => exact h.backSpace clrs
  | del => exact h.del clrs
  | left => exact h.left clrs
  | right => exact h.right clrs
  | up => exact h.up clrs
  | down => exact h.down clrs
  | home => exact h.home clrs
  | toEnd => exact h.toEnd clrs
  | pgUp => exact h.pgUp clrs
  | pgDn => exact h.pgDn clrs

theorem Refines.run (h : Refines scr w e) (clrs : Colors) (ops : List Op) :
    Refines scr (w.run clrs scr ops) (plainRun clrs scr w e ops) := by
  induction ops generalizing w e with
  | nil => exact h
  | cons op ops ih => exact ih (h.apply clrs op)

/-- Over every run from the empty window, the text and the position are those of a plain editor,
and the cursor stays in the window and in its line. -/
theorem scriptWindow_refines (clrs : Colors) (scr : Screen) (ops : List Op) :
    let w := (CodeWnd.init scr).run clrs scr ops
    let e := plainRun clrs scr (CodeWnd.init scr) TextEditor.empty ops
    plain (pad w.contents (w.currentLineId scr)) = e.lines ∧
      w.posY + w.cursorY - scr.destY0 = e.row ∧ w.cursorX - 2 + w.posX = e.col ∧
      2 ≤ w.cursorX ∧ w.cursorX ≤ (scr.wndWidth : Int) - 2 ∧
      scr.destY0 ≤ w.cursorY ∧ w.cursorY ≤ scr.destY1 ∧
      w.cursorX - 2 + w.posX ≤ (uncolored (lineAt w.contents (w.currentLineId scr))).length := by
  intro w e
  have h : Refines scr w e := (Refines.init scr).run clrs ops
  obtain ⟨hrow, hge, hle⟩ := h.row
  have hline : uncolored (lineAt w.contents (w.currentLineId scr)) = e.line := by
    rw [h.currentLineId, ← lineAt_plain]
    exact h.lineAt_eq e.row
  refine ⟨?_, ?_, h.pos, h.col.ge, h.col.le, hge, hle, ?_⟩
  · rw [plain_pad, h.currentLineId, h.lines]
  · dsimp only at hrow
    omega
  · have hcol := h.col_le
    have hpos := h.col.eq
    dsimp only at hpos
    rw [hline, hpos]
    exact_mod_cast hcol

end BugChecker.Wnd
