import Mathlib.Data.List.GetD
import Mathlib.Data.List.TakeWhile
import BugChecker.Wnd.Prompt

/-!
# The command line is a plain line editor

Every operation of the input line is that of a plain line, whatever the offset
and the cursor are. The commands of the log are the history, and the words of
TAB are the completions.
-/

namespace BugChecker.Wnd

open Cmd (trim)

-- ---------------------------------------------------------------------------
-- The commands of a log
-- ---------------------------------------------------------------------------

theorem command?_eq (h : InputLine.isUserCmd s = true) : command? s = some (s.drop 2) := if_pos h

theorem command?_eq_none (h : InputLine.isUserCmd s = false) : command? s = none :=
  if_neg (by simp [h])

theorem commands_append (log log' : List (List Char)) :
    commands (log ++ log') = commands log ++ commands log' := List.filterMap_append

theorem commands_drop (log : List (List Char)) (n : Nat) :
    commands (log.drop n) = (commands log).drop (commands (log.take n)).length := by
  conv_rhs => rw [← List.take_append_drop n log, commands_append]
  rw [List.take_append_drop, List.drop_left]

theorem commands_endLine (newLine : Bool) (log : List (List Char)) :
    commands (endLine newLine log) = commands log := by
  unfold endLine
  split
  · rfl
  · have hempty : commands (log.reverse.takeWhile (·.isEmpty)).reverse = [] := by
      rw [commands, List.filterMap_eq_nil_iff]
      intro s hs
      have hs := List.mem_takeWhile_imp (List.mem_reverse.mp hs)
      rw [List.isEmpty_iff] at hs
      subst hs
      rfl
    have hsplit : log = (log.reverse.dropWhile (·.isEmpty)).reverse ++
        (log.reverse.takeWhile (·.isEmpty)).reverse := by
      rw [← List.reverse_append, List.takeWhile_append_dropWhile, List.reverse_reverse]
    conv_rhs => rw [hsplit, commands_append, hempty, List.append_nil]

theorem commands_addUserCmd (newLine : Bool) (text : List Char) (log : List (List Char)) :
    commands (addUserCmd newLine text log) =
      commands log ++ (if trim text = [] then [] else [trim text]) := by
  unfold addUserCmd
  split
  · rw [List.append_nil]
  · next htext =>
    have hcmd : InputLine.isUserCmd ('\r' :: ':' :: trim text) = true := by
      have := List.length_pos_of_ne_nil htext
      simp [InputLine.isUserCmd]
      omega
    rw [commands_append, commands_endLine]
    simp [commands, command?_eq hcmd]

theorem lt_length_of_isUserCmd {log : List (List Char)}
    (h : InputLine.isUserCmd (log.getD i []) = true) : i < log.length := by
  by_contra hle
  rw [List.getD_eq_default _ _ (by omega)] at h
  cases h

theorem commands_take_succ {log : List (List Char)} (i : Nat) :
    commands (log.take (i + 1)) =
      commands (log.take i) ++ if InputLine.isUserCmd (log.getD i []) then [(log.getD i []).drop 2]
        else [] := by
  rw [List.take_add_one, commands_append]
  congr 1
  rw [List.getD_eq_getElem?_getD]
  cases log[i]? with
  | none => rfl
  | some s =>
    rw [Option.toList_some, Option.getD_some]
    cases hs : InputLine.isUserCmd s with
    | false => simp [commands, command?_eq_none hs]
    | true => simp [commands, command?_eq hs]

theorem commands_getElem? {log : List (List Char)}
    (h : InputLine.isUserCmd (log.getD i []) = true) :
    (commands log)[(commands (log.take i)).length]? = some ((log.getD i []).drop 2) := by
  have hsplit : commands log = commands (log.take i) ++ ([(log.getD i []).drop 2] ++
      commands (log.drop (i + 1))) := by
    conv_lhs => rw [← List.take_append_drop (i + 1) log, commands_append,
      commands_take_succ, if_pos h]
    rw [List.append_assoc]
  rw [hsplit, List.getElem?_append_right (Nat.le_refl _), Nat.sub_self]
  rfl

theorem findUp_eq_none (h : InputLine.findUp log i = none) : commands (log.take i) = [] := by
  induction i with
  | zero => rfl
  | succ i ih =>
    rw [InputLine.findUp] at h
    rw [commands_take_succ]
    cases hcmd : InputLine.isUserCmd (log.getD i []) with
    | false =>
      rw [hcmd] at h
      simp [ih h]
    | true =>
      rw [hcmd] at h
      cases h

theorem findUp_eq_some (h : InputLine.findUp log i = some j) :
    InputLine.isUserCmd (log.getD j []) = true ∧
      (commands (log.take i)).length = (commands (log.take j)).length + 1 := by
  induction i with
  | zero => cases h
  | succ i ih =>
    rw [InputLine.findUp] at h
    rw [commands_take_succ]
    cases hcmd : InputLine.isUserCmd (log.getD i []) with
    | false =>
      rw [hcmd] at h
      simpa using ih h
    | true =>
      rw [hcmd] at h
      cases h
      exact ⟨hcmd, by simp⟩

theorem commands_take_of_none {log : List (List Char)} (hij : i ≤ j)
    (h : ∀ k, i ≤ k → k < j → InputLine.isUserCmd (log.getD k []) = false) :
    commands (log.take j) = commands (log.take i) := by
  induction j, hij using Nat.le_induction with
  | base => rfl
  | succ j hij ih =>
    rw [commands_take_succ, h j hij (Nat.lt_succ_self j), ih fun k hk hk' => h k hk (by omega)]
    simp

theorem findDown_eq_none {i : Nat} (h : InputLine.findDown log i = none) :
    commands (log.take (i + 1)) = commands log := by
  rw [InputLine.findDown, List.find?_eq_none] at h
  by_cases hi : i + 1 ≤ log.length
  · rw [← commands_take_of_none hi, List.take_length]
    intro k hk hk'
    have := h k (List.mem_range.mpr hk')
    simpa [show i < k by omega] using this
  · rw [List.take_of_length_le (by omega)]

theorem findDown_eq_some {i : Nat} (h : InputLine.findDown log i = some j) :
    InputLine.isUserCmd (log.getD j []) = true ∧
      commands (log.take j) = commands (log.take (i + 1)) := by
  rw [InputLine.findDown, List.find?_range_eq_some] at h
  obtain ⟨hj, -, hbefore⟩ := h
  rw [Bool.and_eq_true, decide_eq_true_eq] at hj
  refine ⟨hj.2, commands_take_of_none (by omega) fun k hk hk' => ?_⟩
  have := hbefore k hk'
  simpa [show i < k by omega] using this

-- ---------------------------------------------------------------------------
-- The operations of the line
-- ---------------------------------------------------------------------------

namespace InputLine

variable {l : InputLine} {sources : Sources} {wndWidth : Nat}

theorem At.pos_eq (h : At l.text l.offset l.cursorX) :
    (l.pos.toNat : Int) = l.pos ∧ l.pos.toNat ≤ l.text.length := by
  have hge := h.ge
  have hle := h.le
  unfold pos
  omega

theorem toLeft_spec (h : 2 ≤ l.cursorX) :
    l.toLeft.text = l.text ∧ l.toLeft.historyPos = l.historyPos ∧ 2 ≤ l.toLeft.cursorX ∧
      l.toLeft.cursorX ≤ l.cursorX ∧ l.toLeft.pos.toNat = l.pos.toNat - 1 := by
  unfold toLeft
  split
  · refine ⟨rfl, rfl, ?_, ?_, ?_⟩ <;> dsimp only [pos] <;> omega
  · split
    · refine ⟨rfl, rfl, ?_, ?_, ?_⟩ <;> dsimp only [pos] <;> omega
    · refine ⟨rfl, rfl, h, Int.le_refl _, ?_⟩
      dsimp only [pos]
      omega

theorem toEnd_spec (l : InputLine) (hwidth : 4 ≤ wndWidth) :
    ∃ offset cursorX, l.toEnd wndWidth = finalize { l with offset := offset, cursorX := cursorX } ∧
      2 ≤ cursorX ∧ cursorX ≤ (wndWidth : Int) - 2 ∧ cursorX - 2 + offset = l.text.length := by
  unfold toEnd
  dsimp only
  split
  · exact ⟨_, _, rfl, by omega, by omega, by omega⟩
  · exact ⟨_, _, rfl, by omega, by omega, by omega⟩

theorem completeWord_of_nil (hat : At l.text l.offset l.cursorX) {s : LineEditor.Session Char}
    (htext : s.text = l.text) (hcol : s.col = l.pos.toNat) (hwords : s.words ' ' sources.words = [])
    (hitems : l.tabData.numOfItems = 0) :
    l.completeWord wndWidth sources.complete = l := by
  have hpos := hat.pos_eq
  rw [LineEditor.Session.words, htext, hcol] at hwords
  unfold completeWord
  by_cases hne : l.text = []
  · rw [if_pos hne]
  rw [if_neg hne, if_neg (by omega)]
  by_cases hzero : l.pos = 0
  · rw [if_pos hzero]
  rw [if_neg hzero]
  dsimp only
  split at hwords
  · next hin => rw [if_pos hin]
  next hin =>
  rw [if_neg hin]
  split at hwords
  · next hword => exact if_pos hword
  next hword =>
  refine (if_neg hword).trans ?_
  have hcomplete := Sources.complete_of_words_nil hword hwords l.tabData.index
  rw [LineEditor.wordAt] at hcomplete hword
  rw [hcomplete]
  dsimp only
  have hlen := List.length_pos_of_ne_nil hword
  rw [if_pos (show [].length < _ from hlen), ← hitems]

theorem completeWord_of_some (hat : At l.text l.offset l.cursorX)
    (hfits : l.cursorX ≤ (wndWidth : Int) - 2) {s : LineEditor.Session Char}
    (htext : s.text = l.text) (hcol : s.col = l.pos.toNat) {i : Nat} (hindex : l.tabData.index = i)
    (hword : (s.words ' ' sources.words)[i]? = some word) :
    ∃ offset cursorX, l.completeWord wndWidth sources.complete = { l with
        text := s.text.take (s.col - (LineEditor.wordAt ' ' s.text s.col).length) ++
          (word ++ s.text.drop s.col)
        offset := offset, cursorX := cursorX
        tabData := { l.tabData with numOfItems := (s.words ' ' sources.words).length } } ∧
      2 ≤ cursorX ∧ cursorX ≤ (wndWidth : Int) - 2 ∧
      cursorX - 2 + offset =
        (s.col - (LineEditor.wordAt ' ' s.text s.col).length + word.length : Nat) := by
  have hpos := hat.pos_eq
  have hge := hat.ge
  have hin : ¬ (s.col < s.text.length ∧ s.text[s.col]? ≠ some ' ') := fun h => by
    rw [LineEditor.Session.words, if_pos h] at hword
    cases hword
  generalize ht : LineEditor.wordAt ' ' s.text s.col = t at *
  have hne : t ≠ [] := fun h => by
    rw [LineEditor.Session.words, if_neg hin, ht, if_pos h] at hword
    cases hword
  have hwords : s.words ' ' sources.words = sources.words t := by
    rw [LineEditor.Session.words, if_neg hin, ht, if_neg hne]
  have hlen : t.length ≤ s.col := by
    rw [← ht, LineEditor.wordAt, List.length_reverse]
    refine Nat.le_trans (List.takeWhile_sublist _).length_le ?_
    rw [List.length_reverse, List.length_take]
    exact Nat.min_le_left _ _
  have hpos_t := List.length_pos_of_ne_nil hne
  rw [hwords] at hword ⊢
  have hle := Sources.length_le_words (List.mem_of_getElem? hword)
  have hcomplete := Sources.complete_words hne hword
  rw [htext, hcol] at hin ht
  rw [LineEditor.wordAt] at ht
  have htext_ne : l.text ≠ [] := by
    intro h
    rw [h] at hpos
    simp at hpos
    omega
  unfold completeWord
  rw [if_neg htext_ne, if_neg (by omega), if_neg (by omega)]
  dsimp only
  rw [if_neg hin]
  simp only [ht, hindex, hcomplete]
  rw [if_neg hne, if_neg (by omega), htext, hcol]
  rw [hcol] at hlen
  unfold pos at *
  split
  · exact ⟨_, _, rfl, by omega, by omega, by omega⟩
  · exact ⟨_, _, rfl, by omega, by omega, by omega⟩

end InputLine

namespace Prompt

variable {p : Prompt}

def withLine (p : Prompt) (l : InputLine) : Prompt := { p with line := l }

/-- The command line is a plain one, and the cursor is in its place. -/
structure Simulates (wndWidth : Nat) (p : Prompt) (e : LineEditor Char) : Prop where
  ok : p.Ok wndWidth
  plain : p.plain = e

theorem simulates_self (hok : p.Ok wndWidth) : p.Simulates wndWidth p.plain := ⟨hok, rfl⟩

theorem simulates_finalize (hok : p.Ok wndWidth) {l : InputLine}
    (hpos : l.historyPos = p.line.historyPos) (htext : l.text = text) (hcol : l.pos.toNat = col)
    (hcursor : InputLine.At l.text l.offset l.cursorX) (hfits : l.cursorX ≤ (wndWidth : Int) - 2) :
    (p.withLine l.finalize).Simulates wndWidth
      { p.plain with text := text, col := col, session := none } where
  ok := ⟨hcursor, hfits, fun h => by
    have hrecalls := hok.recalls
    rw [← hpos] at hrecalls
    exact hrecalls h, fun h => absurd rfl h⟩
  plain := by
    subst htext hcol
    simp only [Prompt.plain, withLine, InputLine.finalize, hpos, if_true]
    rfl

theorem addChar_simulates (hok : p.Ok wndWidth) (c : Char) :
    (p.withLine (p.line.addChar wndWidth c)).Simulates wndWidth (p.plain.insert c) := by
  obtain ⟨hge, hle⟩ := hok.cursor
  have hfits := hok.fits
  have hlen : (p.line.text.insertIdx p.line.pos.toNat c).length = p.line.text.length + 1 :=
    List.length_insertIdx_of_le_length hok.cursor.pos_eq.2 c
  unfold InputLine.addChar
  rw [if_neg (by unfold InputLine.pos; omega)]
  dsimp only
  split
  · refine simulates_finalize hok rfl rfl ?_ ⟨?_, ?_⟩ ?_
    · show _ = p.line.pos.toNat + 1
      dsimp only [InputLine.pos]
      omega
    all_goals dsimp only; omega
  · refine simulates_finalize hok rfl rfl ?_ ⟨?_, ?_⟩ ?_
    · show _ = p.line.pos.toNat + 1
      dsimp only [InputLine.pos]
      omega
    all_goals dsimp only; omega

theorem backSpace_simulates (hok : p.Ok wndWidth) :
    (p.withLine p.line.backSpace).Simulates wndWidth p.plain.backSpace := by
  obtain ⟨hge, hle⟩ := hok.cursor
  have hfits := hok.fits
  unfold InputLine.backSpace
  by_cases hcol : p.line.pos.toNat = 0
  · have hnone : p.plain.backSpace = p.plain := if_pos hcol
    have hpos : p.line.pos - 1 < 0 := by omega
    rw [hnone, if_pos hpos, ite_self]
    exact simulates_self hok
  · have hsome : p.plain.backSpace = { p.plain with
        text := p.line.text.eraseIdx (p.line.pos.toNat - 1), col := p.line.pos.toNat - 1
        session := none } := if_neg hcol
    have htext : p.line.text ≠ [] := by
      intro h
      rw [h] at hle
      unfold InputLine.pos at hcol
      exact hcol (by simp at hle; omega)
    rw [hsome, if_neg htext, if_neg (by omega)]
    have herase : (p.line.pos - 1).toNat = p.line.pos.toNat - 1 := by omega
    obtain ⟨htext', hhist, hge', hle', hpos'⟩ :=
      InputLine.toLeft_spec
        (l := { p.line with text := p.line.text.eraseIdx (p.line.pos - 1).toNat }) hge
    have hlen : (p.line.text.eraseIdx (p.line.pos.toNat - 1)).length = p.line.text.length - 1 :=
      List.length_eraseIdx_of_lt (by unfold InputLine.pos at *; omega)
    have hat :=
      InputLine.toLeft_at (l := { p.line with text := p.line.text.eraseIdx (p.line.pos - 1).toNat })
      hge (by dsimp only; rw [herase, hlen]; omega)
    refine simulates_finalize hok hhist ?_ hpos' hat (Int.le_trans hle' hfits)
    rw [htext']
    dsimp only
    rw [herase]

theorem del_simulates (hok : p.Ok wndWidth) :
    (p.withLine p.line.del).Simulates wndWidth p.plain.del := by
  obtain ⟨hge, hle⟩ := hok.cursor
  unfold InputLine.del
  by_cases hcol : p.line.pos.toNat < p.line.text.length
  · have hsome : p.plain.del = { p.plain with
        text := p.line.text.eraseIdx p.line.pos.toNat, col := p.line.pos.toNat
        session := none } := if_pos hcol
    have hlen : (p.line.text.eraseIdx p.line.pos.toNat).length = p.line.text.length - 1 :=
      List.length_eraseIdx_of_lt hcol
    rw [hsome, if_neg (by unfold InputLine.pos at *; omega)]
    refine simulates_finalize hok rfl rfl rfl ⟨hge, ?_⟩ hok.fits
    dsimp only
    rw [hlen]
    unfold InputLine.pos at hcol
    omega
  · have hnone : p.plain.del = p.plain := if_neg hcol
    rw [hnone, if_pos (by omega)]
    exact simulates_self hok

theorem left_simulates (hok : p.Ok wndWidth) :
    (p.withLine p.line.left).Simulates wndWidth p.plain.left := by
  obtain ⟨hge, hle⟩ := hok.cursor
  obtain ⟨htext, hhist, -, hfits, hpos⟩ := InputLine.toLeft_spec hge
  exact simulates_finalize hok hhist htext hpos (InputLine.toLeft_at hge (by omega))
    (Int.le_trans hfits hok.fits)

theorem right_simulates (hok : p.Ok wndWidth) :
    (p.withLine (p.line.right wndWidth)).Simulates wndWidth p.plain.right := by
  obtain ⟨hge, hle⟩ := hok.cursor
  have hfits := hok.fits
  unfold InputLine.right
  by_cases hcol : p.line.pos.toNat < p.line.text.length
  · have hsome : p.plain.right =
        { p.plain with text := p.line.text, col := p.line.pos.toNat + 1, session := none } :=
      if_pos hcol
    rw [hsome, if_neg (by unfold InputLine.pos at *; omega)]
    split
    all_goals
      refine simulates_finalize hok rfl rfl ?_ ⟨?_, ?_⟩ ?_ <;>
        dsimp only [InputLine.pos] at * <;> omega
  · have hnone : p.plain.right = p.plain := if_neg hcol
    rw [hnone, if_pos (by omega)]
    exact simulates_self hok

theorem home_simulates (hok : p.Ok wndWidth) (hwidth : 4 ≤ wndWidth) :
    (p.withLine p.line.home).Simulates wndWidth p.plain.home :=
  simulates_finalize hok rfl rfl rfl ⟨Int.le_refl _, by simp⟩ (by dsimp only; omega)

theorem toEnd_simulates (hok : p.Ok wndWidth) (hwidth : 4 ≤ wndWidth) :
    (p.withLine (p.line.toEnd wndWidth)).Simulates wndWidth p.plain.toEnd := by
  obtain ⟨offset, cursorX, hline, hge, hfits, hend⟩ := InputLine.toEnd_spec p.line hwidth
  rw [hline]
  refine simulates_finalize hok rfl rfl ?_ ⟨hge, ?_⟩ hfits
  · show _ = p.line.text.length
    dsimp only [InputLine.pos]
    omega
  · dsimp only
    omega

theorem redraw_simulates (hok : p.Ok wndWidth) (sources : Sources) :
    ({ p with line := p.line.finalize, sources := sources } : Prompt).Simulates wndWidth
      { p.plain with session := none } where
  ok := ⟨hok.cursor, hok.fits, hok.recalls, fun h => absurd rfl h⟩
  plain := rfl

theorem enter_simulates (hwidth : 4 ≤ wndWidth) (newLine : Bool) (output : List (List Char))
    (dropped : Nat) :
    ({ p with line := p.line.enter, log := (p.entered newLine output).drop dropped } :
      Prompt).Simulates
      wndWidth (p.plain.enter (trim p.line.text) (commands output)
        (commands ((p.entered newLine output).take dropped)).length) where
  ok := ⟨⟨Int.le_refl _, by simp [InputLine.enter, InputLine.finalize]⟩,
    by simp only [InputLine.enter, InputLine.finalize]; omega,
    fun h => by simp [InputLine.enter, InputLine.finalize] at h, fun h => absurd rfl h⟩
  plain := by
    have hlog : commands (p.entered newLine output) =
        commands p.log ++ (if trim p.line.text = [] then [] else [trim p.line.text]) ++
          commands output := by
      rw [entered, commands_append, commands_addUserCmd]
    simp only [Prompt.plain, LineEditor.enter, commands_drop, ← hlog]
    rfl

theorem fromLog_simulates (hwidth : 4 ≤ wndWidth)
    (hcmd : InputLine.isUserCmd (p.log.getD i []) = true) :
    (p.withLine (p.line.fromLog wndWidth p.log i)).Simulates wndWidth
      (p.plain.showAt (commands (p.log.take i)).length) := by
  obtain ⟨offset, cursorX, hline, hge, hfits, hend⟩ :=
    InputLine.toEnd_spec { p.line with text := (p.log.getD i []).drop 2 } hwidth
  have hshow : p.plain.showAt (commands (p.log.take i)).length = { p.plain with
      text := (p.log.getD i []).drop 2, col := ((p.log.getD i []).drop 2).length
      recalledAt := some (commands (p.log.take i)).length, session := none } := by
    rw [LineEditor.showAt, show p.plain.history = commands p.log from rfl, commands_getElem? hcmd]
    rfl
  rw [InputLine.fromLog, hline, hshow]
  constructor
  · refine ⟨⟨hge, ?_⟩, hfits, fun _ => ?_, fun h => absurd rfl h⟩
    · exact Int.le_of_eq hend
    · simpa [withLine] using hcmd
  · have hcol : (cursorX - 2 + offset).toNat = ((p.log.getD i []).drop 2).length := by
      dsimp only at hend
      omega
    simp [Prompt.plain, withLine, InputLine.finalize, InputLine.pos, hcol]

theorem up_simulates (hok : p.Ok wndWidth) (hwidth : 4 ≤ wndWidth) :
    (p.withLine (p.line.up wndWidth p.log)).Simulates wndWidth p.plain.up := by
  unfold InputLine.up
  dsimp only
  generalize hi : (if p.line.historyPos < 0 ∨ p.line.historyPos ≥ p.log.length then p.log.length
    else p.line.historyPos.toNat) = i
  have hcount : p.plain.recalledAt.getD p.plain.history.length =
      (commands (p.log.take i)).length := by
    simp only [Prompt.plain]
    by_cases hneg : p.line.historyPos < 0
    · rw [if_pos hneg, Option.getD_none, ← hi, if_pos (.inl hneg), List.take_length]
    · have hlt := lt_length_of_isUserCmd (hok.recalls (by omega))
      rw [if_neg hneg, Option.getD_some, ← hi, if_neg (by omega)]
  cases hup : InputLine.findUp p.log i with
  | none =>
    have hsame : p.plain.up = p.plain := by
      rw [LineEditor.up, hcount, findUp_eq_none hup]
      rfl
    rw [hsame]
    exact simulates_self hok
  | some j =>
    obtain ⟨hcmd, hlen⟩ := findUp_eq_some hup
    have hshow : p.plain.up = p.plain.showAt (commands (p.log.take j)).length := by
      rw [LineEditor.up, hcount, hlen]
    rw [hshow]
    exact fromLog_simulates hwidth hcmd

theorem down_simulates (hok : p.Ok wndWidth) (hwidth : 4 ≤ wndWidth) :
    (p.withLine (p.line.down wndWidth p.log)).Simulates wndWidth p.plain.down := by
  unfold InputLine.down
  by_cases hneg : p.line.historyPos < 0
  · have hsame : p.plain.down = p.plain := by
      simp only [LineEditor.down, Prompt.plain, if_pos hneg]
    rw [hsame, if_pos (.inl hneg)]
    exact simulates_self hok
  · have hcmd := hok.recalls (by omega)
    have hlt := lt_length_of_isUserCmd hcmd
    have hdown : p.plain.down =
        p.plain.showAt (commands (p.log.take (p.line.historyPos.toNat + 1))).length := by
      rw [commands_take_succ, if_pos hcmd, List.length_append]
      simp only [LineEditor.down, Prompt.plain, if_neg hneg]
      rfl
    have hfind : InputLine.findDown p.log p.line.historyPos =
        InputLine.findDown p.log (p.line.historyPos.toNat : Int) := by
      rw [show (p.line.historyPos.toNat : Int) = p.line.historyPos by omega]
    rw [hdown, if_neg (by omega), hfind]
    cases hd : InputLine.findDown p.log (p.line.historyPos.toNat : Int) with
    | none =>
      have hsame : p.plain.showAt (commands (p.log.take (p.line.historyPos.toNat + 1))).length =
          p.plain := by
        rw [findDown_eq_none hd, LineEditor.showAt, show p.plain.history = commands p.log from rfl,
          List.getElem?_eq_none (Nat.le_refl _)]
      rw [hsame]
      exact simulates_self hok
    | some j =>
      obtain ⟨hcmd', hsame⟩ := findDown_eq_some hd
      rw [← hsame]
      exact fromLog_simulates hwidth hcmd'

theorem completeWord_simulates (hok : p.Ok wndWidth) {l : InputLine}
    (hhist : l.historyPos = p.line.historyPos) (hat : InputLine.At l.text l.offset l.cursorX)
    (hfits : l.cursorX ≤ (wndWidth : Int) - 2) (htext : l.tabData.text = l.text)
    (hoffset : l.tabData.offset = l.offset) (hcursor : l.tabData.cursorX = l.cursorX) {i : Nat}
    (hindex : l.tabData.index = i)
    (hword : (l.tabData.session.words ' ' p.sources.words)[i]? = some word) :
    (p.withLine (l.completeWord wndWidth p.sources.complete)).Simulates wndWidth
      (p.plain.replaceWord ' ' l.tabData.session word) := by
  have hcol : l.tabData.session.col = l.pos.toNat := by
    simp only [TabData.session, hoffset, hcursor, InputLine.pos]
  obtain ⟨offset, cursorX, hline, hge, hfits', hend⟩ :=
    InputLine.completeWord_of_some hat hfits htext hcol hindex hword
  have hi := (List.getElem?_eq_some_iff.mp hword).1
  have hne : l.tabData.text ≠ [] := by
    intro h
    have hnil : l.tabData.session.words ' ' p.sources.words = [] := by
      simp [LineEditor.Session.words, LineEditor.wordAt, TabData.session, h]
    rw [hnil] at hword
    cases hword
  rw [hline]
  constructor
  · refine ⟨⟨hge, ?_⟩, hfits', ?_, fun _ => ⟨?_, ?_, rfl, ?_, ?_⟩⟩
    · have hpos := hat.pos_eq
      simp only [withLine, hend, List.length_append, List.length_take, List.length_drop]
      rw [show l.tabData.session.text = l.text from htext, hcol]
      omega
    · have hrecalls := hok.recalls
      rw [← hhist] at hrecalls
      exact hrecalls
    · simp only [withLine, htext, hoffset, hcursor]
      exact hat
    · simp only [withLine, hcursor]
      exact hfits
    · simp only [withLine, hindex]
      omega
    · simp only [withLine, hindex]
      left
      exact Int.ofNat_lt.mpr hi
  · have hcol' : (cursorX - 2 + offset).toNat = l.tabData.session.col -
        (LineEditor.wordAt ' ' l.tabData.session.text l.tabData.session.col).length +
          word.length := by
      omega
    simp only [Prompt.plain, withLine, InputLine.pos, hcol', hhist, if_neg hne]
    rfl

theorem tab_simulates (hok : p.Ok wndWidth) (modifierKeyState : Bool) :
    (p.withLine (p.line.tab wndWidth modifierKeyState p.sources.complete)).Simulates wndWidth
      (p.plain.complete ' ' p.sources.words modifierKeyState) := by
  have hat := hok.cursor
  unfold InputLine.tab
  by_cases hfirst : p.line.tabData.text = []
  · -- the first TAB
    rw [if_pos hfirst]
    generalize hl : ({ p.line with
      tabData := ⟨p.line.text, p.line.offset, p.line.cursorX, 0, 0⟩ } : InputLine) = l
    have hsession : p.plain.session = none := by simp only [Prompt.plain, if_pos hfirst]
    by_cases hempty : p.line.text = []
    · have hsame : p.plain.complete ' ' p.sources.words modifierKeyState = p.plain := by
        rw [LineEditor.complete, hsession]
        exact if_pos hempty
      have hline : l.completeWord wndWidth p.sources.complete = l := by
        rw [InputLine.completeWord, if_pos (by rw [← hl]; exact hempty)]
      rw [hsame, hline, ← hl]
      refine ⟨⟨hat, hok.fits, hok.recalls, fun h => absurd hempty h⟩, ?_⟩
      simp [Prompt.plain, withLine, InputLine.pos, hempty, hfirst]
    · cases hword : (l.tabData.session.words ' ' p.sources.words)[0]? with
      | some word =>
        subst hl
        rw [LineEditor.complete_first hsession hempty hword]
        exact completeWord_simulates hok rfl hat hok.fits rfl rfl rfl rfl hword
      | none =>
        have hnil : l.tabData.session.words ' ' p.sources.words = [] := by
          rwa [List.getElem?_eq_none_iff, Nat.le_zero, List.length_eq_zero_iff] at hword
        have hline : l.completeWord wndWidth p.sources.complete = l := by
          subst hl
          exact InputLine.completeWord_of_nil hat rfl rfl hnil rfl
        rw [hline]
        subst hl
        rw [LineEditor.complete_first_nil hsession hempty hnil]
        refine ⟨⟨hat, hok.fits, hok.recalls, fun _ => ⟨hat, hok.fits, ?_, Int.le_refl _, .inr rfl⟩⟩,
          ?_⟩
        · exact (congrArg (fun ws : List (List Char) => (ws.length : Int)) hnil).symm
        · simp only [Prompt.plain, withLine, LineEditor.mk.injEq, true_and]
          exact ⟨rfl, rfl, if_neg hempty⟩
  · -- a further one
    obtain ⟨hat', hfits', hitems, hindex, hrange⟩ := hok.tabs hfirst
    have hsession : p.plain.session = some p.line.tabData.session := by
      simp only [Prompt.plain, if_neg hfirst]
    rw [if_neg hfirst]
    by_cases hzero : p.line.tabData.numOfItems = 0
    · have hnil : p.tabWords = [] := List.length_eq_zero_iff.mp (by omega)
      rw [if_pos hzero, LineEditor.complete_next_nil hsession hnil]
      exact simulates_self hok
    · rw [if_neg hzero]
      dsimp only
      generalize hi : (if p.line.tabData.index + (if modifierKeyState = true then -1
          else 1) < 0 then
        p.line.tabData.numOfItems - 1 else if p.line.tabData.index +
        (if modifierKeyState = true then -1 else 1) ≥ p.line.tabData.numOfItems then 0
        else p.line.tabData.index + (if modifierKeyState = true then -1 else 1)) = index
      have hnext : index =
          (p.line.tabData.session.next modifierKeyState p.tabWords.length).index := by
        rw [← hi, hitems]
        unfold LineEditor.Session.next TabData.session
        cases modifierKeyState <;> dsimp only <;> split_ifs <;> omega
      have hlt : (p.line.tabData.session.next modifierKeyState p.tabWords.length).index <
          p.tabWords.length := by
        unfold LineEditor.Session.next TabData.session
        cases modifierKeyState <;> dsimp only <;> split_ifs <;> omega
      rw [LineEditor.complete_next hsession (List.getElem?_eq_getElem hlt)]
      have hsame : ({ p.line.tabData with index := index } : TabData).session =
          p.line.tabData.session.next modifierKeyState p.tabWords.length := by
        rw [hnext]
        rfl
      have hsim := completeWord_simulates hok (l := { p.line with
          text := p.line.tabData.text, offset := p.line.tabData.offset
          cursorX := p.line.tabData.cursorX, tabData := { p.line.tabData with index := index } })
        rfl hat' hfits' rfl rfl rfl hnext
        (by rw [hsame]; exact List.getElem?_eq_getElem hlt)
      rw [hsame] at hsim
      exact hsim

end Prompt

end BugChecker.Wnd
