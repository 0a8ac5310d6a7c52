import Mathlib.Tactic.SplitIfs
import BugChecker.Wnd.PlainLine

/-!
# Runs of the command line

The simulation over any number of operations, the history that is shown with
the arrow keys, and the words that are tried one after the other with TAB.
-/

namespace BugChecker.Wnd

namespace Prompt

variable {p : Prompt} {wndWidth : Nat}

theorem step_simulates (hok : p.Ok wndWidth) (hwidth : 4 ≤ wndWidth) (op : LineOp) :
    (p.step wndWidth op).Simulates wndWidth (p.plain.step ' ' (p.plainOp op)) := by
  cases op with
  | addChar c => exact addChar_simulates hok c
  | backSpace => exact backSpace_simulates hok
  | del => exact del_simulates hok
  | left => exact left_simulates hok
  | right => exact right_simulates hok
  | home => exact home_simulates hok hwidth
  | toEnd => exact toEnd_simulates hok hwidth
  | enter newLine output dropped => exact enter_simulates hwidth newLine output dropped
  | up => exact up_simulates hok hwidth
  | down => exact down_simulates hok hwidth
  | tab modifierKeyState => exact tab_simulates hok modifierKeyState
  | redraw sources => exact redraw_simulates hok sources

theorem run_simulates (hok : p.Ok wndWidth) (hwidth : 4 ≤ wndWidth) (ops : List LineOp) :
    (p.run wndWidth ops).Simulates wndWidth (p.plain.run ' ' (p.plainOps wndWidth ops)) := by
  induction ops generalizing p with
  | nil => exact simulates_self hok
  | cons op ops ih =>
    have hstep := step_simulates hok hwidth op
    have hrest := ih hstep.ok
    rw [hstep.plain] at hrest
    exact hrest

/-- The command line as it is when the debugger starts. Nothing of the TABs is set but the text. -/
def start (log : List (List Char)) (sources : Sources) (tabData : TabData) : Prompt where
  line := ⟨[], 0, 2, -1, { tabData with text := [] }⟩
  log := log
  sources := sources

theorem start_ok (hwidth : 4 ≤ wndWidth) (log : List (List Char)) (sources : Sources)
    (tabData : TabData) : (start log sources tabData).Ok wndWidth :=
  ⟨⟨Int.le_refl _, by simp [start]⟩, by simp only [start]; omega, fun h => by simp [start] at h,
    fun h => absurd rfl h⟩

-- ---------------------------------------------------------------------------
-- The history
-- ---------------------------------------------------------------------------

theorem plainOps_replicate_up (k : Nat) :
    p.plainOps wndWidth (List.replicate k .up) = List.replicate k .up := by
  induction k generalizing p with
  | zero => rfl
  | succ k ih => rw [List.replicate_succ, plainOps, ih]; rfl

theorem run_replicate_up (e : LineEditor Char) (k : Nat) :
    e.run ' ' (List.replicate k .up) = Nat.iterate LineEditor.up k e := by
  induction k generalizing e with
  | zero => rfl
  | succ k ih => rw [List.replicate_succ, LineEditor.run, List.foldl_cons]; exact ih e.up

theorem ups_recalled (hok : p.Ok wndWidth) (hwidth : 4 ≤ wndWidth) (hfresh : p.line.historyPos = -1)
    (hpos : 0 < k) (hk : k ≤ (commands p.log).length) :
    (p.run wndWidth (List.replicate k .up)).plain = p.plain.recalled k := by
  have hrecall : p.plain.recalledAt = none := by simp [Prompt.plain, hfresh]
  rw [(run_simulates hok hwidth _).plain, plainOps_replicate_up, run_replicate_up,
    LineEditor.iterate_up hrecall hpos hk]

theorem down_recalled (hok : p.Ok wndWidth) (hwidth : 4 ≤ wndWidth)
    (hfresh : p.line.historyPos = -1) (hpos : 0 < k) (hk : k ≤ (commands p.log).length) :
    (p.run wndWidth (List.replicate k .up ++ [.down])).plain =
      p.plain.recalled (if 1 < k then k - 1 else 1) := by
  have hrun : (p.run wndWidth (List.replicate k .up ++ [.down])).plain =
      (p.run wndWidth (List.replicate k .up)).plain.down := by
    rw [run, List.foldl_append]
    exact (step_simulates (run_simulates hok hwidth _).ok hwidth .down).plain
  rw [hrun, ups_recalled hok hwidth hfresh hpos hk]
  split
  · next hk' =>
    obtain ⟨j, rfl⟩ : ∃ j, k = j + 1 := ⟨k - 1, by omega⟩
    exact LineEditor.down_recalled (by omega) hk
  · obtain rfl : k = 1 := by omega
    exact LineEditor.down_recalled_one hk

-- ---------------------------------------------------------------------------
-- One TAB after the other
-- ---------------------------------------------------------------------------

def firstTab (l : InputLine) (index : Int) : InputLine :=
  { l with tabData := ⟨l.text, l.offset, l.cursorX, index, 0⟩ }

/-- How far the index has gone, one word on with TAB and one back with Shift-TAB. -/
def turns (ms : List Bool) : Int := ms.count false - ms.count true

theorem completeWord_congr {l l' : InputLine} {complete : List Char → Int → List Char × Int}
    (htext : l.text = l'.text) (hoffset : l.offset = l'.offset) (hcursor : l.cursorX = l'.cursorX)
    (hindex : l.tabData.index = l'.tabData.index) :
    (l.completeWord wndWidth complete).text = (l'.completeWord wndWidth complete).text ∧
      (l.completeWord wndWidth complete).offset = (l'.completeWord wndWidth complete).offset ∧
      (l.completeWord wndWidth complete).cursorX = (l'.completeWord wndWidth complete).cursorX := by
  unfold InputLine.completeWord InputLine.pos
  rw [htext, hoffset, hcursor, hindex]
  dsimp only
  split_ifs <;> exact ⟨by simp only [htext], by simp only [hoffset], by simp only [hcursor]⟩

theorem completeWord_tabData (l : InputLine) (complete : List Char → Int → List Char × Int) :
    ∃ n, (l.completeWord wndWidth complete).tabData = { l.tabData with numOfItems := n } := by
  unfold InputLine.completeWord
  dsimp only
  split_ifs <;> exact ⟨_, rfl⟩

theorem turned_index {index n : Int} (hindex : 0 ≤ index) (hlt : index < n) (m : Bool) :
    (let i := index + if m = true then -1 else 1
      if i < 0 then n - 1 else if i ≥ n then 0 else i) = (index + turns [m]) % n := by
  cases m with
  | false =>
    show (if index + 1 < 0 then n - 1 else if index + 1 ≥ n then 0 else index + 1) = (index + 1) % n
    rw [if_neg (by omega)]
    split
    · rw [show index + 1 = n by omega, Int.emod_self]
    · rw [Int.emod_eq_of_lt (by omega) (by omega)]
  | true =>
    show (if index + -1 < 0 then n - 1 else if index + -1 ≥ n then 0 else index + -1) =
      (index + -1) % n
    split
    · rw [← Int.add_emod_right, Int.emod_eq_of_lt (by omega) (by omega)]
      omega
    · rw [if_neg (by omega), Int.emod_eq_of_lt (by omega) (by omega)]

theorem turns_append (ms ms' : List Bool) : turns (ms ++ ms') = turns ms + turns ms' := by
  simp only [turns, List.count_append]
  omega

/-- The line after some TABs on a line is what the word of the last one makes of that line. -/
structure Tabbed (wndWidth : Nat) (p : Prompt) (ms : List Bool) (q : Prompt) : Prop where
  ok : q.Ok wndWidth
  sources : q.sources = p.sources
  tabData : ∃ index n, q.line.tabData = ⟨p.line.text, p.line.offset, p.line.cursorX, index, n⟩ ∧
    (q.tabWords ≠ [] → index = turns ms % q.tabWords.length)
  line : ∀ index, (q.tabWords ≠ [] → index = turns ms % q.tabWords.length) →
    let l := (firstTab p.line index).completeWord wndWidth p.sources.complete
    q.line.text = l.text ∧ q.line.offset = l.offset ∧ q.line.cursorX = l.cursorX

theorem Tabbed.step (h : Tabbed wndWidth p ms q) (htext : p.line.text ≠ []) (m : Bool) :
    Tabbed wndWidth p (ms ++ [m]) (q.step wndWidth (.tab m)) := by
  obtain ⟨index, n, hdata, hindex⟩ := h.tabData
  have hfirst : q.line.tabData.text ≠ [] := by rw [hdata]; exact htext
  obtain ⟨hat, -, hitems, hge, hrange⟩ := h.ok.tabs hfirst
  have hok := (tab_simulates h.ok m).ok
  by_cases hnil : q.tabWords = []
  · have hsame : q.step wndWidth (.tab m) = q := by
      have hzero : q.line.tabData.numOfItems = 0 := by rw [hitems, hnil]; rfl
      rw [Prompt.step, InputLine.tab, if_neg hfirst, if_pos hzero]
    rw [hsame]
    exact ⟨h.ok, h.sources, ⟨index, n, hdata, fun hne => absurd hnil hne⟩,
      fun i _ => h.line i fun hne => absurd hnil hne⟩
  · have hpos := List.length_pos_of_ne_nil hnil
    have hindex := hindex hnil
    have heq : q.line.tabData.index = index := by rw [hdata]
    have hturn := turned_index (hge : 0 ≤ q.line.tabData.index)
      (show _ < q.line.tabData.numOfItems by omega) m
    rw [heq] at hturn
    generalize hl : ({ q.line with
      text := q.line.tabData.text, offset := q.line.tabData.offset
      cursorX := q.line.tabData.cursorX
      tabData := { q.line.tabData with
        index := (index + turns [m]) % q.line.tabData.numOfItems } } : InputLine) = l
    have hline : (q.step wndWidth (.tab m)).line =
        l.completeWord wndWidth p.sources.complete := by
      rw [Prompt.step]
      dsimp only
      rw [InputLine.tab, if_neg hfirst, if_neg (by omega), ← hl, ← hturn, h.sources]
      dsimp only
      rw [hdata]
    have hcount : (index + turns [m]) % q.line.tabData.numOfItems =
        turns (ms ++ [m]) % q.tabWords.length := by
      rw [hindex, hitems, Int.emod_add_emod, turns_append]
    obtain ⟨n', hdata'⟩ : ∃ n', (l.completeWord wndWidth p.sources.complete).tabData = _ :=
      completeWord_tabData l p.sources.complete
    have hwords : (q.step wndWidth (.tab m)).tabWords = q.tabWords := by
      rw [tabWords, hline, hdata', ← hl]
      rfl
    refine ⟨hok, h.sources,
      ⟨turns (ms ++ [m]) % q.tabWords.length, n', ?_, fun _ => by rw [hwords]⟩,
      fun i hi => ?_⟩
    · rw [hline, hdata', ← hl, ← hcount, hdata]
    · rw [hwords] at hi
      rw [hline]
      apply completeWord_congr <;> rw [← hl, hdata]
      · rfl
      · rfl
      · rfl
      · show (index + turns [m]) % n = i
        rw [hi hnil, ← hcount, hdata]

theorem Tabbed.run (h : Tabbed wndWidth p ms q) (htext : p.line.text ≠ []) (ms' : List Bool) :
    Tabbed wndWidth p (ms ++ ms') (q.run wndWidth (ms'.map .tab)) := by
  induction ms' generalizing ms q with
  | nil => rwa [List.append_nil]
  | cons m ms' ih =>
    rw [List.append_cons]
    exact ih (h.step htext m)

theorem tabbed_first (hok : p.Ok wndWidth) (hno : p.line.tabData.text = []) (m : Bool) :
    Tabbed wndWidth p [] (p.step wndWidth (.tab m)) := by
  have hline : (p.step wndWidth (.tab m)).line =
      (firstTab p.line 0).completeWord wndWidth p.sources.complete := if_pos hno
  obtain ⟨n, hdata⟩ := completeWord_tabData (firstTab p.line 0) p.sources.complete
  have hdata' : (p.step wndWidth (.tab m)).line.tabData =
      ⟨p.line.text, p.line.offset, p.line.cursorX, 0, n⟩ := by
    rw [hline, hdata]
    rfl
  refine ⟨(tab_simulates hok m).ok, rfl, ⟨0, n, hdata', fun _ => rfl⟩, fun index hindex => ?_⟩
  rw [hline]
  by_cases hnil : (p.step wndWidth (.tab m)).tabWords = []
  · have hkept (i : Int) :
        (firstTab p.line i).completeWord wndWidth p.sources.complete = firstTab p.line i := by
      rw [tabWords, hdata'] at hnil
      exact InputLine.completeWord_of_nil (s := TabData.session ⟨p.line.text, _, _, 0, n⟩)
        hok.cursor rfl rfl hnil rfl
    rw [hkept, hkept]
    exact ⟨rfl, rfl, rfl⟩
  · obtain rfl : index = 0 := hindex hnil
    exact ⟨rfl, rfl, rfl⟩

def firstWords (p : Prompt) : List (List Char) :=
  (firstTab p.line 0).tabData.session.words ' ' p.sources.words

theorem Tabbed.tabWords_eq (h : Tabbed wndWidth p ms q) : q.tabWords = p.firstWords := by
  obtain ⟨index, n, hdata, -⟩ := h.tabData
  rw [tabWords, hdata, h.sources]
  rfl

-- ---------------------------------------------------------------------------
-- The whole line
-- ---------------------------------------------------------------------------

/-- From the start on, the command line is a plain line editor with its cursor on the screen. The
commands of the log are shown one after the other from a fresh line, and each TAB after the first
one goes back to the line before it and tries the next word there. -/
theorem commandLine_plain (hwidth : 80 ≤ wndWidth) (log : List (List Char)) (sources : Sources)
    (tabData : TabData) (ops : List LineOp) :
    let p := (start log sources tabData).run wndWidth ops
    p.plain = (start log sources tabData).plain.run ' '
        ((start log sources tabData).plainOps wndWidth ops) ∧
      (0 ≤ p.line.pos ∧ p.line.pos ≤ p.line.text.length) ∧
      (2 ≤ p.line.cursorX ∧ p.line.cursorX ≤ (wndWidth : Int) - 2) ∧
      (p.line.historyPos = -1 → ∀ k, 0 < k → k ≤ (commands p.log).length →
        (∃ cmd, (commands p.log)[(commands p.log).length - k]? = some cmd ∧
          (p.run wndWidth (List.replicate k .up)).line.text = cmd ∧
          (p.run wndWidth (List.replicate k .up)).line.pos = cmd.length) ∧
        (p.run wndWidth (List.replicate k .up ++ [.down])).plain =
          (p.run wndWidth (List.replicate (if 1 < k then k - 1 else 1) .up)).plain) ∧
      (p.line.tabData.text = [] → p.line.text ≠ [] → ∀ m ms,
        let q := p.run wndWidth (.tab m :: ms.map .tab)
        let l := (firstTab p.line (turns ms % p.firstWords.length)).completeWord wndWidth
          p.sources.complete
        q.line.text = l.text ∧ q.line.offset = l.offset ∧ q.line.cursorX = l.cursorX) := by
  intro p
  have hwidth' : 4 ≤ wndWidth := by omega
  have hsim := run_simulates (start_ok hwidth' log sources tabData) hwidth' ops
  have hok : p.Ok wndWidth := hsim.ok
  have hpos := hok.cursor.pos_eq
  refine ⟨hsim.plain, ⟨by omega, by omega⟩, ⟨hok.cursor.ge, hok.fits⟩, ?_, ?_⟩
  · intro hfresh k hk hlen
    constructor
    · have hups := ups_recalled hok hwidth' hfresh hk hlen
      obtain ⟨cmd, hcmd, hshown⟩ := LineEditor.recalled_eq (e := p.plain) hk hlen
      rw [hshown] at hups
      refine ⟨cmd, hcmd, congrArg LineEditor.text hups, ?_⟩
      have hcol : (p.run wndWidth (List.replicate k .up)).line.pos.toNat = cmd.length :=
        congrArg LineEditor.col hups
      have := (run_simulates hok hwidth' (List.replicate k .up)).ok.cursor.pos_eq
      omega
    · rw [down_recalled hok hwidth' hfresh hk hlen]
      exact (ups_recalled hok hwidth' hfresh (by split <;> omega) (by split <;> omega)).symm
  · intro hno htext m ms
    have htabbed := (tabbed_first hok hno m).run htext ms
    refine htabbed.line _ fun _ => ?_
    rw [htabbed.tabWords_eq]
    rfl

theorem twoNumbers_tab :
    ((start [] ⟨twoNumbers, []⟩ ⟨[], 0, 0, 0, 0⟩).run 80 [.addChar 'b', .tab false]).plain.text =
      ['0', 'x', 'A', 'A', 'A', 'B'] := by
  rw [(commandLine_plain (by decide) [] ⟨twoNumbers, []⟩ ⟨[], 0, 0, 0, 0⟩ [.addChar 'b',
    .tab false]).1]
  decide +kernel

/-- A command is recalled without the blanks around it. -/
example : ((start [] ⟨twoNumbers, []⟩ ⟨[], 0, 0, 0, 0⟩).run 80
    [.addChar ' ', .addChar 'g', .addChar ' ', .enter true [] 0, .up]).line.text = ['g'] := by
  decide +kernel

end Prompt

end BugChecker.Wnd
