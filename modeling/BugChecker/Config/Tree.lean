import Mathlib.Data.List.TakeWhile
import BugChecker.Config.Lines
import BugChecker.Lib.Outline

/-!
# The configuration tree of Symbol Loader

`StructuredFile::SaveConfig` writes a tree of entries as an indented text and
`StructuredFile::LoadConfig` reads it back by calling the scanner again and
again from the position of its previous match. `loadConfig_saveConfig` is the
round trip. File operations are taken to succeed; the bytes are what passes
between the two functions.
-/

namespace BugChecker.Config

open Outline (Rose outline outline_cons Stops)

/-- `StructuredFile::Entry` -/
abbrev Entry := Rose Text

namespace StructuredFile

-- ---------------------------------------------------------------------------
-- SaveConfig
-- ---------------------------------------------------------------------------

def headerLines : List Text := [
  ascii "+---------------------------------------------------------------------------------+",
  ascii "| bugchk.dat file -> VPC Technologies's BugChecker Structured Configuration File. |",
  ascii "| !! WARNING !! DO NOT EDIT directly: use Symbol Loader application instead...    |",
  ascii "| Format Note: the number of TABULATIONS determines the hierarchy of the data.    |",
  ascii "+---------------------------------------------------------------------------------+",
  []]

/-- The characters `%s` prints. -/
def cStr (s : Text) : Text := s.takeWhile (· ≠ NUL)

mutual
def saveEntry (num : Nat) : Entry → Text
  | .node name children =>
    List.replicate num TAB ++ cStr name ++ [LF] ++ saveIterate (num + 1) children
/-- The lambda `iterate` of `SaveConfig`, over the children of an entry. -/
def saveIterate (num : Nat) : List Entry → Text
  | [] => []
  | e :: es => saveEntry num e ++ saveIterate num es
end

/-- A stream opened with `"wt"` writes every LF as CR LF. -/
def textMode (s : Text) : Text := s.flatMap fun c => if c = LF then [CR, LF] else [c]

/-- The contents of `BugChecker.dat` after `SaveConfig`. -/
def saveConfig (config : Entry) : Text :=
  textMode (headerLines.flatMap (· ++ [LF]) ++ saveIterate 0 config.children)

-- ---------------------------------------------------------------------------
-- LoadConfig
-- ---------------------------------------------------------------------------

/-- The lambda `iterate` of `LoadConfig`: the children of an entry, and the
captured `p` afterwards. A match consumes a line, so the length of the file is
enough `fuel`. -/
def loadIterate (file : Text) : Nat → Nat → Text → List Entry × Text
  | 0, _, p => ([], p)
  | fuel + 1, num, p =>
    match parse file num none (some p) with
    | none => ([], p)
    | some (p2, line) =>
      let (children, p3) := loadIterate file fuel (num + 1) p2
      let (siblings, p4) := loadIterate file fuel num p3
      (.node (line.drop num) children :: siblings, p4)

/-- The lambda `add` of `LoadConfig`: what it pushes on the children of the
result. -/
def add (file name : Text) : List Entry :=
  match parse file 0 (some name) none with
  | none => []
  | some (p, _) => [.node name (loadIterate file file.length 1 p).1]

def loadConfig (file : Text) : Option Entry :=
  if file = [] then none
  else some (.node [] (add file (ascii "symbols") ++ add file (ascii "settings")))

end StructuredFile

-- ---------------------------------------------------------------------------
-- Saved files are outlines
-- ---------------------------------------------------------------------------

/-- A name that can stand on a line of the file. -/
structure NameOk (l : OutlineLine) : Prop where
  nonempty : l.2 ≠ []
  noTab : l.2.head? ≠ some TAB
  plain : ∀ c ∈ l.2, c ≠ CR ∧ c ≠ LF ∧ c ≠ NUL
  short : l.1 + l.2.length ≤ 1023

instance (l : OutlineLine) : Decidable (NameOk l) :=
  have : Decidable (∀ c ∈ l.2, c ≠ CR ∧ c ≠ LF ∧ c ≠ NUL) := List.decidableBAll _ _
  decidable_of_iff (l.2 ≠ [] ∧ l.2.head? ≠ some TAB ∧ (∀ c ∈ l.2, c ≠ CR ∧ c ≠ LF ∧ c ≠ NUL) ∧
      l.1 + l.2.length ≤ 1023)
    ⟨fun ⟨h1, h2, h3, h4⟩ => ⟨h1, h2, h3, h4⟩, fun ⟨h1, h2, h3, h4⟩ => ⟨h1, h2, h3, h4⟩⟩

theorem NameOk.lineOk (h : NameOk l) : LineOk l :=
  ⟨h.noTab, fun c hc => ⟨(h.plain c hc).1, (h.plain c hc).2.2⟩, by
    have := h.short; simp only [outputSize]; omega⟩

namespace StructuredFile

@[simp] theorem textMode_append (s t : Text) : textMode (s ++ t) = textMode s ++ textMode t := by
  simp [textMode]

theorem textMode_of_noLf (h : ∀ c ∈ s, c ≠ LF) : textMode s = s := by
  induction s with
  | nil => rfl
  | cons c s ih =>
    have hs := ih fun d hd => h d (by simp [hd])
    simp only [textMode, List.flatMap_cons] at hs ⊢
    simp [hs, h c (by simp)]

@[simp] theorem textMode_lf : textMode [LF] = [CR, LF] := rfl

theorem textMode_line (h : ∀ c ∈ s, c ≠ LF) :
    textMode (List.replicate n TAB ++ s ++ [LF]) = renderLine (n, s) := by
  have htabs : textMode (List.replicate n TAB) = List.replicate n TAB := by
    refine textMode_of_noLf fun c hc => ?_
    rw [List.eq_of_mem_replicate hc]
    decide
  simp [renderLine, htabs, textMode_of_noLf h]

theorem cStr_of_noNul (h : ∀ c ∈ s, c ≠ NUL) : cStr s = s :=
  List.takeWhile_eq_self_iff.mpr (by simpa using h)

mutual
theorem textMode_saveEntry (num : Nat) : ∀ e : Entry,
    (∀ l ∈ Outline.outlineOf num e, NameOk l) →
      textMode (saveEntry num e) = render (Outline.outlineOf num e)
  | .node name children, h => by
    have hname := h (num, name) (by simp [Outline.outlineOf])
    have hrest := textMode_saveIterate (num + 1) children fun l hl =>
      h l (by simp [Outline.outlineOf, hl])
    rw [saveEntry, cStr_of_noNul fun c hc => (hname.plain c hc).2.2, textMode_append,
      textMode_line fun c hc => (hname.plain c hc).2.1, hrest, Outline.outlineOf, render_cons]
theorem textMode_saveIterate (num : Nat) : ∀ es : List Entry, (∀ l ∈ outline num es, NameOk l) →
    textMode (saveIterate num es) = render (outline num es)
  | [], _ => by simp [saveIterate, textMode]
  | e :: es, h => by
    have he := textMode_saveEntry num e fun l hl => h l (by simp [outline, hl])
    have hes := textMode_saveIterate num es fun l hl => h l (by simp [outline, hl])
    rw [saveIterate, textMode_append, he, hes, outline, render_append]
end

def headerOutline : List OutlineLine := headerLines.map (0, ·)

/-- What is needed of a line of the header: it is one line of the file, and not
the name of a root. -/
def HeaderOk (s : Text) : Prop :=
  LineOk (0, s) ∧ (∀ c ∈ s, c ≠ LF) ∧ s ∉ [ascii "symbols", ascii "settings"]

/-- A literal is checked on its characters: evaluating the bytes of a string
literal is slow. -/
theorem headerOk_ofList (l : List Char)
    (hhead : (l.map fun c => UInt8.ofNat c.toNat).head? ∉ [some TAB, some 115])
    (hplain : ∀ c ∈ l.map fun c => UInt8.ofNat c.toNat, (c ≠ CR ∧ c ≠ NUL) ∧ c ≠ LF)
    (hshort : l.length < outputSize) : HeaderOk (ascii (String.ofList l)) := by
  simp only [List.mem_cons, List.not_mem_nil, or_false, not_or] at hhead
  rw [HeaderOk, ascii_ofList]
  refine ⟨⟨hhead.1, fun c hc => (hplain c hc).1, by simpa using hshort⟩,
    fun c hc => (hplain c hc).2, fun hroot => hhead.2 ?_⟩
  have h : ∀ s ∈ [ascii "symbols", ascii "settings"], s.head? = some 115 := by decide
  exact h _ hroot

theorem headerLine_ok : ∀ s ∈ headerLines, HeaderOk s := by
  simp only [headerLines, List.forall_mem_cons]
  refine ⟨?_, ?_, ?_, ?_, ?_, ?_, by simp⟩
  · exact headerOk_ofList _ (by decide) (by decide +kernel) (by decide)
  · exact headerOk_ofList _ (by decide) (by decide +kernel) (by decide)
  · exact headerOk_ofList _ (by decide) (by decide +kernel) (by decide)
  · exact headerOk_ofList _ (by decide) (by decide +kernel) (by decide)
  · exact headerOk_ofList _ (by decide) (by decide +kernel) (by decide)
  · exact headerOk_ofList [] (by decide) (by simp) (by decide)

theorem headerOutline_ok : ∀ l ∈ headerOutline, LineOk l := by
  intro l hl
  obtain ⟨s, hs, rfl⟩ := List.mem_map.mp hl
  exact (headerLine_ok s hs).1

theorem textMode_lines {lines : List Text} (h : ∀ s ∈ lines, ∀ c ∈ s, c ≠ LF) :
    textMode (lines.flatMap (· ++ [LF])) = render (lines.map (0, ·)) := by
  induction lines with
  | nil => rfl
  | cons s lines ih =>
    have hs := textMode_line (n := 0) (h s (by simp))
    simp only [List.replicate_zero, List.nil_append] at hs
    rw [List.flatMap_cons, textMode_append, hs, ih fun t ht => h t (by simp [ht]), List.map_cons,
      render_cons]

theorem textMode_header : textMode (headerLines.flatMap (· ++ [LF])) = render headerOutline :=
  textMode_lines fun s hs => (headerLine_ok s hs).2.1

theorem saveConfig_eq (h : ∀ l ∈ outline 0 config.children, NameOk l) :
    saveConfig config = render (headerOutline ++ outline 0 config.children) := by
  rw [saveConfig, textMode_append, textMode_header, textMode_saveIterate 0 _ h, render_append]

-- ---------------------------------------------------------------------------
-- Loading an outline
-- ---------------------------------------------------------------------------

/-- Searching for any entry at depth `num` from a line re-read without its
tabulations: the next line decides. -/
theorem seek_any_nil (hnum : 0 < num) (ht : Stops num tail) :
    seek num none false true ((0, s) :: tail) = none := by
  have hne : num ≠ 0 := by omega
  cases tail with
  | nil => simp [seek, hne]
  | cons l tail =>
    have hl : l.1 < num := Outline.stops_cons.mp ht
    simp [seek, hne, hl]

theorem seek_any_cons (hnum : 0 < num) (hs : name ≠ []) :
    seek num none false true ((0, s) :: (num, name) :: ls) = some (name, ls) := by
  have hne : num ≠ 0 := by omega
  simp [seek, hne, hs]

/-- From the line of an entry, `iterate` reads back the subtree below it and
leaves its cursor on the last line of that subtree. -/
theorem loadIterate_outline (hnum : 0 < num) (hc : Cursor file s (outline num es ++ tail))
    (hnames : ∀ l ∈ outline num es, l.2 ≠ []) (hstop : Stops num tail)
    (hfuel : (outline num es).length < fuel) :
    ∃ s', Cursor file s' tail ∧
      loadIterate file fuel num (render ((0, s) :: (outline num es ++ tail))) =
        (es, render ((0, s') :: tail)) := by
  induction fuel generalizing num es tail s with
  | zero => omega
  | succ fuel ih =>
    cases es with
    | nil =>
      refine ⟨s, hc, ?_⟩
      have hparse := hc.scan hnum none
      rw [loadIterate, parse, hparse]
      simp [seek_any_nil hnum hstop]
    | cons e es =>
      have he : e.name ≠ [] := hnames (num, e.name) (by simp [outline_cons])
      have hsplit : outline num (e :: es) ++ tail =
          (num, e.name) :: (outline (num + 1) e.children ++ (outline num es ++ tail)) := by
        simp [outline_cons]
      simp only [outline_cons, List.length_cons, List.length_append] at hfuel
      rw [hsplit] at hc ⊢
      have hseek : seek num none false true ((0, s) :: (num, e.name) ::
          (outline (num + 1) e.children ++ (outline num es ++ tail))) = _ := seek_any_cons hnum he
      have hparse := hc.scan hnum none
      -- the subtree of `e`, up to its next sibling or the end of the parent
      obtain ⟨s1, hs1, hchildren⟩ :=
        @ih (num + 1) e.name e.children (outline num es ++ tail) (by omega)
          (hc.seek hnum hseek) (fun l hl => hnames l (by simp [outline_cons, hl]))
          (hstop.outline_append es) (by omega)
      obtain ⟨s2, hs2, hsiblings⟩ :=
        ih hnum hs1 (fun l hl => hnames l (by simp [outline_cons, hl])) hstop (by omega)
      refine ⟨s2, hs2, ?_⟩
      rw [loadIterate, parse, hparse, hseek]
      simp only [Option.map_some, hchildren, hsiblings]
      simp

/-- The first top-level line with a given text is found, whatever precedes
it. -/
theorem seek_root (hname : name ≠ []) (hpre : (0, name) ∉ pre) :
    seek 0 (some name) tnReached firstLine (pre ++ (0, name) :: post) = some (name, post) := by
  induction pre generalizing tnReached firstLine with
  | nil => simp [seek, hname]
  | cons l pre ih =>
    obtain ⟨n, s⟩ := l
    have hl : ¬(s ≠ [] ∧ 0 = n ∧ (some name = none ∨ some name = some s)) := by
      rintro ⟨-, rfl, h⟩
      simp only [reduceCtorEq, Option.some.injEq, false_or] at h
      exact hpre (by simp [h])
    simp only [List.cons_append, seek, Nat.not_lt_zero, decide_false, Bool.and_false,
      Bool.false_eq_true, if_false, hl]
    exact ih fun h => hpre (List.mem_cons_of_mem _ h)

theorem root_not_header (hname : name ∈ [ascii "symbols", ascii "settings"]) :
    (0, name) ∉ headerOutline := by
  intro h
  obtain ⟨s, hs, heq⟩ := List.mem_map.mp h
  obtain rfl : s = name := congrArg Prod.snd heq
  exact (headerLine_ok s hs).2.2 hname

theorem saveConfig_split (hroots : config.children = pre ++ .node name es :: post)
    (hok : ∀ l ∈ outline 0 config.children, NameOk l) :
    saveConfig config = render ((headerOutline ++ outline 0 pre) ++
      (0, name) :: (outline 1 es ++ outline 0 post)) := by
  rw [saveConfig_eq hok, hroots]
  simp [Outline.outline_append, outline_cons]

theorem scan_root (pre : List Entry) (hname : name ∈ [ascii "symbols", ascii "settings"])
    (hroots : config.children = pre ++ .node name es :: post)
    (hfirst : name ∉ pre.map Rose.name)
    (hok : ∀ l ∈ outline 0 config.children, NameOk l) :
    scanFile (saveConfig config) 0 (some name) none =
        some (render ((0, name) :: (outline 1 es ++ outline 0 post)), name) ∧
      Cursor (saveConfig config) name (outline 1 es ++ outline 0 post) := by
  have hlineOk : ∀ l ∈ (headerOutline ++ outline 0 pre) ++
      (0, name) :: (outline 1 es ++ outline 0 post), LineOk l := by
    intro l hl
    have hl' : l ∈ headerOutline ++ outline 0 config.children := by
      rw [hroots]
      simpa [Outline.outline_append, outline_cons] using hl
    exact (List.mem_append.mp hl').elim (headerOutline_ok l) fun h => (hok l h).lineOk
  have hpre : (0, name) ∉ headerOutline ++ outline 0 pre := by
    rw [List.mem_append, Outline.mem_outline_root]
    exact not_or.mpr ⟨root_not_header hname, hfirst⟩
  have hroot : NameOk (0, name) := hok (0, name) (by
    rw [Outline.mem_outline_root, hroots]
    simp)
  rw [saveConfig_split hroots hok]
  constructor
  · rw [scanFile_start hlineOk (by simp) (by simp), seek_root hroot.nonempty hpre]
    simp
  · refine ⟨fun l hl => hlineOk l (List.mem_append_right _ hl), ?_⟩
    rw [render_append, List.length_append]
    omega

theorem add_saved (pre : List Entry) (hname : name ∈ [ascii "symbols", ascii "settings"])
    (hroots : config.children = pre ++ .node name es :: post)
    (hfirst : name ∉ pre.map Rose.name)
    (hok : ∀ l ∈ outline 0 config.children, NameOk l) :
    add (saveConfig config) name = [.node name es] := by
  obtain ⟨hscan, hcursor⟩ := scan_root pre hname hroots hfirst hok
  have hnames : ∀ l ∈ outline 1 es, l.2 ≠ [] := by
    intro l hl
    refine (hok l ?_).nonempty
    rw [hroots, Outline.outline_append, outline_cons]
    simp [hl]
  have hstop : Stops 1 (outline 0 post) := by
    simpa using Stops.outline_append post (@Outline.stops_nil 0 Text)
  have hfuel : (outline 1 es).length < (saveConfig config).length := by
    have h := length_le_render ((0, name) :: (outline 1 es ++ outline 0 post))
    have hle := hcursor.le
    simp only [List.length_cons, List.length_append] at h
    omega
  obtain ⟨s', -, hload⟩ := loadIterate_outline (by omega) hcursor hnames hstop hfuel
  rw [add, parse, hscan]
  simp only [hload]

end StructuredFile

-- ---------------------------------------------------------------------------
-- The round trip
-- ---------------------------------------------------------------------------

/-- The trees Symbol Loader saves: the two roots, in either order, and below them
names that fit on a line. -/
structure ConfigOk (config : Entry) : Prop where
  roots : config.children.map Rose.name = [ascii "symbols", ascii "settings"] ∨
    config.children.map Rose.name = [ascii "settings", ascii "symbols"]
  names : ∀ root ∈ config.children, ∀ l ∈ outline 1 root.children, NameOk l

theorem nameOk_roots : ∀ name ∈ [ascii "symbols", ascii "settings"], NameOk (0, name) := by
  decide +kernel

theorem ConfigOk.name_mem (h : ConfigOk config) (hr : root ∈ config.children) :
    root.name ∈ [ascii "symbols", ascii "settings"] := by
  have hm := List.mem_map_of_mem (f := Rose.name) hr
  rcases h.roots with hroots | hroots
  · rwa [hroots] at hm
  · rw [hroots] at hm
    simpa [or_comm] using hm

theorem ConfigOk.lines (h : ConfigOk config) : ∀ l ∈ outline 0 config.children, NameOk l :=
  Outline.forall_mem_outline.mpr fun _ hr => ⟨nameOk_roots _ (h.name_mem hr), h.names _ hr⟩

namespace StructuredFile

theorem saveConfig_ne_nil (h : ConfigOk config) : saveConfig config ≠ [] := by
  rw [saveConfig_eq h.lines]
  exact fun h => by simpa [headerOutline, headerLines] using render_eq_nil h

theorem loadConfig_roots (h : ConfigOk config) (symbols settings : List Entry)
    (hroots : config.children = [.node (ascii "symbols") symbols,
      .node (ascii "settings") settings] ∨
      config.children = [.node (ascii "settings") settings, .node (ascii "symbols") symbols]) :
    loadConfig (saveConfig config) = some (.node []
      [.node (ascii "symbols") symbols, .node (ascii "settings") settings]) := by
  have hne : ascii "symbols" ≠ ascii "settings" := by decide
  have hsymbols : add (saveConfig config) (ascii "symbols") =
      [.node (ascii "symbols") symbols] := by
    rcases hroots with hroots | hroots
    · exact add_saved [] (by simp) hroots (by simp) h.lines
    · exact add_saved [_] (by simp) hroots (by simpa using hne) h.lines
  have hsettings : add (saveConfig config) (ascii "settings") =
      [.node (ascii "settings") settings] := by
    rcases hroots with hroots | hroots
    · exact add_saved [_] (by simp) hroots (by simpa using hne.symm) h.lines
    · exact add_saved [] (by simp) hroots (by simp) h.lines
  simp [loadConfig, saveConfig_ne_nil h, hsymbols, hsettings]

/-- Loading undoes saving. The root entry itself is not written: `LoadConfig`
and every caller make it with an empty name. -/
theorem loadConfig_saveConfig (h : ConfigOk config)
    (horder : config.children.map Rose.name = [ascii "symbols", ascii "settings"]) :
    loadConfig (saveConfig config) = some (.node [] config.children) ∧
      (config.name = [] → loadConfig (saveConfig config) = some config) := by
  obtain ⟨name, children⟩ := config
  obtain ⟨a, b, rfl⟩ : ∃ a b, children = [a, b] := by
    simpa [List.length_eq_two] using congrArg List.length horder
  simp only [Rose.children_node, List.map_cons, List.map_nil, List.cons.injEq, and_true] at horder
  have hload := loadConfig_roots h a.children b.children
    (.inl (by simp [← horder.1, ← horder.2]))
  rw [hload, ← horder.1, ← horder.2]
  simp

/-- One symbol file with a setting, and the width of the framebuffer. -/
def sampleConfig : Entry := .node [] [
  .node (ascii "symbols") [.node (ascii "nt.bcs") [.node (ascii "pdb_age") [.node (ascii "1") []]]],
  .node (ascii "settings") [.node (ascii "framebuffer") [.node (ascii "width") [
    .node (ascii "1024") []]]]]

theorem sampleConfig_ok : ConfigOk sampleConfig :=
  ⟨.inl (by decide), by simp only [sampleConfig, Rose.children_node]; decide +kernel⟩

theorem loadConfig_saveConfig_sample :
    loadConfig (saveConfig sampleConfig) = some sampleConfig :=
  (loadConfig_saveConfig sampleConfig_ok (by decide)).2 rfl

end StructuredFile

end BugChecker.Config
