import BugChecker.Config.Tree

/-!
# The driver's configuration reader

`Root::Root` does not build a tree. It restarts the scanner at the pointer of
its previous match, once per level, and trusts the `bTNReached` flag to notice
the end of a subtree. That flag is only set by a line as deep as the search, so
an entry without children does not end the search below it: the scan goes on to
the next entry of the same depth that has children.

`read_saved` computes what the reader returns for every saved configuration,
and `readerAgrees_iff` says exactly when this is what Symbol Loader sees.
-/

namespace BugChecker.Config

open Outline (Rose outline outline_cons Stops)
open StructuredFile (saveConfig loadConfig headerOutline)

/-- `StructuredFile::Entry::get` -/
def Entry.get (e : Entry) (name : Text) : Option Entry := e.children.find? (·.name = name)

namespace Root

/-- The lambda `read` of `Root::Root`, `none` standing for each `return def`. -/
def read? (file l0 l1 : Text) : Option Text := do
  let (p, _) ← Utils.parseStructuredFile file 0 (some (ascii "settings")) none
  let (p, _) ← Utils.parseStructuredFile file 1 (some l0) (some p)
  let (p, _) ← Utils.parseStructuredFile file 2 (some l1) (some p)
  let (_, line) ← Utils.parseStructuredFile file 3 none (some p)
  return line.drop 3

def read (file l0 l1 dflt : Text) : Text := (read? file l0 l1).getD dflt

/-- The `while` that pushes the lines below `symbols`. -/
def collect (file : Text) : Nat → Text → List Text
  | 0, _ => []
  | fuel + 1, p =>
    match Utils.parseStructuredFile file 1 none (some p) with
    | none => []
    | some (p, line) => line.drop 1 :: collect file fuel p

def symbolFiles (file : Text) : List Text :=
  ((Utils.parseStructuredFile file 0 (some (ascii "symbols")) none).map fun r =>
    collect file file.length r.1).getD []

end Root

-- ---------------------------------------------------------------------------
-- Searching for a name
-- ---------------------------------------------------------------------------

section
variable {k : Nat} {s : Text} {rest : List OutlineLine}

/-- A shallow line neither matches nor ends a search by name that has not been
deep enough yet. -/
theorem seek_name_shallow (h : n < k) :
    seek k (some s) false firstLine ((n, x) :: rest) = seek k (some s) false false rest := by
  have hne : k ≠ n := by omega
  have hle : ¬k ≤ n := by omega
  simp [seek, hne, hle]

theorem seek_name_deep (h : ∀ l ∈ ls, k < l.1) :
    seek k (some s) true firstLine (ls ++ rest) =
      seek k (some s) true (firstLine && ls.isEmpty) rest := by
  induction ls generalizing firstLine with
  | nil => simp
  | cons l ls ih =>
    have hl := h l (by simp)
    have hne : k ≠ l.1 := by omega
    have hlt : ¬l.1 < k := by omega
    have hrest := @ih false fun m hm => h m (by simp [hm])
    simp only [List.cons_append, seek, hlt, decide_false, Bool.and_false, Bool.false_eq_true,
      if_false, hne, false_and, and_false, Bool.true_or, hrest]
    simp

theorem seek_name_firstLine :
    seek k (some s) tnReached firstLine rest = seek k (some s) tnReached true rest := by
  cases rest with
  | nil => simp [seek]
  | cons l rest => simp [seek]

/-- Among the children of one entry the search is by name, and their end ends
it. -/
theorem seek_name_children (hcs : cs ≠ [] ∨ tnReached = true) (hnames : ∀ c ∈ cs, c.name ≠ [])
    (hrest : Stops k rest) :
    seek k (some s) tnReached firstLine (outline k cs ++ rest) =
      match cs.dropWhile (·.name ≠ s) with
      | [] => none
      | c :: after => some (s, outline (k + 1) c.children ++ (outline k after ++ rest)) := by
  induction cs generalizing tnReached firstLine with
  | nil =>
    obtain rfl : tnReached = true := by simpa using hcs
    cases rest with
    | nil => simp [seek]
    | cons l rest =>
      have hl : l.1 < k := Outline.stops_cons.mp hrest
      simp [seek, hl]
  | cons c cs ih =>
    simp only [outline_cons, List.cons_append, List.append_assoc]
    by_cases hc : c.name = s
    · have hs : s ≠ [] := hc ▸ hnames c (by simp)
      subst hc
      simp [seek, hs]
    · have hdeep : ∀ l ∈ outline (k + 1) c.children, k < l.1 := fun l hl =>
        Outline.depth_le_of_mem_outline _ hl
      have hstep : seek k (some s) tnReached firstLine ((k, c.name) ::
          (outline (k + 1) c.children ++ (outline k cs ++ rest))) =
          seek k (some s) true false
            (outline (k + 1) c.children ++ (outline k cs ++ rest)) := by
        simp [seek, Ne.symm hc]
      rw [hstep, seek_name_deep hdeep, ih (.inr rfl) fun d hd => hnames d (by simp [hd])]
      simp [hc]

/-- Over entries one level up, the first of them that has children is
searched. -/
theorem seek_name_entries (firstLine : Bool) (hnames : ∀ e ∈ es, ∀ c ∈ e.children, c.name ≠ [])
    (hrest : Stops (d + 1) rest) :
    seek (d + 1) (some s) false firstLine (outline d es ++ rest) =
      match es.dropWhile (·.children.isEmpty) with
      | [] => seek (d + 1) (some s) false true rest
      | e :: es' =>
        match e.children.dropWhile (·.name ≠ s) with
        | [] => none
        | c :: after => some (s,
            outline (d + 2) c.children ++ (outline (d + 1) after ++ (outline d es' ++ rest))) := by
  induction es generalizing firstLine with
  | nil => simp [seek_name_firstLine]
  | cons e es ih =>
    rw [outline_cons, List.cons_append, List.append_assoc, seek_name_shallow (by omega)]
    by_cases he : e.children = []
    · simp only [he, Outline.outline_nil, List.nil_append,
        ih false fun e' he' => hnames e' (by simp [he'])]
      simp [he]
    · have hstop : Stops (d + 1) (outline d es ++ rest) := by
        cases es with
        | nil => simpa using hrest
        | cons _ _ => simp [outline_cons]
      rw [seek_name_children (.inl he) (hnames e (by simp)) hstop]
      simp [he]

/-- The same from the line of the first of the entries, re-read without its
tabulations. -/
theorem seek_name_from (hnames : ∀ e' ∈ e :: es, ∀ c ∈ e'.children, c.name ≠ [])
    (hrest : Stops (d + 1) rest) :
    seek (d + 1) (some s) false true
        ((0, x) :: (outline (d + 1) e.children ++ (outline d es ++ rest))) =
      match (e :: es).dropWhile (·.children.isEmpty) with
      | [] => seek (d + 1) (some s) false true rest
      | e :: es' =>
        match e.children.dropWhile (·.name ≠ s) with
        | [] => none
        | c :: after => some (s,
            outline (d + 2) c.children ++ (outline (d + 1) after ++ (outline d es' ++ rest))) := by
  rw [← seek_name_entries true hnames hrest, outline_cons, List.cons_append, List.append_assoc,
    seek_name_shallow (by omega), seek_name_shallow (by omega)]

end

-- ---------------------------------------------------------------------------
-- What the reader returns
-- ---------------------------------------------------------------------------

/-- The child the driver finds below entries of one depth: it looks in the first
of them that has children. -/
def entryAmong (name : Text) (entries : List Entry) : Option Entry :=
  (entries.find? (!·.children.isEmpty)).bind (Entry.get · name)

def valueAmong (l1 : Text) (entries : List Entry) : Option Text :=
  ((entryAmong l1 entries).bind (·.children.head?)).map Rose.name

/-- What the driver finds from `settings` on, `later` being the roots after
it. -/
def found (settings : Entry) (later : List Entry) (l0 l1 : Text) : Option Text :=
  match (settings :: later).dropWhile (·.children.isEmpty) with
  | [] => none
  | root :: later =>
    match root.children.dropWhile (·.name ≠ l0) with
    | [] => none
    | e :: es => valueAmong l1 (e :: es ++ later.flatMap Rose.children)

section
variable {file : Text}

theorem scan_value (hc : Cursor file s (outline 3 es ++ rest)) (hrest : Stops 3 rest)
    (hnames : ∀ e ∈ es, e.name ≠ []) :
    (scanFile file 3 none (some (render ((0, s) :: (outline 3 es ++ rest))))).map (·.2.drop 3) =
      es.head?.map Rose.name := by
  rw [hc.scan (by omega) none]
  cases es with
  | nil => simp [StructuredFile.seek_any_nil (by omega) hrest]
  | cons e es =>
    rw [outline_cons, List.cons_append,
      StructuredFile.seek_any_cons (by omega) (hnames e (by simp))]
    simp

theorem entryAmong_cases {entries : List Entry} (l1 : Text)
    (hfind : entries.find? (!·.children.isEmpty) = some e) (hrest : Stops 2 rest) :
    (∃ c tail, entryAmong l1 entries = some c ∧ Stops 3 tail ∧
        (match e.children.dropWhile (·.name ≠ l1) with
          | [] => none
          | c :: after => some (l1, outline 3 c.children ++ (outline 2 after ++ rest))) =
          some (l1, outline 3 c.children ++ tail)) ∨
      (entryAmong l1 entries = none ∧
        (match e.children.dropWhile (·.name ≠ l1) with
          | [] => none
          | c :: after => some (l1, outline 3 c.children ++ (outline 2 after ++ rest))) =
            none) := by
  have hget : entryAmong l1 entries = (e.children.dropWhile (·.name ≠ l1)).head? := by
    simp [entryAmong, hfind, Entry.get, List.find?_eq_head?_dropWhile_not]
  rw [hget]
  cases e.children.dropWhile (·.name ≠ l1) with
  | nil => exact .inr ⟨rfl, rfl⟩
  | cons c after =>
    exact .inl ⟨c, outline 2 after ++ rest, rfl, Stops.outline_append after hrest, rfl⟩

/-- The search two tabulations deep runs over the entries at depth one that
follow, across the end of `settings`. -/
theorem seek_second (l1 : Text) (hlater : later.length ≤ 1)
    (hnames : ∀ e ∈ es ++ later.flatMap Rose.children, ∀ c ∈ e.children, c.name ≠ []) :
    (∃ c tail, entryAmong l1 (es ++ later.flatMap Rose.children) = some c ∧ Stops 3 tail ∧
        seek 2 (some l1) false true (outline 1 es ++ outline 0 later) =
          some (l1, outline 3 c.children ++ tail)) ∨
      (entryAmong l1 (es ++ later.flatMap Rose.children) = none ∧
        seek 2 (some l1) false true (outline 1 es ++ outline 0 later) = none) := by
  have hstop : Stops 1 (outline 0 later) := by
    simpa using Stops.outline_append later (@Outline.stops_nil 0 Text)
  rw [seek_name_entries true (fun e he => hnames e (by simp [he])) (hstop.mono (by omega))]
  cases hes : es.dropWhile (·.children.isEmpty) with
  | cons e es' =>
    have hfind : (es ++ later.flatMap Rose.children).find? (!·.children.isEmpty) = some e := by
      rw [List.find?_append, List.find?_not_eq_head?_dropWhile, hes]
      rfl
    exact entryAmong_cases l1 hfind (Stops.outline_append es' hstop)
  | nil =>
    have hnone : es.find? (!·.children.isEmpty) = none := by
      rw [List.find?_not_eq_head?_dropWhile, hes]
      rfl
    -- nothing below `settings` any more: the scan enters the next root
    match later, hlater with
    | [], _ => exact .inr ⟨by simp [entryAmong, hnone], by simp [seek]⟩
    | [root], _ =>
      have hroot : seek 2 (some l1) false false (outline 1 root.children ++ []) = _ :=
        seek_name_entries false (fun e he => hnames e (by simp [he])) (by simp)
      rw [List.append_nil] at hroot
      simp only [outline_cons, Outline.outline_nil, List.append_nil,
        seek_name_shallow (show 0 < 2 by omega), hroot]
      cases hes' : root.children.dropWhile (·.children.isEmpty) with
      | cons e es' =>
        have hfind : (es ++ [root].flatMap Rose.children).find? (!·.children.isEmpty) = some e := by
          rw [List.find?_append, hnone]
          simp [List.find?_not_eq_head?_dropWhile, hes']
        simpa using entryAmong_cases l1 hfind (Stops.outline_append es' (@Outline.stops_nil 1 Text))
      | nil =>
        have hfind : (es ++ [root].flatMap Rose.children).find? (!·.children.isEmpty) = none := by
          rw [List.find?_append, hnone]
          simp [List.find?_not_eq_head?_dropWhile, hes']
        exact .inr ⟨by rw [entryAmong, hfind]; rfl, by simp [seek]⟩

theorem scan_second (l1 : Text) (hlater : later.length ≤ 1)
    (hc : Cursor file s (outline 2 e.children ++ (outline 1 es ++ outline 0 later)))
    (hnames : ∀ e' ∈ e :: es ++ later.flatMap Rose.children,
      ∀ l ∈ outline 2 e'.children, l.2 ≠ []) :
    ((scanFile file 2 (some l1)
        (some (render
          ((0, s) :: (outline 2 e.children ++ (outline 1 es ++ outline 0 later)))))).bind
      fun r => (scanFile file 3 none (some r.1)).map (·.2.drop 3)) =
      valueAmong l1 (e :: es ++ later.flatMap Rose.children) := by
  have hchildren : ∀ e' ∈ e :: es ++ later.flatMap Rose.children, ∀ c ∈ e'.children,
      c.name ≠ [] ∧ ∀ v ∈ c.children, v.name ≠ [] := by
    intro e' he' c hcm
    have h := Outline.forall_mem_outline.mp (hnames e' he') c hcm
    exact ⟨h.1, fun v hv => (Outline.forall_mem_outline.mp h.2 v hv).1⟩
  have hseek : seek 2 (some l1) false true
      ((0, s) :: (outline 2 e.children ++ (outline 1 es ++ outline 0 later))) =
      seek 2 (some l1) false true (outline 1 (e :: es) ++ outline 0 later) := by
    rw [outline_cons, List.cons_append, List.append_assoc, seek_name_shallow (by omega),
      seek_name_shallow (by omega)]
  rw [hc.scan (by omega), hseek, valueAmong]
  rcases seek_second l1 hlater (fun e' he' c hcm => (hchildren e' he' c hcm).1) with
    ⟨c, tail, hentry, hstop, hfound⟩ | ⟨hentry, hfound⟩
  · have hc' := hc.seek (by omega) (hseek.trans hfound)
    obtain ⟨e', hmem, hget⟩ : ∃ e' ∈ e :: es ++ later.flatMap Rose.children, c ∈ e'.children := by
      rw [entryAmong, Option.bind_eq_some_iff] at hentry
      obtain ⟨e', he', hget⟩ := hentry
      exact ⟨e', List.mem_of_find?_eq_some he', List.mem_of_find?_eq_some hget⟩
    rw [hfound, hentry, Option.map_some, Option.bind_some, Option.bind_some,
      scan_value hc' hstop (hchildren e' hmem c hget).2]
  · rw [hfound, hentry]
    rfl

end

theorem ConfigOk.names_ne_nil (h : ConfigOk config) : ∀ l ∈ outline 0 config.children, l.2 ≠ [] :=
  fun l hl => (h.lines l hl).nonempty

theorem read?_eq (file l0 l1 : Text) : Root.read? file l0 l1 =
    (scanFile file 0 (some (ascii "settings")) none).bind fun r =>
      (scanFile file 1 (some l0) (some r.1)).bind fun r =>
        (scanFile file 2 (some l1) (some r.1)).bind fun r =>
          (scanFile file 3 none (some r.1)).map (·.2.drop 3) := by
  simp only [Root.read?, Utils.parseStructuredFile, Option.pure_def, Option.bind_eq_bind,
    Option.map_eq_bind]
  rfl

theorem read?_saved (pre : List Entry) (l0 l1 : Text) (h : ConfigOk config)
    (hroots : config.children = pre ++ .node (ascii "settings") es :: later)
    (hfirst : ascii "settings" ∉ pre.map Rose.name) (hlater : later.length ≤ 1) :
    Root.read? (saveConfig config) l0 l1 = found (.node (ascii "settings") es) later l0 l1 := by
  obtain ⟨hscan, hc⟩ := StructuredFile.scan_root pre (by simp) hroots hfirst h.lines
  have hbelow : ∀ root ∈ (.node (ascii "settings") es :: later : List Entry),
      ∀ l ∈ outline 1 root.children, l.2 ≠ [] := fun root hroot =>
    (Outline.forall_mem_outline.mp h.names_ne_nil root (by
      rw [hroots]
      exact List.mem_append_right _ hroot)).2
  have hseek := @seek_name_from l0 [] (.node (ascii "settings") es) later 0 (ascii "settings")
    (fun root hroot c hcm => (Outline.forall_mem_outline.mp (hbelow root hroot) c hcm).1)
    (by simp)
  simp only [Nat.zero_add, Rose.children_node, List.append_nil] at hseek
  rw [read?_eq, hscan, Option.bind_some, hc.scan Nat.one_pos (some l0), found]
  cases hdrop : (.node (ascii "settings") es :: later : List Entry).dropWhile
      (·.children.isEmpty) with
  | nil =>
    rw [hdrop] at hseek
    rw [hseek]
    rfl
  | cons root later' =>
    have hsuffix := List.dropWhile_suffix (·.children.isEmpty)
      (l := (.node (ascii "settings") es :: later : List Entry))
    rw [hdrop] at hsuffix hseek
    have hlater' : later'.length ≤ 1 := by
      have := hsuffix.length_le
      simp only [List.length_cons] at this
      omega
    cases hchild : root.children.dropWhile (·.name ≠ l0) with
    | nil =>
      simp only [hchild] at hseek
      rw [hseek]
      simp only [hchild]
      rfl
    | cons e es' =>
      simp only [hchild] at hseek
      have hchildren : ∀ e' ∈ e :: es', e' ∈ root.children := fun e' he' =>
        (hchild ▸ List.dropWhile_suffix _).subset he'
      have hc' := hc.seek Nat.one_pos hseek
      rw [hseek, Option.map_some, Option.bind_some]
      simp only [hchild]
      refine scan_second l1 hlater' hc' fun e' he' => ?_
      rcases List.mem_append.mp he' with he' | he'
      · exact (Outline.forall_mem_outline.mp
          (hbelow root (hsuffix.subset (by simp))) e' (hchildren e' he')).2
      · obtain ⟨root', hroot', he'⟩ := List.mem_flatMap.mp he'
        exact (Outline.forall_mem_outline.mp
          (hbelow root' (hsuffix.subset (by simp [hroot']))) e' he').2

-- ---------------------------------------------------------------------------
-- The symbol files
-- ---------------------------------------------------------------------------

theorem seek_any_deep (h : ∀ l ∈ ls, 1 < l.1) :
    seek 1 none tnReached false (ls ++ rest) =
      seek 1 none (tnReached || !ls.isEmpty) false rest := by
  induction ls generalizing tnReached with
  | nil => simp
  | cons l ls ih =>
    have hl := h l (by simp)
    have hne : 1 ≠ l.1 := by omega
    have hlt : ¬l.1 < 1 := by omega
    have hle : 1 ≤ l.1 := by omega
    have hrest := @ih (tnReached || decide (1 ≤ l.1)) fun m hm => h m (by simp [hm])
    simp only [List.cons_append, seek, hlt, decide_false, Bool.and_false, Bool.false_eq_true,
      if_false, hne, false_and, and_false, hrest]
    simp [hle]

theorem collect_outline (hc : Cursor file s (ls ++ (outline 1 es ++ tail)))
    (hdeep : ∀ l ∈ ls, 1 < l.1) (hnames : ∀ e ∈ es, e.name ≠ []) (hstop : Stops 1 tail)
    (hfuel : es.length < fuel) :
    Root.collect file fuel (render ((0, s) :: (ls ++ (outline 1 es ++ tail)))) =
      es.map Rose.name := by
  induction es generalizing fuel s ls with
  | nil =>
    obtain ⟨fuel, rfl⟩ : ∃ n, fuel = n + 1 :=
      ⟨fuel - 1, by simp only [List.length_nil] at hfuel; omega⟩
    have hseek : seek 1 none false true ((0, s) :: (ls ++ tail)) = none := by
      have hskip : seek 1 none false true ((0, s) :: (ls ++ tail)) =
          seek 1 none false false (ls ++ tail) := by simp [seek]
      rw [hskip, seek_any_deep hdeep]
      cases tail with
      | nil => simp [seek]
      | cons l tail =>
        have hl : l.1 < 1 := Outline.stops_cons.mp hstop
        simp [seek, hl]
    simp only [Outline.outline_nil, List.nil_append] at hc ⊢
    simp only [Root.collect, Utils.parseStructuredFile, hc.scan Nat.one_pos none, hseek]
    rfl
  | cons e es ih =>
    obtain ⟨fuel, rfl⟩ : ∃ n, fuel = n + 1 :=
      ⟨fuel - 1, by simp only [List.length_cons] at hfuel; omega⟩
    have hseek : seek 1 none false true ((0, s) :: (ls ++ (outline 1 (e :: es) ++ tail))) =
        some (e.name, outline 2 e.children ++ (outline 1 es ++ tail)) := by
      have hskip : seek 1 none false true ((0, s) :: (ls ++ (outline 1 (e :: es) ++ tail))) =
          seek 1 none false false (ls ++ (outline 1 (e :: es) ++ tail)) := by simp [seek]
      rw [hskip, seek_any_deep hdeep, outline_cons]
      simp [seek, hnames e (by simp)]
    have hrest := ih (hc.seek Nat.one_pos hseek)
      (fun l hl => Outline.depth_le_of_mem_outline _ hl) (fun e' he' => hnames e' (by simp [he']))
      (by simpa using hfuel)
    simp only [Root.collect, Utils.parseStructuredFile, hc.scan Nat.one_pos none, hseek,
      Option.map_some, hrest]
    simp

theorem symbolFiles_saved (pre : List Entry) (h : ConfigOk config)
    (hroots : config.children = pre ++ .node (ascii "symbols") es :: later)
    (hfirst : ascii "symbols" ∉ pre.map Rose.name) :
    Root.symbolFiles (saveConfig config) = es.map Rose.name := by
  obtain ⟨hscan, hc⟩ := StructuredFile.scan_root pre (by simp) hroots hfirst h.lines
  have hnames : ∀ e ∈ es, e.name ≠ [] := by
    have hroot := (Outline.forall_mem_outline.mp h.names_ne_nil (.node (ascii "symbols") es) (by
      rw [hroots]
      simp)).2
    exact fun e he => (Outline.forall_mem_outline.mp hroot e he).1
  have hstop : Stops 1 (outline 0 later) := by
    simpa using Stops.outline_append later (@Outline.stops_nil 0 Text)
  have hfuel : es.length < (saveConfig config).length := by
    have h1 := Outline.length_le_outline 1 es
    have h2 := length_le_render ((0, ascii "symbols") :: (outline 1 es ++ outline 0 later))
    have hle := hc.le
    simp only [List.length_cons, List.length_append] at h2
    omega
  rw [← List.nil_append (outline 1 es ++ outline 0 later)] at hc hscan
  rw [Root.symbolFiles, Utils.parseStructuredFile, hscan, Option.map_some, Option.getD_some]
  exact collect_outline hc (by simp) hnames hstop hfuel

-- ---------------------------------------------------------------------------
-- When the two readers agree
-- ---------------------------------------------------------------------------

def setting (tree : Entry) (l0 l1 : Text) : Option Text :=
  ((((tree.get (ascii "settings")).bind (·.get l0)).bind (·.get l1)).bind
    (·.children.head?)).map Rose.name

def symbolNames (tree : Entry) : List Text :=
  ((tree.get (ascii "symbols")).map (·.children.map Rose.name)).getD []

/-- On this file the driver reads what `LoadConfig` reads, whatever the
default. -/
def ReaderAgrees (file l0 l1 : Text) : Prop :=
  ∃ tree, loadConfig file = some tree ∧
    (∀ dflt, Root.read file l0 l1 dflt = (setting tree l0 l1).getD dflt) ∧
    Root.symbolFiles file = symbolNames tree

/-- The search leaves an entry without children and still finds a value.
Either `settings` is empty and the root after it has a value for these names, or
the first `l0` entry of `settings` is empty and the next entry of its depth that
is not empty has a value for `l1`. -/
def FallsThrough (config : Entry) (l0 l1 : Text) : Prop :=
  ∃ settings later, config.children.dropWhile (·.name ≠ ascii "settings") = settings :: later ∧
    ((settings.children = [] ∧ ∃ e es,
        (later.flatMap Rose.children).dropWhile (·.name ≠ l0) = e :: es ∧
        (valueAmong l1 (e :: es)).isSome) ∨
      (∃ e es, settings.children.dropWhile (·.name ≠ l0) = e :: es ∧ e.children = [] ∧
        (valueAmong l1 (es ++ later.flatMap Rose.children)).isSome))

theorem valueAmong_cons_empty (h : e.children = []) :
    valueAmong l1 (e :: es) = valueAmong l1 es := by
  simp [valueAmong, entryAmong, h]

theorem valueAmong_cons (h : e.children ≠ []) :
    valueAmong l1 (e :: es) = ((Entry.get e l1).bind (·.children.head?)).map Rose.name := by
  simp [valueAmong, entryAmong, h]

theorem get_of_dropWhile {e : Entry} (h : e.children.dropWhile (·.name ≠ l) = cs) :
    e.get l = cs.head? := by
  rw [← h, Entry.get, List.find?_eq_head?_dropWhile_not]
  simp

theorem get_of_children_nil {e : Entry} (h : e.children = []) : e.get l = none := by
  simp [Entry.get, h]

theorem found_of_empty (hset : settings.children = []) (hlater : later.length ≤ 1) :
    found settings later l0 l1 = none ↔
      ¬∃ e es, (later.flatMap Rose.children).dropWhile (·.name ≠ l0) = e :: es ∧
        (valueAmong l1 (e :: es)).isSome := by
  match later, hlater with
  | [], _ => simp [found, hset]
  | [root], _ =>
    by_cases hroot : root.children = []
    · simp [found, hset, hroot]
    · have hfound : found settings [root] l0 l1 =
          match root.children.dropWhile (·.name ≠ l0) with
          | [] => none
          | e :: es => valueAmong l1 (e :: es) := by
        simp [found, hset, hroot]
      rw [hfound, List.flatMap_singleton]
      cases root.children.dropWhile (·.name ≠ l0) with
      | nil => simp
      | cons e es =>
        constructor
        · rintro h ⟨e', es', heq, hsome⟩
          obtain ⟨rfl, rfl⟩ := List.cons.inj heq
          simp [show valueAmong l1 (e :: es) = none from h] at hsome
        · exact fun h => Option.not_isSome_iff_eq_none.mp fun hsome => h ⟨e, es, rfl, hsome⟩

theorem found_of_nonempty (hset : settings.children ≠ []) :
    found settings later l0 l1 =
      match settings.children.dropWhile (·.name ≠ l0) with
      | [] => none
      | e :: es => valueAmong l1 (e :: es ++ later.flatMap Rose.children) := by
  simp [found, hset]

theorem found_eq_iff (settings : Entry) (later : List Entry) (l0 l1 : Text)
    (hlater : later.length ≤ 1) :
    found settings later l0 l1 =
        (((settings.get l0).bind (·.get l1)).bind (·.children.head?)).map Rose.name ↔
      ¬((settings.children = [] ∧ ∃ e es,
          (later.flatMap Rose.children).dropWhile (·.name ≠ l0) = e :: es ∧
          (valueAmong l1 (e :: es)).isSome) ∨
        (∃ e es, settings.children.dropWhile (·.name ≠ l0) = e :: es ∧ e.children = [] ∧
          (valueAmong l1 (es ++ later.flatMap Rose.children)).isSome)) := by
  by_cases hset : settings.children = []
  · rw [get_of_children_nil hset, Option.bind_none, Option.bind_none, Option.map_none,
      found_of_empty hset hlater]
    simp [hset]
  · rw [found_of_nonempty hset]
    cases hdrop : settings.children.dropWhile (·.name ≠ l0) with
    | nil => simp [get_of_dropWhile hdrop, hset]
    | cons e es =>
      rw [get_of_dropWhile hdrop]
      simp only [List.head?_cons, Option.bind_some, hset, false_and, false_or, List.cons_append]
      by_cases he : e.children = []
      · rw [valueAmong_cons_empty he, get_of_children_nil he, Option.bind_none, Option.map_none]
        constructor
        · rintro h ⟨e', es', heq, -, hsome⟩
          obtain ⟨rfl, rfl⟩ := List.cons.inj heq
          simp [h] at hsome
        · exact fun h => Option.not_isSome_iff_eq_none.mp fun hsome => h ⟨e, es, rfl, he, hsome⟩
      · rw [valueAmong_cons he]
        simp only [true_iff]
        rintro ⟨e', es', heq, he', -⟩
        obtain ⟨rfl, rfl⟩ := List.cons.inj heq
        exact he he'

theorem getD_eq_iff {a b : Option Text} : (∀ dflt, a.getD dflt = b.getD dflt) ↔ a = b := by
  refine ⟨fun h => ?_, fun h => by simp [h]⟩
  cases a with
  | none =>
    cases b with
    | none => rfl
    | some b => simpa using h (0 :: b)
  | some a =>
    cases b with
    | none => simpa using (h (0 :: a)).symm
    | some b => simpa using h []

theorem symbols_ne_settings : ascii "symbols" ≠ ascii "settings" := by decide

theorem readerAgrees_iff_of_roots (pre : List Entry) (h : ConfigOk config) (l0 l1 : Text)
    (hload : loadConfig (saveConfig config) = some (.node []
      [.node (ascii "symbols") symbols, .node (ascii "settings") settings]))
    (hsymbols : Root.symbolFiles (saveConfig config) = symbols.map Rose.name)
    (hroots : config.children = pre ++ .node (ascii "settings") settings :: later)
    (hfirst : ascii "settings" ∉ pre.map Rose.name) (hlater : later.length ≤ 1) :
    ReaderAgrees (saveConfig config) l0 l1 ↔ ¬FallsThrough config l0 l1 := by
  have hdrop : config.children.dropWhile (·.name ≠ ascii "settings") =
      .node (ascii "settings") settings :: later := by
    rw [hroots, List.dropWhile_append_of_pos]
    · simp
    · intro e he
      simpa using fun heq => hfirst (List.mem_map.mpr ⟨e, he, heq⟩)
  have hsetting : setting (.node [] [.node (ascii "symbols") symbols,
      .node (ascii "settings") settings]) l0 l1 =
      (((Entry.get (.node (ascii "settings") settings) l0).bind (·.get l1)).bind
        (·.children.head?)).map Rose.name := by
    simp [setting, Entry.get, symbols_ne_settings]
  have hnames : symbolNames (.node [] [.node (ascii "symbols") symbols,
      .node (ascii "settings") settings]) = symbols.map Rose.name := by
    simp [symbolNames, Entry.get]
  simp only [ReaderAgrees, FallsThrough, hload, Option.some.injEq, exists_eq_left', hsymbols,
    hsetting, hnames, and_true, Root.read, getD_eq_iff,
    read?_saved pre l0 l1 h hroots hfirst hlater, found_eq_iff _ _ _ _ hlater, hdrop,
    List.cons.injEq]
  constructor
  · rintro hno ⟨_, _, ⟨rfl, rfl⟩, hfalls⟩
    exact hno hfalls
  · exact fun hno hfalls => hno ⟨_, _, ⟨rfl, rfl⟩, hfalls⟩

/-- The driver's reader agrees with Symbol Loader's exactly when its search does
not run past an empty entry into a value. -/
theorem readerAgrees_iff (h : ConfigOk config) (l0 l1 : Text) :
    ReaderAgrees (saveConfig config) l0 l1 ↔ ¬FallsThrough config l0 l1 := by
  obtain ⟨a, b, hab⟩ : ∃ a b, config.children = [a, b] := by
    rcases h.roots with hroots | hroots <;>
      simpa [List.length_eq_two] using congrArg List.length hroots
  have hnames := h.roots
  simp only [hab, List.map_cons, List.map_nil, List.cons.injEq, and_true] at hnames
  rcases hnames with ⟨ha, hb⟩ | ⟨ha, hb⟩
  · have hroots : config.children =
        [.node (ascii "symbols") a.children, .node (ascii "settings") b.children] := by
      simp [hab, ← ha, ← hb]
    exact readerAgrees_iff_of_roots [_] h l0 l1
      (StructuredFile.loadConfig_roots h _ _ (.inl hroots))
      (symbolFiles_saved [] h hroots (by simp)) hroots
      (by simpa using symbols_ne_settings.symm) (by simp)
  · have hroots : config.children =
        [.node (ascii "settings") a.children, .node (ascii "symbols") b.children] := by
      simp [hab, ← ha, ← hb]
    exact readerAgrees_iff_of_roots [] h l0 l1
      (StructuredFile.loadConfig_roots h _ _ (.inr hroots))
      (symbolFiles_saved [_] h hroots (by simpa using symbols_ne_settings)) hroots
      (by simp) (by simp)

theorem readerAgrees_sample :
    ConfigOk StructuredFile.sampleConfig ∧
      ReaderAgrees (saveConfig StructuredFile.sampleConfig) (ascii "framebuffer")
        (ascii "width") := by
  refine ⟨StructuredFile.sampleConfig_ok,
    (readerAgrees_iff StructuredFile.sampleConfig_ok _ _).mpr ?_⟩
  rintro ⟨settings, later, hdrop, hfalls⟩
  obtain ⟨rfl, rfl⟩ : .node (ascii "settings") [.node (ascii "framebuffer") [
      .node (ascii "width") [.node (ascii "1024") []]]] = settings ∧ [] = later :=
    List.cons.inj hdrop
  rcases hfalls with ⟨hempty, -⟩ | ⟨e, es, he, hempty, -⟩
  · cases hempty
  · obtain rfl : .node (ascii "framebuffer") [
        .node (ascii "width") [.node (ascii "1024") []]] = e := (List.cons.inj he).1
    cases hempty

/-- An empty `framebuffer` entry before an entry that has a `width`. -/
def emptyFramebuffer : Entry := .node [] [
  .node (ascii "symbols") [],
  .node (ascii "settings") [.node (ascii "framebuffer") [],
    .node (ascii "add_sym_win") [.node (ascii "width") [.node (ascii "640") []]]]]

/-- Symbol Loader sees no width for the framebuffer there, the driver the one of
the next entry. -/
theorem read_emptyFramebuffer :
    ConfigOk emptyFramebuffer ∧
      loadConfig (saveConfig emptyFramebuffer) = some emptyFramebuffer ∧
      setting emptyFramebuffer (ascii "framebuffer") (ascii "width") = none ∧
      Root.read (saveConfig emptyFramebuffer) (ascii "framebuffer") (ascii "width") (ascii "0") =
        ascii "640" := by
  have hok : ConfigOk emptyFramebuffer :=
    ⟨.inl (by decide), by simp only [emptyFramebuffer, Rose.children_node]; decide +kernel⟩
  refine ⟨hok, StructuredFile.loadConfig_roots hok _ _ (.inl rfl), by decide, ?_⟩
  rw [Root.read, read?_saved [_] _ _ hok rfl (by decide) (by decide)]
  decide

end BugChecker.Config
