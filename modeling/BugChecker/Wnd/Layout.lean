import Mathlib.Data.List.Chain
import Mathlib.Data.List.Forall2
import Mathlib.Data.List.Nodup
import BugChecker.Wnd.CodeWnd

/-!
# The layout of the windows

Dividing lines are between the windows, from the top of the screen to the input
line. A line that is negative is hidden. `CheckDivLineYs` moves the lines of the
disassembler and of the script window, so that every window next to one of them
has at least three rows, and then gives as many rows as it can to a window whose
size was asked for. The line of the registers is where `DrawRegs` needs it.
-/

namespace BugChecker.Wnd

/-- The variable of a dividing line, or one of the two ends. -/
inductive DivVar where
  | first | regsDisasm | disasmCode | codeLog | last
  deriving DecidableEq

structure DivLine where
  py : DivVar
  y : Int
  height : Int
  deriving DecidableEq

def DivLine.canBeMoved (d : DivLine) : Bool := d.py = .disasmCode || d.py = .codeLog

structure Layout where
  wndWidth : Nat
  wndHeight : Nat
  regsDisasmDivLineY : Int
  disasmCodeDivLineY : Int
  codeLogDivLineY : Int
  deriving DecidableEq

namespace Layout

def get (l : Layout) : DivVar → Int
  | .first => 0
  | .regsDisasm => l.regsDisasmDivLineY
  | .disasmCode => l.disasmCodeDivLineY
  | .codeLog => l.codeLogDivLineY
  | .last => (l.wndHeight : Int) - 3

def visible (l : Layout) (py : DivVar) : Bool := py = .last || l.get py ≥ 0

def visibleVars (l : Layout) : List DivVar :=
  [.first, .regsDisasm, .disasmCode, .codeLog, .last].filter l.visible

/-- Heights of the windows, down from the line `back`. -/
def withHeights (l : Layout) (back : Int) : List DivVar → List DivLine
  | [] => []
  | py :: pys => ⟨py, l.get py, max 0 (l.get py - back - 1)⟩ :: withHeights l (l.get py) pys

def getVisibleDivLines (l : Layout) : List DivLine := l.withHeights 0 l.visibleVars

def ys (v : List DivLine) : List Int := v.map (·.y)

-- ---------------------------------------------------------------------------
-- CheckDivLineYs
-- ---------------------------------------------------------------------------

def pushDown (prev : Int) : List DivLine → List DivLine
  | [] => []
  | d :: ds =>
    let y := if d.canBeMoved ∧ d.y - prev < 4 then prev + 4 else d.y
    { d with y := y } :: pushDown y ds

def pullUp : List DivLine → List DivLine
  | [] => []
  | d :: ds =>
    match pullUp ds with
    | [] => [d]
    | next :: ds =>
      { d with y := if d.canBeMoved ∧ next.y - d.y < 4 then next.y - 4 else d.y } :: next :: ds

/-- One line, the first that has room after it, is moved by one. `down` is 1 for the lines below,
and -1 for those above, which are listed from the line upwards. Its offset is returned. -/
def moveFirst (down : Int) : List DivLine → Option (Nat × List DivLine)
  | d :: next :: ds =>
    if d.canBeMoved then
      if down * (next.y - d.y) > 4 then some (0, { d with y := d.y + down } :: next :: ds)
      else (moveFirst down (next :: ds)).map fun (offset, ds) => (offset + 1, d :: ds)
    else none
  | _ => none

/-- Again until the line itself was moved. A line that was moved makes room for the one before it,
so there are no more turns than lines. -/
def moveLine (down : Int) : Nat → List DivLine → Bool × List DivLine
  | 0, ds => (false, ds)
  | turns + 1, ds =>
    match moveFirst down ds with
    | none => (false, ds)
    | some (0, ds) => (true, ds)
    | some (_ + 1, ds) => moveLine down turns ds

/-- `above` is listed upwards, `below` begins with the line. -/
def addLine (above below : List DivLine) : Bool × List DivLine × List DivLine :=
  match moveLine 1 below.length below with
  | (true, below) => (true, above, below)
  | (false, below) =>
    let (done, above) := moveLine (-1) above.length above
    (done, above, below)

/-- Rows are added until the window has its height. Each turn adds one. -/
def grow : Nat → List DivLine → List DivLine → List DivLine × List DivLine
  | 0, above, below => (above, below)
  | turns + 1, above, below =>
    match above, below with
    | prev :: _, d :: _ =>
      if d.y - prev.y < d.height + 1 then
        match addLine above below with
        | (true, above, below) => grow turns above below
        | (false, above, below) => (above, below)
      else (above, below)
    | _, _ => (above, below)

def keepHeight (keep : DivVar) (v : List DivLine) : List DivLine :=
  match v.findIdx? fun d => d.canBeMoved && d.py == keep with
  | some index =>
    if index > 0 then
      let below := v.drop index
      let (above, below) :=
        grow ((below.head?.map DivLine.height).getD 0).toNat (v.take index).reverse below
      above.reverse ++ below
    else v
  | none => v

/-- The visible lines, as `CheckDivLineYs` arranges them. -/
def arranged (l : Layout) (keep : Option DivVar) : List DivLine :=
  let v := pullUp (pushDown 0 l.getVisibleDivLines)
  match keep with
  | some keep => keepHeight keep v
  | none => v

def set (l : Layout) (py : DivVar) (y : Int) : Layout :=
  match py with
  | .regsDisasm => { l with regsDisasmDivLineY := y }
  | .disasmCode => { l with disasmCodeDivLineY := y }
  | .codeLog => { l with codeLogDivLineY := y }
  | .first | .last => l

def arrange (l : Layout) (keep : Option DivVar) : Layout :=
  (l.arranged keep).foldl (fun l d => l.set d.py d.y) l

def lineBefore (py : DivVar) : List DivLine → Option Int
  | prev :: d :: ds => if d.py = py then some prev.y else lineBefore py (d :: ds)
  | _ => none

/-- Where `DrawAll_Start` puts the script window. -/
def codeArea (l : Layout) : Area :=
  let nextY := if l.regsDisasmDivLineY < 0 then 1 else l.regsDisasmDivLineY + 1
  let nextY := if l.disasmCodeDivLineY < 0 then nextY else l.disasmCodeDivLineY + 1
  if l.codeLogDivLineY < 0 then ⟨l.wndWidth, 1, 3⟩
  else ⟨l.wndWidth, nextY.toNat, (l.codeLogDivLineY - 1).toNat⟩

-- ---------------------------------------------------------------------------
-- DrawRegs
-- ---------------------------------------------------------------------------

/-- `drawReg` and `drawFlags`: lines so far, and the length of the current one. A text of `size`
characters takes `room` in it. -/
def drawText (lineDim : Nat) (automaticAddLine : Bool) (lines text : Nat × Nat) : Nat × Nat :=
  if automaticAddLine ∧ lines.2 + text.1 > lineDim then (lines.1 + 1, text.2)
  else (lines.1, lines.2 + text.2)

/-- How many lines `DrawRegs` adds for the 32-bit registers, of a 32-bit system or process, or for
the 64-bit ones. -/
def regsRows (wndWidth : Nat) (regs32 : Bool) : Nat :=
  let lineDim := wndWidth - 2
  let draw := drawText lineDim (!regs32)
  let regs : List (Nat × Nat) :=
    if regs32 then List.replicate 9 (12, 15)
    else List.replicate 8 (20, 23) ++ (List.replicate 2 (19, 23) ++ List.replicate 7 (20, 23))
  -- 32-bit registers have a line of their own after the first five
  let extra := if regs32 then 1 else 0
  let (lines, dim) := regs.foldl draw (0, 0)
  let (lines, _) := draw (lines, dim) (15, 18)
  let (lines, _) := (List.replicate 6 (7, 10)).foldl draw (lines + 1, 0)
  lines + 1 + extra

-- ---------------------------------------------------------------------------
-- Only some lines move
-- ---------------------------------------------------------------------------

/-- A line, perhaps moved. -/
structure SameLine (d d' : DivLine) : Prop where
  py : d.py = d'.py
  height : d.height = d'.height
  fixed : d.canBeMoved = false → d.y = d'.y

theorem SameLine.refl (d : DivLine) : SameLine d d := ⟨rfl, rfl, fun _ => rfl⟩

theorem SameLine.canBeMoved (h : SameLine a b) : a.canBeMoved = b.canBeMoved := by
  unfold DivLine.canBeMoved
  rw [h.py]

theorem SameLine.trans (h : SameLine a b) (h' : SameLine b c) : SameLine a c where
  py := h.py.trans h'.py
  height := h.height.trans h'.height
  fixed := fun ha => (h.fixed ha).trans (h'.fixed (h.canBeMoved.symm.trans ha))

theorem sameLines_refl (v : List DivLine) : List.Forall₂ SameLine v v :=
  List.forall₂_same.mpr fun d _ => .refl d

theorem sameLines_trans (h : List.Forall₂ SameLine u v) (h' : List.Forall₂ SameLine v w) :
    List.Forall₂ SameLine u w := by
  induction h generalizing w with
  | nil => exact h'
  | cons hd _ ih =>
    cases h' with
    | cons hd' htl' => exact .cons (hd.trans hd') (ih htl')

theorem sameLine_move (d : DivLine) (y : Int) (h : d.canBeMoved = false → y = d.y) :
    SameLine { d with y := y } d :=
  ⟨rfl, rfl, h⟩

theorem sameLines_py (h : List.Forall₂ SameLine u v) : u.map (·.py) = v.map (·.py) := by
  induction h with
  | nil => rfl
  | cons hd _ ih => rw [List.map_cons, List.map_cons, hd.py, ih]

theorem sameLines_mem (h : List.Forall₂ SameLine u v) (hd : d ∈ u) : ∃ d' ∈ v, SameLine d d' := by
  induction h with
  | nil => cases hd
  | cons hhead _ ih =>
    rcases List.mem_cons.mp hd with rfl | hd
    · exact ⟨_, List.mem_cons_self, hhead⟩
    · obtain ⟨d', hd', hsame⟩ := ih hd
      exact ⟨d', List.mem_cons_of_mem _ hd', hsame⟩

theorem pushDown_same (prev : Int) (v : List DivLine) :
    List.Forall₂ SameLine (pushDown prev v) v := by
  induction v generalizing prev with
  | nil => exact .nil
  | cons d ds ih =>
    refine .cons (sameLine_move d _ fun hfixed => ?_) (ih _)
    rw [if_neg]
    rintro ⟨hmoved, -⟩
    exact absurd (hfixed.symm.trans hmoved) (by decide)

theorem pullUp_same (v : List DivLine) : List.Forall₂ SameLine (pullUp v) v := by
  induction v with
  | nil => exact .nil
  | cons d ds ih =>
    unfold pullUp
    split
    · next hnil =>
      rw [hnil] at ih
      exact .cons (.refl d) ih
    · next next tl hcons =>
      rw [hcons] at ih
      refine .cons (sameLine_move d _ fun hfixed => ?_) ih
      rw [if_neg]
      rintro ⟨hmoved, -⟩
      exact absurd (hfixed.symm.trans hmoved) (by decide)

/-- The rows between two lines, if one of them can be moved. `down` is the direction of the list. -/
def Gap (down : Int) (d next : DivLine) : Prop :=
  d.canBeMoved ∨ next.canBeMoved → 4 ≤ down * (next.y - d.y)

/-- Moving a line keeps the gaps, also that to the line before it in the list. -/
theorem moveFirst_spec (hdown : down = 1 ∨ down = -1) (ds : List DivLine)
    (h : moveFirst down ds = some (offset, ds')) :
    List.Forall₂ SameLine ds' ds ∧
      ∀ p, (p :: ds).IsChain (Gap down) → (p :: ds').IsChain (Gap down) := by
  induction ds generalizing offset ds' with
  | nil => exact absurd h (by simp [moveFirst])
  | cons d ds ih =>
    cases ds with
    | nil => exact absurd h (by simp [moveFirst])
    | cons next ds =>
      unfold moveFirst at h
      split at h
      · next hmoved =>
        split at h
        · next hroom =>
          obtain ⟨-, rfl⟩ := Prod.mk.inj (Option.some.inj h)
          refine ⟨.cons (sameLine_move d _ fun hno => ?_) (sameLines_refl _), fun p hp => ?_⟩
          · exact absurd (hno.symm.trans hmoved) (by decide)
          · simp only [List.isChain_cons_cons] at hp ⊢
            obtain ⟨hpd, -, htl⟩ := hp
            refine ⟨fun _ => ?_, fun _ => ?_, htl⟩
            · have hgap := hpd (.inr hmoved)
              rcases hdown with rfl | rfl <;> dsimp only <;> omega
            · rcases hdown with rfl | rfl <;> dsimp only <;> omega
        · obtain ⟨⟨k, tl⟩, htl, heq⟩ := Option.map_eq_some_iff.mp h
          obtain ⟨-, rfl⟩ := Prod.mk.inj heq
          obtain ⟨hsame, hchain⟩ := ih htl
          refine ⟨.cons (.refl d) hsame, fun p hp => ?_⟩
          obtain ⟨hpd, hds⟩ := List.isChain_cons_cons.mp hp
          exact List.isChain_cons_cons.mpr ⟨hpd, hchain d hds⟩
      · exact absurd h (by simp)

theorem moveLine_spec (hdown : down = 1 ∨ down = -1) (turns : Nat) (ds : List DivLine) :
    List.Forall₂ SameLine (moveLine down turns ds).2 ds ∧
      ∀ p, (p :: ds).IsChain (Gap down) → (p :: (moveLine down turns ds).2).IsChain (Gap down) := by
  induction turns generalizing ds with
  | zero => exact ⟨sameLines_refl ds, fun p hp => hp⟩
  | succ turns ih =>
    unfold moveLine
    split
    · exact ⟨sameLines_refl ds, fun p hp => hp⟩
    · next h => exact moveFirst_spec hdown ds h
    · next ds' h =>
      obtain ⟨hsame, hchain⟩ := moveFirst_spec hdown ds h
      obtain ⟨hsame', hchain'⟩ := ih ds'
      exact ⟨sameLines_trans hsame' hsame, fun p hp => hchain' p (hchain p hp)⟩

theorem gap_flip : Gap 1 a b ↔ Gap (-1) b a := by
  unfold Gap
  constructor
  · intro h hmoved
    have hgap := h hmoved.symm
    omega
  · intro h hmoved
    have hgap := h hmoved.symm
    omega

/-- Gaps around the place between two lists of lines, the first one listed upwards. -/
inductive Around : List DivLine → List DivLine → Prop
  | intro (hbelow : (p :: d :: ds).IsChain (Gap 1)) (habove : (p :: ps).IsChain (Gap (-1))) :
    Around (p :: ps) (d :: ds)

theorem addLine_spec (h : Around above below) :
    Around (addLine above below).2.1 (addLine above below).2.2 ∧
      List.Forall₂ SameLine (addLine above below).2.1 above ∧
      List.Forall₂ SameLine (addLine above below).2.2 below := by
  obtain @⟨p, d, ds, ps, hbelow, habove⟩ := h
  obtain ⟨hsame, hchain⟩ := moveLine_spec (.inl rfl) (d :: ds).length (d :: ds)
  unfold addLine
  split
  · next below' heq =>
    rw [heq] at hsame hchain
    cases hsame with
    | cons hd htl => exact ⟨.intro (hchain p hbelow) habove, sameLines_refl _, .cons hd htl⟩
  · next below' heq =>
    rw [heq] at hsame hchain
    cases hsame with
    | @cons d' _ ds' _ hd htl =>
      obtain ⟨hpd, hds⟩ := List.isChain_cons_cons.mp (hchain p hbelow)
      obtain ⟨hsame2, hchain2⟩ := moveLine_spec (.inr rfl) (p :: ps).length (p :: ps)
      have hup := hchain2 d' (List.isChain_cons_cons.mpr ⟨gap_flip.mp hpd, habove⟩)
      generalize moveLine (-1) (p :: ps).length (p :: ps) = moved at hsame2 hup
      obtain ⟨done, above'⟩ := moved
      cases hsame2 with
      | cons hp htl2 =>
        obtain ⟨hdp, hps⟩ := List.isChain_cons_cons.mp hup
        exact ⟨.intro (List.isChain_cons_cons.mpr ⟨gap_flip.mpr hdp, hds⟩) hps, .cons hp htl2,
          .cons hd htl⟩

theorem grow_spec (turns : Nat) (h : Around above below) :
    Around (grow turns above below).1 (grow turns above below).2 ∧
      List.Forall₂ SameLine (grow turns above below).1 above ∧
      List.Forall₂ SameLine (grow turns above below).2 below := by
  induction turns generalizing above below with
  | zero => exact ⟨h, sameLines_refl _, sameLines_refl _⟩
  | succ turns ih =>
    obtain ⟨hnew, habove, hbelow⟩ := addLine_spec h
    unfold grow
    split
    · split
      · split
        · next heq =>
          rw [heq] at hnew habove hbelow
          obtain ⟨hnew', habove', hbelow'⟩ := ih hnew
          exact ⟨hnew', sameLines_trans habove' habove, sameLines_trans hbelow' hbelow⟩
        · next heq =>
          rw [heq] at hnew habove hbelow
          exact ⟨hnew, habove, hbelow⟩
      · exact ⟨h, sameLines_refl _, sameLines_refl _⟩
    · exact ⟨h, sameLines_refl _, sameLines_refl _⟩

/-- The rows next to a line that can be moved, in the visible lines. -/
def Gaps (v : List DivLine) : Prop := v.IsChain (Gap 1)

theorem around_iff : Around (p :: ps) (d :: ds) ↔ Gaps ((p :: ps).reverse ++ d :: ds) := by
  have hflip : (fun a b => Gap 1 b a) = Gap (-1) := by
    funext a b
    exact propext gap_flip
  unfold Gaps
  rw [List.reverse_cons, List.append_assoc, List.singleton_append, List.isChain_split,
    ← List.reverse_cons, List.isChain_reverse, hflip]
  constructor
  · rintro ⟨hbelow, habove⟩
    exact ⟨habove, hbelow⟩
  · rintro ⟨habove, hbelow⟩
    exact ⟨hbelow, habove⟩

theorem Around.gaps (h : Around above below) : Gaps (above.reverse ++ below) := by
  cases h with
  | intro hbelow habove => exact around_iff.mp (.intro hbelow habove)

theorem exists_around {v : List DivLine} (hpos : 0 < index) (hlt : index < v.length) :
    ∃ p ps d ds, (v.take index).reverse = p :: ps ∧ v.drop index = d :: ds ∧
      v = (p :: ps).reverse ++ d :: ds := by
  obtain ⟨d, ds, hbelow⟩ : ∃ d ds, v.drop index = d :: ds :=
    List.exists_cons_of_ne_nil fun hnil => by
      rw [List.drop_eq_nil_iff] at hnil
      omega
  obtain ⟨p, ps, habove⟩ : ∃ p ps, (v.take index).reverse = p :: ps :=
    List.exists_cons_of_ne_nil fun hnil => by
      rw [List.reverse_eq_nil_iff, List.take_eq_nil_iff] at hnil
      rcases hnil with hzero | hnil
      · omega
      · rw [hnil] at hlt
        exact absurd hlt (by simp)
  refine ⟨p, ps, d, ds, habove, hbelow, ?_⟩
  rw [← habove, ← hbelow, List.reverse_reverse, List.take_append_drop]

theorem keepHeight_spec (keep : DivVar) (h : Gaps v) :
    Gaps (keepHeight keep v) ∧ List.Forall₂ SameLine (keepHeight keep v) v := by
  unfold keepHeight
  split
  · next index hindex =>
    split
    · next hpos =>
      have hlt : index < v.length := (List.findIdx?_eq_some_iff_getElem.mp hindex).1
      obtain ⟨p, ps, d, ds, habove, hbelow, hsplit⟩ := exists_around hpos hlt
      obtain ⟨hgrown, hsameAbove, hsameBelow⟩ :=
        grow_spec ((((d :: ds).head?.map DivLine.height).getD 0).toNat)
          (around_iff.mpr (hsplit ▸ h) : Around (p :: ps) (d :: ds))
      dsimp only
      rw [hbelow, habove]
      refine ⟨hgrown.gaps, ?_⟩
      rw [hsplit]
      exact List.rel_append (List.forall₂_reverse_iff.mpr hsameAbove) hsameBelow
    · exact ⟨h, sameLines_refl v⟩
  · exact ⟨h, sameLines_refl v⟩

/-- There is room for all windows. -/
structure Roomy (l : Layout) : Prop where
  wndHeight_ge : 25 ≤ l.wndHeight
  regs_le : l.regsDisasmDivLineY ≤ 8

def top (l : Layout) : Int := if l.regsDisasmDivLineY ≥ 0 then l.regsDisasmDivLineY else 0

def movables (l : Layout) : Nat :=
  (if l.disasmCodeDivLineY ≥ 0 then 1 else 0) + (if l.codeLogDivLineY ≥ 0 then 1 else 0)

/-- The lines that can be moved fit with four rows for each gap next to one of them. -/
def Fits (l : Layout) : Prop :=
  l.top + 4 * (if l.movables = 0 then 0 else l.movables + 1 : Nat) ≤ (l.wndHeight : Int) - 3

theorem Roomy.fits {l : Layout} (h : l.Roomy) : l.Fits := by
  obtain ⟨hheight, hregs⟩ := h
  unfold Fits top movables
  split_ifs <;> omega

theorem gaps_of_fits {l : Layout} (h : l.Fits) :
    Gaps (pullUp (pushDown 0 l.getVisibleDivLines)) := by
  unfold Fits top movables at h
  unfold getVisibleDivLines visibleVars visible Gaps
  by_cases hr : l.regsDisasmDivLineY ≥ 0 <;> by_cases hd : l.disasmCodeDivLineY ≥ 0 <;>
    by_cases hc : l.codeLogDivLineY ≥ 0 <;>
    simp [hr, hd, hc] at h <;>
    simp [hr, hd, hc, List.filter, get, withHeights, pushDown, pullUp, Gap, DivLine.canBeMoved] <;>
    (try split_ifs) <;> (try omega)

variable {l : Layout}

theorem arranged_spec (h : l.Fits) (keep : Option DivVar) :
    Gaps (l.arranged keep) ∧ List.Forall₂ SameLine (l.arranged keep) l.getVisibleDivLines := by
  have hgaps := gaps_of_fits h
  have hsame :
      List.Forall₂ SameLine (pullUp (pushDown 0 l.getVisibleDivLines)) l.getVisibleDivLines :=
    sameLines_trans (pullUp_same _) (pushDown_same _ _)
  unfold arranged
  cases keep with
  | none => exact ⟨hgaps, hsame⟩
  | some keep =>
    obtain ⟨hgaps', hsame'⟩ := keepHeight_spec keep hgaps
    exact ⟨hgaps', sameLines_trans hsame' hsame⟩

-- ---------------------------------------------------------------------------
-- The lines are stored
-- ---------------------------------------------------------------------------

def lines (l : Layout) : List Int := l.visibleVars.map l.get

theorem withHeights_ys (back : Int) (pys : List DivVar) :
    ys (l.withHeights back pys) = pys.map l.get := by
  induction pys generalizing back with
  | nil => rfl
  | cons py pys ih =>
    rw [withHeights, ys, List.map_cons, List.map_cons]
    exact congrArg _ (ih _)

theorem withHeights_py (back : Int) (pys : List DivVar) :
    (l.withHeights back pys).map (·.py) = pys := by
  induction pys generalizing back with
  | nil => rfl
  | cons py pys ih =>
    rw [withHeights, List.map_cons]
    exact congrArg _ (ih _)

theorem withHeights_y (hd : d ∈ l.withHeights back pys) : d.y = l.get d.py := by
  induction pys generalizing back with
  | nil => cases hd
  | cons py pys ih =>
    rcases List.mem_cons.mp hd with rfl | hd
    · rfl
    · exact ih hd

theorem getVisibleDivLines_py (l : Layout) : l.getVisibleDivLines.map (·.py) = l.visibleVars :=
  withHeights_py 0 _

theorem ys_getVisibleDivLines (l : Layout) : ys l.getVisibleDivLines = l.lines := withHeights_ys 0 _

theorem visibleVars_nodup (l : Layout) : l.visibleVars.Nodup :=
  List.Nodup.filter _ (by decide)

theorem get_set (l : Layout) (py q : DivVar) (y : Int)
    (hends : py = .first ∨ py = .last → y = l.get py) :
    (l.set py y).get q = if q = py then y else l.get q := by
  cases py <;> cases q <;> simp_all [set, get]

theorem set_dim (l : Layout) (py : DivVar) (y : Int) :
    (l.set py y).wndWidth = l.wndWidth ∧ (l.set py y).wndHeight = l.wndHeight := by
  cases py <;> exact ⟨rfl, rfl⟩

theorem get_store (v : List DivLine) (hnodup : (v.map (·.py)).Nodup)
    (hends : ∀ d ∈ v, d.py = .first ∨ d.py = .last → d.y = l.get d.py) :
    (∀ d ∈ v, (v.foldl (fun l d => l.set d.py d.y) l).get d.py = d.y) ∧
      ∀ q ∉ v.map (·.py), (v.foldl (fun l d => l.set d.py d.y) l).get q = l.get q := by
  induction v generalizing l with
  | nil => exact ⟨fun d hd => absurd hd List.not_mem_nil, fun q _ => rfl⟩
  | cons d ds ih =>
    rw [List.map_cons, List.nodup_cons] at hnodup
    obtain ⟨hd, hds⟩ := hnodup
    have hset := fun q => get_set l d.py q d.y (hends d List.mem_cons_self)
    have hne : ∀ x ∈ ds, x.py ≠ d.py := fun x hx heq => hd (heq ▸ List.mem_map_of_mem hx)
    obtain ⟨hin, hout⟩ := @ih (l.set d.py d.y) hds fun x hx hend => by
      rw [hset, if_neg (hne x hx)]
      exact hends x (List.mem_cons_of_mem _ hx) hend
    refine ⟨fun x hx => ?_, fun q hq => ?_⟩
    · rcases List.mem_cons.mp hx with rfl | hx
      · rw [List.foldl_cons, hout _ hd, hset, if_pos rfl]
      · exact hin x hx
    · rw [List.map_cons, List.mem_cons, not_or] at hq
      rw [List.foldl_cons, hout q hq.2, hset, if_neg hq.1]

theorem store_dim (v : List DivLine) (l : Layout) :
    (v.foldl (fun l d => l.set d.py d.y) l).wndWidth = l.wndWidth ∧
      (v.foldl (fun l d => l.set d.py d.y) l).wndHeight = l.wndHeight := by
  induction v generalizing l with
  | nil => exact ⟨rfl, rfl⟩
  | cons d ds ih =>
    obtain ⟨hwidth, hheight⟩ := ih (l.set d.py d.y)
    exact ⟨hwidth.trans (set_dim l d.py d.y).1, hheight.trans (set_dim l d.py d.y).2⟩

theorem nonneg_of_gaps (hchain : (p :: ds).IsChain (Gap 1)) (hp : 0 ≤ p.y)
    (hfixed : ∀ d ∈ ds, d.canBeMoved = false → 0 ≤ d.y) : ∀ d ∈ ds, 0 ≤ d.y := by
  induction ds generalizing p with
  | nil => exact fun d hd => absurd hd List.not_mem_nil
  | cons d ds ih =>
    obtain ⟨hgap, htl⟩ := List.isChain_cons_cons.mp hchain
    have hd : 0 ≤ d.y := by
      cases hmoved : d.canBeMoved with
      | false => exact hfixed d List.mem_cons_self hmoved
      | true =>
        have hrows := hgap (.inr hmoved)
        omega
    intro x hx
    rcases List.mem_cons.mp hx with rfl | hx
    · exact hd
    · exact ih htl hd (fun x hx => hfixed x (List.mem_cons_of_mem _ hx)) x hx

/-- What `CheckDivLineYs` does to the lines. -/
structure Rearranged (l l' : Layout) (v : List DivLine) : Prop where
  wndWidth : l'.wndWidth = l.wndWidth
  wndHeight : l'.wndHeight = l.wndHeight
  regs : l'.regsDisasmDivLineY = l.regsDisasmDivLineY
  hidden : ∀ py, l.get py < 0 → l'.get py = l.get py
  visibleVars : l'.visibleVars = l.visibleVars
  ys : ys v = l'.lines
  gaps : Gaps l'.getVisibleDivLines

theorem gaps_withHeights (back : Int) (v : List DivLine) (h : ∀ d ∈ v, l.get d.py = d.y)
    (hgaps : Gaps v) : Gaps (l.withHeights back (v.map (·.py))) := by
  unfold Gaps at *
  induction v generalizing back with
  | nil => exact hgaps
  | cons d ds ih =>
    have hds := ih (l.get d.py) (fun x hx => h x (List.mem_cons_of_mem _ hx)) hgaps.tail
    cases ds with
    | nil => exact .singleton _
    | cons next ds =>
      refine List.isChain_cons_cons.mpr ⟨fun hmoved => ?_, hds⟩
      have hgap := (List.isChain_cons_cons.mp hgaps).1 hmoved
      dsimp only
      rw [h d List.mem_cons_self, h next (List.mem_cons_of_mem _ List.mem_cons_self)]
      exact hgap

theorem mem_visibleVars (l : Layout) (py : DivVar) : py ∈ l.visibleVars ↔ l.visible py := by
  unfold visibleVars
  rw [List.mem_filter]
  cases py <;> simp

theorem Fits.get_nonneg (h : l.Fits) (hpy : py ∈ l.visibleVars) : 0 ≤ l.get py := by
  have htop : 0 ≤ l.top := by
    unfold top
    split <;> omega
  rw [mem_visibleVars, visible, Bool.or_eq_true, decide_eq_true_eq, decide_eq_true_eq] at hpy
  rcases hpy with rfl | hpy
  · rw [get]
    unfold Fits at h
    omega
  · exact hpy

theorem arranged_fixed (h : l.Fits) (hd : d ∈ l.arranged keep) (hfixed : d.canBeMoved = false) :
    d.y = l.get d.py := by
  obtain ⟨d', hd', hsame⟩ := sameLines_mem (arranged_spec h keep).2 hd
  rw [hsame.fixed hfixed, hsame.py]
  exact withHeights_y hd'

theorem arranged_py (h : l.Fits) (keep : Option DivVar) :
    (l.arranged keep).map (·.py) = l.visibleVars := by
  rw [sameLines_py (arranged_spec h keep).2, getVisibleDivLines_py]

theorem arranged_nonneg (h : l.Fits) (hd : d ∈ l.arranged keep) : 0 ≤ d.y := by
  have hfixed : ∀ d ∈ l.arranged keep, d.canBeMoved = false → 0 ≤ d.y := by
    intro d hd hmoved
    rw [arranged_fixed h hd hmoved]
    refine h.get_nonneg ?_
    rw [← arranged_py h keep]
    exact List.mem_map_of_mem hd
  have hfirst : l.visibleVars.head? = some .first := by simp [visibleVars, visible, get]
  have hgaps := (arranged_spec h keep).1
  rw [← arranged_py h keep] at hfirst
  cases hv : l.arranged keep with
  | nil => exact absurd hd (by simp [hv])
  | cons d0 ds =>
    rw [hv] at hd hfixed hgaps hfirst
    have hpy : d0.py = .first := Option.some.inj hfirst
    have h0 : 0 ≤ d0.y := hfixed d0 List.mem_cons_self (by simp [DivLine.canBeMoved, hpy])
    rcases List.mem_cons.mp hd with rfl | hd
    · exact h0
    · exact nonneg_of_gaps hgaps h0 (fun x hx => hfixed x (List.mem_cons_of_mem _ hx)) d hd

theorem arrange_get (h : l.Fits) (keep : Option DivVar) :
    (∀ d ∈ l.arranged keep, (l.arrange keep).get d.py = d.y) ∧
      ∀ py ∉ l.visibleVars, (l.arrange keep).get py = l.get py := by
  have hpys := arranged_py h keep
  have hstore := get_store (l.arranged keep) (hpys ▸ visibleVars_nodup l) fun d hd hend => by
    refine arranged_fixed h hd ?_
    rcases hend with hend | hend <;> simp [DivLine.canBeMoved, hend]
  rw [hpys] at hstore
  exact hstore

theorem arrange_visible (h : l.Fits) (keep : Option DivVar) (py : DivVar) :
    (l.arrange keep).visible py = l.visible py := by
  obtain ⟨hin, hout⟩ := arrange_get h keep
  by_cases hpy : py ∈ l.visibleVars
  · have hshown := (mem_visibleVars l py).mp hpy
    rw [← arranged_py h keep] at hpy
    obtain ⟨d, hd, rfl⟩ := List.mem_map.mp hpy
    rw [hshown, visible, hin d hd, Bool.or_eq_true]
    exact .inr (decide_eq_true (arranged_nonneg h hd))
  · unfold visible
    rw [hout py hpy]

theorem arrange_spec (h : l.Fits) (keep : Option DivVar) :
    Rearranged l (l.arrange keep) (l.arranged keep) := by
  obtain ⟨hin, hout⟩ := arrange_get h keep
  have hpys := arranged_py h keep
  have hvars : (l.arrange keep).visibleVars = l.visibleVars := by
    unfold visibleVars
    rw [funext (arrange_visible h keep)]
  exact {
    wndWidth := (store_dim (l.arranged keep) l).1
    wndHeight := (store_dim (l.arranged keep) l).2
    regs := by
      change (l.arrange keep).get .regsDisasm = l.get .regsDisasm
      by_cases hregs : .regsDisasm ∈ l.visibleVars
      · rw [← hpys] at hregs
        obtain ⟨d, hd, hpy⟩ := List.mem_map.mp hregs
        rw [← hpy, hin d hd]
        exact arranged_fixed h hd (by simp [DivLine.canBeMoved, hpy])
      · exact hout _ hregs
    hidden := fun py hpy => hout py fun hmem => by
      have hnonneg := h.get_nonneg hmem
      omega
    visibleVars := hvars
    ys := by
      rw [lines, hvars, ← hpys, List.map_map]
      exact List.map_congr_left fun d hd => (hin d hd).symm
    gaps := by
      unfold getVisibleDivLines
      rw [hvars, ← hpys]
      exact gaps_withHeights 0 _ hin (arranged_spec h keep).1 }

-- ---------------------------------------------------------------------------
-- A layout that is arranged stays
-- ---------------------------------------------------------------------------

theorem pushDown_of_gaps (hchain : (p :: ds).IsChain (Gap 1)) : pushDown p.y ds = ds := by
  induction ds generalizing p with
  | nil => rfl
  | cons d ds ih =>
    obtain ⟨hgap, htl⟩ := List.isChain_cons_cons.mp hchain
    have hy : (if d.canBeMoved ∧ d.y - p.y < 4 then p.y + 4 else d.y) = d.y := by
      refine if_neg ?_
      rintro ⟨hmoved, hlt⟩
      have hrows := hgap (.inr hmoved)
      omega
    simp only [pushDown, hy]
    exact congrArg _ (ih htl)

theorem pullUp_of_gaps (hgaps : Gaps v) : pullUp v = v := by
  unfold Gaps at hgaps
  induction v with
  | nil => rfl
  | cons d ds ih =>
    unfold pullUp
    rw [ih hgaps.tail]
    cases ds with
    | nil => rfl
    | cons next ds =>
      have hy : (if d.canBeMoved ∧ next.y - d.y < 4 then next.y - 4 else d.y) = d.y := by
        refine if_neg ?_
        rintro ⟨hmoved, hlt⟩
        have hrows := (List.isChain_cons_cons.mp hgaps).1 (.inl hmoved)
        omega
      simp only [hy]

theorem ext_get (hwidth : l.wndWidth = l'.wndWidth) (hheight : l.wndHeight = l'.wndHeight)
    (hget : ∀ py, l.get py = l'.get py) : l = l' := by
  have hr := hget .regsDisasm
  have hd := hget .disasmCode
  have hc := hget .codeLog
  cases l
  cases l'
  simp_all [get]

theorem arrange_of_gaps (h : l.Fits) (hgaps : Gaps l.getVisibleDivLines) : l.arrange none = l := by
  have hv : l.arranged none = l.getVisibleDivLines := by
    have hfirst : l.visibleVars = .first :: l.visibleVars.tail :=
      by simp [visibleVars, visible, get]
    have hdown : pushDown 0 l.getVisibleDivLines = l.getVisibleDivLines := by
      unfold getVisibleDivLines at hgaps ⊢
      rw [hfirst] at hgaps ⊢
      exact congrArg _ (pushDown_of_gaps hgaps)
    unfold arranged
    dsimp only
    rw [hdown, pullUp_of_gaps hgaps]
  obtain ⟨hin, hout⟩ := arrange_get h none
  refine ext_get (store_dim (l.arranged none) l).1 (store_dim (l.arranged none) l).2 fun py => ?_
  by_cases hpy : py ∈ l.visibleVars
  · rw [← arranged_py h none] at hpy
    obtain ⟨d, hd, rfl⟩ := List.mem_map.mp hpy
    rw [hin d hd]
    rw [hv] at hd
    exact withHeights_y hd
  · exact hout py hpy

theorem regsRows_bounds (hge : 80 ≤ width) (hle : width ≤ 160) (regs32 : Bool) :
    1 ≤ regsRows width regs32 ∧ regsRows width regs32 ≤ 7 := by
  have hall : ∀ w < 161, 80 ≤ w → ∀ b, 1 ≤ regsRows w b ∧ regsRows w b ≤ 7 := by decide +kernel
  exact hall width (by omega) hge regs32

/-- The script window is between its line and the one before it, has three rows at least, and leaves
as many to the log. -/
theorem codeArea_spec (hgaps : Gaps l.getVisibleDivLines) (hcode : 0 ≤ l.codeLogDivLineY) :
    lineBefore .codeLog l.getVisibleDivLines = some ((l.codeArea.destY0 : Int) - 1) ∧
      l.codeArea.destY0 + 2 ≤ l.codeArea.destY1 ∧
      (l.codeArea.destY1 : Int) + 5 ≤ (l.wndHeight : Int) - 3 := by
  have hcode' : ¬ l.codeLogDivLineY < 0 := by omega
  unfold getVisibleDivLines visibleVars visible Gaps at *
  unfold codeArea
  have hle : ∀ y : Int, 0 ≤ y ↔ ¬ y < 0 := fun y => Int.not_lt.symm
  by_cases hr : l.regsDisasmDivLineY < 0 <;> by_cases hd : l.disasmCodeDivLineY < 0 <;>
    simp [hle, hr, hd, hcode', List.filter, get, withHeights, Gap, DivLine.canBeMoved, lineBefore,
      -Int.not_lt, -not_lt] at hgaps ⊢ <;>
    omega

end Layout

end BugChecker.Wnd
