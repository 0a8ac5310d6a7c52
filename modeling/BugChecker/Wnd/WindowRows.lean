import Mathlib.Order.Bounds.Defs
import BugChecker.Wnd.Cursor

/-!
# The rows of a window

A window gets the rows that it was asked to have, or as many as leave three rows
to all others. Each turn of the loop adds one row, by moving the line below it
or the one above, and it ends when no line has room any more.
-/

namespace BugChecker.Wnd

namespace Layout

-- ---------------------------------------------------------------------------
-- One line is moved
-- ---------------------------------------------------------------------------

section
variable {down : Int} {d p : DivLine} {ds ds' ps : List DivLine} {k turns : Nat}

theorem moveFirst_lt (h : moveFirst down ds = some (k, ds')) : k < ds.length := by
  induction ds generalizing k ds' with
  | nil => exact absurd h (by simp [moveFirst])
  | cons d ds ih =>
    cases ds with
    | nil => exact absurd h (by simp [moveFirst])
    | cons next ds =>
      unfold moveFirst at h
      split at h
      · split at h
        · cases h
          exact Nat.succ_pos _
        · obtain ⟨⟨j, tl⟩, htl, heq⟩ := Option.map_eq_some_iff.mp h
          cases heq
          exact Nat.succ_lt_succ (ih htl)
      · cases h

theorem moveFirst_zero (h : moveFirst down (d :: ds) = some (0, ds')) :
    ds' = { d with y := d.y + down } :: ds := by
  cases ds with
  | nil => exact absurd h (by simp [moveFirst])
  | cons next ds =>
    unfold moveFirst at h
    split at h
    · split at h
      · cases h
        rfl
      · obtain ⟨⟨j, tl⟩, -, heq⟩ := Option.map_eq_some_iff.mp h
        cases heq
    · cases h

theorem moveFirst_succ (hdown : down = 1 ∨ down = -1) (hgaps : (d :: ds).IsChain (Gap down))
    (h : moveFirst down (d :: ds) = some (k + 1, ds')) :
    ∃ tl ds'', ds' = d :: tl ∧ moveFirst down (d :: tl) = some (k, ds'') := by
  induction ds generalizing d k ds' with
  | nil => exact absurd h (by simp [moveFirst])
  | cons next ds ih =>
    obtain ⟨hgap, htl⟩ := List.isChain_cons_cons.mp hgaps
    unfold moveFirst at h
    split at h
    · next hmoved =>
      have hge := hgap (.inl hmoved)
      split at h
      · cases h
      · next hroom =>
        obtain ⟨⟨j, moved⟩, hnext, heq⟩ := Option.map_eq_some_iff.mp h
        cases heq
        cases k with
        | zero =>
          obtain rfl := moveFirst_zero hnext
          refine ⟨_, { d with y := d.y + down } :: { next with y := next.y + down } :: ds, rfl, ?_⟩
          rw [moveFirst, if_pos hmoved]
          exact if_pos (by dsimp only; rcases hdown with rfl | rfl <;> omega)
        | succ k =>
          obtain ⟨tl, ds'', rfl, hagain⟩ := ih htl hnext
          refine ⟨_, (d :: ds''), rfl, ?_⟩
          rw [moveFirst, if_pos hmoved, if_neg hroom, hagain]
          rfl
    · cases h

theorem moveLine_of_some (hdown : down = 1 ∨ down = -1) (hgaps : (p :: d :: ds).IsChain (Gap down))
    (h : moveFirst down (d :: ds) = some (k, ds')) (hk : k < turns) :
    ∃ tl, moveLine down turns (d :: ds) = (true, { d with y := d.y + down } :: tl) := by
  induction k generalizing ds ds' turns with
  | zero =>
    obtain ⟨turns, rfl⟩ := Nat.exists_eq_succ_of_ne_zero (Nat.ne_of_gt hk)
    refine ⟨ds, ?_⟩
    rw [moveLine, h]
    exact congrArg _ (moveFirst_zero h)
  | succ k ih =>
    obtain ⟨turns, rfl⟩ :=
      Nat.exists_eq_succ_of_ne_zero (Nat.ne_of_gt (Nat.lt_of_le_of_lt (Nat.zero_le _) hk))
    have hchain := (moveFirst_spec hdown _ h).2 p hgaps
    obtain ⟨tl, ds'', rfl, hagain⟩ := moveFirst_succ hdown hgaps.tail h
    rw [moveLine, h]
    exact ih hchain hagain (Nat.lt_of_succ_lt_succ hk)

theorem moveLine_of_none (h : moveFirst down ds = none) (turns : Nat) :
    moveLine down turns ds = (false, ds) := by
  cases turns with
  | zero => rfl
  | succ turns => rw [moveLine, h]

end

-- ---------------------------------------------------------------------------
-- The lines up to the next one that is fixed
-- ---------------------------------------------------------------------------

/-- How many lines can be moved before one that cannot, and where that one is. -/
def stop : List DivLine → Option (Nat × Int)
  | [] => none
  | d :: ds => if d.canBeMoved then (stop ds).map fun (n, y) => (n + 1, y) else some (0, d.y)

theorem stop_of_same (h : List.Forall₂ SameLine u v) : stop u = stop v := by
  induction h with
  | nil => rfl
  | cons hd _ ih =>
    rw [stop, stop, hd.canBeMoved, ih]
    split
    · rfl
    · next hfixed =>
      rw [hd.fixed (by rw [hd.canBeMoved]; simpa using hfixed)]

/-- Down to the line where a move ends there are four rows for each line that is passed, or more,
and no more where no line can be moved. -/
theorem stop_rows (hgaps : (d :: ds).IsChain (Gap down)) (h : stop (d :: ds) = some (n, y)) :
    4 * (n : Int) ≤ down * (y - d.y) ∧
      (moveFirst down (d :: ds) = none → down * (y - d.y) = 4 * (n : Int)) := by
  induction ds generalizing d n with
  | nil =>
    unfold stop at h
    split at h
    · cases h
    · cases h
      simp
  | cons next ds ih =>
    obtain ⟨hgap, htl⟩ := List.isChain_cons_cons.mp hgaps
    rw [stop] at h
    rw [moveFirst]
    split at h
    · next hmoved =>
      obtain ⟨⟨m, z⟩, hnext, heq⟩ := Option.map_eq_some_iff.mp h
      cases heq
      obtain ⟨hrest, hjammed⟩ := ih htl hnext
      have hrows := hgap (.inl hmoved)
      constructor
      · rw [Int.mul_sub] at hrest hrows ⊢
        push_cast
        omega
      · intro hjam
        rw [if_pos hmoved] at hjam
        split at hjam
        · cases hjam
        · next hroom =>
          have hrest := hjammed (Option.map_eq_none_iff.mp hjam)
          rw [Int.mul_sub] at hrest hrows hroom ⊢
          push_cast
          omega
    · cases h
      simp

-- ---------------------------------------------------------------------------
-- Rows are added
-- ---------------------------------------------------------------------------

def between : List DivLine → List DivLine → Int
  | p :: _, d :: _ => d.y - p.y
  | _, _ => 0

/-- No line has room for another row of the window. -/
def Jammed (above below : List DivLine) : Prop :=
  moveFirst 1 below = none ∧ moveFirst (-1) above = none

theorem addLine_between (h : Around above below) :
    ((addLine above below).1 = true ∧
        between (addLine above below).2.1 (addLine above below).2.2 = between above below + 1) ∨
      (addLine above below = (false, above, below) ∧ Jammed above below) := by
  obtain @⟨p, d, ds, ps, hbelow, habove⟩ := h
  cases hdown : moveFirst 1 (d :: ds) with
  | some moved =>
    obtain ⟨tl, htl⟩ := moveLine_of_some (.inl rfl) hbelow hdown (moveFirst_lt hdown)
    left
    rw [addLine, htl]
    refine ⟨rfl, ?_⟩
    simp only [between]
    omega
  | none =>
    have hstay := moveLine_of_none hdown (d :: ds).length
    have hchain : (d :: p :: ps).IsChain (Gap (-1)) :=
      List.isChain_cons_cons.mpr ⟨gap_flip.mp (List.isChain_cons_cons.mp hbelow).1, habove⟩
    cases hup : moveFirst (-1) (p :: ps) with
    | some moved =>
      obtain ⟨tl, htl⟩ := moveLine_of_some (.inr rfl) hchain hup (moveFirst_lt hup)
      left
      rw [addLine, hstay]
      simp only [htl, between, true_and]
      omega
    | none =>
      right
      rw [addLine, hstay]
      exact ⟨by simp only [moveLine_of_none hup], hdown, hup⟩

theorem grow_between (turns : Nat) (h : Around above below)
    (hhead : below.head?.map DivLine.height = some height)
    (hle : between above below ≤ height + 1) (hturns : height + 1 ≤ turns + between above below) :
    between (grow turns above below).1 (grow turns above below).2 ≤ height + 1 ∧
      (between (grow turns above below).1 (grow turns above below).2 = height + 1 ∨
        Jammed (grow turns above below).1 (grow turns above below).2) := by
  induction turns generalizing above below with
  | zero => exact ⟨hle, .inl (Int.le_antisymm hle (by simpa [grow] using hturns))⟩
  | succ turns ih =>
    obtain @⟨p, d, ds, ps, hbelow, habove⟩ := h
    have haround : Around (p :: ps) (d :: ds) := .intro hbelow habove
    have hd : d.height = height := Option.some.inj hhead
    unfold grow
    dsimp only
    rw [hd]
    split
    · next hlt =>
      rcases addLine_between haround with ⟨hdone, hrow⟩ | ⟨hstay, hjam⟩
      · obtain ⟨haround', -, hsame⟩ := addLine_spec haround
        generalize addLine (p :: ps) (d :: ds) = added at hdone hrow haround' hsame
        obtain ⟨done, above', below'⟩ := added
        dsimp only at hdone hrow haround' hsame
        subst hdone
        dsimp only
        have hhead' : below'.head?.map DivLine.height = some height := by
          cases hsame with
          | cons hd' _ => exact congrArg some (hd'.height.trans hd)
        have hrows : between (p :: ps) (d :: ds) = d.y - p.y := rfl
        exact ih haround' hhead' (by omega) (by push_cast at hturns; omega)
      · rw [hstay]
        exact ⟨hle, .inr hjam⟩
    · next hge =>
      refine ⟨hle, .inl ?_⟩
      simp only [between] at hle ⊢
      omega

theorem grow_rows (h : Around (p :: ps) (d :: ds)) (hle : d.y - p.y ≤ d.height + 1)
    (hge : 1 ≤ d.y - p.y) (hbelow : stop (d :: ds) = some (n, y))
      (habove : stop (p :: ps) = some (n', y')) :
    between (grow d.height.toNat (p :: ps) (d :: ds)).1
      (grow d.height.toNat (p :: ps) (d :: ds)).2 =
      min (d.height + 1) (y - y' - 4 * ((n : Int) + n')) := by
  have hturns : d.height + 1 ≤ d.height.toNat + between (p :: ps) (d :: ds) := by
    simp only [between]
    omega
  obtain ⟨hgrown, hsame, hsame'⟩ := grow_spec d.height.toNat h
  obtain ⟨hle', hend⟩ := grow_between d.height.toNat h rfl hle hturns
  rw [← stop_of_same hsame] at habove
  rw [← stop_of_same hsame'] at hbelow
  generalize (grow d.height.toNat (p :: ps) (d :: ds)).1 = a at *
  generalize (grow d.height.toNat (p :: ps) (d :: ds)).2 = b at *
  obtain @⟨q, e, es, qs, hchain, hchain'⟩ := hgrown
  obtain ⟨hmin, hmax⟩ := stop_rows hchain.tail hbelow
  obtain ⟨hmin', hmax'⟩ := stop_rows hchain' habove
  simp only [between] at hle' hend ⊢
  rcases hend with hend | ⟨hjam, hjam'⟩
  · omega
  · have hmax := hmax hjam
    have hmax' := hmax' hjam'
    omega

-- ---------------------------------------------------------------------------
-- The window in the list of lines
-- ---------------------------------------------------------------------------

def windowAt (py : DivVar) : List DivLine → Option (DivLine × DivLine)
  | p :: d :: ds => if d.py = py then some (p, d) else windowAt py (d :: ds)
  | _ => none

theorem lineBefore_eq (py : DivVar) (v : List DivLine) :
    lineBefore py v = (windowAt py v).map (·.1.y) := by
  induction v with
  | nil => rfl
  | cons p ds ih =>
    cases ds with
    | nil => rfl
    | cons d ds =>
      rw [lineBefore, windowAt]
      split
      · rfl
      · exact ih

theorem windowAt_split (hbefore : ∀ x ∈ pre ++ [p], x.py ≠ py) (hpy : d.py = py) :
    windowAt py (pre ++ p :: d :: ds) = some (p, d) := by
  induction pre with
  | nil => exact if_pos hpy
  | cons x pre ih =>
    have hrest := ih fun y hy => hbefore y (List.mem_cons_of_mem x hy)
    cases pre with
    | nil => rwa [List.cons_append, List.nil_append, windowAt, if_neg (hbefore p (by simp))]
    | cons y pre =>
      rwa [List.cons_append, List.cons_append, windowAt, if_neg (hbefore y (by simp))]

theorem keepHeight_split (hbefore : ∀ x ∈ p :: ps, x.py ≠ keep) (hpy : d.py = keep)
    (hmoved : d.canBeMoved = true) :
    keepHeight keep ((p :: ps).reverse ++ d :: ds) =
      (grow d.height.toNat (p :: ps) (d :: ds)).1.reverse ++
        (grow d.height.toNat (p :: ps) (d :: ds)).2 := by
  have hindex : ((p :: ps).reverse ++ d :: ds).findIdx? (fun d => d.canBeMoved && d.py == keep) =
      some (p :: ps).reverse.length := by
    have hnone : (p :: ps).reverse.findIdx? (fun d => d.canBeMoved && d.py == keep) = none := by
      rw [List.findIdx?_eq_none_iff]
      intro x hx
      have := hbefore x (List.mem_reverse.mp hx)
      simp [this]
    rw [List.findIdx?_append, hnone, List.findIdx?_cons]
    simp [hpy, hmoved]
  unfold keepHeight
  rw [hindex]
  dsimp only
  rw [if_pos (by simp), List.drop_left, List.take_left, List.reverse_reverse]
  rfl

/-- The lines between a window and the fixed lines around it, from their variables. -/
def stopVars (l : Layout) : List DivVar → Option (Nat × Int)
  | [] => none
  | py :: pys =>
    if py = .disasmCode ∨ py = .codeLog then (stopVars l pys).map fun (n, y) => (n + 1, y)
    else some (0, l.get py)

theorem stop_eq_stopVars {l : Layout} (h : ∀ d ∈ v, d.canBeMoved = false → d.y = l.get d.py) :
    stop v = stopVars l (v.map (·.py)) := by
  induction v with
  | nil => rfl
  | cons d ds ih =>
    rw [stop, List.map_cons, stopVars, ih fun x hx => h x (List.mem_cons_of_mem d hx)]
    have hd := h d List.mem_cons_self
    cases hmoved : d.canBeMoved with
    | true =>
      have hpy : d.py = .disasmCode ∨ d.py = .codeLog := by
        simpa [DivLine.canBeMoved] using hmoved
      rw [if_pos hpy]
      rfl
    | false =>
      have hpy : ¬ (d.py = .disasmCode ∨ d.py = .codeLog) := by
        simpa [DivLine.canBeMoved] using hmoved
      rw [if_neg hpy, ← hd hmoved]
      rfl

theorem stopVars_visible (l : Layout) (hpy : py = .disasmCode ∨ py = .codeLog)
    (hvisible : 0 ≤ l.get py) :
    ∃ n n', stopVars l (l.visibleVars.dropWhile (· ≠ py)) = some (n, (l.wndHeight : Int) - 3) ∧
      stopVars l (l.visibleVars.takeWhile (· ≠ py)).reverse = some (n', l.top) ∧
      n + n' = l.movables := by
  unfold visibleVars visible top movables
  rcases hpy with rfl | rfl <;>
    by_cases hr : l.regsDisasmDivLineY ≥ 0 <;> by_cases hd : l.disasmCodeDivLineY ≥ 0 <;>
    by_cases hc : l.codeLogDivLineY ≥ 0 <;> simp only [get] at hvisible <;>
    simp [hr, hd, hc, get, stopVars] <;> omega

-- ---------------------------------------------------------------------------
-- WD and WS
-- ---------------------------------------------------------------------------

def rows (l : Layout) (py : DivVar) : Int :=
  match lineBefore py l.getVisibleDivLines with
  | some prev => l.get py - prev - 1
  | none => 0

def maxRows (l : Layout) : Int := (l.wndHeight : Int) - 3 - l.top - 4 * l.movables - 1

/-- `WD` and `WS` with a number of rows, for the window above the line. -/
def resized (py : DivVar) (newValue : Nat) (l : Layout) : Layout :=
  let l := if l.get py < 0 then (l.toggle py).arrange none else l
  (l.withSize py newValue).arrange (some py)

variable {l l' l'' : Layout} {py : DivVar} {newValue : Nat}

theorem rows_le (hgaps : Gaps l.getVisibleDivLines) (hpy : py = .disasmCode ∨ py = .codeLog)
    (hvisible : 0 ≤ l.get py) : l.rows py ≤ l.maxRows := by
  unfold getVisibleDivLines visibleVars visible Gaps at hgaps
  unfold rows maxRows top movables getVisibleDivLines visibleVars visible
  rcases hpy with rfl | rfl <;>
    by_cases hr : l.regsDisasmDivLineY ≥ 0 <;> by_cases hd : l.disasmCodeDivLineY ≥ 0 <;>
    by_cases hc : l.codeLogDivLineY ≥ 0 <;> simp only [get] at hvisible <;>
    simp [hr, hd, hc, List.filter, get, withHeights, Gap, DivLine.canBeMoved,
      lineBefore] at hgaps ⊢ <;>
    omega

theorem windowAt_withHeights (hq : q ≠ py) (hmem : py ∈ pys) :
    ∃ q' ∈ q :: pys, q' ≠ py ∧ ∀ (l : Layout) (back : Int), ∃ height,
      windowAt py (l.withHeights back (q :: pys)) =
        some (⟨q', l.get q', height⟩, ⟨py, l.get py, max 0 (l.get py - l.get q' - 1)⟩) := by
  induction pys generalizing q with
  | nil => cases hmem
  | cons q2 pys ih =>
    by_cases hq2 : q2 = py
    · subst hq2
      exact ⟨q, List.mem_cons_self, hq, fun l back => ⟨_, if_pos rfl⟩⟩
    · rcases List.mem_cons.mp hmem with rfl | hmem
      · exact absurd rfl hq2
      · obtain ⟨q', hq', hne, hall⟩ := ih hq2 hmem
        refine ⟨q', List.mem_cons_of_mem q hq', hne, fun l back => ?_⟩
        obtain ⟨height, hat⟩ := hall l (l.get q)
        exact ⟨height, (if_neg hq2).trans hat⟩

theorem windowAt_visible (hpy : py = .disasmCode ∨ py = .codeLog) (hvisible : 0 ≤ l.get py) :
    ∃ q, q ≠ py ∧ ∀ l' : Layout, l'.visibleVars = l.visibleVars → ∃ height,
      windowAt py l'.getVisibleDivLines =
        some (⟨q, l'.get q, height⟩, ⟨py, l'.get py, max 0 (l'.get py - l'.get q - 1)⟩) := by
  obtain ⟨pys, hpys⟩ : ∃ pys, l.visibleVars = .first :: pys :=
    ⟨l.visibleVars.tail, by simp [visibleVars, visible, get]⟩
  have hfirst : DivVar.first ≠ py := by rcases hpy with rfl | rfl <;> decide
  have hmem : py ∈ pys := by
    have hmem : py ∈ l.visibleVars := by
      rw [mem_visibleVars]
      simp [visible, hvisible]
    rw [hpys] at hmem
    exact (List.mem_cons.mp hmem).resolve_left (Ne.symm hfirst)
  obtain ⟨q, -, hq, hall⟩ := windowAt_withHeights hfirst hmem
  refine ⟨q, hq, fun l' hvars => ?_⟩
  rw [getVisibleDivLines, hvars, hpys]
  exact hall l' 0

/-- A window does not get higher when the lines are pushed down, unless it had less than three rows.
-/
theorem pushDown_windowAt (h : windowAt py v = some (p, d)) (prev : Int) :
    ∃ p' d', windowAt py (pushDown prev v) = some (p', d') ∧ d'.height = d.height ∧
      d'.y - p'.y ≤ max 4 (d.y - p.y) := by
  induction v generalizing prev with
  | nil => cases h
  | cons x ds ih =>
    cases ds with
    | nil => cases h
    | cons y ds =>
      unfold windowAt at h
      split at h
      · next hpy =>
        cases h
        refine ⟨_, _, if_pos hpy, rfl, ?_⟩
        dsimp only
        split_ifs <;> omega
      · next hpy =>
        have hrest := ih h (if x.canBeMoved ∧ x.y - prev < 4 then prev + 4 else x.y)
        rwa [pushDown, pushDown, windowAt, if_neg hpy]

theorem pullUp_cons (d : DivLine) (ds : List DivLine) :
    ∃ y, y ≤ d.y ∧ pullUp (d :: ds) = { d with y := y } :: pullUp ds := by
  rw [pullUp]
  cases h : pullUp ds with
  | nil => exact ⟨d.y, Int.le_refl _, rfl⟩
  | cons next ds =>
    refine ⟨_, ?_, rfl⟩
    split <;> omega

theorem pullUp_windowAt (h : windowAt py v = some (p, d)) :
    ∃ p' d', windowAt py (pullUp v) = some (p', d') ∧ d'.height = d.height ∧
      d'.y - p'.y ≤ max 4 (d.y - p.y) := by
  induction v with
  | nil => cases h
  | cons x ds ih =>
    cases ds with
    | nil => cases h
    | cons y ds =>
      unfold windowAt at h
      obtain ⟨z, hz, hpull⟩ := pullUp_cons y ds
      have hcons : pullUp (x :: y :: ds) =
          { x with y := if x.canBeMoved ∧ z - x.y < 4 then z - 4 else x.y } ::
            { y with y := z } :: pullUp ds := by
        rw [pullUp, hpull]
      split at h
      · next hpy =>
        cases h
        rw [hcons]
        refine ⟨_, _, if_pos hpy, rfl, ?_⟩
        dsimp only
        split_ifs <;> omega
      · next hpy =>
        have hrest := ih h
        rw [hpull] at hrest
        rwa [hcons, windowAt, if_neg hpy]

theorem withSize_windowAt (h : l.Fits) (hpy : py = .disasmCode ∨ py = .codeLog)
    (hvisible : 0 ≤ l.get py) (hnew : 3 ≤ newValue) :
    ∃ p d, windowAt py (pullUp (pushDown 0 (l.withSize py newValue).getVisibleDivLines)) =
      some (p, d) ∧
      d.height = newValue ∧ d.y - p.y ≤ newValue + 1 := by
  obtain ⟨q, hq, hwindow⟩ := windowAt_visible hpy hvisible
  obtain ⟨height, hat⟩ := hwindow l rfl
  have hset : l.withSize py newValue = l.set py (l.get q + newValue + 1) := by
    rw [withSize, lineBefore_eq, hat]
    rfl
  obtain ⟨height', hat'⟩ := hwindow _ (withSize_visibleVars h hpy hvisible newValue)
  have hends : py = .first ∨ py = .last → l.get q + newValue + 1 = l.get py := by
    rintro (rfl | rfl) <;> simp at hpy
  rw [hset, get_set l py q _ hends, get_set l py py _ hends, if_neg hq, if_pos rfl] at hat'
  obtain ⟨p, d, hpush, hheight, hgap⟩ := pushDown_windowAt hat' 0
  obtain ⟨p', d', hpull, hheight', hgap'⟩ := pullUp_windowAt hpush
  rw [← hset] at hpull
  refine ⟨p', d', hpull, ?_, ?_⟩
  · rw [hheight', hheight]
    dsimp only
    omega
  · dsimp only at hgap
    omega

/-- The fixed lines and the windows that are shown are those of a layout. -/
structure Alike (l l' : Layout) : Prop where
  wndHeight : l'.wndHeight = l.wndHeight
  regs : l'.regsDisasmDivLineY = l.regsDisasmDivLineY
  visibleVars : l'.visibleVars = l.visibleVars

theorem Alike.top (h : Alike l l') : l'.top = l.top := by rw [Layout.top, Layout.top, h.regs]

theorem Alike.movables (h : Alike l l') : l'.movables = l.movables := by
  have hvisible (py : DivVar) (hlast : py ≠ .last) : (l'.get py ≥ 0) = (l.get py ≥ 0) := by
    have hmem : py ∈ l'.visibleVars ↔ py ∈ l.visibleVars := by rw [h.visibleVars]
    simpa [mem_visibleVars, visible, hlast] using hmem
  have hd := hvisible .disasmCode (by decide)
  have hc := hvisible .codeLog (by decide)
  simp only [get] at hd hc
  simp only [Layout.movables, hd, hc]

theorem Alike.maxRows (h : Alike l l') : l'.maxRows = l.maxRows := by
  rw [Layout.maxRows, Layout.maxRows, h.top, h.movables, h.wndHeight]

theorem Alike.fits (h : Alike l l') (hfits : l.Fits) : l'.Fits := by
  unfold Fits at *
  rwa [h.top, h.movables, h.wndHeight]

theorem lineBefore_congr (hpys : u.map (·.py) = v.map (·.py)) (hys : ys u = ys v) (py : DivVar) :
    lineBefore py u = lineBefore py v := by
  induction u generalizing v with
  | nil =>
    cases v with
    | nil => rfl
    | cons e v => cases hys
  | cons d u ih =>
    cases v with
    | nil => cases hys
    | cons e v =>
      obtain ⟨-, hpys⟩ := List.cons.inj hpys
      obtain ⟨hy, hys⟩ := List.cons.inj hys
      have hrest := ih hpys hys
      cases u with
      | nil =>
        cases v with
        | nil => rfl
        | cons e' v => cases hys
      | cons d' u =>
        cases v with
        | nil => cases hys
        | cons e' v =>
          obtain ⟨hpy, -⟩ := List.cons.inj hpys
          rw [lineBefore, lineBefore, hrest, show d'.py = e'.py from hpy]
          exact congrArg (fun y => if e'.py = py then some y else lineBefore py (e' :: v)) hy

theorem windowAt_some (h : windowAt py v = some (p, d)) :
    d.py = py ∧ ∃ pre ds, v = pre ++ p :: d :: ds := by
  induction v with
  | nil => cases h
  | cons x ds ih =>
    cases ds with
    | nil => cases h
    | cons y ds =>
      unfold windowAt at h
      split at h
      · next hpy =>
        cases h
        exact ⟨hpy, [], ds, rfl⟩
      · obtain ⟨hpy, pre, tl, heq⟩ := ih h
        exact ⟨hpy, x :: pre, tl, by rw [heq, List.cons_append]⟩

theorem arrange_rows (h : l.Fits) (hpy : py = .disasmCode ∨ py = .codeLog)
    (hvisible : 0 ≤ l.get py)
    (hat : windowAt py (pullUp (pushDown 0 l.getVisibleDivLines)) = some (p, d))
    (hle : d.y - p.y ≤ d.height + 1) :
    (l.arrange (some py)).rows py = min d.height l.maxRows := by
  obtain ⟨hd, pre, ds, hv⟩ := windowAt_some hat
  have hvars : (l.arranged none).map (·.py) = l.visibleVars := arranged_py h none
  have hfixed : ∀ x ∈ l.arranged none, x.canBeMoved = false → x.y = l.get x.py :=
    fun x hx => arranged_fixed h hx
  rw [arranged] at hvars hfixed
  have hgaps := gaps_of_fits h
  rw [hv] at hgaps hvars hfixed
  have hsplit : pre ++ p :: d :: ds = (p :: pre.reverse).reverse ++ d :: ds := by simp
  have hbefore : ∀ x ∈ p :: pre.reverse, x.py ≠ py := by
    intro x hx heq
    have hnodup := visibleVars_nodup l
    rw [← hvars, hsplit, List.map_append, List.nodup_append] at hnodup
    exact hnodup.2.2 x.py (List.mem_map_of_mem (List.mem_reverse.mpr hx)) d.py
      (List.mem_map_of_mem List.mem_cons_self) (heq.trans hd.symm)
  have hmoved : d.canBeMoved = true := by
    rcases hpy with rfl | rfl <;> simp [DivLine.canBeMoved, hd]
  have haround : Around (p :: pre.reverse) (d :: ds) := around_iff.mpr (hsplit ▸ hgaps)
  have hge : 1 ≤ d.y - p.y := by
    cases haround with
    | intro hbelow _ =>
      have hgap := (List.isChain_cons_cons.mp hbelow).1 (.inr hmoved)
      omega
  -- the lines that can be moved, above and below
  obtain ⟨n, n', hdown, hup, hcount⟩ := stopVars_visible l hpy hvisible
  have hbefore' : ∀ q ∈ ((p :: pre.reverse).reverse).map (·.py), (decide (q ≠ py)) = true := by
    intro q hq
    obtain ⟨x, hx, rfl⟩ := List.mem_map.mp hq
    exact decide_eq_true (hbefore x (List.mem_reverse.mp hx))
  rw [← hvars, hsplit, List.map_append, List.dropWhile_append_of_pos hbefore', List.map_cons,
    List.dropWhile_cons_of_neg (by simp [hd]), ← List.map_cons,
    ← stop_eq_stopVars fun x hx => hfixed x (by rw [hsplit]; exact List.mem_append_right _ hx)]
      at hdown
  rw [← hvars, hsplit, List.map_append, List.takeWhile_append_of_pos hbefore', List.map_cons,
    List.takeWhile_cons_of_neg (by simp [hd]), List.append_nil, ← List.map_reverse,
    List.reverse_reverse, ← stop_eq_stopVars fun x hx =>
      hfixed x (by rw [hsplit]; exact List.mem_append_left _ (List.mem_reverse.mpr hx))] at hup
  have hrows := grow_rows haround hle hge hdown hup
  obtain ⟨hgrown, hsame, hsame'⟩ := grow_spec d.height.toNat haround
  have harranged : l.arranged (some py) =
      (grow d.height.toNat (p :: pre.reverse) (d :: ds)).1.reverse ++
        (grow d.height.toNat (p :: pre.reverse) (d :: ds)).2 := by
    rw [arranged, hv, hsplit, keepHeight_split hbefore hd hmoved]
  generalize (grow d.height.toNat (p :: pre.reverse) (d :: ds)).1 = above at *
  generalize (grow d.height.toNat (p :: pre.reverse) (d :: ds)).2 = below at *
  obtain @⟨q, e, es, qs, -, -⟩ := hgrown
  have hpys : (q :: qs).map (·.py) = (p :: pre.reverse).map (·.py) := sameLines_py hsame
  have he : e.py = py := by
    cases hsame' with
    | cons he _ => exact he.py.trans hd
  have hnotq : ∀ x ∈ qs.reverse ++ [q], x.py ≠ py := by
    intro x hx
    have hx' : x.py ∈ (p :: pre.reverse).map (·.py) := by
      rw [← hpys]
      exact List.mem_map_of_mem (by simpa [or_comm] using hx)
    obtain ⟨z, hz, heq⟩ := List.mem_map.mp hx'
    exact heq ▸ hbefore z hz
  have hline : lineBefore py (l.arrange (some py)).getVisibleDivLines = some q.y := by
    have harr := arrange_spec h (some py)
    rw [lineBefore_congr (v := l.arranged (some py)) ?_ ?_ py, lineBefore_eq, harranged,
      List.reverse_cons, List.append_assoc, List.singleton_append, windowAt_split hnotq he]
    · rfl
    · rw [getVisibleDivLines_py, harr.visibleVars, arranged_py h]
    · rw [ys_getVisibleDivLines, harr.ys]
  have hget : (l.arrange (some py)).get py = e.y := by
    rw [← he]
    refine (arrange_get h (some e.py)).1 e ?_
    rw [he, harranged]
    simp
  rw [rows, hline, hget]
  change e.y - q.y - 1 = _
  simp only [between] at hrows
  unfold Layout.maxRows
  omega

-- ---------------------------------------------------------------------------
-- The loops come to an end
-- ---------------------------------------------------------------------------

/-- The loop of `addLine` in one direction, for as many turns as it takes. -/
def moveLine? (down : Int) : Nat → List DivLine → Option (Bool × List DivLine)
  | 0, _ => none
  | fuel + 1, ds =>
    match moveFirst down ds with
    | none => some (false, ds)
    | some (0, ds) => some (true, ds)
    | some (_ + 1, ds) => moveLine? down fuel ds

def addLine? (fuel : Nat) (above below : List DivLine) :
    Option (Bool × List DivLine × List DivLine) :=
  match moveLine? 1 fuel below with
  | none => none
  | some (true, below) => some (true, above, below)
  | some (false, below) =>
    (moveLine? (-1) fuel above).map fun (done, above) => (done, above, below)

def grow? (fuel : Nat) : Nat → List DivLine → List DivLine → Option (List DivLine × List DivLine)
  | 0, _, _ => none
  | turns + 1, above, below =>
    match above, below with
    | prev :: _, d :: _ =>
      if d.y - prev.y < d.height + 1 then
        match addLine? fuel above below with
        | none => none
        | some (true, above, below) => grow? fuel turns above below
        | some (false, above, below) => some (above, below)
      else some (above, below)
    | _, _ => some (above, below)

theorem moveLine?_eq (hdown : down = 1 ∨ down = -1) (hgaps : (p :: ds).IsChain (Gap down))
    (hfuel : ds.length < fuel) : moveLine? down fuel ds = some (moveLine down ds.length ds) := by
  cases hfirst : moveFirst down ds with
  | none =>
    obtain ⟨fuel, rfl⟩ :=
      Nat.exists_eq_succ_of_ne_zero (Nat.ne_of_gt (Nat.lt_of_le_of_lt (Nat.zero_le _) hfuel))
    rw [moveLine?, hfirst, moveLine_of_none hfirst]
  | some moved =>
    obtain ⟨k, ds'⟩ := moved
    have hk := moveFirst_lt hfirst
    generalize ds.length = n at hk hfuel
    cases ds with
    | nil => exact absurd hfirst (by simp [moveFirst])
    | cons d ds =>
      induction k generalizing ds ds' fuel n with
      | zero =>
        obtain ⟨fuel, rfl⟩ :=
          Nat.exists_eq_succ_of_ne_zero (Nat.ne_of_gt (Nat.lt_of_le_of_lt (Nat.zero_le _) hfuel))
        obtain ⟨n, rfl⟩ := Nat.exists_eq_succ_of_ne_zero (Nat.ne_of_gt hk)
        rw [moveLine?, moveLine, hfirst]
      | succ k ih =>
        obtain ⟨fuel, rfl⟩ :=
          Nat.exists_eq_succ_of_ne_zero (Nat.ne_of_gt (Nat.lt_of_le_of_lt (Nat.zero_le _) hfuel))
        obtain ⟨n, rfl⟩ :=
          Nat.exists_eq_succ_of_ne_zero (Nat.ne_of_gt (Nat.lt_of_le_of_lt (Nat.zero_le _) hk))
        have hchain := (moveFirst_spec hdown _ hfirst).2 p hgaps
        obtain ⟨tl, ds'', rfl, hagain⟩ := moveFirst_succ hdown hgaps.tail hfirst
        rw [moveLine?, moveLine, hfirst]
        exact ih ds'' n (by omega) (by omega) tl hchain hagain

theorem addLine?_eq (h : Around above below) (habove : above.length < fuel)
    (hbelow : below.length < fuel) : addLine? fuel above below = some (addLine above below) := by
  obtain @⟨p, d, ds, ps, hdown, hup⟩ := h
  rw [addLine?, addLine, moveLine?_eq (.inl rfl) hdown hbelow]
  obtain ⟨hsame, hchain⟩ := moveLine_spec (.inl rfl) (d :: ds).length (d :: ds)
  generalize moveLine 1 (d :: ds).length (d :: ds) = moved at hsame hchain ⊢
  obtain ⟨done, below'⟩ := moved
  cases done with
  | true => rfl
  | false =>
    cases hsame with
    | @cons d' _ ds' _ hd htl =>
      have hgap := (List.isChain_cons_cons.mp (hchain p hdown)).1
      have hchain' : (d' :: p :: ps).IsChain (Gap (-1)) :=
        List.isChain_cons_cons.mpr ⟨gap_flip.mp hgap, hup⟩
      dsimp only
      rw [moveLine?_eq (.inr rfl) hchain' habove]
      rfl

theorem grow?_eq (turns : Nat) (h : Around above below) (habove : above.length < fuel)
    (hbelow : below.length < fuel) (hhead : below.head?.map DivLine.height = some height)
    (hturns : height + 1 ≤ turns + between above below) (hfuel : turns < n) :
    grow? fuel n above below = some (grow turns above below) := by
  induction turns generalizing above below n with
  | zero =>
    obtain ⟨n, rfl⟩ := Nat.exists_eq_succ_of_ne_zero (Nat.ne_of_gt hfuel)
    obtain @⟨p, d, ds, ps, -, -⟩ := h
    have hd : d.height = height := Option.some.inj hhead
    rw [grow?, grow]
    refine if_neg ?_
    simp only [between] at hturns
    omega
  | succ turns ih =>
    obtain ⟨n, rfl⟩ :=
      Nat.exists_eq_succ_of_ne_zero (Nat.ne_of_gt (Nat.lt_of_le_of_lt (Nat.zero_le _) hfuel))
    obtain @⟨p, d, ds, ps, hdown, hup⟩ := h
    have haround : Around (p :: ps) (d :: ds) := .intro hdown hup
    have hd : d.height = height := Option.some.inj hhead
    rw [grow?, grow, addLine?_eq haround habove hbelow]
    split
    · rcases addLine_between haround with ⟨hdone, hrow⟩ | ⟨hstay, -⟩
      · obtain ⟨haround', hsame, hsame'⟩ := addLine_spec haround
        generalize addLine (p :: ps) (d :: ds) = added at hdone hrow haround' hsame hsame' ⊢
        obtain ⟨done, above', below'⟩ := added
        dsimp only at hdone hrow haround' hsame hsame'
        subst hdone
        have hhead' : below'.head?.map DivLine.height = some height := by
          cases hsame' with
          | cons hd' _ => exact congrArg some (hd'.height.trans hd)
        exact ih haround' (hsame.length_eq ▸ habove) (hsame'.length_eq ▸ hbelow) hhead'
          (by push_cast at hturns; omega) (Nat.lt_of_succ_lt_succ hfuel)
      · rw [hstay]
    · rfl

/-- `CheckDivLineYs` with the loops as they are. -/
def arranged? (fuel : Nat) (l : Layout) (keep : Option DivVar) : Option (List DivLine) :=
  let v := pullUp (pushDown 0 l.getVisibleDivLines)
  match keep with
  | none => some v
  | some keep =>
    match v.findIdx? fun d => d.canBeMoved && d.py == keep with
    | some index =>
      if index > 0 then
        (grow? fuel fuel (v.take index).reverse (v.drop index)).map fun (above, below) =>
          above.reverse ++ below
      else some v
    | none => some v

theorem arranged?_eq (h : l.Fits) (keep : Option DivVar) :
    ∃ n, ∀ fuel, n ≤ fuel → l.arranged? fuel keep = some (l.arranged keep) := by
  have hgaps := gaps_of_fits h
  unfold arranged? arranged
  generalize pullUp (pushDown 0 l.getVisibleDivLines) = v at hgaps
  cases keep with
  | none => exact ⟨0, fun fuel _ => rfl⟩
  | some keep =>
    simp only [keepHeight]
    cases hindex : v.findIdx? fun d => d.canBeMoved && d.py == keep with
    | none => exact ⟨0, fun fuel _ => rfl⟩
    | some index =>
      by_cases hpos : index > 0
      · simp only [if_pos hpos]
        obtain ⟨hlt, hmoved, -⟩ := List.findIdx?_eq_some_iff_getElem.mp hindex
        obtain ⟨p, ps, d, ds, habove, hbelow, hsplit⟩ := exists_around hpos hlt
        have haround : Around (p :: ps) (d :: ds) := around_iff.mpr (hsplit ▸ hgaps)
        have hd : v[index] = d := by
          rw [List.drop_eq_getElem_cons hlt] at hbelow
          exact (List.cons.inj hbelow).1
        rw [hd, Bool.and_eq_true] at hmoved
        have hgap : 4 ≤ d.y - p.y := by
          cases haround with
          | intro hchain _ =>
            have := (List.isChain_cons_cons.mp hchain).1 (.inr hmoved.1)
            omega
        have hlen : v.length = (p :: ps).length + (d :: ds).length := by
          rw [hsplit, List.length_append, List.length_reverse]
        refine ⟨v.length + d.height.toNat + 1, fun fuel hfuel => ?_⟩
        rw [habove, hbelow, grow?_eq d.height.toNat haround (by omega) (by omega) rfl
          (by simp only [between]; omega) (by omega)]
        rfl
      · exact ⟨0, fun fuel _ => by simp only [if_neg hpos]⟩

-- ---------------------------------------------------------------------------
-- Sizes are honoured
-- ---------------------------------------------------------------------------

def shown (py : DivVar) (l : Layout) : Layout := if l.get py < 0 then l.toggle py else l

theorem shown_get (hpy : py = .disasmCode ∨ py = .codeLog) : 0 ≤ (l.shown py).get py := by
  unfold shown
  split
  · rw [toggle, get_set l py py _ (by rcases hpy with rfl | rfl <;> simp), if_pos rfl]
    omega
  · omega

theorem arrange_alike (h : l.Fits) (keep : Option DivVar) : Alike l (l.arrange keep) :=
  have harr := arrange_spec h keep
  ⟨harr.wndHeight, harr.regs, harr.visibleVars⟩

theorem Alike.refl (l : Layout) : Alike l l := ⟨rfl, rfl, rfl⟩

theorem Alike.trans (h : Alike l l') (h' : Alike l' l'') : Alike l l'' :=
  ⟨h'.wndHeight.trans h.wndHeight, h'.regs.trans h.regs, h'.visibleVars.trans h.visibleVars⟩

theorem Alike.get_nonneg (h : Alike l l') (hpy : py = .disasmCode ∨ py = .codeLog)
    (hvisible : 0 ≤ l.get py) : 0 ≤ l'.get py := by
  have hmem : py ∈ l'.visibleVars := by
    rw [h.visibleVars, mem_visibleVars]
    simp [visible, hvisible]
  rw [mem_visibleVars] at hmem
  rcases hpy with rfl | rfl <;> simpa [visible] using hmem

theorem withSize_alike (h : l.Fits) (hpy : py = .disasmCode ∨ py = .codeLog)
    (hvisible : 0 ≤ l.get py) (newValue : Nat) : Alike l (l.withSize py newValue) := by
  have hvars := withSize_visibleVars h hpy hvisible newValue
  unfold withSize at hvars ⊢
  split at hvars
  · exact ⟨(set_dim l py _).2, by rcases hpy with rfl | rfl <;> rfl, hvars⟩
  · exact .refl l

theorem withSize_rows (h : l.Fits) (hpy : py = .disasmCode ∨ py = .codeLog)
    (hvisible : 0 ≤ l.get py) (hnew : 3 ≤ newValue) :
    ((l.withSize py newValue).arrange (some py)).rows py = min (newValue : Int) l.maxRows := by
  have halike := withSize_alike h hpy hvisible newValue
  obtain ⟨p, d, hat, hheight, hgap⟩ := withSize_windowAt h hpy hvisible hnew
  rw [arrange_rows (halike.fits h) hpy (halike.get_nonneg hpy hvisible) hat (hheight ▸ hgap),
    hheight, halike.maxRows]

theorem resized_rows (h : (l.shown py).Fits) (hpy : py = .disasmCode ∨ py = .codeLog)
    (hnew : 3 ≤ newValue) : (l.resized py newValue).rows py =
      min (newValue : Int) (l.shown py).maxRows := by
  have hvisible := shown_get (l := l) hpy
  unfold shown at h hvisible ⊢
  unfold resized
  split at h
  · have halike := arrange_alike h none
    rw [if_pos ‹_›] at hvisible ⊢
    rw [withSize_rows (halike.fits h) hpy (halike.get_nonneg hpy hvisible) hnew, halike.maxRows,
      if_pos ‹_›]
  · rw [if_neg ‹_›] at hvisible ⊢
    rw [withSize_rows h hpy hvisible hnew, if_neg ‹_›]

theorem maxRows_greatest (h : l.Fits) (hpy : py = .disasmCode ∨ py = .codeLog)
    (hvisible : 0 ≤ l.get py) :
    IsGreatest {r | ∃ l', Alike l l' ∧ Gaps l'.getVisibleDivLines ∧ l'.rows py = r} l.maxRows := by
  constructor
  · have hmovables : 1 ≤ l.movables := by
      unfold movables
      rcases hpy with rfl | rfl <;> simp only [get] at hvisible <;> split_ifs <;> omega
    have hmax : 3 ≤ l.maxRows := by
      unfold Fits at h
      unfold maxRows
      rw [if_neg (by omega)] at h
      push_cast at h
      omega
    have halike := withSize_alike h hpy hvisible l.maxRows.toNat
    refine ⟨(l.withSize py l.maxRows.toNat).arrange (some py),
      halike.trans (arrange_alike (halike.fits h) _), (arrange_spec (halike.fits h) _).gaps, ?_⟩
    rw [withSize_rows h hpy hvisible (by omega)]
    omega
  · rintro r ⟨l', halike, hgaps, rfl⟩
    rw [← halike.maxRows]
    exact rows_le hgaps hpy (halike.get_nonneg hpy hvisible)

theorem lines_pairwise (h : l.Fits) (hgaps : Gaps l.getVisibleDivLines) :
    l.lines.Pairwise (· ≤ ·) := by
  unfold getVisibleDivLines visibleVars visible Gaps at hgaps
  unfold Fits top movables at h
  unfold lines visibleVars visible
  by_cases hr : l.regsDisasmDivLineY ≥ 0 <;> by_cases hd : l.disasmCodeDivLineY ≥ 0 <;>
    by_cases hc : l.codeLogDivLineY ≥ 0 <;>
    simp [hr, hd, hc, List.filter, get, withHeights, Gap, DivLine.canBeMoved] at h hgaps ⊢ <;>
    omega

/-- Wherever the lines are, they are arranged with three rows at least for each window next to one
that can be moved; the fixed ones stay, and so does the order. `WD` and `WS` give a window the rows
that they are asked for, or the most that it can have. -/
theorem windows_sized (l : Layout) :
    (l.Fits → ∀ keep,
      (Gaps (l.arrange keep).getVisibleDivLines ∧ Alike l (l.arrange keep) ∧
        (∀ py, l.get py < 0 → (l.arrange keep).get py = l.get py) ∧
        (l.arrange keep).lines.Pairwise (· ≤ ·)) ∧
      ∃ n, ∀ fuel, n ≤ fuel → l.arranged? fuel keep = some (l.arranged keep)) ∧
    ∀ (py : DivVar) (newValue : Nat), (py = .disasmCode ∨ py = .codeLog) → (l.shown py).Fits →
      3 ≤ newValue → newValue ≤ 160 →
      ∃ r, IsGreatest {r | ∃ l', Alike (l.shown py) l' ∧ Gaps l'.getVisibleDivLines ∧
          l'.rows py = r} r ∧
        (l.resized py newValue).rows py = min (newValue : Int) r := by
  constructor
  · intro h keep
    have harr := arrange_spec h keep
    have halike := arrange_alike h keep
    exact ⟨⟨harr.gaps, halike, harr.hidden, lines_pairwise (halike.fits h) harr.gaps⟩,
      arranged?_eq h keep⟩
  · intro py newValue hpy h hnew _
    exact ⟨_, maxRows_greatest h hpy (shown_get hpy), resized_rows h hpy hnew⟩

def crowded : Layout := ⟨80, 25, 5, 12, 17⟩

theorem crowded_sized :
    Gaps (crowded.arrange none).getVisibleDivLines ∧
      ∃ r, IsGreatest {r | ∃ l', Alike crowded l' ∧ Gaps l'.getVisibleDivLines ∧
          l'.rows .disasmCode = r} r ∧
        (crowded.resized .disasmCode 160).rows .disasmCode = min 160 r := by
  refine ⟨((windows_sized crowded).1 (by unfold Fits; decide) none).1.1, ?_⟩
  exact (windows_sized crowded).2 .disasmCode 160 (.inl rfl) (by unfold Fits; decide)
    (by decide) (by decide)

example : (crowded.resized .disasmCode 160).rows .disasmCode = 8 := by decide +kernel

end Layout

end BugChecker.Wnd
