import BugChecker.Disasm.Streams
import BugChecker.Disasm.View
import BugChecker.Lib.Runs

/-!
# Scrolling by one line

One line down shows the text from one line further. One line up shows it from
the line above, which is found by decoding from 512 bytes in front of the first
address shown, when that gives an instruction for every line.
-/

namespace BugChecker.Disasm

open Headings

variable {st : Stream} {code : Code} {contentsDim pc : Nat} {navigate : Int} {w : DisasmWnd}

-- ---------------------------------------------------------------------------
-- The views of a run
-- ---------------------------------------------------------------------------

inductive Event
  | disasm (contentsDim pc : Nat) (navigate : Int)
  | setPos (address : Nat)

/-- A window has three rows at least. -/
def Event.Ok : Event → Prop
  | disasm contentsDim _ _ => 3 ≤ contentsDim
  | setPos _ => True

namespace DisasmWnd

def step (code : Code) (w : DisasmWnd) : Event → Option DisasmWnd
  | .disasm contentsDim pc navigate => some (w.disasm code contentsDim pc navigate)
  | .setPos address => some (w.setPos address)

def Reachable (code : Code) (w : DisasmWnd) : Prop :=
  Runs.Reachable (step code) (fun _ e => e.Ok) {} w

theorem Reachable.flags (hread : st.ReadBy code) (h : Reachable code w) : Flags st w := by
  refine Runs.Reachable.invariant (P := Flags st) ⟨Bool.noConfusion, Bool.noConfusion⟩ ?_ h
  intro s e s' hflags hok hs
  cases e with
  | disasm contentsDim pc navigate =>
    obtain rfl := Option.some.inj hs
    exact flags_disasm hflags (Nat.le_of_succ_le hok) hread.symbolAt
  | setPos address =>
    obtain rfl := Option.some.inj hs
    exact ⟨Bool.noConfusion, Bool.noConfusion⟩

/-- A call that writes the lines, with their instructions in the fetched bytes. -/
def Fills (st : Stream) (code : Code) (contentsDim pc : Nat) (navigate : Int)
    (w : DisasmWnd) : Prop :=
  ∃ instrAt addresses,
    code.fetch (w.asmBytesAddress pc navigate) (w.asmBytesSize navigate) = some instrAt ∧
    w.shownAddresses contentsDim pc navigate instrAt = some addresses ∧
    ∀ a ∈ addresses, st.next a ≤ w.asmBytesAddress pc navigate + w.asmBytesSize navigate

end DisasmWnd

theorem Agrees.iterate_of_forall {instrAt : Nat → Instr} {base size : Nat}
    (h : Agrees st instrAt base size)
    (hle : base ≤ b) (hin : ∀ a ∈ List.iterate (following instrAt base) b (n + 1),
      st.next a ≤ base + size) :
    st.next^[n + 1] b ≤ base + size ∧
      List.iterate (following instrAt base) b (n + 1) = List.iterate st.next b (n + 1) := by
  induction n generalizing b with
  | zero =>
    have hfirst := hin b List.mem_cons_self
    exact ⟨hfirst, rfl⟩
  | succ n ih =>
    have hfirst := hin b List.mem_cons_self
    have hnext := h.following_eq hle hfirst
    obtain ⟨hend, hrest⟩ := ih (b := following instrAt base b)
      (Nat.le_trans hle (Nat.le_of_lt (lt_following instrAt base b)))
      fun a ha => hin a (List.mem_cons_of_mem _ ha)
    rw [hnext] at hend hrest
    refine ⟨hend, ?_⟩
    rw [List.iterate, hnext, hrest]
    rfl

namespace DisasmWnd

theorem Fills.view (hread : st.ReadBy code) (hreach : Reachable code w) (hdim : 3 ≤ contentsDim)
    (h : w.Fills st code contentsDim pc navigate) :
    ∃ d s, View st contentsDim (w.disasm code contentsDim pc navigate) d s := by
  obtain ⟨instrAt, addresses, hfetch, hshown, hin⟩ := h
  obtain ⟨b, hle, rfl, hlast⟩ := exists_shownAddresses (by omega) hshown
  have hagrees := hread.agrees _ _ _ hfetch
  obtain ⟨n, hn⟩ := Nat.exists_eq_add_one_of_ne_zero (n := contentsDim +
    (w.withFlags navigate).isLastAddressShownASymName.toNat) (by omega)
  rw [hn] at hin
  obtain ⟨hend, heq⟩ := hagrees.iterate_of_forall hle hin
  rw [← hn] at hend heq
  refine exists_view (hreach.flags hread)
    (Nat.le_of_succ_le hdim) hread.symbolAt hfetch hagrees hshown
    heq (fun htrue => ?_) hle hend
  rw [← hlast htrue, hagrees.iterate_following hle hend (Nat.le_add_right _ _)]

end DisasmWnd

-- ---------------------------------------------------------------------------
-- What a view shows
-- ---------------------------------------------------------------------------

namespace View

variable {d s : Nat}

theorem shown_eq (h : View st contentsDim w d s) (hle : d + 1 ≤ n) :
    w.shown contentsDim = ((st.text w.firstAddressShown n).drop s).take contentsDim := by
  rw [h.shown, part]
  refine (take_drop_text _ hle ?_).symm
  have hlength := h.le_length
  rw [part, List.length_drop] at hlength
  have hs : s ≤ (st.text w.firstAddressShown (d + 1)).length := by
    have hone := h.s_le
    have htwo := Bool.toNat_le (st.symbol w.firstAddressShown).isSome
    have hpos : d + 1 ≤ (st.text w.firstAddressShown (d + 1)).length := le_length_text _ (d + 1)
    omega
  change s + contentsDim ≤ (st.text w.firstAddressShown (d + 1)).length
  omega

theorem length_shown (h : View st contentsDim w d s) :
    (w.shown contentsDim).length = contentsDim := by
  rw [h.shown, List.length_take, Nat.min_eq_left h.le_length]

theorem d_le (h : View st contentsDim w d s) : d ≤ contentsDim := by
  have hlength := h.length_le
  have hs := h.s_le
  rw [part, List.length_drop, Stream.text_succ, List.length_append, List.length_cons] at hlength
  have hhead : (st.heading w.firstAddressShown).toList.length =
      (st.symbol w.firstAddressShown).isSome.toNat := by
    unfold Stream.heading
    cases st.symbol w.firstAddressShown <;> rfl
  have hrest : d ≤ (st.text (st.next w.firstAddressShown) d).length := le_length_text _ d
  omega

theorem isFirst_iff (h : View st contentsDim w d s) :
    w.isFirstAddressShownASymName = true ↔
    s = 0 ∧ (st.symbol w.firstAddressShown).isSome = true := by
  rw [h.isFirst, Bool.and_eq_true, decide_eq_true_eq]

theorem drop_text (h : View st contentsDim w d s) (hfirst : w.isFirstAddressShownASymName = false)
    (n : Nat) : (st.text w.firstAddressShown (n + 1)).drop s =
      st.line w.firstAddressShown :: st.text (st.next w.firstAddressShown) n := by
  have hs := h.s_le
  have hzero : s = 0 → st.symbol w.firstAddressShown = none := by
    intro hs0
    cases hsymbol : st.symbol w.firstAddressShown with
    | none => rfl
    | some name =>
      rw [h.isFirst, hs0, hsymbol] at hfirst
      cases hfirst
  rw [Stream.text_succ, Stream.heading]
  cases hsymbol : st.symbol w.firstAddressShown with
  | none =>
    rw [hsymbol] at hs
    obtain rfl : s = 0 := Nat.le_zero.mp hs
    rfl
  | some name =>
    rw [hsymbol] at hs hzero
    have hone : s = 1 := by
      have hle : s ≤ 1 := hs
      have hne : s ≠ 0 := fun hs0 => by cases hzero hs0
      omega
    rw [hone]
    rfl

theorem shown_ne (h : View st contentsDim w d s) (hdim : 3 ≤ contentsDim) :
    (w.shown contentsDim).drop 1 ≠ (w.shown contentsDim).take (contentsDim - 1) := by
  obtain ⟨k, rfl⟩ := Nat.exists_eq_add_of_le' hdim
  rw [h.shown_eq (Nat.le_succ (d + 1))]
  cases hfirst : w.isFirstAddressShownASymName with
  | true =>
    obtain ⟨rfl, hsymbol⟩ := h.isFirst_iff.mp hfirst
    obtain ⟨name, hname⟩ := Option.isSome_iff_exists.mp hsymbol
    rw [Stream.text_succ, Stream.heading, hname]
    intro heq
    cases (List.cons.inj heq).1
  | false =>
    rw [h.drop_text hfirst]
    obtain ⟨l, rest, hrest, hl⟩ := st.exists_text_succ (st.next w.firstAddressShown) d
    rw [hrest]
    intro heq
    have hsame : l = st.line w.firstAddressShown := (List.cons.inj heq).1
    rw [hsame] at hl
    exact absurd hl (Nat.ne_of_lt (st.lt_next _))

end View

-- ---------------------------------------------------------------------------
-- One line down
-- ---------------------------------------------------------------------------

/-- The lower window shows from the second line of the upper one on. -/
structure ByOneLine (contentsDim : Nat) (upper lower : List Line) : Prop where
  length_upper : upper.length = contentsDim
  length_lower : lower.length = contentsDim
  lines : upper.drop 1 = lower.take (contentsDim - 1)

namespace DisasmWnd

/-- The instructions for one more line are in the fetched bytes. -/
structure Fetched (st : Stream) (contentsDim : Nat) (w : DisasmWnd) : Prop where
  end_lt : w.firstAddressShown + 512 < 2 ^ 64
  next_le : st.next^[contentsDim + 1] w.firstAddressShown ≤ w.firstAddressShown + 512

theorem start_of_ne (h : navigate ≠ 0) : w.start pc navigate = w.firstAddressShown := if_pos h

theorem view_down (hread : st.ReadBy code) (hdim : 3 ≤ contentsDim)
    (hview : View st contentsDim w d s)
    (hfetched : w.Fetched st contentsDim) (pc : Nat) :
    ∃ d' < contentsDim, View st contentsDim (w.pressed code contentsDim pc .down) d'
        w.isFirstAddressShownASymName.toNat ∧
      (w.pressed code contentsDim pc .down).firstAddressShown =
        if w.isFirstAddressShownASymName then w.firstAddressShown
          else st.next w.firstAddressShown := by
  have hstart : w.start pc 1 = w.firstAddressShown := start_of_ne (by decide)
  have hmono := (st.next_strictMono w.firstAddressShown).monotone
  have hkeeps : w.keepsAddress 1 = w.isFirstAddressShownASymName := Bool.and_true _
  cases hfirst : w.isFirstAddressShownASymName with
  | true =>
    obtain ⟨rfl, hsymbol⟩ := hview.isFirst_iff.mp hfirst
    have hmoved : w.moved 1 = 0 := if_pos (.inl (hkeeps.trans hfirst))
    have hdown : w.disasm code contentsDim pc 1 = _ := disasm_forward hread (by omega) (by
      rw [hmoved]) (by
      rw [hstart]
      exact hfetched.end_lt) (by
      rw [hstart, hmoved]
      exact Nat.le_trans (hmono (by simp)) hfetched.next_le)
    have hskipped : w.skipped st 1 w.firstAddressShown = 1 := by
      rw [skipped, hkeeps, hfirst, hsymbol]
      rfl
    rw [hstart, hmoved, Int.toNat_zero, Function.iterate_zero_apply, hskipped] at hdown
    rw [pressed, navigateOf, hdown]
    exact view_forward (by omega) (by rw [hsymbol]; exact Nat.le_refl 1) (Int.le_refl 0) _
  | false =>
    have hmoved : w.moved 1 = 1 := by
      rw [moved, hkeeps, hfirst]
      decide
    have hdown : w.disasm code contentsDim pc 1 = _ := disasm_forward hread (by omega) (by
      rw [hmoved]
      decide) (by
      rw [hstart]
      exact hfetched.end_lt) (by
      rw [hstart, hmoved, Nat.add_comm]
      exact hfetched.next_le)
    have hskipped : w.skipped st 1 (st.next w.firstAddressShown) = 0 := by
      rw [skipped, hkeeps, hfirst]
      rfl
    rw [hstart, hmoved, show Int.toNat 1 = 1 from rfl, Function.iterate_one, hskipped] at hdown
    rw [pressed, navigateOf, hdown]
    exact view_forward (by omega) (Nat.zero_le _) (by decide) _

theorem byOneLine_down (hread : st.ReadBy code) (hdim : 3 ≤ contentsDim)
    (hview : View st contentsDim w d s) (hfetched : w.Fetched st contentsDim) (pc : Nat) :
    ByOneLine contentsDim (w.shown contentsDim)
      ((w.pressed code contentsDim pc .down).shown contentsDim) := by
  obtain ⟨d', -, hdown, hfirst'⟩ := view_down hread hdim hview hfetched pc
  refine ⟨hview.length_shown, hdown.length_shown, ?_⟩
  have hmin : min (contentsDim - 1) contentsDim = contentsDim - 1 :=
    Nat.min_eq_left (Nat.sub_le _ _)
  cases hfirst : w.isFirstAddressShownASymName with
  | true =>
    obtain ⟨rfl, -⟩ := hview.isFirst_iff.mp hfirst
    rw [hview.shown_eq (show d + 1 ≤ d + 1 + (d' + 1) by omega),
      hdown.shown_eq (show d' + 1 ≤ d + 1 + (d' + 1) by omega), hfirst', hfirst, if_pos rfl,
      List.take_take, hmin, List.drop_zero, List.drop_take]
    rfl
  | false =>
    rw [hview.shown_eq (show d + 1 ≤ d + (d' + 1) + 1 by omega),
      hdown.shown_eq (show d' + 1 ≤ d + (d' + 1) by omega), hfirst', hfirst,
      if_neg Bool.false_ne_true, List.take_take, hmin, hview.drop_text hfirst, List.drop_take]
    rfl

theorem head?_shown (hview : View st contentsDim w d s) (hdim : 3 ≤ contentsDim) :
    (w.shown contentsDim).head? =
      if w.isFirstAddressShownASymName then st.heading w.firstAddressShown
      else some (st.line w.firstAddressShown) := by
  obtain ⟨k, rfl⟩ := Nat.exists_eq_add_of_le' hdim
  cases hfirst : w.isFirstAddressShownASymName with
  | true =>
    obtain ⟨rfl, hsymbol⟩ := hview.isFirst_iff.mp hfirst
    obtain ⟨name, hname⟩ := Option.isSome_iff_exists.mp hsymbol
    rw [hview.shown_eq (Nat.le_refl _), Stream.text_succ, Stream.heading, hname]
    rfl
  | false =>
    rw [hview.shown_eq (Nat.le_refl _), hview.drop_text hfirst]
    rfl

-- ---------------------------------------------------------------------------
-- One line up
-- ---------------------------------------------------------------------------

/-- Decoding from 512 bytes in front of an address that is shown first passes through it. -/
structure Resynchronises (st : Stream) (first : Nat) : Prop where
  le_first : 512 ≤ first
  end_lt : first + 512 < 2 ^ 64
  passes : ∃ m, st.next^[m] (first - 512) = first

theorem disasm_up {m n : Nat} (hread : st.ReadBy code) (hdim : 0 < contentsDim)
    (hres : Resynchronises st w.firstAddressShown) (hn : 0 < n)
    (hlast : st.next^[m] (w.firstAddressShown - 512) = w.lastAddressShown)
    (hfits : st.next w.lastAddressShown ≤ w.firstAddressShown + 512) :
    w.disasm code contentsDim pc (-(n : Int)) =
      if contentsDim + n + (w.isLastAddressShownASymName && n == 1).toNat ≤ m + 1 then
        (w.withFlags (-(n : Int))).withLines contentsDim (-(n : Int))
          (st.text (st.next^[m + 1 - n - contentsDim] (w.firstAddressShown - 512))
            (contentsDim + (w.isLastAddressShownASymName && n == 1).toNat))
      else w.withFlags (-(n : Int)) := by
  have hlo := hres.le_first
  have hhi := hres.end_lt
  have hneg : -(n : Int) < 0 := by omega
  have hkeeps : w.keepsAddress (-(n : Int)) = false := by
    rw [keepsAddress, show ((-(n : Int)) == 1) = false from beq_false_of_ne (by omega),
      Bool.and_false]
  have hmoved : w.moved (-(n : Int)) = -(n : Int) := by
    rw [moved, hkeeps, if_neg]
    rintro (hfalse | heq)
    · cases hfalse
    · rw [navigatePreservePos] at heq
      omega
  have haddress : w.asmBytesAddress pc (-(n : Int)) = w.firstAddressShown - 512 := by
    rw [asmBytesAddress, hmoved, if_pos hneg, start_of_ne (by omega)]
    omega
  have hflag : (w.withFlags (-(n : Int))).isLastAddressShownASymName =
      (w.isLastAddressShownASymName && n == 1) := by
    change (w.isLastAddressShownASymName && (-(n : Int)) == -1) = _
    congr 1
    rw [Bool.eq_iff_iff, beq_iff_eq, beq_iff_eq]
    omega
  have hup : w.disasm code contentsDim pc (-(n : Int)) = _ := disasm_backward hread hdim
    (by rw [hmoved]; exact hneg) (by rw [haddress]; omega) (by rw [haddress]; exact hlast) (by
      rw [haddress]
      omega)
  rw [hup, hmoved, haddress, hflag, Int.natAbs_neg, Int.natAbs_natCast]

end DisasmWnd

namespace View

variable {d s : Nat}

theorem next_last_le (h : View st contentsDim w d s) (hfetched : w.Fetched st contentsDim) :
    st.next w.lastAddressShown ≤ w.firstAddressShown + 512 := by
  have hmono := (st.next_strictMono w.firstAddressShown).monotone
  have hd := h.d_le
  rw [h.last, ← Function.iterate_succ_apply' st.next d]
  exact Nat.le_trans (hmono (show d + 1 ≤ contentsDim + 1 by omega)) hfetched.next_le

theorem stay (h : View st contentsDim w d s) (hdim : 3 ≤ contentsDim) :
    ((st.text w.firstAddressShown (d + w.isLastAddressShownASymName.toNat)).drop s).length + 1 =
        contentsDim + w.isLastAddressShownASymName.toNat ∧
      ((st.text w.firstAddressShown (d + w.isLastAddressShownASymName.toNat)).drop s).take
        (contentsDim - 1) = (w.shown contentsDim).take (contentsDim - 1) := by
  have hge := h.le_length
  have hle := h.length_le
  have hmin : min (contentsDim - 1) contentsDim = contentsDim - 1 :=
    Nat.min_eq_left (Nat.sub_le _ _)
  rw [h.shown, List.take_take, hmin]
  cases hlast : w.isLastAddressShownASymName with
  | true =>
    rw [h.isLast, Bool.and_eq_true, decide_eq_true_eq] at hlast
    exact ⟨congrArg (· + 1) hlast.1, rfl⟩
  | false =>
    have hlength : 2 ≤ ((st.text w.firstAddressShown (d + 1)).drop s).length := by
      rw [part] at hge
      omega
    simp only [Bool.toNat_false, Nat.add_zero]
    cases hsymbol : st.symbol (st.next^[d] w.firstAddressShown) with
    | none =>
      have heq := Stream.drop_text_concat_none hlength hsymbol
      have hcut := h.cut
      rw [h.last, hsymbol] at hcut
      rw [part, heq, List.length_append, List.length_singleton] at hge hle hcut
      have hne : ((st.text w.firstAddressShown d).drop s).length + 1 ≠ contentsDim + 1 :=
        fun heq => by cases hcut heq
      refine ⟨by omega, ?_⟩
      rw [part, heq, List.take_append_of_le_length (by omega)]
    | some name =>
      have heq := Stream.drop_text_concat hlength hsymbol
      have hisLast := h.isLast
      rw [hlast, h.last, hsymbol] at hisLast
      have hne : (part st w.firstAddressShown d s).length ≠ contentsDim := by
        intro heq
        rw [decide_eq_true heq] at hisLast
        cases hisLast
      rw [part, heq, List.length_append] at hge hle hne
      simp only [List.length_cons, List.length_nil] at hge hle hne
      refine ⟨by omega, ?_⟩
      rw [part, heq, List.take_append_of_le_length (by omega)]

theorem above (h : View st contentsDim w d s) (hpos : 0 < m) (hk : 0 < k) :
    ∃ xs x, st.text a m ++ (st.text w.firstAddressShown k).take s = xs ++ [x] ∧
      (s = 0 → x = st.line (st.next^[m - 1] a)) ∧
      (s = 1 → some x = st.heading w.firstAddressShown) := by
  obtain ⟨m, rfl⟩ := Nat.exists_eq_add_one_of_ne_zero (Nat.ne_of_gt hpos)
  obtain ⟨k, rfl⟩ := Nat.exists_eq_add_one_of_ne_zero (Nat.ne_of_gt hk)
  have hs := h.s_le
  rcases Nat.le_one_iff_eq_zero_or_eq_one.mp (Nat.le_trans hs (Bool.toNat_le _)) with rfl | rfl
  · rw [List.take_zero, List.append_nil, Stream.text_concat]
    exact ⟨_, _, rfl, fun _ => rfl, fun hone => absurd hone Nat.zero_ne_one⟩
  · obtain ⟨name, hname⟩ := Option.isSome_iff_exists.mp (Bool.toNat_eq_one.mp
      (Nat.le_antisymm (Bool.toNat_le _) hs))
    refine ⟨st.text a (m + 1), .symbolName w.firstAddressShown name, ?_,
      fun hzero => absurd hzero Nat.one_ne_zero, fun _ => ?_⟩
    · rw [Stream.text_succ w.firstAddressShown, Stream.heading, hname]
      rfl
    · rw [Stream.heading, hname]
      rfl

end View

namespace DisasmWnd

theorem pressed_up (hread : st.ReadBy code) (hdim : 3 ≤ contentsDim)
    (hview : View st contentsDim w d s)
    (hres : Resynchronises st w.firstAddressShown)
    (hfits : st.next w.lastAddressShown ≤ w.firstAddressShown + 512)
    (hfirst : st.next^[m] (w.firstAddressShown - 512) = w.firstAddressShown) (pc : Nat) :
    w.pressed code contentsDim pc .up =
      if contentsDim + 1 + w.isLastAddressShownASymName.toNat ≤ m + d + 1 then
        (w.withFlags (-1)).withLines contentsDim (-1)
          (st.text (st.next^[m + d - contentsDim] (w.firstAddressShown - 512))
            (contentsDim + w.isLastAddressShownASymName.toNat))
      else w.withFlags (-1) := by
  have hlast : st.next^[m + d] (w.firstAddressShown - 512) = w.lastAddressShown := by
    rw [Nat.add_comm, Function.iterate_add_apply, hfirst, hview.last]
  have hup : w.disasm code contentsDim pc (-((1 : Nat) : Int)) = _ :=
    disasm_up hread (Nat.lt_of_lt_of_le (by decide) hdim) hres (by decide) hlast hfits
  rw [show ((1 : Nat) == 1) = true from rfl, Bool.and_true, Nat.add_sub_cancel] at hup
  exact hup

theorem shown_up (hread : st.ReadBy code) (hdim : 3 ≤ contentsDim)
    (hview : View st contentsDim w d s)
    (hres : Resynchronises st w.firstAddressShown)
    (hfits : st.next w.lastAddressShown ≤ w.firstAddressShown + 512)
    (hfirst : st.next^[m] (w.firstAddressShown - 512) = w.firstAddressShown)
    (henough : contentsDim + 1 + w.isLastAddressShownASymName.toNat ≤ m + d + 1) (pc : Nat) :
    ∃ x, (w.pressed code contentsDim pc .up).shown contentsDim =
        x :: (w.shown contentsDim).take (contentsDim - 1) ∧
      (s = 0 → x = st.line (st.next^[m - 1] (w.firstAddressShown - 512))) ∧
      (s = 1 → some x = st.heading w.firstAddressShown) := by
  have hlo := hres.le_first
  have hm : 0 < m := by
    by_contra hzero
    obtain rfl : m = 0 := by omega
    rw [Function.iterate_zero_apply] at hfirst
    omega
  obtain ⟨hstay, htake⟩ := hview.stay hdim
  have hk : 0 < d + w.isLastAddressShownASymName.toNat := by
    by_contra hzero
    obtain ⟨hd, hlast⟩ := Nat.add_eq_zero_iff.mp (Nat.le_zero.mp (Nat.not_lt.mp hzero))
    rw [hd, hlast, Stream.text, Headings.text, List.length_drop] at hstay
    simp at hstay
    omega
  obtain ⟨xs, x, habove, hinstr, hsymbol⟩ := hview.above (a := w.firstAddressShown - 512) hm hk
  refine ⟨x, ?_, hinstr, hsymbol⟩
  have htext : st.text (w.firstAddressShown - 512) (m + (d + w.isLastAddressShownASymName.toNat)) =
      xs ++ x :: (st.text w.firstAddressShown (d + w.isLastAddressShownASymName.toNat)).drop s := by
    rw [Stream.text, text_add, hfirst]
    change st.text (w.firstAddressShown - 512) m ++ st.text w.firstAddressShown
      (d + w.isLastAddressShownASymName.toNat) = _
    conv => lhs; rw [← List.take_append_drop s (st.text w.firstAddressShown _)]
    rw [← List.append_assoc, habove, List.append_assoc, List.singleton_append]
  have hcontents : ((w.withFlags (-1)).withLines contentsDim (-1)
      (st.text (st.next^[m + d - contentsDim] (w.firstAddressShown - 512))
        (contentsDim + w.isLastAddressShownASymName.toNat))).contents =
      x :: (st.text w.firstAddressShown (d + w.isLastAddressShownASymName.toNat)).drop s := by
    change withoutExcess (-1) _ = _
    rw [withoutExcess_backward (by decide), ← rtake_text_add,
      show m + d - contentsDim + (contentsDim + w.isLastAddressShownASymName.toNat) =
        m + (d + w.isLastAddressShownASymName.toNat) by omega, htext,
      rtake_append_cons xs _ x hstay.symm]
  rw [pressed_up hread hdim hview hres hfits hfirst, if_pos henough, shown, hcontents]
  obtain ⟨k, rfl⟩ := Nat.exists_eq_add_of_le' hdim
  rw [← htake]
  rfl

/-- The symbol of the first address shown, when it is scrolled off. -/
def scrolledOff (st : Stream) (w : DisasmWnd) : Nat :=
  ((st.symbol w.firstAddressShown).isSome && !w.isFirstAddressShownASymName).toNat

def firstBelow (st : Stream) (w : DisasmWnd) : Nat :=
  if w.isFirstAddressShownASymName then w.firstAddressShown else st.next w.firstAddressShown

end DisasmWnd

namespace Stream

/-- The rows from an address on, without the lines that are scrolled off. -/
def rows (st : Stream) (contentsDim first s : Nat) : List Line :=
  ((st.text first (contentsDim + 1)).drop s).take contentsDim

/-- The 512 bytes in front hold more instructions than there are symbols above the last row, and
another one if the last row is under its own symbol. -/
def Room (st : Stream) (contentsDim first s : Nat) : Prop :=
  ∃ m, st.next^[m] (first - 512) = first ∧
    (st.rows contentsDim first s).dropLast.countP Line.isSymbolName +
      (sameAsNext ((st.rows contentsDim first s).map Line.address).reverse).toNat < m

end Stream

namespace View

variable {d s : Nat}

theorem scrolledOff_eq (h : View st contentsDim w d s) : w.scrolledOff st = s := by
  have hs := h.s_le
  rw [DisasmWnd.scrolledOff, h.isFirst]
  cases hsymbol : (st.symbol w.firstAddressShown).isSome with
  | false =>
    rw [hsymbol] at hs
    exact (Nat.le_zero.mp hs).symm
  | true =>
    rw [hsymbol] at hs
    rcases Nat.le_one_iff_eq_zero_or_eq_one.mp hs with rfl | rfl <;> rfl

theorem shown_eq_rows (h : View st contentsDim w d s) :
    w.shown contentsDim = st.rows contentsDim w.firstAddressShown s :=
  h.shown_eq (Nat.succ_le_succ h.d_le)

theorem countP_dropLast (h : View st contentsDim w d s) (hdim : 3 ≤ contentsDim) :
    (w.shown contentsDim).dropLast.countP Line.isSymbolName + (d + 1) = contentsDim ∧
      sameAsNext ((w.shown contentsDim).map Line.address).reverse =
      w.isLastAddressShownASymName := by
  have hge := h.le_length
  have hle := h.length_le
  have htext := countP_drop_text h.s_le (Nat.succ_pos d)
  change (part st w.firstAddressShown d s).countP Line.isSymbolName + (d + 1) =
    (part st w.firstAddressShown d s).length at htext
  have hlast := h.isLast
  rcases Nat.lt_or_ge contentsDim (part st w.firstAddressShown d s).length with hcut | hwhole
  · have hsymbol := h.cut (by omega)
    have hthree : 3 ≤ (part st w.firstAddressShown d s).length := by omega
    obtain ⟨-, hsame⟩ := part_dropLast_getLastD hthree (h.last ▸ hsymbol)
    obtain ⟨name, hname⟩ := Option.isSome_iff_exists.mp hsymbol
    rw [h.last] at hname
    have hpart : part st w.firstAddressShown d s = (st.text w.firstAddressShown d).drop s ++
        [.symbolName (st.next^[d] w.firstAddressShown) name,
          st.line (st.next^[d] w.firstAddressShown)] :=
      Stream.drop_text_concat (by rw [part] at hge hcut; omega) hname
    have hshown : w.shown contentsDim = (part st w.firstAddressShown d s).dropLast := by
      rw [h.shown, List.dropLast_eq_take]
      congr 1
      omega
    refine ⟨?_, ?_⟩
    · have htwo : (part st w.firstAddressShown d s).dropLast.dropLast =
          (st.text w.firstAddressShown d).drop s := by
        rw [hpart, List.append_cons, List.dropLast_concat, List.dropLast_concat]
      have hone : [Line.symbolName (st.next^[d] w.firstAddressShown) name,
          st.line (st.next^[d] w.firstAddressShown)].countP Line.isSymbolName = 1 := rfl
      rw [show (part st w.firstAddressShown d s).length = contentsDim + 1 by omega, hpart,
        List.countP_append, hone] at htext
      rw [hshown, htwo]
      omega
    · rw [hshown, hsame, hlast, decide_eq_false (by omega), Bool.false_and]
  · have htwo : 2 ≤ (part st w.firstAddressShown d s).length := by omega
    obtain ⟨-, hsame⟩ := part_getLastD htwo
    have hshown : w.shown contentsDim = part st w.firstAddressShown d s := by
      rw [h.shown, List.take_of_length_le hwhole]
    have hlength : (part st w.firstAddressShown d s).length = contentsDim := by omega
    refine ⟨?_, ?_⟩
    · have hsome : 0 < ((st.text w.firstAddressShown (d + 1)).drop s).length := by
        rw [part] at hge
        omega
      obtain ⟨init, e, -, hinit⟩ := Stream.exists_concat hsome
      have hpart : part st w.firstAddressShown d s =
          init ++ [st.line (st.next^[e] w.firstAddressShown)] :=
        hinit
      rw [hlength, hpart, List.countP_append] at htext
      rw [hshown, hpart, List.dropLast_concat]
      exact htext
    · rw [hshown, hsame, hlast, decide_eq_true hlength, Bool.true_and, h.last]

theorem room_iff (h : View st contentsDim w d s) (hdim : 3 ≤ contentsDim)
    (hfirst : st.next^[m] (w.firstAddressShown - 512) = w.firstAddressShown) :
    st.Room contentsDim w.firstAddressShown s ↔
      contentsDim + 1 + w.isLastAddressShownASymName.toNat ≤ m + d + 1 := by
  obtain ⟨hcount, hsame⟩ := h.countP_dropLast hdim
  rw [h.shown_eq_rows] at hcount hsame
  rw [Stream.Room, hsame]
  constructor
  · rintro ⟨m', hm', hlt⟩
    obtain rfl := (st.next_strictMono _).injective (hm'.trans hfirst.symm)
    omega
  · intro henough
    exact ⟨m, hfirst, by omega⟩

end View

namespace DisasmWnd

theorem byOneLine_up_iff (hread : st.ReadBy code) (hdim : 3 ≤ contentsDim)
    (hview : View st contentsDim w d s) (hres : Resynchronises st w.firstAddressShown)
    (hfits : st.next w.lastAddressShown ≤ w.firstAddressShown + 512) (pc : Nat) :
    ByOneLine contentsDim ((w.pressed code contentsDim pc .up).shown contentsDim)
      (w.shown contentsDim) ↔
      st.Room contentsDim w.firstAddressShown s := by
  obtain ⟨m, hfirst⟩ := hres.passes
  rw [hview.room_iff hdim hfirst]
  constructor
  · intro hby
    by_contra hfew
    rw [pressed_up hread hdim hview hres hfits hfirst, if_neg hfew] at hby
    exact hview.shown_ne hdim hby.lines
  · intro hcount
    obtain ⟨x, hshown, -, -⟩ := shown_up hread hdim hview hres hfits hfirst hcount pc
    refine ⟨?_, hview.length_shown, ?_⟩
    · rw [hshown, List.length_cons, List.length_take, hview.length_shown]
      omega
    · rw [hshown]
      rfl

theorem shown_up_down_iff (hread : st.ReadBy code) (hdim : 3 ≤ contentsDim)
    (hview : View st contentsDim w d s) (hfetched : w.Fetched st contentsDim) (pc : Nat)
    (hdown : View st contentsDim (w.pressed code contentsDim pc .down) d'
      w.isFirstAddressShownASymName.toNat)
    (hfirst : (w.pressed code contentsDim pc .down).firstAddressShown = w.firstBelow st)
    (hres : Resynchronises st (w.firstBelow st))
    (hfits : st.next (w.pressed code contentsDim pc .down).lastAddressShown ≤
      (w.pressed code contentsDim pc .down).firstAddressShown + 512) :
    ((w.pressed code contentsDim pc .down).pressed code contentsDim pc .up).shown contentsDim =
        w.shown contentsDim ↔
      st.Room contentsDim (w.firstBelow st) w.isFirstAddressShownASymName.toNat ∧
        ∃ m, st.next^[m] (w.firstBelow st - 512) = w.firstAddressShown := by
  have hby := byOneLine_down hread hdim hview hfetched pc
  have hhead := head?_shown hview hdim
  rw [← hfirst] at hres ⊢
  obtain ⟨m, hm⟩ := hres.passes
  have hbelow : (w.pressed code contentsDim pc .down).firstAddressShown =
    if w.isFirstAddressShownASymName then w.firstAddressShown
      else st.next w.firstAddressShown := hfirst
  constructor
  · intro hsame
    have hroom := (byOneLine_up_iff hread hdim hdown hres hfits pc).mp (hsame ▸ hby)
    refine ⟨hroom, ?_⟩
    obtain ⟨x, hshown, hinstr, -⟩ := shown_up hread hdim hdown hres hfits hm
      ((hdown.room_iff hdim hm).mp hroom) pc
    cases hflag : w.isFirstAddressShownASymName with
    | true =>
      rw [hflag, if_pos rfl] at hbelow
      exact ⟨m, hm.trans hbelow⟩
    | false =>
      rw [hflag] at hinstr
      rw [← hsame, hshown, hflag, if_neg Bool.false_ne_true, hinstr rfl] at hhead
      exact ⟨m - 1, congrArg Line.address (Option.some.inj hhead)⟩
  · rintro ⟨hroom, i, hi⟩
    obtain ⟨x, hshown, hinstr, hsymbol⟩ := shown_up hread hdim hdown hres hfits hm
      ((hdown.room_iff hdim hm).mp hroom) pc
    have hx : some x = (w.shown contentsDim).head? := by
      rw [hhead]
      cases hflag : w.isFirstAddressShownASymName with
      | true =>
        rw [hflag, if_pos rfl] at hbelow
        rw [hsymbol (by rw [hflag]; rfl), hbelow]
        rfl
      | false =>
        rw [hflag, if_neg Bool.false_ne_true] at hbelow
        have hnext :
            st.next^[i + 1] ((w.pressed code contentsDim pc .down).firstAddressShown - 512) =
            (w.pressed code contentsDim pc .down).firstAddressShown := by
          rw [Function.iterate_succ_apply', hi, hbelow]
        obtain rfl := (st.next_strictMono _).injective (hnext.trans hm.symm)
        rw [hinstr (by rw [hflag]; rfl), Nat.add_sub_cancel, hi]
        rfl
    rw [hshown, ← hby.lines]
    cases hlines : w.shown contentsDim with
    | nil =>
      rw [hlines] at hx
      cases hx
    | cons l rest =>
      rw [hlines] at hx
      rw [Option.some.inj hx]
      rfl

theorem next_last_down_le (hfetched : w.Fetched st contentsDim) (hd : d < contentsDim)
    (hview : View st contentsDim (w.pressed code contentsDim pc .down) d s)
    (hfirst : (w.pressed code contentsDim pc .down).firstAddressShown = w.firstBelow st) :
    st.next (w.pressed code contentsDim pc .down).lastAddressShown ≤
      (w.pressed code contentsDim pc .down).firstAddressShown + 512 := by
  have hmono := (st.next_strictMono w.firstAddressShown).monotone
  rw [hview.last, hfirst, firstBelow, ← Function.iterate_succ_apply' st.next d]
  split
  · exact Nat.le_trans (hmono (show d + 1 ≤ contentsDim + 1 by omega)) hfetched.next_le
  · rw [← Function.iterate_succ_apply st.next (d + 1)]
    have hle := Nat.le_trans (hmono (show d + 1 + 1 ≤ contentsDim + 1 by omega)) hfetched.next_le
    have hlt := st.lt_next w.firstAddressShown
    exact Nat.le_trans hle (by omega)

/-- Up and down are by one line and undo each other exactly if in front of both views there is room,
and the first address is met again. -/
theorem byOneLine_iff (hread : st.ReadBy code) (hreach : Reachable code w₀) (hdim : 3 ≤ contentsDim)
    (hfills : w₀.Fills st code contentsDim pc₀ navigate)
    (hw : w₀.disasm code contentsDim pc₀ navigate = w) (hfetched : w.Fetched st contentsDim)
    (hres : Resynchronises st w.firstAddressShown)
      (hbelow : Resynchronises st (w.firstBelow st)) (pc : Nat) :
    (ByOneLine contentsDim (w.shown contentsDim)
      ((w.pressed code contentsDim pc .down).shown contentsDim) ∧
      ByOneLine contentsDim ((w.pressed code contentsDim pc .up).shown contentsDim)
        (w.shown contentsDim) ∧
      ByOneLine contentsDim
        (((w.pressed code contentsDim pc .down).pressed code contentsDim pc .up).shown contentsDim)
        ((w.pressed code contentsDim pc .down).shown contentsDim) ∧
      ((w.pressed code contentsDim pc .down).pressed code contentsDim pc .up).shown contentsDim =
        w.shown contentsDim) ↔
      st.Room contentsDim w.firstAddressShown (w.scrolledOff st) ∧
        st.Room contentsDim (w.firstBelow st) w.isFirstAddressShownASymName.toNat ∧
        ∃ m, st.next^[m] (w.firstBelow st - 512) = w.firstAddressShown := by
  obtain ⟨d, s, hview⟩ := hfills.view hread hreach hdim
  rw [hw] at hview
  obtain ⟨d', hd', hdown, hfirst⟩ := view_down hread hdim hview hfetched pc
  have hup := byOneLine_up_iff hread hdim hview hres (hview.next_last_le hfetched) pc
  have hback := shown_up_down_iff hread hdim hview hfetched pc hdown hfirst hbelow
    (next_last_down_le hfetched hd' hdown hfirst)
  have hby := byOneLine_down hread hdim hview hfetched pc
  rw [hview.scrolledOff_eq, ← hup, ← hback]
  constructor
  · rintro ⟨-, habove, -, hsame⟩
    exact ⟨habove, hsame⟩
  · rintro ⟨habove, hsame⟩
    exact ⟨hby, habove, hsame ▸ hby, hsame⟩

end DisasmWnd

-- ---------------------------------------------------------------------------
-- Short instructions under long ones
-- ---------------------------------------------------------------------------

def nopDecoder : Decoder where
  decode bytes :=
    let n := (bytes.takeWhile (· == 0x66)).length
    if n < 15 ∧ bytes[n]? = some 0x90 then some (n + 1) else none
  length_pos h := by
    obtain ⟨-, h⟩ := Option.ite_none_right_eq_some.mp h
    exact Option.some.inj h ▸ Nat.succ_pos _
  length_le h := by
    obtain ⟨hlt, h⟩ := Option.ite_none_right_eq_some.mp h
    exact Option.some.inj h ▸ hlt.1
  length_le_length h := by
    obtain ⟨hlt, h⟩ := Option.ite_none_right_eq_some.mp h
    exact Option.some.inj h ▸ (List.getElem?_eq_some_iff.mp hlt.2).1

theorem nopDecoder_local : nopDecoder.Local := by
  intro xs ys n h htake
  obtain ⟨⟨hlt, hnop⟩, h⟩ := Option.ite_none_right_eq_some.mp h
  obtain rfl := Option.some.inj h
  -- The prefixes and the NOP itself are what `ys` begins with.
  have hprefixes : xs.take (xs.takeWhile (· == 0x66)).length = xs.takeWhile (· == 0x66) :=
    (List.prefix_iff_eq_take.mp (List.takeWhile_prefix _)).symm
  have hinstr : xs.take ((xs.takeWhile (· == 0x66)).length + 1) =
      xs.takeWhile (· == 0x66) ++ [0x90] := by
    rw [List.take_add_one, hnop, hprefixes]
    rfl
  rw [hinstr] at htake
  have hall : ∀ x ∈ xs.takeWhile (· == 0x66), (x == 0x66) = true :=
    fun x hx => List.all_eq_true.mp List.all_takeWhile x hx
  generalize xs.takeWhile (· == 0x66) = prefixes at hlt htake hall ⊢
  have hys : ys.takeWhile (· == 0x66) = prefixes := by
    rw [← List.take_append_drop (prefixes.length + 1) ys, htake, List.append_assoc,
      List.takeWhile_append_of_pos hall]
    exact List.append_nil _
  have hget : ys[prefixes.length]? = some 0x90 := by
    rw [← List.getElem?_take_of_lt (Nat.lt_succ_self _), htake, List.getElem?_concat_length]
  change (if (ys.takeWhile (· == 0x66)).length < 15 ∧
    ys[(ys.takeWhile (· == 0x66)).length]? = some 0x90
    then some ((ys.takeWhile (· == 0x66)).length + 1) else none) = _
  rw [hys, if_pos ⟨hlt, hget⟩]

/-- Long ones that end at 0x2000, and short ones from there on. -/
def nopByte (address : Nat) : UInt8 :=
  if address < 0x2000 ∧ (0x1fff - address) % 15 ≠ 0 then 0x66 else 0x90

def nops : Source where
  read address size :=
    if address + size < 2 ^ 64 then some ((List.range size).map fun i => nopByte (address + i))
      else none
  length_read h := by
    obtain ⟨-, h⟩ := Option.ite_none_right_eq_some.mp h
    rw [← Option.some.inj h, List.length_map, List.length_range]
  end_lt h := (Option.ite_none_right_eq_some.mp h).1
  breakPoints := []
  decoder := nopDecoder
  stack _ := 0

theorem nops_readBy (symbol : Nat → Option String) :
    (nops.stream nopByte symbol).ReadBy (nops.code fun _ => symbol) :=
  Source.readBy_stream (fun _ _ hend => if_pos hend) nopDecoder_local

namespace DisasmWnd

theorem fills_nops (symbol : Nat → Option String) (hdim : contentsDim ∈ [3, 20, 70]) :
    Fills (nops.stream nopByte symbol) (nops.code fun _ => symbol) contentsDim 0x2000 0 {} := by
  have hall : ∀ n ∈ [3, 20, 70], (nops.fetch 0x2000 512).bind
      (({} : DisasmWnd).shownAddresses n 0x2000 0) = some (List.range' 0x2000 n) := by
    decide +kernel
  have hnext : ∀ n ∈ [3, 20, 70], ∀ a ∈ List.range' 0x2000 n,
      (nops.stream nopByte fun _ => none).next a ≤ 0x2000 + 512 := by
    decide +kernel
  obtain ⟨instrAt, hfetch, hshown⟩ := Option.bind_eq_some_iff.mp (hall _ hdim)
  exact ⟨instrAt, _, hfetch, hshown, hnext _ hdim⟩

theorem fetched_nops (symbol : Nat → Option String) (hdim : contentsDim ∈ [3, 20, 70])
    (hfirst : w.firstAddressShown = 0x2000) :
      w.Fetched (nops.stream nopByte symbol) contentsDim := by
  have hnext : ∀ n ∈ [3, 20, 70],
      (nops.stream nopByte fun _ => none).next^[n + 1] 0x2000 ≤ 0x2000 + 512 := by
    decide +kernel
  constructor <;> rw [hfirst]
  · decide
  · exact hnext _ hdim

theorem resynchronises_nops (symbol : Nat → Option String) :
    Resynchronises (nops.stream nopByte symbol) 0x2000 := by
  refine ⟨by decide, by decide, 35, ?_⟩
  change (nops.stream nopByte fun _ => none).next^[35] (0x2000 - 512) = 0x2000
  decide +kernel

/-- Without symbols, 70 rows move down and up. -/
theorem byOneLine_nops :
    let code := nops.code fun _ _ => none
    let w := ({} : DisasmWnd).disasm code 70 0x2000 0
    ByOneLine 70 (w.shown 70) ((w.pressed code 70 0x2000 .down).shown 70) ∧
      ByOneLine 70 ((w.pressed code 70 0x2000 .up).shown 70) (w.shown 70) ∧
      ByOneLine 70 (((w.pressed code 70 0x2000 .down).pressed code 70 0x2000 .up).shown 70)
        ((w.pressed code 70 0x2000 .down).shown 70) ∧
      ((w.pressed code 70 0x2000 .down).pressed code 70 0x2000 .up).shown 70 = w.shown 70 := by
  have hfirst :
      (({} : DisasmWnd).disasm (nops.code fun _ _ => none) 70 0x2000 0).firstAddressShown =
      0x2000 := by
    decide +kernel
  refine (byOneLine_iff (nops_readBy fun _ => none) (.init) (by decide)
    (fills_nops (fun _ => none) (by decide)) rfl (fetched_nops _ (by decide) hfirst)
      (hfirst ▸ resynchronises_nops _)
    ⟨by decide +kernel, by decide +kernel, 36, by decide +kernel⟩ 0x2000).mpr ⟨?_, ?_, ?_⟩
  · exact ⟨35, by decide +kernel, by decide +kernel⟩
  · exact ⟨36, by decide +kernel, by decide +kernel⟩
  · exact ⟨35, by decide +kernel⟩

/-- With a symbol at each of the short ones, 70 rows do not move up. -/
theorem stays_nops :
    let symbol := fun address : Nat => if 0x2000 ≤ address then some "nop" else none
    let st := nops.stream nopByte symbol
    let code := nops.code fun _ => symbol
    let w := ({} : DisasmWnd).disasm code 70 0x2000 0
    (st.ReadBy code ∧ Fills st code 70 0x2000 0 {} ∧ w.Fetched st 70 ∧
      Resynchronises st w.firstAddressShown ∧ Resynchronises st (w.firstBelow st)) ∧
    (w.pressed code 70 0x2000 .up).shown 70 = w.shown 70 ∧
    ¬ ByOneLine 70 ((w.pressed code 70 0x2000 .up).shown 70) (w.shown 70) := by
  intro symbol st code w
  have hfirst : w.firstAddressShown = 0x2000 := by decide +kernel
  have hbelow : w.firstBelow st = 0x2000 := by decide +kernel
  have hsame : (w.pressed code 70 0x2000 .up).shown 70 = w.shown 70 := by decide +kernel
  refine ⟨⟨nops_readBy symbol, fills_nops symbol (by decide),
    fetched_nops symbol (by decide) hfirst,
    hfirst ▸ resynchronises_nops symbol, hbelow ▸ resynchronises_nops symbol⟩, hsame, fun hby => ?_⟩
  rw [hsame] at hby
  exact absurd hby.lines (by decide +kernel)

end DisasmWnd

end BugChecker.Disasm
