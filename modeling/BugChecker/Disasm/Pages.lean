import BugChecker.Disasm.Scroll

/-!
# Scrolling by a page

A page is as many instructions as there are lines, less a counter of symbols.
The counter is that of the lines before some are cut off. Where it leaves less
than two, the distance has one of the other meanings of `navigate`.
-/

namespace BugChecker.Disasm

open Headings

variable {st : Stream} {code : Code} {contentsDim pc : Nat} {navigate : Int} {w : DisasmWnd}

-- ---------------------------------------------------------------------------
-- The counter
-- ---------------------------------------------------------------------------

section

variable (instrAt : Nat → Instr) (base : Nat) (symbolAt : Nat → Option String)

theorem countP_block (a : Nat) :
    (block instrAt base symbolAt a).countP Line.isSymbolName + 1 =
    (block instrAt base symbolAt a).length := by
  unfold block
  cases symbolAt a <;> rfl

theorem countP_flatMap_block (as : List Nat) :
    (as.flatMap (block instrAt base symbolAt)).countP Line.isSymbolName + as.length =
      (as.flatMap (block instrAt base symbolAt)).length := by
  induction as with
  | nil => rfl
  | cons a as ih =>
    have hblock := countP_block instrAt base symbolAt a
    rw [List.flatMap_cons, List.countP_append, List.length_append, List.length_cons]
    omega

theorem countP_linesOf (isFirst : Bool) (as : List Nat) :
    (linesOf instrAt base symbolAt isFirst as).countP Line.isSymbolName + as.length =
      (linesOf instrAt base symbolAt isFirst as).length := by
  cases as with
  | nil => rfl
  | cons a as =>
    have hrest := countP_flatMap_block instrAt base symbolAt as
    have hblock := countP_block instrAt base symbolAt a
    rw [linesOf, List.countP_append, List.length_append, List.length_cons]
    cases isFirst with
    | true =>
      have hone : List.countP Line.isSymbolName [Line.instruction a (instrAt (a - base))] = 0 := rfl
      rw [if_pos rfl, hone, List.length_singleton]
      omega
    | false =>
      rw [if_neg Bool.false_ne_true]
      omega

theorem countP_block_le (a : Nat) :
    (block instrAt base symbolAt a).countP Line.isSymbolName ≤ 1 := by
  unfold block
  cases symbolAt a with
  | none => exact Nat.zero_le 1
  | some name => exact Nat.le_refl 1

theorem countP_linesOf_le (isFirst : Bool) (as : List Nat) :
    (linesOf instrAt base symbolAt isFirst as).countP Line.isSymbolName ≤ as.length := by
  have hrest : ∀ as : List Nat,
      (as.flatMap (block instrAt base symbolAt)).countP Line.isSymbolName ≤ as.length := by
    intro as
    induction as with
    | nil => exact Nat.le_refl 0
    | cons a as ih =>
      have hblock := countP_block_le instrAt base symbolAt a
      rw [List.flatMap_cons, List.countP_append, List.length_cons]
      omega
  cases as with
  | nil => exact Nat.le_refl 0
  | cons a as =>
    cases isFirst with
    | true => exact Nat.le_succ_of_le (hrest as)
    | false => exact hrest (a :: as)

theorem exists_linesOf_cons (isFirst : Bool) (a : Nat) (as : List Nat) :
    ∃ l rest, linesOf instrAt base symbolAt isFirst (a :: as) = l :: rest ∧ l.address = a := by
  rw [linesOf, block]
  cases isFirst with
  | true => exact ⟨_, _, rfl, rfl⟩
  | false =>
    cases symbolAt a with
    | none => exact ⟨_, _, rfl, rfl⟩
    | some name => exact ⟨_, _, rfl, rfl⟩

end

theorem withoutExcess_sublist (moved : Int) (lines : List Line) :
    (withoutExcess moved lines).Sublist lines := by
  unfold withoutExcess
  split
  · exact List.take_sublist _ _
  · exact List.drop_sublist _ _

namespace DisasmWnd

/-- The counter counts the symbols that are shown, perhaps more of them, and at most one for each
line that was to be shown. -/
theorem Fills.symNameLinesNum {w₀ : DisasmWnd} (hdim : 0 < contentsDim)
    (h : w₀.Fills st code contentsDim pc navigate) :
    ((w₀.disasm code contentsDim pc navigate).shown contentsDim).countP Line.isSymbolName ≤
        (w₀.disasm code contentsDim pc navigate).symNameLinesNum ∧
      (w₀.disasm code contentsDim pc navigate).symNameLinesNum ≤ contentsDim + 1 := by
  obtain ⟨instrAt, addresses, hfetch, hshown, -⟩ := h
  rw [disasm_of_shown hfetch hshown]
  refine ⟨?_, ?_⟩
  · exact ((List.take_sublist _ _).trans (withoutExcess_sublist _ _)).countP_le
  · refine Nat.le_trans (countP_linesOf_le _ _ _ _ _) ?_
    obtain ⟨b, -, rfl, -⟩ := exists_shownAddresses hdim hshown
    rw [List.length_iterate]
    exact Nat.add_le_add_left (Bool.toNat_le _) _

end DisasmWnd

-- ---------------------------------------------------------------------------
-- The instructions of a view
-- ---------------------------------------------------------------------------

def DisasmWnd.lastInstruction (contentsDim : Nat) (w : DisasmWnd) : Nat :=
  (((w.shown contentsDim).filter fun l => !l.isSymbolName).map Line.address).getLastD 0

theorem Stream.filter_text (st : Stream) (a n : Nat) :
    (st.text a n).filter (fun l => !l.isSymbolName) = (List.iterate st.next a n).map st.line := by
  induction n generalizing a with
  | zero => rfl
  | succ n ih =>
    rw [Stream.text_succ, List.filter_append, List.iterate, List.map_cons, ← ih]
    unfold Stream.heading
    cases st.symbol a <;> rfl

theorem Stream.filter_drop_text (st : Stream) (hs : s ≤ (st.symbol a).isSome.toNat) (n : Nat) :
    ((st.text a (n + 1)).drop s).filter (fun l => !l.isSymbolName) =
      (List.iterate st.next a (n + 1)).map st.line := by
  rw [← st.filter_text, Stream.text_succ, Stream.heading]
  cases hsymbol : st.symbol a with
  | none =>
    rw [hsymbol] at hs
    obtain rfl : s = 0 := Nat.le_zero.mp hs
    rfl
  | some name =>
    rw [hsymbol] at hs
    rcases Nat.le_one_iff_eq_zero_or_eq_one.mp hs with rfl | rfl <;> rfl

namespace View

variable {d s : Nat}

theorem d_pos (h : View st contentsDim w d s) (hdim : 3 ≤ contentsDim) : 0 < d := by
  by_contra hzero
  obtain rfl : d = 0 := by omega
  have hge := h.le_length
  have hone : (st.text w.firstAddressShown (0 + 1)).length = _ :=
    Stream.length_text_concat w.firstAddressShown 0
  have hle := Bool.toNat_le (st.symbol (st.next^[0] w.firstAddressShown)).isSome
  have hnil : (st.text w.firstAddressShown 0).length = 0 := rfl
  rw [part, List.length_drop] at hge
  omega

theorem exists_instructions (h : View st contentsDim w d s) (hdim : 3 ≤ contentsDim) :
    ∃ e ≤ d, e + 1 + (w.shown contentsDim).countP Line.isSymbolName = contentsDim ∧
      w.lastInstruction contentsDim = st.next^[e] w.firstAddressShown := by
  have hpos := h.d_pos hdim
  obtain ⟨habove, -⟩ := h.countP_dropLast hdim
  -- One of the rows at most is a symbol that is not above the last row.
  have hrows : (w.shown contentsDim).dropLast.countP Line.isSymbolName ≤
        (w.shown contentsDim).countP Line.isSymbolName ∧
      (w.shown contentsDim).countP Line.isSymbolName ≤
        (w.shown contentsDim).dropLast.countP Line.isSymbolName + 1 := by
    have hne : w.shown contentsDim ≠ [] := by
      intro hnil
      have hlength := h.length_shown
      rw [hnil, List.length_nil] at hlength
      omega
    have hlast := List.dropLast_append_getLast hne
    have hone : [(w.shown contentsDim).getLast hne].countP Line.isSymbolName ≤ 1 :=
      List.countP_le_length
    rw [← congrArg (List.countP Line.isSymbolName) hlast, List.countP_append]
    omega
  have hstart : ((w.shown contentsDim).filter fun l => !l.isSymbolName).map Line.address <+:
      List.iterate st.next w.firstAddressShown (d + 1) := by
    have haddress : Line.address ∘ st.line = id := rfl
    rw [h.shown, ← List.map_id (List.iterate st.next w.firstAddressShown (d + 1)), ← haddress,
      ← List.map_map, ← st.filter_drop_text h.s_le]
    exact ((List.take_prefix _ _).filter _).map _
  have hcount : (w.shown contentsDim).countP Line.isSymbolName +
      (((w.shown contentsDim).filter fun l => !l.isSymbolName).map Line.address).length =
      contentsDim := by
    have hboth := List.length_eq_countP_add_countP Line.isSymbolName (l := w.shown contentsDim)
    simp only [Bool.not_eq_true, Bool.decide_eq_false] at hboth
    rw [List.length_map, ← List.countP_eq_length_filter, ← hboth, h.length_shown]
  have hle := hstart.length_le
  have htake := List.prefix_iff_eq_take.mp hstart
  rw [List.length_iterate] at hle
  rw [List.take_iterate, Nat.min_eq_left hle] at htake
  obtain ⟨e, he⟩ := Nat.exists_eq_add_one_of_ne_zero (n := (((w.shown contentsDim).filter fun l =>
    !l.isSymbolName).map Line.address).length) (by omega)
  rw [he] at hle hcount htake
  refine ⟨e, Nat.le_of_succ_le_succ hle, by omega, ?_⟩
  rw [DisasmWnd.lastInstruction, htake, List.getLastD_eq_getLast?, iterate_getLast?]
  rfl

theorem length_text_lt (h : View st contentsDim w d s) (hn : 2 ≤ n) (hle : n ≤ d + 1) :
    (st.text w.firstAddressShown (d + 1 - n)).length < contentsDim := by
  obtain ⟨n, rfl⟩ := Nat.exists_eq_add_of_le' hn
  obtain ⟨i, hi⟩ := Nat.exists_eq_add_of_le' hle
  rw [hi, Nat.add_sub_cancel]
  have hlength := h.length_le
  have hs := h.s_le
  have hone := Bool.toNat_le (st.symbol w.firstAddressShown).isSome
  have hsplit : (st.text w.firstAddressShown (i + (n + 2))).length = _ :=
    length_text_add _ i (n + 2)
  have hrest : (st.text (st.next^[i] w.firstAddressShown) (n + 2)).length = _ :=
    Stream.length_text_concat (st.next^[i] w.firstAddressShown) (n + 1)
  have hfew : n + 1 ≤ (st.text (st.next^[i] w.firstAddressShown) (n + 1)).length :=
    le_length_text _ _
  have hlast : st.next^[n + 1] (st.next^[i] w.firstAddressShown) = w.lastAddressShown := by
    rw [h.last, ← Function.iterate_add_apply, show n + 1 + i = d by omega]
  change _ = (st.text w.firstAddressShown i).length +
    (st.text (st.next^[i] w.firstAddressShown) (n + 2)).length at hsplit
  rw [hlast] at hrest
  rw [part, List.length_drop, hi] at hlength
  rcases Nat.lt_or_ge contentsDim (part st w.firstAddressShown d s).length with hcut | hwhole
  · rw [h.cut (Nat.le_antisymm h.length_le hcut), Bool.toNat_true] at hrest
    omega
  · rw [part, List.length_drop, hi] at hwhole
    omega

theorem address_head (h : View st contentsDim w d s) (hdim : 3 ≤ contentsDim)
    (hhead : (w.shown contentsDim).head? = some x) : w.firstAddressShown = x.address := by
  rw [DisasmWnd.head?_shown h hdim] at hhead
  split at hhead
  · obtain ⟨name, -, rfl⟩ := Option.map_eq_some_iff.mp hhead
    rfl
  · exact congrArg Line.address (Option.some.inj hhead)

end View

-- ---------------------------------------------------------------------------
-- A page down and a page up
-- ---------------------------------------------------------------------------

/-- Further down, and nothing behind the last instruction is left out. -/
structure PagesDown (st : Stream) (contentsDim : Nat) (w w' : DisasmWnd) : Prop where
  first_lt : w.firstAddressShown < w'.firstAddressShown
  first_le : w'.firstAddressShown ≤ st.next (w.lastInstruction contentsDim)

/-- Further up, and nothing in front of the first instruction is left out. -/
structure PagesUp (st : Stream) (w w' : DisasmWnd) : Prop where
  first_lt : w'.firstAddressShown < w.firstAddressShown
  le_last : ∀ m, st.next (st.next^[m] (w.firstAddressShown - 512)) = w.firstAddressShown →
    st.next^[m] (w.firstAddressShown - 512) ≤ w'.lastAddressShown

namespace DisasmWnd

/-- Decoding from 512 bytes in front gives enough instructions up to the last address shown. -/
def Enough (st : Stream) (contentsDim n : Nat) (w : DisasmWnd) : Prop :=
  ∃ m, st.next^[m] (w.firstAddressShown - 512) = w.lastAddressShown ∧
    contentsDim + n + (w.isLastAddressShownASymName && n == 1).toNat ≤ m + 1

theorem firstAddressShown_withLines (hdistance : 0 ≤ distance) (isFirst : Bool) (a : Nat)
    (as : List Nat) :
    (w.withLines contentsDim distance
      (linesOf instrAt base symbolAt isFirst (a :: as))).firstAddressShown = a := by
  have hcount := countP_linesOf instrAt base symbolAt isFirst (a :: as)
  obtain ⟨l, rest, hlines, hl⟩ := exists_linesOf_cons instrAt base symbolAt isFirst a as
  change ((withoutExcess distance _).map Line.address).headD 0 = a
  rw [withoutExcess, if_pos hdistance, ← hcount, Nat.add_sub_cancel_left, hlines]
  exact hl

theorem firstAddressShown_forward (hdim : 0 < contentsDim) (hmoved : 0 ≤ w.moved navigate)
    (hfetch : code.fetch (w.asmBytesAddress pc navigate) (w.asmBytesSize navigate) = some instrAt) :
    (w.disasm code contentsDim pc navigate).firstAddressShown =
      (following instrAt (w.asmBytesAddress pc navigate))^[(w.moved navigate).toNat]
        (w.asmBytesAddress pc navigate) := by
  obtain ⟨contentsDim, rfl⟩ := Nat.exists_eq_add_one_of_ne_zero (Nat.ne_of_gt hdim)
  rw [disasm_of_shown hfetch (shownAddresses_forward hdim hmoved), List.iterate]
  exact firstAddressShown_withLines hmoved _ _ _

theorem pagesDown (hread : st.ReadBy code) (hview : View st contentsDim w d s)
    (hdim : 3 ≤ contentsDim)
    (hfetched : w.Fetched st contentsDim) (hn : 0 < n)
    (hcount : n + (w.shown contentsDim).countP Line.isSymbolName ≤ contentsDim)
    (hfirst : n = 1 → w.isFirstAddressShownASymName = false) (pc : Nat) :
    PagesDown st contentsDim w (w.disasm code contentsDim pc (n : Int)) := by
  obtain ⟨e, -, he, hinstr⟩ := hview.exists_instructions hdim
  have hmono := st.next_strictMono w.firstAddressShown
  have hkeeps : w.keepsAddress (n : Int) = false := by
    by_cases hone : n = 1
    · rw [keepsAddress, hfirst hone, Bool.false_and]
    · rw [keepsAddress, beq_false_of_ne (by omega), Bool.and_false]
  have hmoved : w.moved (n : Int) = n := by
    have hfew := hmono.add_le_nat (contentsDim + 1) 0
    have hend := hfetched.next_le
    simp only [Nat.add_zero, Function.iterate_zero_apply] at hfew
    rw [moved, hkeeps, if_neg]
    rintro (hfalse | heq)
    · cases hfalse
    · rw [navigatePreservePos] at heq
      omega
  have hnonneg : 0 ≤ w.moved (n : Int) := by
    rw [hmoved]
    exact Int.natCast_nonneg n
  have haddress : w.asmBytesAddress pc (n : Int) = w.firstAddressShown := by
    rw [asmBytesAddress, if_neg (Int.not_lt.mpr hnonneg), start_of_ne (by omega)]
  have hsize : w.asmBytesSize (n : Int) = 512 := if_neg (Int.not_lt.mpr hnonneg)
  obtain ⟨instrAt, hfetch⟩ := hread.fetch w.firstAddressShown 512 hfetched.end_lt
  have hagrees := hread.agrees _ _ _ hfetch
  have hpage : (w.disasm code contentsDim pc (n : Int)).firstAddressShown = _ :=
    firstAddressShown_forward (by omega) hnonneg (by
      rw [haddress, hsize]
      exact hfetch)
  rw [hmoved, haddress, Int.toNat_natCast, hagrees.iterate_following (Nat.le_refl _)
    hfetched.next_le
    (show n ≤ contentsDim + 1 by omega)] at hpage
  constructor <;> rw [hpage]
  · exact hmono hn
  · rw [hinstr, ← Function.iterate_succ_apply' st.next e]
    exact hmono.monotone (by omega)

theorem view_page_up {m n : Nat} (hread : st.ReadBy code) (hview : View st contentsDim w d s)
    (hdim : 3 ≤ contentsDim) (hfetched : w.Fetched st contentsDim)
    (hres : Resynchronises st w.firstAddressShown) (hn : 0 < n)
    (hlast : st.next^[m] (w.firstAddressShown - 512) = w.lastAddressShown)
    (henough : contentsDim + n + (w.isLastAddressShownASymName && n == 1).toNat ≤ m + 1)
      (pc : Nat) :
    ∃ j d' s', View st contentsDim (w.disasm code contentsDim pc (-(n : Int))) d' s' ∧
      (w.disasm code contentsDim pc (-(n : Int))).firstAddressShown =
        st.next^[m + 1 - n - contentsDim + j] (w.firstAddressShown - 512) ∧
      d' + (j + 1) = contentsDim + (w.isLastAddressShownASymName && n == 1).toNat := by
  have hneg : -(n : Int) < 0 := by omega
  rw [disasm_up hread (by omega) hres hn hlast (hview.next_last_le hfetched), if_pos henough]
  have hsymbol : (w.isLastAddressShownASymName && n == 1) = true →
      (st.symbol (st.next^[contentsDim]
        (st.next^[m + 1 - n - contentsDim] (w.firstAddressShown - 512)))).isSome = true := by
    intro htrue
    obtain ⟨hflag, hone⟩ := Bool.and_eq_true_iff.mp htrue
    rw [beq_iff_eq] at hone
    rw [← Function.iterate_add_apply, show contentsDim + (m + 1 - n - contentsDim) =
      m by omega, hlast]
    exact hview.flags.isLast hflag
  obtain ⟨j, s', hj, hup, hfirst, -⟩ := view_backward (by omega : 2 ≤ contentsDim) hneg hsymbol
    (w.withFlags (-(n : Int)))
  refine ⟨j, _, s', hup, ?_, by omega⟩
  rw [hfirst, ← Function.iterate_add_apply, Nat.add_comm]

theorem le_last_page_up {m n : Nat} (hread : st.ReadBy code) (hview : View st contentsDim w d s)
    (hdim : 3 ≤ contentsDim) (hfetched : w.Fetched st contentsDim)
    (hres : Resynchronises st w.firstAddressShown) (hn : 0 < n)
    (hcount : n + (w.shown contentsDim).countP Line.isSymbolName ≤ contentsDim)
    (hlast : st.next^[m] (w.firstAddressShown - 512) = w.lastAddressShown)
    (henough : contentsDim + n + (w.isLastAddressShownASymName && n == 1).toNat ≤ m + 1)
      (pc i : Nat)
    (hi : st.next (st.next^[i] (w.firstAddressShown - 512)) = w.firstAddressShown) :
    st.next^[i] (w.firstAddressShown - 512) ≤
      (w.disasm code contentsDim pc (-(n : Int))).lastAddressShown := by
  obtain ⟨j, d', s', hup, hfirst, hd'⟩ :=
    view_page_up hread hview hdim hfetched hres hn hlast henough pc
  obtain ⟨e, hed, he, -⟩ := hview.exists_instructions hdim
  have hmono := st.next_strictMono (w.firstAddressShown - 512)
  have hm : m = d + (i + 1) := by
    refine hmono.injective ?_
    rw [hlast, Function.iterate_add_apply, Function.iterate_succ_apply' st.next i, hi, hview.last]
  rw [hup.last, hfirst, ← Function.iterate_add_apply]
  exact hmono.monotone (by omega)

theorem pagesUp {m n : Nat} (hread : st.ReadBy code) (hview : View st contentsDim w d s)
    (hdim : 3 ≤ contentsDim) (hfetched : w.Fetched st contentsDim)
    (hres : Resynchronises st w.firstAddressShown) (hn : 2 ≤ n)
    (hcount : n + (w.shown contentsDim).countP Line.isSymbolName ≤ contentsDim)
    (hlast : st.next^[m] (w.firstAddressShown - 512) = w.lastAddressShown)
    (henough : contentsDim + n + (w.isLastAddressShownASymName && n == 1).toNat ≤ m + 1)
      (pc : Nat) :
    PagesUp st w (w.disasm code contentsDim pc (-(n : Int))) := by
  refine ⟨?_, le_last_page_up hread hview hdim hfetched hres (by omega) hcount hlast henough pc⟩
  obtain ⟨j, d', s', hup, hfirst, hd'⟩ :=
    view_page_up hread hview hdim hfetched hres (by omega) hlast henough pc
  obtain ⟨e, hed, he, -⟩ := hview.exists_instructions hdim
  obtain ⟨i, hi⟩ := hres.passes
  have hmono := st.next_strictMono (w.firstAddressShown - 512)
  have hm : m = d + i := by
    refine hmono.injective ?_
    rw [hlast, Function.iterate_add_apply, hi, hview.last]
  have hflag : (w.isLastAddressShownASymName && n == 1) = false := by
    rw [beq_false_of_ne (by omega), Bool.and_false]
  rw [hflag, Bool.toNat_false] at hd' henough
  -- Otherwise the page is between the first address and the end of the one before, and too short.
  by_contra hge
  obtain ⟨k, hk⟩ : ∃ k, m + 1 - n - contentsDim + j = k + i := by
    refine Nat.exists_eq_add_of_le' (Nat.le_of_not_lt fun hlt => hge ?_)
    rw [hfirst]
    exact Nat.lt_of_lt_of_eq (hmono hlt) hi
  rw [hk, Function.iterate_add_apply, hi] at hfirst
  have hlength := hup.le_length
  have hfew := hview.length_text_lt hn (by omega)
  have hsplit : (st.text w.firstAddressShown (k + (d' + 1))).length = _ :=
    length_text_add _ k (d' + 1)
  change _ = (st.text w.firstAddressShown k).length +
    (st.text (st.next^[k] w.firstAddressShown) (d' + 1)).length at hsplit
  rw [hfirst, part, List.length_drop] at hlength
  rw [show d + 1 - n = k + (d' + 1) by omega] at hfew
  omega

theorem pagesUp_one_iff (hread : st.ReadBy code) (hview : View st contentsDim w d s)
    (hdim : 3 ≤ contentsDim) (hfetched : w.Fetched st contentsDim)
    (hres : Resynchronises st w.firstAddressShown) (hflag : w.isFirstAddressShownASymName = false)
    (hcount : 1 + (w.shown contentsDim).countP Line.isSymbolName ≤ contentsDim)
    (henough : w.Enough st contentsDim 1) (pc : Nat) :
    PagesUp st w (w.disasm code contentsDim pc (-((1 : Nat) : Int))) ↔
      st.symbol w.firstAddressShown = none := by
  obtain ⟨m, hlast, hm⟩ := henough
  obtain ⟨i, hi⟩ := hres.passes
  obtain ⟨j, d', s', hup, -, -⟩ :=
    view_page_up hread hview hdim hfetched hres Nat.one_pos hlast hm pc
  have hmono := st.next_strictMono (w.firstAddressShown - 512)
  have hmi : m = i + d := by
    refine hmono.injective ?_
    rw [hlast, Nat.add_comm, Function.iterate_add_apply, hi, hview.last]
  have hpos : 0 < i := by
    by_contra hzero
    obtain rfl : i = 0 := by omega
    have hlo := hres.le_first
    rw [Function.iterate_zero_apply] at hi
    omega
  rw [beq_self_eq_true, Bool.and_true, hmi] at hm
  obtain ⟨x, hshown, hinstr, hsymbol⟩ :=
    shown_up hread hdim hview hres (hview.next_last_le hfetched) hi hm pc
  have hfirst : (w.disasm code contentsDim pc (-((1 : Nat) : Int))).firstAddressShown =
      x.address := by
    refine hup.address_head hdim ?_
    change ((w.pressed code contentsDim pc .up).shown contentsDim).head? = some x
    rw [hshown]
    rfl
  have hs := hview.scrolledOff_eq
  rw [scrolledOff, hflag, Bool.not_false, Bool.and_true] at hs
  cases hsome : st.symbol w.firstAddressShown with
  | none =>
    rw [hsome] at hs
    refine ⟨fun _ => rfl,
      fun _ => ⟨?_, le_last_page_up hread hview hdim hfetched hres Nat.one_pos hcount
      hlast (by rw [beq_self_eq_true, Bool.and_true, hmi]; exact hm) pc⟩⟩
    rw [hfirst, hinstr hs.symm]
    exact Nat.lt_of_lt_of_eq (hmono (Nat.sub_lt hpos Nat.one_pos)) hi
  | some name =>
    rw [hsome] at hs
    refine ⟨fun hpages => ?_, fun hnone => by cases hnone⟩
    have hx := hsymbol hs.symm
    rw [Stream.heading, hsome] at hx
    have hlt := hpages.first_lt
    rw [hfirst, Option.some.inj hx] at hlt
    exact absurd hlt (Nat.lt_irrefl _)

theorem enough_of_pagesUp {n : Nat} (hread : st.ReadBy code) (hview : View st contentsDim w d s)
    (hdim : 3 ≤ contentsDim) (hfetched : w.Fetched st contentsDim)
    (hres : Resynchronises st w.firstAddressShown) (hn : 0 < n)
    (h : PagesUp st w (w.disasm code contentsDim pc (-(n : Int)))) : w.Enough st contentsDim n := by
  obtain ⟨i, hi⟩ := hres.passes
  have hlast : st.next^[d + i] (w.firstAddressShown - 512) = w.lastAddressShown := by
    rw [Function.iterate_add_apply, hi, hview.last]
  refine ⟨d + i, hlast, ?_⟩
  by_contra hfew
  have hlt := h.first_lt
  rw [disasm_up hread (by omega) hres hn hlast (hview.next_last_le hfetched), if_neg hfew] at hlt
  exact absurd hlt (Nat.lt_irrefl _)

theorem not_pagesUp (hread : st.ReadBy code) (hview : View st contentsDim w d s)
    (hdim : 3 ≤ contentsDim) (hfetched : w.Fetched st contentsDim)
    (hmany : contentsDim ≤ w.symNameLinesNum)
      (hle : w.symNameLinesNum ≤ contentsDim + 1) (pc : Nat) :
    ¬ (PagesDown st contentsDim w (w.pressed code contentsDim pc .pgDn) ∧
      PagesUp st w (w.pressed code contentsDim pc .pgUp)) := by
  rintro ⟨hdown, hup⟩
  rcases Nat.eq_or_lt_of_le hmany with heq | hlt
  · -- Both keys do the same.
    have hsame : w.pressed code contentsDim pc .pgUp = w.pressed code contentsDim pc .pgDn := by
      rw [pressed, pressed, navigateOf, navigateOf, heq]
    rw [hsame] at hup
    exact absurd hup.first_lt (Nat.lt_asymm hdown.first_lt)
  · -- The page up is a line down.
    have hsame : w.pressed code contentsDim pc .pgUp = w.pressed code contentsDim pc .down := by
      rw [pressed, pressed, navigateOf, navigateOf]
      congr 1
      omega
    obtain ⟨-, -, -, hfirst⟩ := view_down hread hdim hview hfetched pc
    have hlt := hup.first_lt
    rw [hsame, hfirst] at hlt
    split at hlt
    · exact absurd hlt (Nat.lt_irrefl _)
    · exact absurd hlt (Nat.lt_asymm (st.lt_next _))

/-- Page down alone reads on from the first address that is shown. -/
theorem pagesDown_iff (hread : st.ReadBy code) (hview : View st contentsDim w d s)
    (hdim : 3 ≤ contentsDim) (hfetched : w.Fetched st contentsDim)
    (hfew : (w.shown contentsDim).countP Line.isSymbolName ≤ w.symNameLinesNum)
    (hlt : w.symNameLinesNum < contentsDim) (pc : Nat) :
    PagesDown st contentsDim w (w.pressed code contentsDim pc .pgDn) ↔
      w.symNameLinesNum + 2 ≤ contentsDim ∨ w.isFirstAddressShownASymName = false := by
  have hdown : w.pressed code contentsDim pc .pgDn =
      w.disasm code contentsDim pc ((contentsDim - w.symNameLinesNum : Nat) : Int) := by
    rw [pressed, navigateOf]
    congr 1
    omega
  constructor
  · intro hpagesDown
    by_contra hnot
    obtain ⟨hone, hflag⟩ := not_or.mp hnot
    have hline : w.pressed code contentsDim pc .pgDn = w.pressed code contentsDim pc .down := by
      rw [pressed, pressed, navigateOf, navigateOf]
      congr 1
      omega
    obtain ⟨-, -, -, hfirst⟩ := view_down hread hdim hview hfetched pc
    rw [if_pos (Bool.of_not_eq_false hflag)] at hfirst
    rw [hline] at hpagesDown
    exact absurd (hfirst ▸ hpagesDown.first_lt) (Nat.lt_irrefl _)
  · intro h
    rw [hdown]
    refine pagesDown hread hview hdim hfetched (by omega) (by omega) (fun hone => ?_) pc
    rcases h with h | hflag
    · omega
    · exact hflag

/-- Page down and page up make progress exactly if the counter leaves two instructions, or one and
no symbol at the first address, and there are enough instructions. -/
theorem pages_iff (hread : st.ReadBy code) (hreach : Reachable code w₀) (hdim : 3 ≤ contentsDim)
    (hfills : w₀.Fills st code contentsDim pc₀ navigate)
    (hw : w₀.disasm code contentsDim pc₀ navigate = w) (hfetched : w.Fetched st contentsDim)
    (hres : Resynchronises st w.firstAddressShown) (pc : Nat) :
    PagesDown st contentsDim w (w.pressed code contentsDim pc .pgDn) ∧
        PagesUp st w (w.pressed code contentsDim pc .pgUp) ↔
      (w.symNameLinesNum + 2 ≤ contentsDim ∨
        w.symNameLinesNum + 1 = contentsDim ∧ st.symbol w.firstAddressShown = none) ∧
      w.Enough st contentsDim (contentsDim - w.symNameLinesNum) := by
  obtain ⟨d, s, hview⟩ := hfills.view hread hreach hdim
  obtain ⟨hfew, hmany⟩ := hfills.symNameLinesNum (by omega)
  rw [hw] at hview hfew hmany
  rcases Nat.lt_or_ge w.symNameLinesNum contentsDim with hlt | hge
  · obtain ⟨n, hn⟩ := Nat.exists_eq_add_of_le' hlt
    have hsub : contentsDim - w.symNameLinesNum = n + 1 := by omega
    have hup : w.pressed code contentsDim pc .pgUp =
        w.disasm code contentsDim pc (-((n + 1 : Nat) : Int)) := by
      rw [pressed, navigateOf]
      congr 1
      omega
    have hcount : n + 1 + (w.shown contentsDim).countP Line.isSymbolName ≤ contentsDim := by omega
    rw [pagesDown_iff hread hview hdim hfetched hfew hlt pc, hup, hsub]
    cases n with
    | zero =>
      constructor
      · rintro ⟨hflag, hpagesUp⟩
        have henough := enough_of_pagesUp hread hview hdim hfetched hres Nat.one_pos hpagesUp
        have hflag : w.isFirstAddressShownASymName = false := by
          rcases hflag with hfew | hflag
          · omega
          · exact hflag
        have hnone :=
          (pagesUp_one_iff hread hview hdim hfetched hres hflag hcount henough pc).mp hpagesUp
        exact ⟨.inr ⟨by omega, hnone⟩, henough⟩
      · rintro ⟨h, henough⟩
        have hnone : st.symbol w.firstAddressShown = none := by
          rcases h with h | ⟨-, hnone⟩
          · omega
          · exact hnone
        have hflag : w.isFirstAddressShownASymName = false := by
          rw [hview.isFirst, hnone]
          exact Bool.and_false _
        exact ⟨.inr hflag,
          (pagesUp_one_iff hread hview hdim hfetched hres hflag hcount henough pc).mpr hnone⟩
    | succ n =>
      constructor
      · rintro ⟨-, hpagesUp⟩
        exact ⟨.inl (by omega),
          enough_of_pagesUp hread hview hdim hfetched hres (Nat.succ_pos _) hpagesUp⟩
      · rintro ⟨-, m, hlast, henough⟩
        exact ⟨.inl (by omega),
          pagesUp hread hview hdim hfetched hres (by omega) hcount hlast henough pc⟩
  · refine ⟨fun hpages => absurd hpages (not_pagesUp hread hview hdim hfetched hge hmany pc), ?_⟩
    rintro ⟨h | ⟨h, -⟩, -⟩ <;> omega

/-- Without symbols, 20 rows go a page down and a page up. -/
theorem pages_nops :
    let st := nops.stream nopByte fun _ => none
    let code := nops.code fun _ _ => none
    let w := ({} : DisasmWnd).disasm code 20 0x2000 0
    PagesDown st 20 w (w.pressed code 20 0x2000 .pgDn) ∧
      PagesUp st w (w.pressed code 20 0x2000 .pgUp) := by
  have hfirst :
      (({} : DisasmWnd).disasm (nops.code fun _ _ => none) 20 0x2000 0).firstAddressShown =
      0x2000 := by
    decide +kernel
  refine (pages_iff (nops_readBy fun _ => none) .init (by decide)
    (fills_nops (fun _ => none) (by decide))
    rfl (fetched_nops _ (by decide) hfirst) (hfirst ▸ resynchronises_nops _) 0x2000).mpr
    ⟨.inl ?_, 54, ?_, ?_⟩ <;> decide +kernel

/-- With a symbol at each instruction, three rows stay where they are. -/
theorem stays_page_nops :
    let symbol := fun address : Nat => if 0x2000 ≤ address then some "nop" else none
    let st := nops.stream nopByte symbol
    let code := nops.code fun _ => symbol
    let w := ({} : DisasmWnd).disasm code 3 0x2000 0
    (st.ReadBy code ∧ Fills st code 3 0x2000 0 {} ∧ w.Fetched st 3 ∧
      Resynchronises st w.firstAddressShown) ∧
    w.navigateOf 3 .pgDn = 0 ∧
    ¬ PagesDown st 3 w (w.pressed code 3 0x2000 .pgDn) ∧
      ¬ PagesUp st w (w.pressed code 3 0x2000 .pgUp) := by
  intro symbol st code w
  have hfirst : w.firstAddressShown = 0x2000 := by decide +kernel
  refine ⟨⟨nops_readBy symbol, fills_nops symbol (by decide),
    fetched_nops symbol (by decide) hfirst,
    hfirst ▸ resynchronises_nops symbol⟩, by decide +kernel, fun hdown => ?_, fun hup => ?_⟩
  · exact absurd hdown.first_lt (by decide +kernel)
  · exact absurd hup.first_lt (by decide +kernel)

end DisasmWnd

end BugChecker.Disasm
