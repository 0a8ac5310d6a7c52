import BugChecker.Disasm.Lines

/-!
# Views

A view that `Disasm` leaves is a part of the text. It begins with the first
address shown, whose symbol may be scrolled off, and ends with the instruction
at the last one or with its symbol. The flags say which.
-/

namespace BugChecker.Disasm

open Headings

namespace Stream

variable {st : Stream}

theorem text_succ (a n : Nat) : st.text a (n + 1) =
    (st.heading a).toList ++ st.line a :: st.text (st.next a) n := by
  rw [text, Headings.text_succ, Headings.block, List.append_assoc]
  rfl

theorem text_concat (a n : Nat) : st.text a (n + 1) =
    st.text a n ++ (st.heading (st.next^[n] a)).toList ++ [st.line (st.next^[n] a)] := by
  rw [text, Headings.text_concat, Headings.block, ← List.append_assoc]
  rfl

theorem length_text_concat (a n : Nat) : (st.text a (n + 1)).length =
    (st.text a n).length + (st.symbol (st.next^[n] a)).isSome.toNat + 1 := by
  rw [← heading_isSome]
  exact Headings.length_text_concat a n

theorem exists_text_succ (st : Stream) (a n : Nat) :
    ∃ l rest, st.text a (n + 1) = l :: rest ∧ l.address = a := by
  rw [text_succ, heading]
  cases st.symbol a with
  | none => exact ⟨_, _, rfl, rfl⟩
  | some name => exact ⟨_, _, rfl, rfl⟩

theorem exists_concat (h : 0 < ((st.text a d).drop s).length) : ∃ init e, d = e + 1 ∧
    (st.text a d).drop s = init ++ [st.line (st.next^[e] a)] := by
  cases d with
  | zero =>
    rw [text, Headings.text] at h
    simp at h
  | succ e =>
    rw [text_concat] at h ⊢
    refine ⟨(st.text a e ++ (st.heading (st.next^[e] a)).toList).drop s, e, rfl, ?_⟩
    rw [List.drop_append_of_le_length]
    rw [List.length_drop, List.length_append, List.length_singleton] at h
    omega

theorem drop_text_concat (h : 2 ≤ ((st.text a (d + 1)).drop s).length)
    (hsymbol : st.symbol (st.next^[d] a) = some name) : (st.text a (d + 1)).drop s =
      (st.text a d).drop s ++ [.symbolName (st.next^[d] a) name, st.line (st.next^[d] a)] := by
  rw [text_concat, heading, hsymbol, List.append_assoc] at h ⊢
  rw [List.length_drop, List.length_append] at h
  exact List.drop_append_of_le_length (by simp at h; omega)

theorem drop_text_concat_none (h : 2 ≤ ((st.text a (d + 1)).drop s).length)
    (hsymbol : st.symbol (st.next^[d] a) = none) : (st.text a (d + 1)).drop s =
      (st.text a d).drop s ++ [st.line (st.next^[d] a)] := by
  rw [text_concat, heading, hsymbol, List.append_assoc] at h ⊢
  rw [List.length_drop, List.length_append] at h
  exact List.drop_append_of_le_length (by simp at h; omega)

end Stream

variable {st : Stream}

-- ---------------------------------------------------------------------------
-- The first and the last two lines
-- ---------------------------------------------------------------------------

def part (st : Stream) (a d s : Nat) : List Line := (st.text a (d + 1)).drop s

theorem part_headD (hs : s ≤ (st.symbol a).isSome.toNat) (hlength : 2 ≤ (part st a d s).length) :
    ((part st a d s).map Line.address).headD 0 = a ∧
      sameAsNext ((part st a d s).map Line.address) = (decide (s = 0) && (st.symbol a).isSome) := by
  have hbody : ∀ rest, st.line a :: st.text (st.next a) d = rest → 2 ≤ rest.length →
      (rest.map Line.address).headD 0 = a ∧ sameAsNext (rest.map Line.address) = false := by
    rintro _ rfl htwo
    cases d with
    | zero => exact absurd htwo (Nat.not_le_of_lt (Nat.lt_succ_self 1))
    | succ d =>
      obtain ⟨l, rest, hrest, hl⟩ := st.exists_text_succ (st.next a) d
      rw [hrest]
      refine ⟨rfl, ?_⟩
      have hne : a ≠ l.address := hl ▸ Nat.ne_of_lt (st.lt_next a)
      exact beq_false_of_ne hne
  unfold part at hlength ⊢
  rw [Stream.text_succ, Stream.heading] at hlength ⊢
  cases hsymbol : st.symbol a with
  | none =>
    rw [hsymbol] at hs hlength
    obtain rfl : s = 0 := Nat.le_zero.mp hs
    exact hbody _ rfl hlength
  | some name =>
    rw [hsymbol] at hs hlength
    rcases Nat.le_one_iff_eq_zero_or_eq_one.mp hs with rfl | rfl
    · exact ⟨rfl, beq_self_eq_true a⟩
    · exact hbody _ rfl hlength

theorem sameAsNext_concat (h : 0 < ((st.text a d).drop s).length) {l : Line}
    (hl : l.address = st.next^[d] a) :
    sameAsNext (((st.text a d).drop s ++ [l]).map Line.address).reverse = false := by
  obtain ⟨init, e, rfl, hinit⟩ := Stream.exists_concat h
  have hlt := st.next_strictMono a (Nat.lt_succ_self e)
  rw [hinit]
  simp only [List.map_append, List.map_cons, List.map_nil, List.reverse_append, List.reverse_cons,
    List.reverse_nil, List.nil_append, List.cons_append, sameAsNext, hl]
  exact beq_false_of_ne (Nat.ne_of_gt hlt)

theorem part_getLastD (hlength : 2 ≤ (part st a d s).length) :
    ((part st a d s).map Line.address).getLastD 0 = st.next^[d] a ∧
      sameAsNext ((part st a d s).map Line.address).reverse =
      (st.symbol (st.next^[d] a)).isSome := by
  unfold part at hlength ⊢
  cases hsymbol : st.symbol (st.next^[d] a) with
  | none =>
    have heq := Stream.drop_text_concat_none hlength hsymbol
    rw [heq, List.length_append, List.length_singleton] at hlength
    rw [heq]
    refine ⟨by simp [Stream.line, Line.address], ?_⟩
    exact sameAsNext_concat (Nat.le_of_succ_le_succ hlength) rfl
  | some name =>
    rw [Stream.drop_text_concat hlength hsymbol]
    refine ⟨by simp [Stream.line, Line.address], ?_⟩
    simp [Stream.line, Line.address, sameAsNext]

theorem part_dropLast_getLastD (hlength : 3 ≤ (part st a d s).length)
    (hsymbol : (st.symbol (st.next^[d] a)).isSome = true) :
    ((part st a d s).dropLast.map Line.address).getLastD 0 = st.next^[d] a ∧
      sameAsNext ((part st a d s).dropLast.map Line.address).reverse = false := by
  obtain ⟨name, hname⟩ := Option.isSome_iff_exists.mp hsymbol
  have heq : part st a d s = (st.text a d).drop s ++ [Line.symbolName (st.next^[d] a) name] ++
      [st.line (st.next^[d] a)] := by
    rw [part, Stream.drop_text_concat (Nat.le_of_succ_le hlength) hname, List.append_assoc]
    rfl
  rw [heq, List.length_append, List.length_append, List.length_singleton, List.length_singleton]
    at hlength
  rw [heq, List.dropLast_concat]
  refine ⟨by simp [Line.address], sameAsNext_concat (by omega) rfl⟩

theorem headD_take (h : 0 < k) (as : List Nat) : (as.take k).headD 0 = as.headD 0 := by
  obtain ⟨k, rfl⟩ := Nat.exists_eq_add_of_le' h
  cases as <;> rfl

theorem sameAsNext_take (h : 2 ≤ k) (as : List Nat) : sameAsNext (as.take k) = sameAsNext as := by
  obtain ⟨k, rfl⟩ := Nat.exists_eq_add_of_le' h
  cases as with
  | nil => rfl
  | cons a as =>
    cases as with
    | nil => rfl
    | cons b as => rfl

-- ---------------------------------------------------------------------------
-- Views
-- ---------------------------------------------------------------------------

/-- A view of the text from the first address shown. -/
structure View (st : Stream) (contentsDim : Nat) (w : DisasmWnd) (d s : Nat) : Prop where
  last : w.lastAddressShown = st.next^[d] w.firstAddressShown
  s_le : s ≤ (st.symbol w.firstAddressShown).isSome.toNat
  le_length : contentsDim ≤ (part st w.firstAddressShown d s).length
  length_le : (part st w.firstAddressShown d s).length ≤ contentsDim + 1
  shown : w.shown contentsDim = (part st w.firstAddressShown d s).take contentsDim
  cut : (part st w.firstAddressShown d s).length = contentsDim + 1 →
    (st.symbol w.lastAddressShown).isSome = true
  isFirst : w.isFirstAddressShownASymName =
    (decide (s = 0) && (st.symbol w.firstAddressShown).isSome)
  isLast : w.isLastAddressShownASymName =
    (decide ((part st w.firstAddressShown d s).length = contentsDim) &&
      (st.symbol w.lastAddressShown).isSome)

/-- What is saved about the lines of a part of the text, the last of them perhaps cut off. -/
structure Saved (st : Stream) (contentsDim a d s : Nat) (contents : List Line) : Prop where
  shown : contents.take contentsDim = (part st a d s).take contentsDim
  first : (contents.map Line.address).headD 0 = a
  last : (contents.map Line.address).getLastD 0 = st.next^[d] a
  isFirst : sameAsNext (contents.map Line.address) = (decide (s = 0) && (st.symbol a).isSome)
  isLast : ((contents.map Line.address).length == contentsDim &&
    sameAsNext (contents.map Line.address).reverse) =
      (decide ((part st a d s).length = contentsDim) && (st.symbol (st.next^[d] a)).isSome)

theorem saved_part (hdim : 2 ≤ contentsDim) (hs : s ≤ (st.symbol a).isSome.toNat)
    (hge : contentsDim ≤ (part st a d s).length) : Saved st contentsDim a d s (part st a d s) := by
  obtain ⟨hfirst, hisFirst⟩ := part_headD hs (Nat.le_trans hdim hge)
  obtain ⟨hlast, hisLast⟩ := part_getLastD (Nat.le_trans hdim hge)
  refine ⟨rfl, hfirst, hlast, hisFirst, ?_⟩
  rw [hisLast, List.length_map]
  rfl

theorem saved_cut (hdim : 2 ≤ contentsDim) (hs : s ≤ (st.symbol a).isSome.toNat)
    (hlength : (part st a d s).length = contentsDim + 1)
    (hsymbol : (st.symbol (st.next^[d] a)).isSome = true) :
    Saved st contentsDim a d s ((part st a d s).take contentsDim) := by
  have htake : (part st a d s).take contentsDim = (part st a d s).dropLast := by
    rw [List.dropLast_eq_take, hlength, Nat.add_sub_cancel]
  obtain ⟨hfirst, hisFirst⟩ := part_headD (d := d) hs (by omega)
  obtain ⟨hlast, hisLast⟩ := part_dropLast_getLastD (s := s) (by omega) hsymbol
  constructor
  · rw [List.take_take, Nat.min_self]
  · rw [List.map_take, headD_take (by omega), hfirst]
  · rw [htake, hlast]
  · rw [List.map_take, sameAsNext_take hdim, hisFirst]
  · rw [htake, hisLast, Bool.and_false, decide_eq_false (by omega), Bool.false_and]

theorem Saved.view (hsaved : Saved st contentsDim a d s (withoutExcess moved lines))
    (hs : s ≤ (st.symbol a).isSome.toNat) (hge : contentsDim ≤ (part st a d s).length)
    (hle : (part st a d s).length ≤ contentsDim + 1)
    (hcut : (part st a d s).length = contentsDim + 1 → (st.symbol (st.next^[d] a)).isSome = true)
    (w : DisasmWnd) :
    View st contentsDim (w.withLines contentsDim moved lines) d s ∧
      (w.withLines contentsDim moved lines).firstAddressShown = a := by
  have hfirst : (w.withLines contentsDim moved lines).firstAddressShown = a := hsaved.first
  have hlast : (w.withLines contentsDim moved lines).lastAddressShown = st.next^[d] a := hsaved.last
  refine ⟨?_, hfirst⟩
  constructor <;> rw [hfirst]
  · exact hlast
  · exact hs
  · exact hge
  · exact hle
  · exact hsaved.shown
  · rw [hlast]
    exact hcut
  · exact hsaved.isFirst
  · rw [hlast]
    exact hsaved.isLast

-- ---------------------------------------------------------------------------
-- What is left without the lines in excess
-- ---------------------------------------------------------------------------

theorem countP_drop_text (hs : s ≤ (st.symbol a).isSome.toNat) (hn : 0 < n) :
    ((st.text a n).drop s).countP Line.isSymbolName + n = ((st.text a n).drop s).length := by
  obtain ⟨n, rfl⟩ := Nat.exists_eq_add_one_of_ne_zero (Nat.ne_of_gt hn)
  have hcount := st.countP_text a (n + 1)
  rw [Stream.text_succ, Stream.heading] at hcount ⊢
  cases hsymbol : st.symbol a with
  | none =>
    rw [hsymbol] at hs hcount
    obtain rfl : s = 0 := Nat.le_zero.mp hs
    exact hcount
  | some name =>
    rw [hsymbol] at hs hcount
    rcases Nat.le_one_iff_eq_zero_or_eq_one.mp hs with rfl | rfl
    · exact hcount
    · simp only [Option.map_some, Option.toList_some, List.cons_append, List.nil_append,
        List.drop_succ_cons, List.drop_zero, List.length_cons] at hcount ⊢
      rw [List.countP_cons_of_pos rfl] at hcount
      omega

theorem view_forward (hdim : 2 ≤ contentsDim) (hs : s ≤ (st.symbol a).isSome.toNat)
    (hmoved : 0 ≤ moved)
    (w : DisasmWnd) : ∃ d < contentsDim,
      View st contentsDim (w.withLines contentsDim moved ((st.text a contentsDim).drop s)) d s ∧
        (w.withLines contentsDim moved ((st.text a contentsDim).drop s)).firstAddressShown = a := by
  have hcount := countP_drop_text hs (Nat.lt_of_succ_le (Nat.le_of_succ_le hdim))
  have hcontents : withoutExcess moved ((st.text a contentsDim).drop s) =
      ((st.text a contentsDim).drop s).take contentsDim := by
    rw [withoutExcess, if_pos hmoved]
    congr 1
    omega
  have hlength : s + contentsDim ≤ (st.text a contentsDim).length := by
    rw [List.length_drop] at hcount
    omega
  obtain ⟨d, hd, hend⟩ := exists_end a (by omega) hlength
  have htake : withoutExcess moved ((st.text a contentsDim).drop s) =
      (part st a d s).take contentsDim := by
    rw [hcontents]
    refine take_drop_text a hd ?_
    rcases hend with hend | ⟨hend, -⟩ <;> omega
  refine ⟨d, hd, ?_⟩
  rcases hend with hend | ⟨hend, hsymbol⟩
  · have hpart : (part st a d s).length = contentsDim := by
      rw [part, List.length_drop, Stream.text, ← hend, Nat.add_sub_cancel_left]
    rw [List.take_of_length_le (Nat.le_of_eq hpart)] at htake
    refine Saved.view (htake ▸ saved_part hdim hs (Nat.le_of_eq hpart.symm)) hs
      (by omega) (by omega)
      (fun h => absurd h (by omega)) w
  · have hpart : (part st a d s).length = contentsDim + 1 := by
      rw [part, List.length_drop, Stream.text, ← hend]
      omega
    rw [Stream.heading_isSome] at hsymbol
    exact Saved.view (htake ▸ saved_cut hdim hs hpart hsymbol) hs (by omega) (by omega)
      (fun _ => hsymbol) w

theorem withoutExcess_backward (hmoved : moved < 0) (b n : Nat) :
    withoutExcess moved (st.text b n) = (st.text b n).rtake n := by
  have hcount := st.countP_text b n
  rw [withoutExcess, if_neg (Int.not_le.mpr hmoved), List.rtake]
  congr 1
  omega

theorem rtake_text_add (a j n : Nat) :
    (st.text a (j + n)).rtake n = (st.text (st.next^[j] a) n).rtake n := by
  have hle : n ≤ (st.text (st.next^[j] a) n).length := le_length_text _ n
  rw [Stream.text, text_add, List.rtake, List.rtake, List.drop_append, List.length_append,
    List.drop_eq_nil_of_le (by
      change _ ≤ (st.text a j).length + (st.text (st.next^[j] a) n).length - n
      change (st.text a j).length ≤ _
      omega), List.nil_append]
  congr 1
  change (st.text a j).length + (st.text (st.next^[j] a) n).length - n - (st.text a j).length =
    (st.text (st.next^[j] a) n).length - n
  omega

theorem rtake_append_cons (xs ys : List α) (x : α) (hn : n = ys.length + 1) :
    (xs ++ x :: ys).rtake n = x :: ys := by
  rw [List.rtake, List.length_append, List.length_cons, hn, Nat.add_sub_cancel, List.drop_left]

theorem view_backward (hdim : 2 ≤ contentsDim) (hmoved : moved < 0)
    (hlast : isLast = true → (st.symbol (st.next^[contentsDim] b)).isSome = true) (w : DisasmWnd) :
    ∃ j s, j < contentsDim + isLast.toNat ∧
      View st contentsDim (w.withLines contentsDim moved (st.text b (contentsDim + isLast.toNat)))
        (contentsDim + isLast.toNat - (j + 1)) s ∧
      (w.withLines contentsDim moved (st.text b (contentsDim + isLast.toNat))).firstAddressShown =
        st.next^[j] b ∧
      withoutExcess moved (st.text b (contentsDim + isLast.toNat)) =
        part st (st.next^[j] b) (contentsDim + isLast.toNat - (j + 1)) s := by
  have hcount := st.countP_text b (contentsDim + isLast.toNat)
  obtain ⟨j, hj, s, hs, hstart⟩ :=
    exists_start (k := (st.text b (contentsDim + isLast.toNat)).countP
    Line.isSymbolName) b (show _ < (st.text b (contentsDim + isLast.toNat)).length by omega)
  rw [Stream.heading_isSome] at hs
  have hcontents : withoutExcess moved (st.text b (contentsDim + isLast.toNat)) =
      part st (st.next^[j] b) (contentsDim + isLast.toNat - (j + 1)) s := by
    rw [withoutExcess, if_neg (Int.not_le.mpr hmoved), hstart, part,
      show contentsDim + isLast.toNat - (j + 1) + 1 = contentsDim + isLast.toNat - j by omega]
    exact drop_text b (Nat.le_of_lt hj) s
  have hlength : (part st (st.next^[j] b) (contentsDim + isLast.toNat - (j + 1)) s).length =
      contentsDim + isLast.toNat := by
    rw [← hcontents, withoutExcess, if_neg (Int.not_le.mpr hmoved), List.length_drop]
    omega
  have hle := Bool.toNat_le isLast
  have hcut : contentsDim + isLast.toNat = contentsDim + 1 →
      (st.symbol (st.next^[contentsDim + isLast.toNat - (j + 1)] (st.next^[j] b))).isSome =
      true := by
    intro hone
    have htrue : isLast = true := by
      cases isLast
      · rw [Bool.toNat_false] at hone
        omega
      · rfl
    rw [htrue, Bool.toNat_true] at hj ⊢
    rw [← Function.iterate_add_apply, show contentsDim + 1 - (j + 1) + j = contentsDim by omega]
    exact hlast htrue
  obtain ⟨hview, hfirst⟩ := Saved.view (hcontents ▸ saved_part hdim hs (by omega)) hs (by omega)
    (by omega) (fun hone => hcut (hlength.symm.trans hone)) w
  exact ⟨j, s, hj, hview, hfirst, hcontents⟩

-- ---------------------------------------------------------------------------
-- Every call leaves a view, or what was there
-- ---------------------------------------------------------------------------

/-- A flag is only set at a symbol. -/
structure Flags (st : Stream) (w : DisasmWnd) : Prop where
  isFirst : w.isFirstAddressShownASymName = true → (st.symbol w.firstAddressShown).isSome = true
  isLast : w.isLastAddressShownASymName = true → (st.symbol w.lastAddressShown).isSome = true

theorem View.flags (h : View st contentsDim w d s) : Flags st w where
  isFirst := fun htrue => by
    rw [h.isFirst] at htrue
    exact (Bool.and_eq_true_iff.mp htrue).2
  isLast := fun htrue => by
    rw [h.isLast] at htrue
    exact (Bool.and_eq_true_iff.mp htrue).2

theorem Flags.withFlags (h : Flags st w) (navigate : Int) : Flags st (w.withFlags navigate) where
  isFirst := fun htrue => h.isFirst (Bool.and_eq_true_iff.mp htrue).1
  isLast := fun htrue => h.isLast (Bool.and_eq_true_iff.mp htrue).1

namespace DisasmWnd

variable {code : Code} {contentsDim pc : Nat} {navigate : Int} {w : DisasmWnd}
  {instrAt : Nat → Instr}

theorem exists_view (hflags : Flags st w) (hdim : 2 ≤ contentsDim)
    (hsymbol : ∀ first address, code.symbolAt first address = st.symbol address)
    (hfetch : code.fetch (w.asmBytesAddress pc navigate) (w.asmBytesSize navigate) = some instrAt)
    (hagrees : Agrees st instrAt (w.asmBytesAddress pc navigate) size)
    (hshown : w.shownAddresses contentsDim pc navigate instrAt = some addresses)
    (haddresses : addresses = List.iterate st.next b
      (contentsDim + (w.withFlags navigate).isLastAddressShownASymName.toNat))
    (hlast : (w.withFlags navigate).isLastAddressShownASymName = true →
      st.next^[contentsDim] b = w.lastAddressShown)
    (hle : w.asmBytesAddress pc navigate ≤ b)
    (hfits : st.next^[contentsDim + (w.withFlags navigate).isLastAddressShownASymName.toNat] b ≤
      w.asmBytesAddress pc navigate + size) :
    ∃ d s, View st contentsDim (w.disasm code contentsDim pc navigate) d s := by
  have hdim' : 0 < contentsDim + (w.withFlags navigate).isLastAddressShownASymName.toNat := by omega
  rw [disasm_of_iterate hsymbol hfetch hagrees (haddresses ▸ hshown) hdim' hle hfits]
  by_cases hmoved : 0 ≤ w.moved navigate
  · rw [withFlags_isLast_of_nonneg hmoved, Bool.toNat_false, Nat.add_zero]
    have hs : w.skipped st navigate b ≤ (st.symbol b).isSome.toNat := by
      unfold skipped
      cases w.keepsAddress navigate
      · exact Nat.zero_le _
      · exact Nat.le_refl _
    obtain ⟨d, -, hview, -⟩ := view_forward hdim hs hmoved (w.withFlags navigate)
    exact ⟨d, _, hview⟩
  · have hneg := Int.not_le.mp hmoved
    have hskipped : w.skipped st navigate b = 0 := by
      rw [skipped, keepsAddress_of_neg hneg]
      rfl
    rw [hskipped, List.drop_zero]
    obtain ⟨j, s, -, hview, -, -⟩ := view_backward hdim hneg
      (fun htrue => by
        rw [hlast htrue]
        exact hflags.isLast (Bool.and_eq_true_iff.mp htrue).1) (w.withFlags navigate)
    exact ⟨_, s, hview⟩

theorem flags_disasm (hflags : Flags st w) (hdim : 2 ≤ contentsDim)
    (hsymbol : ∀ first address, code.symbolAt first address = st.symbol address) :
    Flags st (w.disasm code contentsDim pc navigate) := by
  cases hfetch : code.fetch (w.asmBytesAddress pc navigate) (w.asmBytesSize navigate) with
  | none =>
    have heq : w.disasm code contentsDim pc navigate =
        { w.withFlags navigate with contents := [.unreadable (w.start pc navigate)] } := by
      simp only [disasm, hfetch]
    rw [heq]
    exact ⟨(hflags.withFlags navigate).isFirst, (hflags.withFlags navigate).isLast⟩
  | some instrAt =>
    cases hshown : w.shownAddresses contentsDim pc navigate instrAt with
    | none =>
      rw [disasm_of_refused hfetch hshown]
      exact hflags.withFlags navigate
    | some addresses =>
      obtain ⟨b, hle, haddresses, hlast⟩ := exists_shownAddresses (by omega) hshown
      -- the stream is the one that was decoded
      have hdecoded : Flags ⟨fun a => instrAt (a - w.asmBytesAddress pc navigate), st.symbol⟩
          (w.disasm code contentsDim pc navigate) := by
        have hagrees : Agrees ⟨fun a => instrAt (a - w.asmBytesAddress pc navigate),
            st.symbol⟩ instrAt
            (w.asmBytesAddress pc navigate) ((following instrAt (w.asmBytesAddress pc navigate))^[
              contentsDim + (w.withFlags navigate).isLastAddressShownASymName.toNat] b) := by
          intro offset _
          simp only [Nat.add_sub_cancel_left]
        have hflags : Flags ⟨fun a => instrAt (a - w.asmBytesAddress pc navigate), st.symbol⟩ w :=
          ⟨hflags.isFirst, hflags.isLast⟩
        obtain ⟨d, s, hview⟩ :=
          exists_view hflags hdim hsymbol hfetch hagrees hshown haddresses hlast hle
          (Nat.le_add_left _ _)
        exact hview.flags
      exact ⟨hdecoded.isFirst, hdecoded.isLast⟩

end DisasmWnd

end BugChecker.Disasm
