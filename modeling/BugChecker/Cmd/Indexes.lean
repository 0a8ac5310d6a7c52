import BugChecker.Cmd.Tokenize
import BugChecker.Crt.Strtoxq

/-!
# Lists of indexes

`ParseListOfDecsArgs` reads the indexes of breakpoints behind the name of a
command. A number is read with 64 bits and kept with 32.
-/

namespace BugChecker.Cmd

open Finding

/-- `TokenizeStr`. Each turn of the loop makes the text shorter. -/
def pieces (delimiter : Text) : Nat → Text → List Text
  | 0, s => piece s
  | n + 1, s =>
    match find delimiter s with
    | none => piece s
    | some pos => piece (s.take pos) ++ pieces delimiter n (s.drop (pos + delimiter.length))

def tokenizeStr (str delimiter : Text) : List Text := pieces delimiter (trim str).length (trim str)

def isDec (arg : Text) : Bool := arg ≠ [] && arg.all Char.isDigit

/-- A number as `ULONG`. -/
def narrow (arg : Text) : Nat := Crt.strtoui64 arg 10 % 2 ^ 32

/-- The loop over the arguments: whether there was a `*`, and the numbers. -/
def readArgs (size : Nat) : List Text → Bool → List Nat → Except String (Bool × List Nat)
  | [], all, nums => .ok (all, nums)
  | arg :: args, all, nums =>
    if arg = ['*'] then readArgs size args true nums
    else if !isDec arg then .error "Invalid argument."
    else if narrow arg ≥ size then .error "One or more arguments are out of range."
    else readArgs size args all (nums ++ [narrow arg])

def parseListOfDecsArgs (cmdId cmd : Text) (size : Nat) : Except String (List Nat) :=
  match tokenizeVec cmd [cmdId] with
  | [] | [_] => .error "Too few arguments."
  | [_, arg] =>
    let argsStr := tokenizeStr arg [' ']
    if argsStr = [] then .error "Syntax error."
    else do
      let (all, nums) ← readArgs size argsStr false []
      if all then
        if nums ≠ [] then .error "Specify * or a list of indexes, not both."
        else .ok (List.range size)
      else .ok nums
  | _ => .error "Too many arguments."

def listOfDecsArgs (cmdId cmd : Text) (size : Nat) : List Nat :=
  match parseListOfDecsArgs cmdId cmd size with
  | .error _ => []
  | .ok nums => nums

-- ---------------------------------------------------------------------------
-- What it is for
-- ---------------------------------------------------------------------------

def words (text : Text) : List Text := ((trim text).splitOn ' ').filter (· ≠ [])

def written (arg : Text) : Nat := arg.foldl (fun n c => 10 * n + (c.toNat - '0'.toNat)) 0

/-- All indexes for `*`, or those that are written. -/
def indexes (args : List Text) (size : Nat) : List Nat :=
  if args = [['*']] then List.range size
  else if args.all fun arg => isDec arg && written arg < size then args.map written
  else []

/-- There is no more than one `*`, and no number is less than the size with 32 bits only. -/
structure Readable (args : List Text) (size : Nat) : Prop where
  star : 0 < size → (∀ arg ∈ args, arg = ['*']) → args.length ≤ 1
  narrow : (∀ arg ∈ args, isDec arg = true ∧ written arg < 2 ^ 64 ∧ written arg % 2 ^ 32 < size) →
    ∀ arg ∈ args, written arg < size

-- ---------------------------------------------------------------------------
-- The arguments
-- ---------------------------------------------------------------------------

theorem firstAt_singleton {c : Char} {s : Text} (h : FirstAt [c] s n) :
    s = s.take n ++ c :: s.drop (n + 1) ∧ c ∉ s.take n := by
  obtain ⟨⟨rest, hrest⟩, -, hbefore⟩ := h
  have hdrop : s.drop n = c :: s.drop (n + 1) := by
    rw [Nat.add_comm, ← List.drop_drop, List.drop_drop, Nat.add_comm, ← List.drop_drop, ← hrest]
    rfl
  refine ⟨by rw [← hdrop, List.take_append_drop], fun hmem => ?_⟩
  obtain ⟨m, hm, heq⟩ := List.mem_iff_getElem.mp hmem
  rw [List.length_take] at hm
  refine hbefore m (by omega) ⟨s.drop (m + 1), ?_⟩
  rw [List.getElem_take] at heq
  rw [← heq]
  exact (List.drop_eq_getElem_cons (by omega)).symm

theorem not_mem_of_find_none {c : Char} {s : Text} (h : find [c] s = none) : c ∉ s := by
  intro hmem
  obtain ⟨n, hn, rfl⟩ := List.mem_iff_getElem.mp hmem
  have hat : [s[n]] <+: s.drop n := ⟨s.drop (n + 1), (List.drop_eq_getElem_cons hn).symm⟩
  obtain ⟨m, -, hm⟩ := find_le hat (Nat.le_of_lt hn)
  rw [h] at hm
  cases hm

theorem pieces_space {s : Text} (h : s.length ≤ n) :
    pieces [' '] n s = (s.splitOn ' ').filter (· ≠ []) := by
  have hpiece : ∀ t : Text, [t].filter (· ≠ []) = piece t := by
    intro t
    unfold piece
    by_cases ht : t = []
    · rw [if_pos ht, ht]
      rfl
    · rw [if_neg ht]
      exact List.filter_cons_of_pos (decide_eq_true ht)
  induction n generalizing s with
  | zero =>
    obtain rfl := List.eq_nil_of_length_eq_zero (Nat.le_zero.mp h)
    rfl
  | succ n ih =>
    rw [pieces]
    cases hfind : find [' '] s with
    | none =>
      dsimp only
      rw [List.splitOn_eq_singleton (not_mem_of_find_none hfind), hpiece]
    | some pos =>
      obtain ⟨hs, hnot⟩ := firstAt_singleton (find_eq_some_iff.mp hfind)
      have hlt : (s.drop (pos + 1)).length ≤ n := by
        have hlength := congrArg List.length hs
        rw [List.length_append, List.length_cons] at hlength
        omega
      dsimp only
      rw [List.length_singleton, ih hlt]
      conv => rhs; rw [hs, List.splitOn_append_cons_self_of_not_mem hnot]
      rw [← List.singleton_append, List.filter_append, hpiece]

theorem trim_cmd {cmdId : Text} (hne : cmdId ≠ [])
    (hid : ∀ c ∈ cmdId, isBlank c = false) (text : Text) :
    ∃ rest, trim (cmdId ++ ' ' :: text) = cmdId ++ rest ∧ trim rest = trim text ∧
      rest <+: ' ' :: text := by
  refine ⟨(' ' :: text).rdropWhile isBlank, ?_, ?_, List.rdropWhile_prefix _ _⟩
  · have hfront : (cmdId ++ ' ' :: text).dropWhile isBlank = cmdId ++ ' ' :: text := by
      cases cmdId with
      | nil => exact absurd rfl hne
      | cons c cmdId =>
        refine List.dropWhile_cons_of_neg ?_
        rw [hid c List.mem_cons_self]
        exact Bool.false_ne_true
    rw [trim, Finding.trim, hfront]
    refine rdropWhile_append (fun hne => ?_) _
    rw [hid _ (List.getLast_mem hne)]
    exact Bool.false_ne_true
  · rw [trim, trim_rdropWhile, trim_cons_of_blank rfl, trim]

theorem tokenizeVec_cmd {cmdId : Text} (hne : cmdId ≠ []) (hid : ∀ c ∈ cmdId, isBlank c = false)
    (text : Text) : tokenizeVec (cmdId ++ ' ' :: text) [cmdId] =
      toLower cmdId :: piece (trim text) := by
  obtain ⟨rest, htrim, hrest, hstart⟩ := trim_cmd hne hid text
  have hlength : (toLower cmdId).length = cmdId.length := List.length_map _
  have hlower : toLower (cmdId ++ rest) = toLower cmdId ++ toLower rest := List.map_append
  have hplace : wordPlace (toLower (cmdId ++ rest)) (toLower cmdId) = some 0 := by
    rw [wordPlace_eq_some_iff, hlower]
    refine ⟨⟨List.prefix_append _ _, Nat.zero_le _, fun m hm => absurd hm (Nat.not_lt_zero m)⟩,
      .inl rfl, ?_⟩
    rw [Nat.zero_add, List.length_append]
    cases rest with
    | nil => exact .inl (Nat.le_refl _)
    | cons c rest =>
      obtain ⟨rfl, -⟩ := List.cons_prefix_cons.mp hstart
      refine .inr ?_
      rw [List.getElem?_append_right (Nat.le_refl _), Nat.sub_self]
      rfl
  have hfind : findDelimiter [toLower cmdId] (toLower (cmdId ++ rest)) = some (0, 0) := by
    rw [findDelimiter]
    change better _ none (toLower cmdId, 0) = _
    simp only [better, hplace]
    rfl
  rw [tokenizeVec, htrim]
  change split findDelimiter 1 (cmdId ++ rest) [toLower cmdId] = _
  rw [split, hfind]
  dsimp only
  change [] ++ toLower cmdId :: split findDelimiter 0
    ((cmdId ++ rest).drop (0 + (toLower cmdId).length)) _ = _
  rw [Nat.zero_add, hlength, List.drop_left, split, hrest, List.nil_append]

theorem tokenizeStr_trim (text : Text) : tokenizeStr (trim text) [' '] = words text := by
  have htrim : trim (trim text) = trim text := trim_trim text
  rw [tokenizeStr, htrim, pieces_space (Nat.le_refl _), words]

-- ---------------------------------------------------------------------------
-- The numbers
-- ---------------------------------------------------------------------------

theorem value_isDigit {s : Text} (h : ∀ c ∈ s, c.isDigit = true) (n : Nat) :
    Crt.value 10 n (s.filterMap Crt.digval) =
      s.foldl (fun n c => 10 * n + (c.toNat - '0'.toNat)) n := by
  induction s generalizing n with
  | nil => rfl
  | cons c s ih =>
    obtain ⟨hc, hs⟩ := List.forall_mem_cons.mp h
    have hdigval : Crt.digval c = some (c.toNat - '0'.toNat) :=
      if_pos ((Bool.and_eq_true_iff.mp hc).imp of_decide_eq_true of_decide_eq_true)
    rw [List.filterMap_cons, hdigval, Crt.value_cons, ih hs, Nat.mul_comm n 10, List.foldl_cons]

theorem strtoui64_written {arg : Text} (h : isDec arg = true) :
    Crt.strtoui64 arg 10 = min (written arg) (2 ^ 64 - 1) := by
  have hdigits : ∀ c ∈ arg, c.isDigit = true :=
    List.all_eq_true.mp (Bool.and_eq_true_iff.mp h).2
  rw [Crt.strtoui64_of_forall (fun c hc => Crt.digval_of_isDigit (hdigits c hc)) (by decide),
    value_isDigit hdigits, written]

theorem narrow_lt_iff {arg : Text} (h : isDec arg = true) (hsize : size < 2 ^ 32) :
    narrow arg < size ↔ written arg < 2 ^ 64 ∧ written arg % 2 ^ 32 < size := by
  rw [narrow, strtoui64_written h]
  rcases Nat.lt_or_ge (written arg) (2 ^ 64) with hlt | hge
  · rw [Nat.min_eq_left (by omega)]
    exact (and_iff_right hlt).symm
  · rw [Nat.min_eq_right (by omega)]
    constructor
    · intro hless
      omega
    · intro hless
      omega

-- ---------------------------------------------------------------------------
-- The list
-- ---------------------------------------------------------------------------

/-- What the loop accepts. -/
def Accepts (size : Nat) (arg : Text) : Prop := arg = ['*'] ∨ isDec arg = true ∧ narrow arg < size

theorem readArgs_of_accepts {args : List Text} (h : ∀ arg ∈ args, Accepts size arg) (all : Bool)
    (nums : List Nat) :
    readArgs size args all nums =
      .ok (all || decide (['*'] ∈ args), nums ++ (args.filter (· ≠ ['*'])).map narrow) := by
  induction args generalizing all nums with
  | nil => simp [readArgs]
  | cons arg args ih =>
    have hrest : ∀ arg ∈ args, Accepts size arg := fun a ha => h a (List.mem_cons_of_mem _ ha)
    rw [readArgs]
    rcases h arg List.mem_cons_self with rfl | ⟨hdec, hlt⟩
    · rw [if_pos rfl, ih hrest]
      simp
    · have hne : arg ≠ ['*'] := by
        rintro rfl
        cases hdec
      rw [if_neg hne, hdec, if_neg (by decide), if_neg (Nat.not_le_of_lt hlt), ih hrest]
      simp [hne, Ne.symm hne]

theorem readArgs_of_not_accepts {args : List Text} (h : arg ∈ args)
    (harg : ¬ Accepts size arg) (all : Bool)
    (nums : List Nat) : ∃ e, readArgs size args all nums = .error e := by
  induction args generalizing all nums with
  | nil => cases h
  | cons a args ih =>
    rw [readArgs]
    by_cases hstar : a = ['*']
    · rw [if_pos hstar]
      refine ih ?_ _ _
      rcases List.mem_cons.mp h with rfl | hmem
      · exact absurd (.inl hstar) harg
      · exact hmem
    · rw [if_neg hstar]
      cases hdec : isDec a with
      | false => exact ⟨_, rfl⟩
      | true =>
        rw [if_neg (by decide)]
        by_cases hge : narrow a ≥ size
        · rw [if_pos hge]
          exact ⟨_, rfl⟩
        · rw [if_neg hge]
          refine ih ?_ _ _
          rcases List.mem_cons.mp h with rfl | hmem
          · exact absurd (.inr ⟨hdec, Nat.lt_of_not_le hge⟩) harg
          · exact hmem

def readIndexes (size : Nat) (args : List Text) : List Nat :=
  match readArgs size args false [] with
  | .error _ => []
  | .ok (all, nums) => if all then if nums ≠ [] then [] else List.range size else nums

theorem listOfDecsArgs_eq {cmdId : Text} (hne : cmdId ≠ []) (hid : ∀ c ∈ cmdId, isBlank c = false)
    (text : Text) (size : Nat) : listOfDecsArgs cmdId (cmdId ++ ' ' :: text) size =
      readIndexes size (words text) := by
  rw [listOfDecsArgs, parseListOfDecsArgs, tokenizeVec_cmd hne hid]
  unfold piece
  by_cases hnil : trim text = []
  · rw [if_pos hnil, words, hnil]
    rfl
  · rw [if_neg hnil]
    dsimp only
    rw [tokenizeStr_trim, readIndexes]
    by_cases hwords : words text = []
    · rw [if_pos hwords, hwords]
      rfl
    · rw [if_neg hwords]
      cases readArgs size (words text) false [] with
      | error e => rfl
      | ok r =>
        obtain ⟨all, nums⟩ := r
        cases all with
        | false => rfl
        | true =>
          cases nums with
          | nil => rfl
          | cons n nums => rfl

theorem indexes_of_not_accepts (hsize : size < 2 ^ 32) {args : List Text} (h : arg ∈ args)
    (harg : ¬ Accepts size arg) : indexes args size = [] := by
  have hstar : args ≠ [['*']] := by
    rintro rfl
    exact harg (.inl (List.mem_singleton.mp h))
  have hall : ¬ (args.all fun arg => isDec arg && decide (written arg < size)) = true := by
    intro hall
    obtain ⟨hdec, hlt⟩ := Bool.and_eq_true_iff.mp (List.all_eq_true.mp hall arg h)
    have hlt := of_decide_eq_true hlt
    refine harg (.inr ⟨hdec, (narrow_lt_iff hdec hsize).mpr ⟨by omega, ?_⟩⟩)
    exact Nat.lt_of_le_of_lt (Nat.mod_le _ _) hlt
  rw [indexes, if_neg hstar, if_neg hall]

theorem readable_of_not_accepts (hsize : size < 2 ^ 32) {args : List Text} (h : arg ∈ args)
    (harg : ¬ Accepts size arg) : Readable args size where
  star _ hall := absurd (.inl (hall arg h)) harg
  narrow hall :=
    absurd (.inr ⟨(hall arg h).1, (narrow_lt_iff (hall arg h).1 hsize).mpr (hall arg h).2⟩) harg

theorem readIndexes_of_accepts {args : List Text} (h : ∀ arg ∈ args, Accepts size arg) :
    readIndexes size args =
      if ['*'] ∈ args then
        if (args.filter (· ≠ ['*'])).map narrow ≠ [] then [] else List.range size
      else args.map narrow := by
  rw [readIndexes, readArgs_of_accepts h]
  by_cases hstar : ['*'] ∈ args
  · rw [if_pos hstar, decide_eq_true hstar]
    rfl
  · have hfilter : args.filter (· ≠ ['*']) = args :=
      List.filter_eq_self.mpr fun arg harg => decide_eq_true fun heq => hstar (heq ▸ harg)
    rw [if_neg hstar, decide_eq_false hstar, hfilter]
    rfl

theorem readIndexes_star_iff {args : List Text} (h : ∀ arg ∈ args, Accepts size arg)
    (hstar : ['*'] ∈ args) :
    readIndexes size args = indexes args size ↔ Readable args size := by
  have hdec : ∀ {P : Text → Prop}, (∀ arg ∈ args, isDec arg = true ∧ P arg) → False :=
    fun hall => by cases (hall _ hstar).1
  have hall : ¬ (args.all fun arg => isDec arg && decide (written arg < size)) = true := by
    intro hall
    cases (Bool.and_eq_true_iff.mp (List.all_eq_true.mp hall _ hstar)).1
  rw [readIndexes_of_accepts h, if_pos hstar, indexes, if_neg hall]
  by_cases hone : args = [['*']]
  · rw [if_pos hone, hone]
    exact iff_of_true rfl ⟨fun _ _ => Nat.le_refl 1,
      fun hdec => by cases (hdec _ List.mem_cons_self).1⟩
  · rw [if_neg hone]
    by_cases hstars : ∀ arg ∈ args, arg = ['*']
    · have hfilter : args.filter (· ≠ ['*']) = [] :=
        List.filter_eq_nil_iff.mpr fun arg harg => by simp [hstars arg harg]
      have hmany : ¬ args.length ≤ 1 := by
        intro hle
        obtain ⟨arg, rest, rfl⟩ := List.exists_cons_of_ne_nil (List.ne_nil_of_mem hstar)
        obtain rfl := List.eq_nil_of_length_eq_zero (Nat.le_zero.mp (Nat.le_of_succ_le_succ hle))
        exact hone (congrArg ([·]) (hstars arg List.mem_cons_self))
      rw [hfilter, List.map_nil, if_neg (fun hne => hne rfl), List.range_eq_nil]
      constructor
      · rintro rfl
        exact ⟨fun hpos => absurd hpos (Nat.lt_irrefl 0), fun hall => (hdec hall).elim⟩
      · intro hreadable
        by_contra hpos
        exact hmany (hreadable.star (Nat.pos_of_ne_zero hpos) hstars)
    · have hfilter : (args.filter (· ≠ ['*'])).map narrow ≠ [] := by
        intro hnil
        refine hstars fun arg harg => ?_
        have hnot := List.filter_eq_nil_iff.mp (List.map_eq_nil_iff.mp hnil) arg harg
        exact not_not.mp fun hne => hnot (decide_eq_true hne)
      rw [if_pos hfilter]
      exact iff_of_true rfl ⟨fun _ hall => absurd hall hstars, fun hall => (hdec hall).elim⟩

theorem readIndexes_dec_iff (hsize : size < 2 ^ 32) {args : List Text}
    (h : ∀ arg ∈ args, Accepts size arg)
    (hstar : ['*'] ∉ args) : readIndexes size args = indexes args size ↔ Readable args size := by
  have hdec : ∀ arg ∈ args, isDec arg = true ∧ narrow arg < size := by
    intro arg harg
    rcases h arg harg with rfl | hdec
    · exact absurd harg hstar
    · exact hdec
  have hone : args ≠ [['*']] := by
    rintro rfl
    exact hstar List.mem_cons_self
  have hstars : (∀ arg ∈ args, arg = ['*']) → args.length ≤ 1 := by
    intro hall
    cases args with
    | nil => exact Nat.zero_le 1
    | cons arg args => exact absurd (hall arg List.mem_cons_self ▸ List.mem_cons_self) hstar
  rw [readIndexes_of_accepts h, if_neg hstar, indexes, if_neg hone]
  by_cases hwritten : ∀ arg ∈ args, written arg < size
  · have hall : (args.all fun arg => isDec arg && decide (written arg < size)) = true :=
      List.all_eq_true.mpr fun arg harg =>
        Bool.and_eq_true_iff.mpr ⟨(hdec arg harg).1, decide_eq_true (hwritten arg harg)⟩
    rw [if_pos hall]
    refine iff_of_true (List.map_congr_left fun arg harg => ?_) ⟨fun _ => hstars, fun _ => hwritten⟩
    have hlt := hwritten arg harg
    rw [narrow, strtoui64_written (hdec arg harg).1, Nat.min_eq_left (by omega)]
    exact Nat.mod_eq_of_lt (by omega)
  · have hall : ¬ (args.all fun arg => isDec arg && decide (written arg < size)) = true :=
      fun hall =>
      hwritten fun arg harg =>
        of_decide_eq_true (Bool.and_eq_true_iff.mp (List.all_eq_true.mp hall arg harg)).2
    rw [if_neg hall]
    refine iff_of_false (fun hnil => ?_) fun hreadable => hwritten (hreadable.narrow fun arg harg =>
      ⟨(hdec arg harg).1, (narrow_lt_iff (hdec arg harg).1 hsize).mp (hdec arg harg).2⟩)
    rw [List.map_eq_nil_iff] at hnil
    subst hnil
    exact hwritten fun arg harg => by cases harg

theorem readIndexes_eq_iff (hsize : size < 2 ^ 32) (args : List Text) :
    readIndexes size args = indexes args size ↔ Readable args size := by
  by_cases haccepts : ∀ arg ∈ args, Accepts size arg
  · by_cases hstar : ['*'] ∈ args
    · exact readIndexes_star_iff haccepts hstar
    · exact readIndexes_dec_iff hsize haccepts hstar
  · obtain ⟨arg, harg, hnot⟩ : ∃ arg ∈ args, ¬ Accepts size arg := by
      by_contra hnone
      exact haccepts fun arg harg => by_contra fun hnot => hnone ⟨arg, harg, hnot⟩
    refine iff_of_true ?_ (readable_of_not_accepts hsize harg hnot)
    obtain ⟨e, he⟩ := readArgs_of_not_accepts harg hnot false []
    rw [indexes_of_not_accepts hsize harg hnot, readIndexes, he]

/-- The list is that of the numbers that are written exactly if the arguments are readable. -/
theorem listOfDecsArgs_eq_iff {cmdId : Text} (hne : cmdId ≠ [])
    (hid : ∀ c ∈ cmdId, isBlank c = false)
    (text : Text) (size : UInt32) :
    listOfDecsArgs cmdId (cmdId ++ ' ' :: text) size.toNat = indexes (words text) size.toNat ↔
      Readable (words text) size.toNat := by
  rw [listOfDecsArgs_eq hne hid]
  exact readIndexes_eq_iff size.toNat_lt _

theorem listOfDecsArgs_two :
    listOfDecsArgs "BC".toList ("BC".toList ++ ' ' :: "2 0".toList) (3 : UInt32).toNat =
      indexes (words "2 0".toList) (3 : UInt32).toNat :=
  (listOfDecsArgs_eq_iff (by decide)
    (List.forall_mem_cons.mpr ⟨rfl, List.forall_mem_singleton.mpr rfl⟩)
    "2 0".toList 3).mpr
    ⟨by decide +kernel, by decide +kernel⟩

/-- 2^32 is taken for 0. -/
theorem listOfDecsArgs_long :
    listOfDecsArgs "BC".toList ("BC".toList ++ ' ' :: "4294967296".toList) (1 : UInt32).toNat =
    [0] ∧
      indexes (words "4294967296".toList) (1 : UInt32).toNat = [] := by
  decide +kernel

end BugChecker.Cmd
