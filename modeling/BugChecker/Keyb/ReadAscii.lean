import BugChecker.Lib.Runs

/-!
# The keyboard

`ReadAscii` takes a byte of the PS/2 keyboard, keeps track of SHIFT, CTRL and
ALT, and looks other keys up in the tables of the layout. The prefix of the
extended keys is passed over, so that the right CTRL and ALT GR are like the
left ones.
-/

namespace BugChecker.Ps2Keyb

open Runs

def MACRO_SCANCODE_CTRL : UInt8 := 0x1D
def MACRO_SCANCODE_LShift : UInt8 := 0x2A
def MACRO_SCANCODE_RShift : UInt8 := 0x36
def MACRO_SCANCODE_Alt : UInt8 := 0x38
def MACRO_ASCIICONVERSION_RETVAL_CHECK_SCANCODE : UInt16 := 0xFF

/-- Keys that follow each other on the keyboard, from a scancode on. -/
def keys (first : UInt16) (chars : String) : List UInt16 :=
  chars.toList.zipIdx.map fun (c, i) => ((first + .ofNat i) <<< 8) ||| .ofNat c.toNat

def scancodeToAsciiMap_EN : List UInt16 :=
  keys 0x02 "1234567890-=" ++ keys 0x10 "qwertyuiop[]" ++ keys 0x1E "asdfghjkl;'`" ++
    keys 0x2B "\\zxcvbnm,./" ++ keys 0x37 "*" ++ keys 0x39 " " ++ keys 0x4A "-" ++ keys 0x4E "+"

def scancodeToAsciiMap_ShiftPressed_EN : List UInt16 :=
  keys 0x02 "!@#$%^&*()_+" ++ keys 0x10 "QWERTYUIOP\x7b\x7d" ++ keys 0x1E "ASDFGHJKL:\"" ++
    keys 0x2B "|ZXCVBNM<>?"

def scancodeToAsciiMap_AltPressed_EN : List UInt16 := []
def scancodeToAsciiMap_ShiftAltPressed_EN : List UInt16 := []

def scancodeToAsciiMap_IT : List UInt16 :=
  keys 0x02 "1234567890'" ++ keys 0x10 "qwertyuiop" ++ keys 0x1B "+" ++ keys 0x1E "asdfghjkl" ++
    keys 0x29 "\\" ++ keys 0x56 "<" ++ keys 0x2C "zxcvbnm,.-" ++ keys 0x37 "*" ++ keys 0x39 " " ++
    keys 0x4A "-" ++ keys 0x4E "+"

def scancodeToAsciiMap_ShiftPressed_IT : List UInt16 :=
  keys 0x02 "!\"" ++ keys 0x05 "$%&/()=?^" ++ keys 0x10 "QWERTYUIOP" ++ keys 0x1B "*" ++
    keys 0x1E "ASDFGHJKL" ++ keys 0x29 "|" ++ keys 0x56 ">" ++ keys 0x2C "ZXCVBNM;:_"

def scancodeToAsciiMap_AltPressed_IT : List UInt16 := keys 0x1A "[]" ++ keys 0x27 "@#"
def scancodeToAsciiMap_ShiftAltPressed_IT : List UInt16 := keys 0x1A "\x7b\x7d"

/-- What `KL` can set the layout to. -/
inductive KbLayout where
  | en | it
  deriving DecidableEq

structure Modifiers where
  shiftState : Bool
  ctrlState : Bool
  altState : Bool
  deriving DecidableEq

def Modifiers.none : Modifiers := ⟨false, false, false⟩

def table (layout : KbLayout) (m : Modifiers) : List UInt16 :=
  match layout with
  | .en =>
    if m.shiftState then
      if m.altState then scancodeToAsciiMap_ShiftAltPressed_EN
        else scancodeToAsciiMap_ShiftPressed_EN
    else if m.altState then scancodeToAsciiMap_AltPressed_EN
    else scancodeToAsciiMap_EN
  | .it =>
    if m.shiftState then
      if m.altState then scancodeToAsciiMap_ShiftAltPressed_IT
        else scancodeToAsciiMap_ShiftPressed_IT
    else if m.altState then scancodeToAsciiMap_AltPressed_IT
    else scancodeToAsciiMap_IT

/-- A key that is not in the table is known by its scancode only. -/
def lookup (p : List UInt16) (s : UInt8) : UInt16 :=
  match p.find? fun w : UInt16 => w >>> 8 = s.toUInt16 with
  | some w => w
  | .none => (s.toUInt16 <<< 8) ||| MACRO_ASCIICONVERSION_RETVAL_CHECK_SCANCODE

def readAscii (layout : KbLayout) (m : Modifiers) (s : UInt8) : UInt16 × Modifiers :=
  if s = MACRO_SCANCODE_LShift ∨ s = MACRO_SCANCODE_RShift then (0, { m with shiftState := true })
  else if s = MACRO_SCANCODE_LShift ||| 0x80 ∨ s = MACRO_SCANCODE_RShift ||| 0x80 then
    (0, { m with shiftState := false })
  else if s = MACRO_SCANCODE_CTRL then (0, { m with ctrlState := true })
  else if s = MACRO_SCANCODE_CTRL ||| 0x80 then (0, { m with ctrlState := false })
  else if s = MACRO_SCANCODE_Alt then (0, { m with altState := true })
  else if s = MACRO_SCANCODE_Alt ||| 0x80 then (0, { m with altState := false })
  else if s = 0 ∨ s ≥ 0x80 then (0, m)
  else (lookup (table layout m) s, m)

/-- The keyboard loop: what is read, byte by byte, and the modifiers at the end. -/
def readAll (layout : KbLayout) : Modifiers → List UInt8 → List UInt16 × Modifiers
  | m, [] => ([], m)
  | m, s :: bytes =>
    let (b, m) := readAscii layout m s
    let (bs, m) := readAll layout m bytes
    (b :: bs, m)

def typedChar (b : UInt16) : Option Char :=
  let chr := b &&& 0xFF
  if chr ≥ 32 ∧ chr < 128 then some (Char.ofNat chr.toNat) else .none

def typed (layout : KbLayout) (bytes : List UInt8) : List Char :=
  (readAll layout .none bytes).1.filterMap typedChar

theorem readAll_append (layout : KbLayout) (m : Modifiers) (xs ys : List UInt8) :
    readAll layout m (xs ++ ys) =
      ((readAll layout m xs).1 ++ (readAll layout (readAll layout m xs).2 ys).1,
        (readAll layout (readAll layout m xs).2 ys).2) := by
  induction xs generalizing m with
  | nil => rfl
  | cons s xs ih => simp [readAll, ih]

-- ---------------------------------------------------------------------------
-- The keys that are held
-- ---------------------------------------------------------------------------

inductive Modifier where
  | shift | ctrl | alt
  deriving DecidableEq

def Modifiers.get (m : Modifiers) : Modifier → Bool
  | .shift => m.shiftState
  | .ctrl => m.ctrlState
  | .alt => m.altState

/-- A key, with the prefix `0xE0` or without. -/
structure Key where
  code : UInt8
  extended : Bool
  code_pos : 0 < code.toNat
  code_lt : code.toNat < 0x80
  deriving DecidableEq

def modifierOf (s : UInt8) : Option Modifier :=
  if s = MACRO_SCANCODE_LShift ∨ s = MACRO_SCANCODE_RShift then some .shift
  else if s = MACRO_SCANCODE_CTRL then some .ctrl
  else if s = MACRO_SCANCODE_Alt then some .alt
  else .none

inductive KeyEvent where
  -- also when the keyboard repeats a key
  | press (k : Key)
  | release (k : Key)

def KeyEvent.key : KeyEvent → Key
  | .press k => k
  | .release k => k

def KeyEvent.bytes : KeyEvent → List UInt8
  | .press k => (if k.extended then [0xE0] else []) ++ [k.code]
  | .release k => (if k.extended then [0xE0] else []) ++ [k.code ||| 0x80]

/-- The debugger with the keyboard in front of it. -/
structure Keyboard where
  modifiers : Modifiers
  held : Key → Bool

def Keyboard.start : Keyboard := ⟨.none, fun _ => false⟩

def Keyboard.next (layout : KbLayout) (s : Keyboard) (e : KeyEvent) : Keyboard where
  modifiers := (readAll layout s.modifiers e.bytes).2
  held := match e with
    | .press k => fun k' => if k' = k then true else s.held k'
    | .release k => fun k' => if k' = k then false else s.held k'

/-- The modifiers are those that are held. -/
def Keyboard.Agrees (s : Keyboard) : Prop :=
  ∀ g, s.modifiers.get g = true ↔ ∃ k : Key, modifierOf k.code = some g ∧ s.held k = true

/-- A modifier is not released while another key for it is held. -/
def Keyboard.Alone (s : Keyboard) : KeyEvent → Prop
  | .press _ => True
  | .release k => modifierOf k.code ≠ .none →
      ∀ k', k' ≠ k → modifierOf k'.code = modifierOf k.code → s.held k' = false

variable {layout : KbLayout}

def Modifiers.set (m : Modifiers) (state : Bool) : Option Modifier → Modifiers
  | .none => m
  | some .shift => { m with shiftState := state }
  | some .ctrl => { m with ctrlState := state }
  | some .alt => { m with altState := state }

theorem Modifiers.get_set (m : Modifiers) (state : Bool) (o : Option Modifier) (g : Modifier) :
    (m.set state o).get g = if o = some g then state else m.get g := by
  cases o with
  | none => rfl
  | some g' => cases g' <;> cases g <;> rfl

theorem or_toNat {s : UInt8} (hs : s.toNat < 0x80) : (s ||| 0x80).toNat = s.toNat + 0x80 := by
  rw [UInt8.toNat_or]
  change s.toNat ||| 2 ^ 7 * 1 = _
  rw [Nat.or_comm, ← Nat.two_pow_add_eq_or_of_lt hs]
  omega

theorem break_codes : (0x2A : UInt8) ||| 0x80 = 0xAA ∧ (0x36 : UInt8) ||| 0x80 = 0xB6 ∧
    (0x1D : UInt8) ||| 0x80 = 0x9D ∧ (0x38 : UInt8) ||| 0x80 = 0xB8 := by decide

theorem readAscii_make {s : UInt8} (hs : s.toNat < 0x80) (m : Modifiers) :
    (readAscii layout m s).2 = m.set true (modifierOf s) := by
  obtain ⟨hl, hr, hc, ha⟩ := break_codes
  unfold readAscii modifierOf MACRO_SCANCODE_LShift MACRO_SCANCODE_RShift MACRO_SCANCODE_CTRL
    MACRO_SCANCODE_Alt
  simp only [hl, hr, hc, ha, ← UInt8.toNat_inj, UInt8.le_iff_toNat_le, ge_iff_le, UInt8.reduceToNat]
  split_ifs <;> first | rfl | omega

theorem readAscii_break {s : UInt8} (hs : s.toNat < 0x80) (m : Modifiers) :
    (readAscii layout m (s ||| 0x80)).2 = m.set false (modifierOf s) := by
  obtain ⟨hl, hr, hc, ha⟩ := break_codes
  unfold readAscii modifierOf MACRO_SCANCODE_LShift MACRO_SCANCODE_RShift MACRO_SCANCODE_CTRL
    MACRO_SCANCODE_Alt
  simp only [hl, hr, hc, ha, ← UInt8.toNat_inj, UInt8.le_iff_toNat_le, ge_iff_le, or_toNat hs,
    UInt8.reduceToNat]
  split_ifs <;> first | rfl | omega

theorem next_modifiers (layout : KbLayout) (s : Keyboard) (e : KeyEvent) :
    (s.next layout e).modifiers = match e with
      | .press k => s.modifiers.set true (modifierOf k.code)
      | .release k => s.modifiers.set false (modifierOf k.code) := by
  have hextended : ∀ (m : Modifiers) (extended : Bool) (byte : UInt8),
      (readAll layout m ((if extended then [0xE0] else []) ++ [byte])).2 =
      (readAscii layout m byte).2 := by
    intro m extended byte
    cases extended <;> rfl
  cases e with
  | press k => exact (hextended ..).trans (readAscii_make k.code_lt _)
  | release k => exact (hextended ..).trans (readAscii_break k.code_lt _)

theorem next_held (s : Keyboard) (k : Key) :
    (s.next layout (.press k)).held k = true ∧ (s.next layout (.release k)).held k = false :=
  ⟨if_pos rfl, if_pos rfl⟩

theorem next_held_other (s : Keyboard) {e : KeyEvent} {k : Key} (h : k ≠ e.key) :
    (s.next layout e).held k = s.held k := by
  cases e with
  | press _ => exact if_neg h
  | release _ => exact if_neg h

theorem next_exists_other (s : Keyboard) (e : KeyEvent) {g : Modifier}
    (h : modifierOf e.key.code ≠ some g) :
    (∃ k : Key, modifierOf k.code = some g ∧ (s.next layout e).held k = true) ↔
      ∃ k : Key, modifierOf k.code = some g ∧ s.held k = true := by
  apply exists_congr
  intro k
  refine and_congr_right fun hk => ?_
  rw [next_held_other s fun heq => h (heq ▸ hk)]

/-- One event keeps the modifiers right exactly if it is not a release besides another key. -/
theorem next_agrees_iff (s : Keyboard) (e : KeyEvent) (h : s.Agrees) :
    (s.next layout e).Agrees ↔ s.Alone e := by
  have hmod := next_modifiers layout s e
  cases e with
  | press k =>
    refine iff_of_true (fun g => ?_) trivial
    rw [hmod, Modifiers.get_set]
    by_cases hg : modifierOf k.code = some g
    · rw [if_pos hg]
      exact iff_of_true rfl ⟨k, hg, (next_held s k).1⟩
    · rw [if_neg hg, h g]
      exact (next_exists_other s (.press k) hg).symm
  | release k =>
    constructor
    · intro hnext hne k' hk' hsame
      obtain ⟨g, hg⟩ := Option.ne_none_iff_exists'.mp hne
      -- the modifier is off, so no key for it is held
      by_contra hheld
      have hon :=
        (hnext g).mpr ⟨k', hsame.trans hg, (next_held_other s hk').trans (by simpa using hheld)⟩
      rw [hmod, Modifiers.get_set, if_pos hg] at hon
      cases hon
    · intro halone g
      rw [hmod, Modifiers.get_set]
      by_cases hg : modifierOf k.code = some g
      · rw [if_pos hg]
        refine iff_of_false (by simp) ?_
        rintro ⟨k', hk', hheld⟩
        by_cases heq : k' = k
        · subst heq
          simp [(next_held s k').2] at hheld
        · rw [next_held_other s heq, halone (by simp [hg]) k' heq (hk'.trans hg.symm)] at hheld
          cases hheld
      · rw [if_neg hg, h g]
        exact (next_exists_other s (.release k) hg).symm

def typeable (layout : KbLayout) (c : Char) : Bool :=
  0x20 ≤ c.toNat && c.toNat < 0x7F && c.toNat != 0x7E && !(layout = .it && c.toNat == 0x60)

def around (m : Modifiers) : List UInt8 × List UInt8 :=
  ((if m.shiftState then [MACRO_SCANCODE_LShift]
    else []) ++ (if m.altState then [MACRO_SCANCODE_Alt] else []),
    (if m.altState then [MACRO_SCANCODE_Alt ||| 0x80] else []) ++
      if m.shiftState then [MACRO_SCANCODE_LShift ||| 0x80] else [])

def pressed : List Modifiers :=
  [.none, ⟨true, false, false⟩, ⟨false, false, true⟩, ⟨true, false, true⟩]

/-- The bytes for a character: its key, with the modifiers of the first table that has it. -/
def keystrokes (layout : KbLayout) (c : Char) : List UInt8 :=
  (pressed.findSome? fun m =>
    ((table layout m).find? fun w : UInt16 => w &&& 0xFF = .ofNat c.toNat).map fun w : UInt16 =>
      (around m).1 ++ [(w >>> 8).toUInt8, (w >>> 8).toUInt8 ||| 0x80] ++ (around m).2).getD []

/-- The bytes of a character type it and leave no modifier behind. -/
def TypesItself (layout : KbLayout) (c : Char) : Prop :=
  (readAll layout .none (keystrokes layout c)).1.filterMap typedChar = [c] ∧
    (readAll layout .none (keystrokes layout c)).2 = .none

instance (layout : KbLayout) (c : Char) : Decidable (TypesItself layout c) :=
  inferInstanceAs (Decidable (_ ∧ _))

theorem typesItself_ascii : ([KbLayout.en, .it].all fun layout => (List.range 0x7F).all fun n =>
    !typeable layout (Char.ofNat n) || TypesItself layout (Char.ofNat n)) = true := by
  decide +kernel

theorem typesItself {c : Char} (h : typeable layout c = true) : TypesItself layout c := by
  have hlayout : layout ∈ [KbLayout.en, .it] := by cases layout <;> simp
  have hc : c.toNat < 0x7F := by
    simp only [typeable, Bool.and_eq_true, decide_eq_true_eq] at h
    exact h.1.1.2
  have hall :=
    List.all_eq_true.mp (List.all_eq_true.mp typesItself_ascii _ hlayout) _ (List.mem_range.mpr hc)
  rw [Char.ofNat_toNat, h, Bool.not_true, Bool.false_or] at hall
  exact of_decide_eq_true hall

theorem readAll_keystrokes {text : List Char} (h : ∀ c ∈ text, typeable layout c = true) :
    (readAll layout .none (text.flatMap (keystrokes layout))).1.filterMap typedChar = text ∧
      (readAll layout .none (text.flatMap (keystrokes layout))).2 = .none := by
  induction text with
  | nil => exact ⟨rfl, rfl⟩
  | cons c text ih =>
    obtain ⟨hc, htext⟩ := List.forall_mem_cons.mp h
    obtain ⟨hchar, hnone⟩ := typesItself hc
    obtain ⟨hchars, hend⟩ := ih htext
    rw [List.flatMap_cons, readAll_append, hnone, List.filterMap_append, hchar, hchars]
    exact ⟨rfl, hend⟩

theorem typeable_tables : ([KbLayout.en, .it].all fun layout => pressed.all fun m =>
    (table layout m).all fun w => (typedChar w).all (typeable layout)) = true := by
  decide +kernel

theorem typeable_lookup (m : Modifiers) (s : UInt8) {c : Char}
    (h : typedChar (lookup (table layout m) s) = some c) : typeable layout c = true := by
  have hlayout : layout ∈ [KbLayout.en, .it] := by cases layout <;> simp
  have hm : ⟨m.shiftState, false, m.altState⟩ ∈ pressed := by
    cases m.shiftState <;> cases m.altState <;> decide
  have hall := List.all_eq_true.mp (List.all_eq_true.mp typeable_tables _ hlayout) _ hm
  cases hfind : (table layout m).find? fun w : UInt16 => w >>> 8 = s.toUInt16 with
  | none =>
    -- the low byte is `0xFF`
    have hlow : ((s.toUInt16 <<< 8) ||| MACRO_ASCIICONVERSION_RETVAL_CHECK_SCANCODE) &&& 0xFF =
        0xFF := by
      apply UInt16.toNat_inj.mp
      apply Nat.eq_of_testBit_eq
      intro i
      simp only [MACRO_ASCIICONVERSION_RETVAL_CHECK_SCANCODE, UInt16.toNat_and, UInt16.toNat_or,
        Nat.testBit_and, Nat.testBit_or]
      cases (255 : UInt16).toNat.testBit i <;> simp
    rw [lookup, hfind] at h
    simp only [typedChar, hlow] at h
    cases h
  | some w =>
    rw [lookup, hfind] at h
    have hw := List.all_eq_true.mp hall w (List.mem_of_find?_eq_some hfind)
    rw [h] at hw
    exact hw

theorem readAscii_cases (layout : KbLayout) (m : Modifiers) (s : UInt8) :
    (readAscii layout m s).1 = 0 ∨ (readAscii layout m s).1 = lookup (table layout m) s := by
  unfold readAscii
  split_ifs <;> simp

theorem typeable_readAll (m : Modifiers) (bytes : List UInt8) :
    ∀ c ∈ (readAll layout m bytes).1.filterMap typedChar, typeable layout c = true := by
  induction bytes generalizing m with
  | nil => simp [readAll]
  | cons s bytes ih =>
    simp only [readAll, List.filterMap_cons]
    cases hchar : typedChar (readAscii layout m s).1 with
    | none => exact ih _
    | some d =>
      refine List.forall_mem_cons.mpr ⟨?_, ih _⟩
      rcases readAscii_cases layout m s with hzero | hlookup
      · rw [hzero] at hchar
        cases hchar
      · exact typeable_lookup m s (hlookup ▸ hchar)

/-- The texts that can be typed at all, and that the tables say how, one character after the other.
-/
theorem exists_typed_iff (layout : KbLayout) (text : List Char) :
    ((∃ bytes, typed layout bytes = text) ↔ ∀ c ∈ text, typeable layout c = true) ∧
      ((∀ c ∈ text, typeable layout c = true) ↔
        typed layout (text.flatMap (keystrokes layout)) = text ∧
          (readAll layout .none (text.flatMap (keystrokes layout))).2 = .none) := by
  have htypeable : (∃ bytes, typed layout bytes = text) → ∀ c ∈ text, typeable layout c = true := by
    rintro ⟨bytes, rfl⟩
    exact typeable_readAll .none bytes
  constructor
  · exact ⟨htypeable, fun h => ⟨_, (readAll_keystrokes h).1⟩⟩
  · exact ⟨readAll_keystrokes, fun h => htypeable ⟨_, h.1⟩⟩

end BugChecker.Ps2Keyb
