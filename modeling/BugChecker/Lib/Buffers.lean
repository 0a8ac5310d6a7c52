import Mathlib.Data.List.Basic

/-!
# Texts in a buffer

A text is written to a buffer with a terminator behind it. The places that are
written are kept, so that they can be compared with the size of the buffer. The
writing itself does not look at the size.
-/

namespace Buffers

structure Buffer (α : Type) where
  text : List α
  written : List Nat

namespace Buffer

variable {α : Type}

def empty : Buffer α := ⟨[], []⟩

def put (b : Buffer α) (place : Nat) (s : List α) : Buffer α where
  text := b.text.take place ++ s
  written := b.written ++ List.range' place (s.length + 1)

def append (b : Buffer α) (s : List α) : Buffer α := b.put b.text.length s

def appendAll (b : Buffer α) (ss : List (List α)) : Buffer α := ss.foldl append b

def set (b : Buffer α) (place : Nat) (a : α) : Buffer α :=
  ⟨b.text.set place a, b.written ++ [place]⟩

/-- What was written to the rest of a buffer, from the terminator on. -/
def extend (b c : Buffer α) : Buffer α where
  text := b.text ++ c.text
  written := b.written ++ c.written.map (b.text.length + ·)

def Within (b : Buffer α) (size : Nat) : Prop := ∀ place ∈ b.written, place < size

instance (b : Buffer α) (size : Nat) : Decidable (b.Within size) :=
  inferInstanceAs (Decidable (∀ place ∈ b.written, place < size))

/-- The terminator was written. -/
def Ends (b : Buffer α) : Prop := b.text.length ∈ b.written

theorem within_put (b : Buffer α) (place : Nat) (s : List α) :
    (b.put place s).Within size ↔ b.Within size ∧ place + s.length < size := by
  unfold Within put
  simp only [List.forall_mem_append]
  refine and_congr_right fun _ => ⟨fun h => ?_, fun h k hk => ?_⟩
  · exact h _ (List.mem_range'_1.mpr ⟨Nat.le_add_right .., by omega⟩)
  · have := (List.mem_range'_1.mp hk).2
    omega

theorem within_set (b : Buffer α) (place : Nat) (a : α) :
    (b.set place a).Within size ↔ b.Within size ∧ place < size := by
  unfold Within set
  simp only [List.forall_mem_append, List.forall_mem_singleton]

theorem text_append (b : Buffer α) (s : List α) : (b.append s).text = b.text ++ s := by
  rw [append, put, List.take_length]

theorem ends_append (b : Buffer α) (s : List α) : (b.append s).Ends := by
  unfold Ends
  rw [text_append, List.length_append]
  exact List.mem_append_right _ (List.mem_range'_1.mpr ⟨Nat.le_add_right .., by omega⟩)

theorem Ends.lt {b : Buffer α} (h : b.Ends) (hb : b.Within size) : b.text.length < size := hb _ h

theorem text_appendAll (b : Buffer α) (ss : List (List α)) :
    (b.appendAll ss).text = b.text ++ ss.flatten := by
  induction ss generalizing b with
  | nil => exact (List.append_nil _).symm
  | cons s ss ih => rw [appendAll, List.foldl_cons, ← appendAll, ih, text_append, List.flatten_cons,
    List.append_assoc]

theorem Ends.appendAll {b : Buffer α} (h : b.Ends) (ss : List (List α)) :
    (b.appendAll ss).Ends := by
  induction ss generalizing b with
  | nil => exact h
  | cons s ss ih => exact ih (ends_append b s)

theorem within_appendAll {b : Buffer α} (h : b.Ends) (ss : List (List α)) :
    (b.appendAll ss).Within size ↔ b.Within size ∧ b.text.length + ss.flatten.length < size := by
  induction ss generalizing b with
  | nil => exact ⟨fun hb => ⟨hb, h.lt hb⟩, And.left⟩
  | cons s ss ih =>
    rw [appendAll, List.foldl_cons, ← appendAll, ih (ends_append b s), text_append, append,
      within_put, List.flatten_cons, List.length_append, List.length_append]
    constructor
    · rintro ⟨⟨hb, -⟩, hlength⟩
      exact ⟨hb, by omega⟩
    · rintro ⟨hb, hlength⟩
      exact ⟨⟨hb, by omega⟩, by omega⟩

theorem Within.extend {b c : Buffer α} (hb : b.Within size) (hc : c.Within (size - b.text.length)) :
    (b.extend c).Within size := by
  unfold Within Buffer.extend
  simp only [List.forall_mem_append, List.forall_mem_map]
  exact ⟨hb, fun k hk => by have := hc k hk; omega⟩

theorem Ends.extend (b : Buffer α) {c : Buffer α} (hc : c.Ends) : (b.extend c).Ends := by
  unfold Ends Buffer.extend
  rw [List.length_append]
  exact List.mem_append_right _ (List.mem_map.mpr ⟨_, hc, rfl⟩)

end Buffer

end Buffers
