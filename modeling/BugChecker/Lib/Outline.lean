import Mathlib.Data.List.Basic

/-!
# Outlines of ordered forests

The outline of a forest lists its nodes in preorder, each with its depth. An
indented text file is such a list.
-/

namespace Outline

inductive Rose (α : Type) where
  | node (name : α) (children : List (Rose α))

namespace Rose

variable {α : Type}

def name : Rose α → α
  | .node name _ => name

def children : Rose α → List (Rose α)
  | .node _ children => children

@[simp] theorem name_node (n : α) (ts : List (Rose α)) : (node n ts).name = n := rfl

@[simp] theorem children_node (n : α) (ts : List (Rose α)) : (node n ts).children = ts := rfl

@[simp] theorem node_eta (t : Rose α) : node t.name t.children = t := by
  cases t; rfl

end Rose

mutual
def outlineOf (depth : Nat) : Rose α → List (Nat × α)
  | .node name children => (depth, name) :: outline (depth + 1) children
/-- The nodes of a forest in preorder, its roots at `depth`. -/
def outline (depth : Nat) : List (Rose α) → List (Nat × α)
  | [] => []
  | t :: ts => outlineOf depth t ++ outline depth ts
end

@[simp] theorem outline_nil : outline depth ([] : List (Rose α)) = [] := by simp [outline]

theorem outline_cons (t : Rose α) (ts : List (Rose α)) :
    outline depth (t :: ts) =
      (depth, t.name) :: (outline (depth + 1) t.children ++ outline depth ts) := by
  cases t; simp [outline, outlineOf]

theorem outline_append (ts us : List (Rose α)) :
    outline depth (ts ++ us) = outline depth ts ++ outline depth us := by
  induction ts with
  | nil => simp
  | cons t ts ih => simp [outline_cons, ih]

theorem length_le_outline (depth : Nat) (ts : List (Rose α)) :
    ts.length ≤ (outline depth ts).length := by
  induction ts with
  | nil => simp
  | cons t ts ih =>
    simp only [outline_cons, List.length_cons, List.length_append]
    omega

theorem forall_mem_outline {p : Nat × α → Prop} {ts : List (Rose α)} :
    (∀ l ∈ outline depth ts, p l) ↔
      ∀ t ∈ ts, p (depth, t.name) ∧ ∀ l ∈ outline (depth + 1) t.children, p l := by
  induction ts with
  | nil => simp
  | cons t ts ih =>
    rw [outline_cons, List.forall_mem_cons, List.forall_mem_append, ih, List.forall_mem_cons,
      and_assoc]

mutual
theorem depth_le_of_mem_outlineOf {l : Nat × α} :
    ∀ t : Rose α, l ∈ outlineOf depth t → depth ≤ l.1
  | .node name children, h => by
    simp only [outlineOf, List.mem_cons] at h
    rcases h with rfl | h
    · exact Nat.le_refl _
    · exact Nat.le_of_succ_le (depth_le_of_mem_outline children h)
theorem depth_le_of_mem_outline {l : Nat × α} :
    ∀ ts : List (Rose α), l ∈ outline depth ts → depth ≤ l.1
  | [], h => by simp at h
  | t :: ts, h => by
    rw [outline, List.mem_append] at h
    exact h.elim (depth_le_of_mem_outlineOf t) (depth_le_of_mem_outline ts)
end

theorem mem_outline_root {ts : List (Rose α)} :
    (depth, n) ∈ outline depth ts ↔ n ∈ ts.map Rose.name := by
  induction ts with
  | nil => simp
  | cons t ts ih =>
    have hdeep : (depth, n) ∉ outline (depth + 1) t.children := fun h =>
      Nat.not_succ_le_self _ (depth_le_of_mem_outline _ h)
    simp [outline_cons, ih, hdeep]

/-- The lines `ls` end every forest whose roots are at `depth` or deeper. -/
def Stops (depth : Nat) (ls : List (Nat × α)) : Prop := ∀ l ∈ ls.head?, l.1 < depth

@[simp] theorem stops_nil : Stops depth ([] : List (Nat × α)) := by simp [Stops]

@[simp] theorem stops_cons {l : Nat × α} {ls} : Stops depth (l :: ls) ↔ l.1 < depth := by
  simp [Stops]

theorem Stops.mono {ls : List (Nat × α)} (h : Stops depth ls) (hle : depth ≤ depth') :
    Stops depth' ls :=
  fun l hl => Nat.lt_of_lt_of_le (h l hl) hle

/-- What follows the children of a node in an outline ends them: the next
sibling, or the end of the parent. -/
theorem Stops.outline_append {ls : List (Nat × α)} (ts : List (Rose α))
    (h : Stops depth ls) : Stops (depth + 1) (outline depth ts ++ ls) := by
  cases ts with
  | nil => simpa using h.mono (Nat.le_succ depth)
  | cons t ts => simp [outline_cons]

end Outline
