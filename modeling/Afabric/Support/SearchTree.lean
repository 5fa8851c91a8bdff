import Mathlib.Data.List.Basic

/-!
# Support — binary trees by their in-order traversal

A search tree is a tree whose in-order traversal is sorted, so an operation on it is described by
what it does to the traversal.  A top-down algorithm cuts a tree along a path and hangs the pieces
on the right edge of one tree and the left edge of another (`attachLeft`, `attachRight`).
-/

/-- A binary tree. -/
inductive SearchTree (α : Type) where
  | nil
  | node (left : SearchTree α) (e : α) (right : SearchTree α)

namespace SearchTree

variable {α : Type}

@[simp] def inorder : SearchTree α → List α
  | nil => []
  | node a e b => a.inorder ++ e :: b.inorder

/-- The first element of the traversal. -/
def leftmost : SearchTree α → Option α
  | nil => none
  | node nil e _ => some e
  | node (node a x b) _ _ => (node a x b).leftmost

theorem leftmost_eq (t : SearchTree α) : t.leftmost = t.inorder.head? := by
  fun_induction leftmost t with
  | case1 => rfl
  | case2 => rfl
  | case3 e c a x b ih => simp [ih]

/-! ### Spines -/

/-- Hangs `s` at the lower end of a right edge, given from below. -/
def attachLeft : List (SearchTree α × α) → SearchTree α → SearchTree α
  | [], s => s
  | (a, e) :: L, s => attachLeft L (node a e s)

/-- Hangs `s` at the lower end of a left edge, given from below. -/
def attachRight : List (α × SearchTree α) → SearchTree α → SearchTree α
  | [], s => s
  | (e, b) :: R, s => attachRight R (node s e b)

theorem inorder_attachLeft (L : List (SearchTree α × α)) (s : SearchTree α) :
    (attachLeft L s).inorder = (attachLeft L nil).inorder ++ s.inorder := by
  induction L generalizing s with
  | nil => rfl
  | cons p L ih =>
      rw [attachLeft, attachLeft, ih, ih (node p.1 p.2 nil)]
      simp

theorem inorder_attachRight (R : List (α × SearchTree α)) (s : SearchTree α) :
    (attachRight R s).inorder = s.inorder ++ (attachRight R nil).inorder := by
  induction R generalizing s with
  | nil => exact (List.append_nil _).symm
  | cons p R ih =>
      rw [attachRight, attachRight, ih, ih (node nil p.1 p.2)]
      simp

/-! ### Removing a node -/

/-- Unlinks the leftmost node of the tree with the root `p`. -/
def unlinkMin (l : SearchTree α) (p : α) (r : SearchTree α) : α × SearchTree α :=
  match l with
  | nil => (p, r)
  | node a q b => ((unlinkMin a q b).1, node (unlinkMin a q b).2 p r)

theorem inorder_unlinkMin (l : SearchTree α) (p : α) (r : SearchTree α) :
    (unlinkMin l p r).1 :: (unlinkMin l p r).2.inorder = (node l p r).inorder := by
  induction l generalizing p r with
  | nil => rfl
  | node a q b iha _ =>
      rw [unlinkMin, inorder, inorder, ← List.cons_append, iha, inorder]

end SearchTree
