import Mathlib.Data.Tree.Basic
import Mathlib.Order.Lattice
import Mathlib.Tactic.Common

/-!
# Binary trees with a place in them

A program that walks up and down a binary tree has the tree cut in two: the subtree below the place
where it is, and what is around it, a list of frames, innermost first.
-/

universe u

inductive Side where
  | left
  | right
  deriving DecidableEq

def Side.other : Side → Side
  | .left => .right
  | .right => .left

@[simp] theorem Side.other_other (d : Side) : d.other.other = d := by
  cases d <;> rfl

namespace BinaryTree

open List

variable {α : Type u}

def inorder : BinaryTree α → List α
  | nil => []
  | node a l r => l.inorder ++ a :: r.inorder

@[simp] theorem inorder_nil : (nil : BinaryTree α).inorder = [] := rfl

@[simp] theorem inorder_node (a : α) (l r : BinaryTree α) :
    (node a l r).inorder = l.inorder ++ a :: r.inorder := rfl

def join : Side → α → BinaryTree α → BinaryTree α → BinaryTree α
  | .left, a, s, t => node a s t
  | .right, a, s, t => node a t s

theorem join_other (d : Side) (a : α) (s t : BinaryTree α) : join d.other a s t = join d a t s := by
  cases d <;> rfl

variable {t : BinaryTree α}

@[simp] theorem join_ne_nil (d : Side) (a : α) (s t : BinaryTree α) : join d a s t ≠ nil := by
  cases d <;> simp [join]

theorem exists_join (d : Side) (h : t ≠ nil) : ∃ a s r, t = join d a s r := by
  cases t with
  | nil => exact absurd rfl h
  | node a l r => cases d with
    | left => exact ⟨a, l, r, rfl⟩
    | right => exact ⟨a, r, l, rfl⟩

@[simp] theorem height_join (d : Side) (a : α) (s t : BinaryTree α) :
    (join d a s t).height = max s.height t.height + 1 := by
  cases d with
  | left => rfl
  | right => simp [join, Nat.max_comm]

@[simp] theorem numNodes_join (d : Side) (a : α) (s t : BinaryTree α) :
    (join d a s t).numNodes = s.numNodes + t.numNodes + 1 := by
  cases d with
  | left => rfl
  | right => simp [join, Nat.add_comm]

theorem height_eq_zero : t.height = 0 ↔ t = nil := by
  cases t <;> simp

theorem inorder_rotate (d : Side) (x y : α) (a b c : BinaryTree α) :
    (join d x a (join d y b c)).inorder = (join d y (join d x a b) c).inorder := by
  cases d <;> simp [join]

structure Frame (α : Type u) where
  side : Side
  value : α
  sib : BinaryTree α

/-- The whole tree, for the subtree `t` at a place with these surroundings. -/
def plug : List (Frame α) → BinaryTree α → BinaryTree α
  | [], t => t
  | f :: c, t => plug c (join f.side f.value t f.sib)

def before : List (Frame α) → List α
  | [] => []
  | ⟨.left, _, _⟩ :: c => before c
  | ⟨.right, a, s⟩ :: c => before c ++ (s.inorder ++ [a])

def after : List (Frame α) → List α
  | [] => []
  | ⟨.left, a, s⟩ :: c => (a :: s.inorder) ++ after c
  | ⟨.right, _, _⟩ :: c => after c

def around : List (Frame α) → List α
  | [] => []
  | f :: c => f.value :: (f.sib.inorder ++ around c)

@[simp] theorem plug_nil (t : BinaryTree α) : plug [] t = t := rfl

@[simp] theorem plug_cons (f : Frame α) (c : List (Frame α)) (t : BinaryTree α) :
    plug (f :: c) t = plug c (join f.side f.value t f.sib) := rfl

theorem inorder_plug (c : List (Frame α)) (t : BinaryTree α) :
    (plug c t).inorder = before c ++ t.inorder ++ after c := by
  induction c generalizing t with
  | nil => simp [before, after]
  | cons f c ih =>
    obtain ⟨d, a, s⟩ := f
    cases d <;> simp [ih, join, before, after]

def listed (d : Side) (t : BinaryTree α) : List α :=
  match d with
  | .left => t.inorder.reverse
  | .right => t.inorder

def ahead (d : Side) : List (Frame α) → List α
  | [] => []
  | f :: c => if f.side = d then ahead d c else f.value :: (listed d f.sib ++ ahead d c)

theorem listed_join (d : Side) (a : α) (s t : BinaryTree α) :
    listed d (join d a s t) = listed d t ++ a :: listed d s := by
  cases d <;> simp [listed, join]

theorem listed_join_other (d : Side) (a : α) (s t : BinaryTree α) :
    listed d (join d.other a s t) = listed d s ++ a :: listed d t := by
  rw [join_other, listed_join]

theorem listed_eq_nil {d : Side} : listed d t = [] ↔ t = nil := by
  cases d <;> cases t <;> simp [listed]

theorem ahead_right (c : List (Frame α)) : ahead .right c = after c := by
  induction c with
  | nil => rfl
  | cons f c ih =>
    obtain ⟨d, a, s⟩ := f
    cases d <;> simp [ahead, after, listed, ih]

theorem ahead_left (c : List (Frame α)) : ahead .left c = (before c).reverse := by
  induction c with
  | nil => rfl
  | cons f c ih =>
    obtain ⟨d, a, s⟩ := f
    cases d <;> simp [ahead, before, listed, ih]

theorem perm_join (d : Side) (a : α) (s t : BinaryTree α) :
    (join d a s t).inorder.Perm (s.inorder ++ a :: t.inorder) := by
  cases d with
  | left => exact .refl _
  | right =>
    refine perm_middle.trans ((perm_append_comm.cons a).trans ?_)
    exact perm_middle.symm

theorem perm_plug (c : List (Frame α)) (t : BinaryTree α) :
    (plug c t).inorder.Perm (t.inorder ++ around c) := by
  induction c generalizing t with
  | nil => simp [around]
  | cons f c ih =>
    refine (ih _).trans (((perm_join ..).append_right _).trans ?_)
    simp [around]

section Heights

variable {e : Side} {x y z : α} {a b c b₁ b₂ : BinaryTree α}

/-- The heights on the two sides of the root differ by at most one. -/
def Even : BinaryTree α → Prop
  | nil => True
  | node _ l r => l.height ≤ r.height + 1 ∧ r.height ≤ l.height + 1

theorem even_join {d : Side} {s t : BinaryTree α} :
    (join d x s t).Even ↔ s.height ≤ t.height + 1 ∧ t.height ≤ s.height + 1 := by
  cases d with
  | left => exact .rfl
  | right => exact and_comm

theorem height_rotate (hheavy : c.height + 2 ≤ (join e y a b).height) (hab : b.height ≤ a.height) :
    (join e y a (join e x b c)).height < (join e x (join e y a b) c).height ∨
      ((join e y a (join e x b c)).height = (join e x (join e y a b) c).height ∧
        (join e y a (join e x b c)).Even) := by
  simp only [height_join, even_join] at *
  omega

theorem height_rotate_rotate (hheavy : c.height + 2 ≤ (join e y a (join e z b₁ b₂)).height)
    (hab : a.height < (join e z b₁ b₂).height) :
    (join e z (join e y a b₁) (join e x b₂ c)).height <
      (join e x (join e y a (join e z b₁ b₂)) c).height := by
  simp only [height_join] at *
  omega

end Heights

end BinaryTree
