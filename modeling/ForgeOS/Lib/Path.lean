import Mathlib.Data.List.Nodup
import Mathlib.Data.UInt

/-!
# Chains of cells in a memory that can always be read

Where several agents share a memory, one of them may read a cell that another has given back.  So
the links are a total function.
-/

universe u

variable {A : Type u} {next next' : A → A} {a b c x : A} {l m : List A}

def LinkPath (next : A → A) : A → List A → A → Prop
  | a, [], b => a = b
  | a, x :: l, b => a = x ∧ LinkPath next (next x) l b

@[simp] theorem linkPath_nil : LinkPath next a [] b ↔ a = b := Iff.rfl

@[simp] theorem linkPath_cons :
    LinkPath next a (x :: l) b ↔ a = x ∧ LinkPath next (next x) l b := Iff.rfl

theorem linkPath_append :
    LinkPath next a (l ++ m) b ↔ ∃ c, LinkPath next a l c ∧ LinkPath next c m b := by
  induction l generalizing a with
  | nil => simp
  | cons x l ih => simp [ih, and_assoc]

theorem linkPath_snoc : LinkPath next a (l ++ [x]) b ↔ LinkPath next a l x ∧ next x = b := by
  rw [linkPath_append]
  simp

theorem LinkPath.frame (h : LinkPath next a l b) (heq : ∀ x ∈ l, next' x = next x) :
    LinkPath next' a l b := by
  induction l generalizing a with
  | nil => exact h
  | cons x l ih =>
    refine ⟨h.1, ?_⟩
    rw [heq x (by simp)]
    exact ih h.2 fun y hy ↦ heq y (by simp [hy])

theorem LinkPath.after (h : LinkPath next a (l ++ x :: m) b) : LinkPath next (next x) m b := by
  obtain ⟨c, -, hc⟩ := linkPath_append.mp h
  exact hc.2

theorem LinkPath.head (h : LinkPath next a (x :: l) b) : a = x := h.1

theorem LinkPath.eq_cons (h : LinkPath next a (l ++ x :: m) b) (hne : next x ≠ b) :
    ∃ m', m = next x :: m' := by
  have hm := h.after
  cases m with
  | nil => exact absurd hm hne
  | cons y m => exact ⟨m, by rw [hm.head]⟩

theorem LinkPath.eq_nil (h : LinkPath next a (l ++ x :: m) b) (hb : b ∉ l ++ x :: m)
    (heq : next x = b) : m = [] := by
  have hm := h.after
  cases m with
  | nil => rfl
  | cons y m => exact absurd (by simp [← hm.head, heq]) hb
