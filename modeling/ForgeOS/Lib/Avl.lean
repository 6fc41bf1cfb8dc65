import ForgeOS.Lib.Zipper

/-!
# Balanced trees and a climb that rebalances them

In an AVL tree the heights on the two sides of every node differ by at most one: `Avl`.  A program
that has changed such a tree at a place climbs from there to the root.
-/

universe u v

namespace BinaryTree

variable {α : Type u} {β : Type v} {e : Side} {x y z : α} {a b r s t u b₁ b₂ : BinaryTree α}
  {c : List (Frame α)}

def Avl : BinaryTree α → Prop
  | nil => True
  | node x l r => (node x l r).Even ∧ l.Avl ∧ r.Avl

instance Even.decidable : (t : BinaryTree α) → Decidable t.Even
  | nil => isTrue trivial
  | node _ l r => inferInstanceAs (Decidable (l.height ≤ r.height + 1 ∧ r.height ≤ l.height + 1))

instance Avl.decidable : (t : BinaryTree α) → Decidable t.Avl
  | nil => isTrue trivial
  | node x l r =>
    have := Avl.decidable l
    have := Avl.decidable r
    inferInstanceAs (Decidable ((node x l r).Even ∧ l.Avl ∧ r.Avl))

theorem avl_join : (join e x s t).Avl ↔ (join e x s t).Even ∧ s.Avl ∧ t.Avl := by
  cases e with
  | left => exact .rfl
  | right =>
    rw [join, Avl]
    exact and_congr_right fun _ ↦ and_comm

theorem Avl.even (h : t.Avl) : t.Even := by
  cases t with
  | nil => trivial
  | node x l r => exact h.1

theorem Avl.of_plug (h : (plug c t).Avl) : t.Avl := by
  induction c generalizing t with
  | nil => exact h
  | cons f c ih => exact (avl_join.mp (ih h)).2.1

def child : Side → BinaryTree α → BinaryTree α
  | _, nil => nil
  | .left, node _ l _ => l
  | .right, node _ _ r => r

@[simp] theorem child_join : (join e x s t).child e = s := by
  cases e <;> rfl

@[simp] theorem child_other_join : (join e x s t).child e.other = t := by
  cases e <;> rfl

/-- The rotation of a node `x` that is too heavy on the side `e`, where `s` is: a single one, or a
double one if `s` is heavier on its inner side. -/
def lift (e : Side) (x : α) (s r : BinaryTree α) : BinaryTree α :=
  match s with
  | nil => join e x nil r
  | node y _ _ =>
    if (s.child e).height < (s.child e.other).height then
      match s.child e.other with
      | nil => join e x s r
      | node z b₁ b₂ =>
        join e z (join e y (s.child e) ((node z b₁ b₂).child e))
          (join e x ((node z b₁ b₂).child e.other) r)
    else join e y (s.child e) (join e x (s.child e.other) r)

def rebalance : BinaryTree α → BinaryTree α
  | nil => nil
  | node x l r =>
    if r.height + 2 ≤ l.height then lift .left x l r
    else if l.height + 2 ≤ r.height then lift .right x r l
    else node x l r

theorem rebalance_heavy (hheavy : r.height + 2 ≤ s.height) :
    (join e x s r).rebalance = lift e x s r := by
  cases e with
  | left => exact if_pos hheavy
  | right =>
    have hlight : ¬ s.height + 2 ≤ r.height := by omega
    rw [join, rebalance, if_neg hlight, if_pos hheavy]

theorem rebalance_single (hheavy : r.height + 2 ≤ (join e y a b).height)
    (hab : b.height ≤ a.height) :
    (join e x (join e y a b) r).rebalance = join e y a (join e x b r) := by
  rw [rebalance_heavy hheavy]
  cases e with
  | left => exact if_neg (Nat.not_lt.mpr hab)
  | right => exact if_neg (Nat.not_lt.mpr hab)

theorem rebalance_double (hheavy : r.height + 2 ≤ (join e y a (join e z b₁ b₂)).height)
    (hab : a.height < (join e z b₁ b₂).height) :
    (join e x (join e y a (join e z b₁ b₂)) r).rebalance =
      join e z (join e y a b₁) (join e x b₂ r) := by
  rw [rebalance_heavy hheavy]
  cases e with
  | left => exact if_pos hab
  | right => exact if_pos hab

inductive Settles : BinaryTree α → BinaryTree α → Prop
  | even {t : BinaryTree α} (h : t.Even) : Settles t t
  | turn {t u : BinaryTree α} (h : ¬ t.Even) (hu : Settles t.rebalance u) : Settles t u

theorem Settles.eq_of_even (h : Settles t u) (ht : t.Even) : u = t := by
  cases h with
  | even => rfl
  | turn hne => exact absurd ht hne

theorem Settles.eq_rebalance (h : Settles t u) (ht : ¬ t.Even) (heven : t.rebalance.Even) :
    u = t.rebalance := by
  cases h with
  | even h => exact absurd h ht
  | turn _ hu => exact hu.eq_of_even heven

theorem not_even_of_heavy (hheavy : r.height + 2 ≤ s.height) : ¬ (join e x s r).Even := by
  rw [even_join]
  omega

theorem settles_single (h : Settles (join e x (join e y a b) r) u)
    (hheavy : r.height + 2 ≤ (join e y a b).height) (hab : b.height ≤ a.height)
    (hs : a.height ≤ b.height + 1) : u = join e y a (join e x b r) ∧ u.Even := by
  have hreb := rebalance_single (x := x) hheavy hab
  have heven : (join e y a (join e x b r)).Even := by
    rw [even_join, height_join]
    rw [height_join] at hheavy
    omega
  have hu := h.eq_rebalance (not_even_of_heavy hheavy) (hreb ▸ heven)
  rw [hu, hreb]
  exact ⟨rfl, heven⟩

theorem settles_double (h : Settles (join e x (join e y a (join e z b₁ b₂)) r) u)
    (hheavy : r.height + 2 ≤ (join e y a (join e z b₁ b₂)).height)
    (hab : a.height < (join e z b₁ b₂).height) (hs : (join e z b₁ b₂).height ≤ a.height + 1)
    (hb : b₁.height ≤ max b₂.height r.height + 1) :
    u = join e z (join e y a b₁) (join e x b₂ r) ∧ u.Even := by
  have hreb := rebalance_double (x := x) hheavy hab
  have heven : (join e z (join e y a b₁) (join e x b₂ r)).Even := by
    simp only [even_join, height_join] at *
    omega
  have hu := h.eq_rebalance (not_even_of_heavy hheavy) (hreb ▸ heven)
  rw [hu, hreb]
  exact ⟨rfl, heven⟩

theorem Avl.settles_heavy (hs : s.Avl) (hr : r.Avl) (hheavy : s.height = r.height + 2)
    (h : Settles (join e x s r) u) : u.Avl ∧ s.height ≤ u.height ∧ u.height ≤ s.height + 1 := by
  have hs0 : s ≠ nil := by
    rintro rfl
    simp at hheavy
  obtain ⟨y, a, b, rfl⟩ := exists_join e hs0
  obtain ⟨heven, ha, hb⟩ := avl_join.mp hs
  rw [even_join] at heven
  by_cases hab : b.height ≤ a.height
  · obtain ⟨rfl, hu⟩ := settles_single h hheavy.ge hab heven.1
    simp only [avl_join, even_join, height_join] at *
    refine ⟨⟨hu, ha, ⟨?_, ?_⟩, hb, hr⟩, ?_, ?_⟩ <;> omega
  · have hb0 : b ≠ nil := by
      rintro rfl
      simp at hab
    obtain ⟨z, b₁, b₂, rfl⟩ := exists_join e hb0
    obtain ⟨hbeven, hb1, hb2⟩ := avl_join.mp hb
    rw [even_join] at hbeven
    obtain ⟨rfl, hu⟩ := settles_double h hheavy.ge (by omega) heven.2 (by omega)
    simp only [avl_join, even_join, height_join] at *
    refine ⟨⟨hu, ⟨⟨?_, ?_⟩, ha, hb1⟩, ⟨?_, ?_⟩, hb2, hr⟩, ?_, ?_⟩ <;> omega

/-- **Two AVL trees whose heights differ by at most two** are joined to one. -/
theorem Avl.settles (hs : s.Avl) (hr : r.Avl) (hsr : s.height ≤ r.height + 2)
    (hrs : r.height ≤ s.height + 2) (h : Settles (join e x s r) u) :
    u.Avl ∧ max s.height r.height ≤ u.height ∧ u.height ≤ max s.height r.height + 1 ∧
      ((join e x s r).Even → u.height = max s.height r.height + 1) := by
  by_cases heven : (join e x s r).Even
  · rw [h.eq_of_even heven, height_join]
    exact ⟨avl_join.mpr ⟨heven, hs, hr⟩, by omega, by omega, fun _ ↦ rfl⟩
  · have hheavy := heven
    rw [even_join] at hheavy
    rcases Nat.lt_or_ge s.height r.height with hlt | hge
    · rw [← join_other] at h
      have hu := hr.settles_heavy hs (by omega) h
      exact ⟨hu.1, by omega, by omega, fun h ↦ absurd h heven⟩
    · have hu := hs.settles_heavy hr (by omega) h
      exact ⟨hu.1, by omega, by omega, fun h ↦ absurd h heven⟩

def Climbed : List (Frame α) → BinaryTree α → BinaryTree α → Prop
  | [], t, u => u = t
  | f :: c, t, u => ∃ m, Settles (join f.side f.value t f.sib) m ∧ Climbed c m u

theorem climbed_append {c' : List (Frame α)} :
    Climbed (c ++ c') t u ↔ ∃ m, Climbed c t m ∧ Climbed c' m u := by
  induction c generalizing t with
  | nil => simp [Climbed]
  | cons f c ih =>
    simp only [List.cons_append, Climbed, ih]
    constructor
    · rintro ⟨m, hm, k, hk, hu⟩
      exact ⟨k, ⟨m, hm, hk⟩, hu⟩
    · rintro ⟨k, ⟨m, hm, hk⟩, hu⟩
      exact ⟨m, hm, k, hk, hu⟩

/-- **A climb restores an AVL tree** in which a subtree was replaced by one whose height differs by
at most one. -/
theorem Avl.climbed (hs : (plug c s).Avl) (ht : t.Avl) (hle : t.height ≤ s.height + 1)
    (hge : s.height ≤ t.height + 1) (h : Climbed c t u) : u.Avl := by
  induction c generalizing s t with
  | nil => exact h ▸ ht
  | cons f c ih =>
    obtain ⟨m, hm, hu⟩ := h
    obtain ⟨heven, -, hsib⟩ := avl_join.mp (Avl.of_plug (c := c) hs)
    rw [even_join] at heven
    obtain ⟨hmavl, hlo, hhi, heq⟩ := ht.settles hsib (by omega) (by omega) hm
    rw [even_join] at heq
    refine ih hs hmavl ?_ ?_ hu
    · rw [height_join]
      omega
    · rw [height_join]
      omega

theorem Avl.settles_low (hr : r.Avl) (hlo : s.height ≤ r.height + 1) (hhi : r.height ≤ s.height + 2)
    (hs : ¬ s.Avl) (h : Settles (join e x s r) u) :
    ¬ u.Avl ∧ max s.height r.height ≤ u.height ∧ u.height ≤ max s.height r.height + 1 ∧
      ((join e x s r).Even → u.height = max s.height r.height + 1) := by
  by_cases heven : (join e x s r).Even
  · rw [h.eq_of_even heven, height_join, avl_join]
    exact ⟨fun havl ↦ hs havl.2.1, by omega, by omega, fun _ ↦ rfl⟩
  have hheavy : r.height = s.height + 2 := by
    rw [even_join] at heven
    omega
  have hr0 : r ≠ nil := by
    rintro rfl
    simp at hheavy
  obtain ⟨y, a, b, rfl⟩ := exists_join e.other hr0
  obtain ⟨hreven, -, hb⟩ := avl_join.mp hr
  rw [even_join] at hreven
  rw [← join_other] at h
  by_cases hab : b.height ≤ a.height
  · obtain ⟨rfl, -⟩ := settles_single h hheavy.ge hab hreven.1
    rw [avl_join, avl_join]
    rw [height_join] at hheavy
    refine ⟨fun havl ↦ hs havl.2.2.2.2, ?_, ?_, fun h ↦ absurd h heven⟩
    · simp only [height_join]
      omega
    · simp only [height_join]
      omega
  · have hb0 : b ≠ nil := by
      rintro rfl
      simp at hab
    obtain ⟨z, b₁, b₂, rfl⟩ := exists_join e.other hb0
    have hbeven := even_join.mp hb.even
    obtain ⟨rfl, -⟩ := settles_double h hheavy.ge (by omega) hreven.2 (by omega)
    rw [avl_join, avl_join (s := b₂)]
    simp only [height_join] at *
    refine ⟨fun havl ↦ hs havl.2.2.2.2, ?_, ?_, fun h ↦ absurd h heven⟩ <;> omega

/-- **A climb repairs nothing below its start**, if the subtree there is as high as before or lower
by one level. -/
theorem Avl.not_climbed (hs : (plug c s).Avl) (ht : ¬ t.Avl) (hle : t.height ≤ s.height)
    (hge : s.height ≤ t.height + 1) (h : Climbed c t u) : ¬ u.Avl := by
  induction c generalizing s t with
  | nil => exact h ▸ ht
  | cons f c ih =>
    obtain ⟨m, hm, hu⟩ := h
    obtain ⟨heven, -, hsib⟩ := avl_join.mp (Avl.of_plug (c := c) hs)
    rw [even_join] at heven
    obtain ⟨hmavl, hlo, hhi, heq⟩ := hsib.settles_low (by omega) (by omega) ht hm
    rw [even_join] at heq
    refine ih hs hmavl ?_ ?_ hu
    · rw [height_join]
      omega
    · rw [height_join]
      omega

end BinaryTree
