import ForgeOS.Tree.Remove

/-!
# What the two subtrees of a removed node become

`remove_node` takes a node down between its two subtrees and so joins these: at every level the
roots of both come to stand above the node, the root of the lower tree on top.
-/

namespace BinaryTree

universe u

variable {α : Type u} {e : Side} {x : α} {s t : BinaryTree α}

structure Outline where
  height : ℕ
  left : ℕ
  right : ℕ
  deriving DecidableEq

def Outline.kid (o : Outline) : Side → ℕ
  | .left => o.left
  | .right => o.right

/-- The outline of a node with a subtree of height `a` on the side `e` and one of height `b` on the
other side. -/
def Outline.of : Side → ℕ → ℕ → Outline
  | .left, a, b => ⟨max a b + 1, a, b⟩
  | .right, a, b => ⟨max a b + 1, b, a⟩

def outline (t : BinaryTree α) : Outline :=
  ⟨t.height, (t.child .left).height, (t.child .right).height⟩

@[simp] theorem height_outline (t : BinaryTree α) : (outline t).height = t.height := rfl

@[simp] theorem kid_outline (t : BinaryTree α) (e : Side) :
    (outline t).kid e = (t.child e).height := by
  cases e <;> rfl

theorem outline_join : outline (join e x s t) = .of e s.height t.height := by
  cases e with
  | left => rfl
  | right => simp [outline, Outline.of, join, child, Nat.max_comm]

@[simp] theorem Outline.height_of (a b : ℕ) : (Outline.of e a b).height = max a b + 1 := by
  cases e <;> rfl

@[simp] theorem Outline.kid_of (a b : ℕ) : (Outline.of e a b).kid e = a := by
  cases e <;> rfl

@[simp] theorem Outline.kid_other_of (a b : ℕ) : (Outline.of e a b).kid e.other = b := by
  cases e <;> rfl

/-- The joined part `m`, on the side `e`, and the outer subtree of the higher tree, of height `d`,
joined under the root of the higher tree. -/
def Outline.joined (e : Side) (m : Outline) (d : ℕ) : Outline :=
  if m.height = d + 2 then
    if m.kid e.other ≤ m.kid e then .of e (m.kid e) (max (m.kid e.other) d + 1)
    else .of e (d + 1) (d + 1)
  else .of e m.height d

/-- The outer subtree of the lower tree, of height `a` and on the side `e`, and the part `n` that
the joined part `m` has become, joined under the root of the lower tree.  There is none if `a` comes
to stand next to a subtree that is more than one level higher. -/
def Outline.met (e : Side) (a : ℕ) (m n : Outline) : Option Outline :=
  if n.height = a + 1 then some (.of e a n.height)
  else if n.kid e ≤ n.kid e.other then
    if n.kid e ≤ a + 1 then some (.of e (max a (n.kid e) + 1) (n.kid e.other)) else none
  else if m.kid e ≤ a + 1 then
    some (.of e (max a (m.kid e) + 1) (max (m.kid e.other) (n.kid e.other) + 1))
  else none

/-- **What becomes of the subtrees `l` and `r` of a node that is removed**, as far as heights go. -/
def merged : BinaryTree α → BinaryTree α → Option Outline
  | nil, r => some (outline r)
  | l, nil => some (outline l)
  | node x a b, node y c d =>
    (merged b c).bind fun m ↦
      if (node x a b).height ≤ (node y c d).height then
        m.met .left a.height (m.joined .left d.height)
      else m.met .right d.height (m.joined .right a.height)

theorem merged_nil_left (r : BinaryTree α) : merged nil r = some (outline r) := by
  rw [merged]

theorem merged_nil_right (l : BinaryTree α) : merged l nil = some (outline l) := by
  cases l with
  | nil => exact merged_nil_left nil
  | node x a b => rw [merged]; simp

variable {p q y z : α} {A B C D M N U W M₁ M₂ N₁ N₂ T : BinaryTree α}

def Deep (t : BinaryTree α) : Prop := ∃ d₁ d₂, ¬ ((t.child d₁).child d₂).Avl

theorem Avl.child (h : t.Avl) (d : Side) : (t.child d).Avl := by
  cases t with
  | nil => cases d <;> trivial
  | node x l r =>
    cases d with
    | left => exact h.2.1
    | right => exact h.2.2

theorem deep_join : Deep (join e x s t) ↔ (∃ d, ¬ (s.child d).Avl) ∨ ∃ d, ¬ (t.child d).Avl := by
  constructor
  · rintro ⟨d₁, d₂, h⟩
    by_cases hd : d₁ = e
    · subst hd
      rw [child_join] at h
      exact .inl ⟨d₂, h⟩
    · obtain rfl : d₁ = e.other := by
        cases d₁ <;> cases e <;> first | rfl | exact absurd rfl hd
      rw [child_other_join] at h
      exact .inr ⟨d₂, h⟩
  · rintro (⟨d, h⟩ | ⟨d, h⟩)
    · exact ⟨e, d, by rwa [child_join]⟩
    · exact ⟨e.other, d, by rwa [child_other_join]⟩

theorem join_inj {e : Side} {x y : α} {s t s' t' : BinaryTree α} :
    join e x s t = join e y s' t' ↔ x = y ∧ s = s' ∧ t = t' := by
  cases e with
  | left => simp [join]
  | right =>
    simp only [join, node.injEq]
    tauto

theorem exists_not_avl_join : (∃ d, ¬ ((join e x s t).child d).Avl) ↔ ¬ s.Avl ∨ ¬ t.Avl := by
  constructor
  · rintro ⟨d, h⟩
    by_cases hd : d = e
    · subst hd
      rw [child_join] at h
      exact .inl h
    · obtain rfl : d = e.other := by
        cases d <;> cases e <;> first | rfl | exact absurd rfl hd
      rw [child_other_join] at h
      exact .inr h
  · rintro (h | h)
    · exact ⟨e, by rwa [child_join]⟩
    · exact ⟨e.other, by rwa [child_other_join]⟩

theorem joined_cases (hM : M.Even) (hlo : D.height ≤ M.height + 1) (hhi : M.height ≤ D.height + 2)
    (h : Settles (join e q M D) N) :
    (N = join e q M D ∧ M.height ≤ D.height + 1) ∨
      (∃ y M₁ M₂, M = join e y M₁ M₂ ∧ M.height = D.height + 2 ∧ M₂.height ≤ M₁.height ∧
        N = join e y M₁ (join e q M₂ D)) ∨
      ∃ y M₁ z U W, M = join e y M₁ (join e z U W) ∧ M.height = D.height + 2 ∧
        M₁.height < (join e z U W).height ∧ N = join e z (join e y M₁ U) (join e q W D) := by
  by_cases hheavy : M.height ≤ D.height + 1
  · exact .inl ⟨h.eq_of_even (even_join.mpr ⟨hheavy, hlo⟩), hheavy⟩
  have heq : M.height = D.height + 2 := by omega
  have hM0 : M ≠ nil := by
    rintro rfl
    simp at heq
  obtain ⟨y, M₁, M₂, rfl⟩ := exists_join e hM0
  rw [even_join] at hM
  by_cases hM2 : M₂.height ≤ M₁.height
  · exact .inr (.inl ⟨y, M₁, M₂, rfl, heq, hM2, (settles_single h heq.ge hM2 hM.1).1⟩)
  have hM₂0 : M₂ ≠ nil := by
    rintro rfl
    simp at hM2
  obtain ⟨z, U, W, rfl⟩ := exists_join e hM₂0
  have hlow : U.height ≤ max W.height D.height + 1 := by
    simp only [height_join] at *
    omega
  exact .inr (.inr ⟨y, M₁, z, U, W, rfl, heq, by omega,
    (settles_double h heq.ge (by omega) hM.2 hlow).1⟩)

theorem met_cases (hN : N.Even) (hlow : A.height + 1 ≤ N.height)
    (hinner : (N.child e).height ≤ (N.child e.other).height ∨ (N.child e).Even)
    (h : Settles (join e p A N) M) :
    (M = join e p A N ∧ N.height = A.height + 1) ∨
      (∃ y N₁ N₂, N = join e y N₁ N₂ ∧ A.height + 2 ≤ N.height ∧ N₁.height ≤ N₂.height ∧
        M = join e y (join e p A N₁) N₂) ∨
      ∃ y z U W N₂, N = join e y (join e z U W) N₂ ∧ A.height + 2 ≤ N.height ∧
        N₂.height < (join e z U W).height ∧ M = join e z (join e p A U) (join e y W N₂) := by
  by_cases heven : N.height ≤ A.height + 1
  · exact .inl ⟨h.eq_of_even (even_join.mpr ⟨by omega, heven⟩), by omega⟩
  have hheavy : A.height + 2 ≤ N.height := by omega
  have hN0 : N ≠ nil := by
    rintro rfl
    simp at hheavy
  obtain ⟨y, N₁, N₂, rfl⟩ := exists_join e hN0
  rw [child_join, child_other_join] at hinner
  rw [even_join] at hN
  -- The rotations are those of a node that is too heavy on the other side.
  by_cases hN1 : N₁.height ≤ N₂.height
  · rw [← join_other e p, ← join_other e y] at h
    have hM := (settles_single h (by rwa [join_other]) hN1 hN.2).1
    rw [join_other, join_other] at hM
    exact .inr (.inl ⟨y, N₁, N₂, rfl, hheavy, hN1, hM⟩)
  have hN₁0 : N₁ ≠ nil := by
    rintro rfl
    simp at hN1
  obtain ⟨z, U, W, rfl⟩ := exists_join e hN₁0
  have hUW := even_join.mp (hinner.resolve_left hN1)
  rw [← join_other e p, ← join_other e y, ← join_other e z] at h
  have hM := (settles_double h (by rwa [join_other, join_other]) (by rw [join_other]; omega)
    (by rw [join_other]; omega) (by omega)).1
  rw [join_other, join_other, join_other] at hM
  exact .inr (.inr ⟨y, z, U, W, N₂, rfl, hheavy, by omega, hM⟩)

/-- A level of the way down: the lower tree, with the root `p` and on the side `e`, the higher one,
with the root `q`, and what the two inner subtrees have become. -/
structure Level (e : Side) (p q : α) (A B C D M : BinaryTree α) : Prop where
  low : (join e p A B).Avl
  high : (join e q C D).Avl
  le : (join e p A B).height ≤ (join e q C D).height
  even : M.Even
  ge : max B.height C.height ≤ M.height
  le_succ : M.height ≤ max B.height C.height + 1

theorem Level.height (h : Level e p q A B C D M) :
    D.height ≤ M.height + 1 ∧ M.height ≤ D.height + 2 ∧
      (C.height < B.height → M.height ≤ D.height + 1) := by
  have hlow := even_join.mp h.low.even
  have hhigh := even_join.mp h.high.even
  have hle := h.le
  rw [height_join, height_join] at hle
  have hge := h.ge
  have hle_succ := h.le_succ
  refine ⟨?_, ?_, ?_⟩ <;> omega

theorem Level.joined (h : Level e p q A B C D M) (hN : Settles (join e q M D) N) :
    N.Even ∧ outline N = (outline M).joined e D.height ∧
      (N = join e q M D ∧ M.height ≤ D.height + 1 ∨
        ∃ y N₁ N₂, N = join e y N₁ N₂ ∧ M.height = D.height + 2 ∧ N₁.height = D.height + 1 ∧
          N₁.height ≤ N₂.height) := by
  obtain ⟨hlo, hhi, -⟩ := h.height
  rcases joined_cases h.even hlo hhi hN with
    ⟨rfl, hM⟩ | ⟨y, M₁, M₂, rfl, hM, hle, rfl⟩ | ⟨y, M₁, z, U, W, rfl, hM, hlt, rfl⟩
  · have hne : M.height ≠ D.height + 2 := by omega
    refine ⟨even_join.mpr ⟨hM, hlo⟩, ?_, .inl ⟨rfl, hM⟩⟩
    simp [outline_join, Outline.joined, hne]
  · have heven := even_join.mp h.even
    rw [height_join] at hM
    have hM1 : M₁.height = D.height + 1 := by omega
    refine ⟨?_, ?_, .inr ⟨y, M₁, _, rfl, by rwa [height_join], hM1, ?_⟩⟩
    · rw [even_join, height_join]
      omega
    · rw [hM1] at hle
      simp [outline_join, Outline.joined, hle, hM1]
    · rw [height_join]
      omega
  · have heven := even_join.mp h.even
    simp only [height_join] at hM hlt heven
    have hnle : ¬ (max U.height W.height + 1 ≤ M₁.height) := by omega
    have hleft : max M₁.height U.height + 1 = D.height + 1 := by omega
    have hright : max W.height D.height + 1 = D.height + 1 := by omega
    refine ⟨?_, ?_, .inr ⟨z, _, _, rfl, by simpa using hM, ?_, ?_⟩⟩
    · rw [even_join, height_join, height_join]
      omega
    · simp [outline_join, Outline.joined, hM, hnle, hleft, hright]
    · rw [height_join, hleft]
    · rw [height_join, height_join, hleft, hright]

/-- What is not balanced once a node is left behind uneven: a node two levels below the root, or one
right below it on the side of the lower tree. -/
def Torn (e : Side) (P Q T : BinaryTree α) : Prop :=
  Deep T ∨ (¬ (T.child e).Avl ∧ P.height < Q.height) ∨
    (¬ (T.child e.other).Avl ∧ Q.height < P.height)

theorem Level.cases (h : Level e p q A B C D M) (hN : Settles (join e q M D) N)
    (hT : Settles (join e p A N) T) :
    (T = join e p A N ∧ N.height = A.height + 1) ∨
      (∃ y N₁ N₂, N = join e y N₁ N₂ ∧ A.height + 2 ≤ N.height ∧ N₁.height ≤ N₂.height ∧
        T = join e y (join e p A N₁) N₂) ∨
      ∃ z U W, M = join e z U W ∧ N = join e q M D ∧ A.height + 1 ≤ M.height ∧
        M.height = D.height + 1 ∧ T = join e z (join e p A U) (join e q W D) := by
  obtain ⟨heven, -, hN⟩ := h.joined hN
  have hle := h.le
  have hge := h.ge
  have hhigh := even_join.mp h.high.even
  rw [height_join, height_join] at hle
  have hlow : A.height + 1 ≤ N.height := by
    rcases hN with ⟨rfl, hM⟩ | ⟨y, N₁, N₂, rfl, hM, hN1, hle⟩
    · rw [height_join]
      omega
    · rw [height_join]
      omega
  have hinner : (N.child e).height ≤ (N.child e.other).height ∨ (N.child e).Even := by
    rcases hN with ⟨rfl, -⟩ | ⟨y, N₁, N₂, rfl, -, -, hle⟩
    · exact .inr (by rw [child_join]; exact h.even)
    · exact .inl (by rwa [child_join, child_other_join])
  rcases met_cases heven hlow hinner hT with
    h1 | h2 | ⟨y, z, U, W, N₂, rfl, hheavy, hlt, rfl⟩
  · exact .inl h1
  · exact .inr (.inl h2)
  · refine .inr (.inr ?_)
    rcases hN with ⟨heq, hM⟩ | ⟨y', N₁, N2', heq, -, -, hle⟩
    · obtain ⟨rfl, rfl, rfl⟩ := join_inj.mp heq
      rw [height_join _ _ (join e z U W)] at hheavy
      exact ⟨z, U, W, rfl, rfl, by omega, by omega, rfl⟩
    · obtain ⟨rfl, rfl, rfl⟩ := join_inj.mp heq
      omega

theorem Level.even_height (h : Level e p q A B C D M) (hN : Settles (join e q M D) N)
    (hT : Settles (join e p A N) T) :
    T.Even ∧ (join e q C D).height ≤ T.height ∧ T.height ≤ (join e q C D).height + 1 := by
  have hcases := h.cases hN hT
  obtain ⟨heven, -, hN⟩ := h.joined hN
  have hle := h.le
  have hge := h.ge
  have hle_succ := h.le_succ
  have hlow := even_join.mp h.low.even
  have hhigh := even_join.mp h.high.even
  rw [height_join, height_join] at hle
  rw [height_join]
  rcases hcases with ⟨rfl, ha⟩ | ⟨y, N₁, N₂, rfl, ha, hN12, rfl⟩ | ⟨z, U, W, rfl, rfl, ha, hd, rfl⟩
  · have hN' : max C.height D.height ≤ N.height := by
      rcases hN with ⟨rfl, hM⟩ | ⟨y, N₁, N₂, rfl, hM, hN1, hle⟩
      · rw [height_join]
        omega
      · rw [height_join]
        omega
    rw [even_join, height_join]
    refine ⟨⟨?_, ?_⟩, ?_, ?_⟩ <;> omega
  · rw [even_join] at heven
    rw [height_join] at ha
    simp only [even_join, height_join]
    rcases hN with ⟨heq, hM⟩ | ⟨y', N1', N2', heq, hM, hN1, -⟩
    · obtain ⟨rfl, rfl, rfl⟩ := join_inj.mp heq
      refine ⟨⟨?_, ?_⟩, ?_, ?_⟩ <;> omega
    · obtain ⟨rfl, rfl, rfl⟩ := join_inj.mp heq
      refine ⟨⟨?_, ?_⟩, ?_, ?_⟩ <;> omega
  · have hM := even_join.mp h.even
    simp only [even_join, height_join] at *
    refine ⟨⟨?_, ?_⟩, ?_, ?_⟩ <;> omega

theorem not_avl_join_of_lt (h : s.height + 1 < t.height) : ¬ (join e x s t).Avl := by
  intro havl
  have heven := even_join.mp havl.even
  omega

theorem Level.avl (h : Level e p q A B C D M) (hM : M.Avl) (hN : Settles (join e q M D) N)
    (hT : Settles (join e p A N) T) :
    match (outline M).met e A.height ((outline M).joined e D.height) with
    | some o => T.Avl ∧ outline T = o
    | none => Torn e (join e p A B) (join e q C D) T := by
  have hcases := h.cases hN hT
  have hteven := (h.even_height hN hT).1
  obtain ⟨hlo, hhi, -⟩ := h.height
  obtain ⟨hnavl, -⟩ := hM.settles (avl_join.mp h.high).2.2 hhi (by omega) hN
  obtain ⟨-, houtline, -⟩ := h.joined hN
  obtain ⟨hlow, hA, -⟩ := avl_join.mp h.low
  obtain ⟨hhigh, -, hD⟩ := avl_join.mp h.high
  have hle := h.le
  have hle_succ := h.le_succ
  rw [even_join] at hlow hhigh
  rw [height_join, height_join] at hle
  rw [← houtline]
  rcases hcases with ⟨rfl, ha⟩ | ⟨y, N₁, N₂, rfl, ha, hN12, rfl⟩ | ⟨z, U, W, rfl, rfl, ha, hd, rfl⟩
  · simp only [Outline.met, height_outline, ha, if_true]
    refine ⟨avl_join.mpr ⟨hteven, hA, hnavl⟩, ?_⟩
    rw [outline_join, ha]
  · obtain ⟨heven, hN1, hN2⟩ := avl_join.mp hnavl
    rw [even_join] at heven
    have hne : (join e y N₁ N₂).height ≠ A.height + 1 := by omega
    rw [height_join] at ha
    simp only [Outline.met, height_outline, kid_outline, child_join, child_other_join, if_neg hne,
      if_pos hN12]
    by_cases hfit : N₁.height ≤ A.height + 1
    · rw [if_pos hfit]
      refine ⟨avl_join.mpr ⟨hteven, avl_join.mpr ⟨?_, hA, hN1⟩, hN2⟩, ?_⟩
      · rw [even_join]
        omega
      · rw [outline_join, height_join]
    · rw [if_neg hfit]
      refine .inr (.inl ⟨?_, ?_⟩)
      · rw [child_join]
        exact not_avl_join_of_lt (by omega)
      · rw [height_join, height_join]
        obtain ⟨-, -, ⟨heq, hM⟩ | ⟨y', N1', N2', heq, hM, hN1, -⟩⟩ := h.joined hN
        · obtain ⟨rfl, rfl, rfl⟩ := join_inj.mp heq
          omega
        · obtain ⟨rfl, rfl, rfl⟩ := join_inj.mp heq
          omega
  · obtain ⟨heven, hU, hW⟩ := avl_join.mp hM
    have hne : (join e q (join e z U W) D).height ≠ A.height + 1 := by
      rw [height_join]
      omega
    have hnle : ¬ (join e z U W).height ≤ D.height := by omega
    simp only [Outline.met, height_outline, kid_outline, child_join, child_other_join, if_neg hne,
      if_neg hnle]
    rw [even_join] at heven
    rw [height_join] at ha hd
    by_cases hfit : U.height ≤ A.height + 1
    · rw [if_pos hfit]
      refine ⟨avl_join.mpr ⟨hteven, avl_join.mpr ⟨?_, hA, hU⟩, avl_join.mpr ⟨?_, hW, hD⟩⟩, ?_⟩
      · rw [even_join]
        omega
      · rw [even_join]
        omega
      · rw [outline_join, height_join, height_join]
    · rw [if_neg hfit]
      refine .inr (.inl ⟨?_, ?_⟩)
      · rw [child_join]
        exact not_avl_join_of_lt (by omega)
      · rw [height_join, height_join]
        omega

theorem not_avl_of_torn (h : Torn e s t T) : ¬ T.Avl := by
  rcases h with ⟨d₁, d₂, h⟩ | ⟨h, -⟩ | ⟨h, -⟩
  · exact fun havl ↦ h ((havl.child d₁).child d₂)
  · exact fun havl ↦ h (havl.child e)
  · exact fun havl ↦ h (havl.child e.other)

theorem not_avl_of_even (heven : (join e x s t).Even) (h : ¬ (join e x s t).Avl) :
    ¬ s.Avl ∨ ¬ t.Avl := by
  rw [avl_join, not_and] at h
  exact not_and_or.mp (h heven)

theorem not_avl_join (h : ¬ s.Avl ∨ ¬ t.Avl) : ¬ (join e x s t).Avl := fun havl ↦
  h.elim (absurd (avl_join.mp havl).2.1) (absurd (avl_join.mp havl).2.2)

theorem Level.deep (h : Level e p q A B C D M) (hM : Torn e B C M) (hN : Settles (join e q M D) N)
    (hT : Settles (join e p A N) T) : Deep T := by
  have hcases := h.cases hN hT
  have hMavl := not_avl_of_torn hM
  obtain ⟨hlo, hhi, hbc⟩ := h.height
  have heven := h.even
  rcases joined_cases h.even hlo hhi hN with
    ⟨rfl, -⟩ | ⟨y, M₁, M₂, rfl, hd, hle, rfl⟩ | ⟨y, M₁, z, U, W, rfl, hd, hlt, rfl⟩
  · rcases hcases with ⟨rfl, -⟩ | ⟨y, N₁, N₂, heq, -, -, rfl⟩ | ⟨z, U, W, rfl, -, -, -, rfl⟩
    · rw [deep_join, exists_not_avl_join]
      exact .inr (.inl hMavl)
    · obtain ⟨rfl, rfl, rfl⟩ := join_inj.mp heq
      rw [deep_join, exists_not_avl_join]
      exact .inl (.inr hMavl)
    · rw [deep_join, exists_not_avl_join, exists_not_avl_join]
      exact (not_avl_of_even heven hMavl).imp .inr .inl
  · have hparts := not_avl_of_even heven hMavl
    rcases hcases with ⟨rfl, -⟩ | ⟨y', N₁, N₂, heq, -, -, rfl⟩ | ⟨z, U, W, hM', heq, -, hd', -⟩
    · rw [deep_join, exists_not_avl_join]
      exact .inr (hparts.imp_right fun hM2 ↦ not_avl_join (.inl hM2))
    · obtain ⟨rfl, rfl, rfl⟩ := join_inj.mp heq
      rw [deep_join, exists_not_avl_join, exists_not_avl_join]
      exact hparts.imp .inr .inl
    · omega
  · -- The middle subtree is cut in two by the double rotation, so it is needed that the uneven node
    -- is not its root.
    have hparts : (¬ M₁.Avl ∨ ¬ U.Avl) ∨ ¬ W.Avl := by
      rw [or_assoc]
      rcases hM with hdeep | ⟨hM1, -⟩ | ⟨-, hlt⟩
      · rw [deep_join, exists_not_avl_join] at hdeep
        rcases hdeep with ⟨d, hd⟩ | hdeep
        · exact .inl fun havl ↦ hd (havl.child d)
        · exact .inr hdeep
      · rw [child_join] at hM1
        exact .inl hM1
      · have := hbc hlt
        omega
    rcases hcases with ⟨rfl, -⟩ | ⟨y', N₁, N₂, heq, -, -, rfl⟩ | ⟨z, U, W, hM', heq, -, hd', -⟩
    · rw [deep_join, exists_not_avl_join]
      exact .inr (hparts.imp not_avl_join fun hW ↦ not_avl_join (.inl hW))
    · obtain ⟨rfl, rfl, rfl⟩ := join_inj.mp heq
      rw [deep_join, exists_not_avl_join, exists_not_avl_join]
      exact hparts.imp (fun hleft ↦ .inr (not_avl_join hleft)) .inl
    · omega

/-- What is known of the tree `T` that two subtrees `P`, on the side `e`, and `Q` have become, if
the outline `o` was computed for it. -/
structure Merges (o : Option Outline) (e : Side) (P Q T : BinaryTree α) : Prop where
  even : T.Even
  ge : max P.height Q.height ≤ T.height
  le_succ : T.height ≤ max P.height Q.height + 1
  spec : match o with
    | some o => T.Avl ∧ outline T = o
    | none => Torn e P Q T

variable {P Q : BinaryTree α} {o : Option Outline}

theorem Merges.other (h : Merges o e P Q T) : Merges o e.other Q P T := by
  refine ⟨h.even, ?_, ?_, ?_⟩
  · rw [Nat.max_comm]
    exact h.ge
  · rw [Nat.max_comm]
    exact h.le_succ
  · have hspec := h.spec
    cases o with
    | some o => exact hspec
    | none =>
      rw [Torn, Side.other_other]
      exact hspec.imp_right Or.symm

theorem Merges.of_avl (hT : T.Avl) (h : max P.height Q.height = T.height) :
    Merges (some (outline T)) e P Q T :=
  ⟨hT.even, h.le, h.ge.trans (Nat.le_succ _), hT, rfl⟩

theorem Merges.level (h : Merges o e B C M) (hlow : (join e p A B).Avl)
    (hhigh : (join e q C D).Avl) (hle : (join e p A B).height ≤ (join e q C D).height)
    (hN : Settles (join e q M D) N) (hT : Settles (join e p A N) T) :
    Merges (o.bind fun m ↦ m.met e A.height (m.joined e D.height)) e
      (join e p A B) (join e q C D) T := by
  have hlevel : Level e p q A B C D M := ⟨hlow, hhigh, hle, h.even, h.ge, h.le_succ⟩
  obtain ⟨heven, hge, hle_succ⟩ := hlevel.even_height hN hT
  refine ⟨heven, by omega, by omega, ?_⟩
  have hspec := h.spec
  cases o with
  | some o =>
    obtain ⟨havl, rfl⟩ := hspec
    exact hlevel.avl havl hN hT
  | none => exact .inl (hlevel.deep hspec hN hT)

end BinaryTree

namespace ForgeOS.Tree

open BinaryTree

variable {α : Type} {l r m : BinaryTree α}

theorem eq_of_climbed_sunk_nil (hr : r.Avl) (h : Climbed (sunk .nil r) .nil m) : m = r := by
  induction r generalizing m with
  | nil =>
    rw [sunk] at h
    exact h
  | node y b e ihb ihe =>
    rw [sunk, climbed_append] at h
    obtain ⟨k, hk, n, hn, rfl⟩ := h
    obtain rfl := ihb hr.2.1 hk
    exact hn.eq_of_even hr.1

theorem eq_of_climbed_sunk_of_nil (hl : l.Avl) (h : Climbed (sunk l .nil) .nil m) : m = l := by
  induction l generalizing m with
  | nil =>
    rw [sunk] at h
    exact h
  | node x a b iha ihb =>
    rw [sunk, climbed_append] at h
    obtain ⟨k, hk, n, hn, rfl⟩ := h
    obtain rfl := ihb hl.2.2 hk
    exact hn.eq_of_even hl.1

/-- **What the two subtrees of a removed node become.** -/
theorem merges_of_climbed (hl : l.Avl) (hr : r.Avl) (h : Climbed (sunk l r) .nil m) :
    Merges (merged l r) .left l r m := by
  induction l, r using merged.induct generalizing m with
  | case1 r =>
    obtain rfl := eq_of_climbed_sunk_nil hr h
    rw [merged_nil_left]
    exact .of_avl hr (by simp)
  | case2 l =>
    obtain rfl := eq_of_climbed_sunk_of_nil hl h
    rw [merged_nil_right]
    exact .of_avl hl (by simp)
  | case3 x a b y c d ih =>
    rw [sunk, climbed_append] at h
    obtain ⟨k, hk, hm⟩ := h
    have hM := ih hl.2.2 hr.2.1 hk
    rw [merged]
    by_cases hle : (BinaryTree.node x a b).height ≤ (BinaryTree.node y c d).height
    · rw [if_pos hle] at hm
      obtain ⟨n, hn, m', hm', rfl⟩ := hm
      simp only [if_pos hle]
      exact hM.level hl hr hle hn hm'
    · rw [if_neg hle] at hm
      obtain ⟨n, hn, m', hm', rfl⟩ := hm
      simp only [if_neg hle]
      exact (hM.other.level hr hl (Nat.le_of_not_le hle) hn hm').other

end ForgeOS.Tree
