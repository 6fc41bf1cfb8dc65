import Mathlib.Data.Set.Card

/-!
# Reference counts

Holders `i : I` stand at things `a : A`, each at one thing at a time or nowhere.
-/

universe u v

variable {I : Type u} {A : Type v}

def standing (pos : I → Option A) (a : A) : Set I := {i | pos i = some a}

/-- **The counts are exact**: `cnt a` is the count of `a`, if it exists, and `pos i` is where the
holder `i` stands. -/
structure ExactCounts (cnt : A → Option ℕ) (pos : I → Option A) : Prop where
  count : ∀ a n, cnt a = some n → n = (standing pos a).ncard
  exist : ∀ i a, pos i = some a → cnt a ≠ none

namespace ExactCounts

open Function Option

variable [DecidableEq A] {cnt : A → Option ℕ} {pos : I → Option A} {i : I} {a : A} {n : ℕ}

omit [DecidableEq A] in
theorem standing_eq_empty (h : ExactCounts cnt pos) (ha : cnt a = none) : standing pos a = ∅ := by
  refine Set.eq_empty_of_forall_notMem fun i hi ↦ ?_
  exact h.exist i a hi ha

theorem create (h : ExactCounts cnt pos) (ha : cnt a = none) :
    ExactCounts (update cnt a (some 0)) pos := by
  refine ⟨fun b n hb ↦ ?_, fun i b hi ↦ ?_⟩
  · by_cases hba : b = a
    · subst hba
      rw [update_self] at hb
      obtain rfl := some.inj hb
      rw [h.standing_eq_empty ha, Set.ncard_empty]
    · rw [update_of_ne hba] at hb
      exact h.count b n hb
  · by_cases hba : b = a
    · simp [hba]
    · rw [update_of_ne hba]
      exact h.exist i b hi

variable [Finite I]

omit [DecidableEq A] in
theorem not_standing (h : ExactCounts cnt pos) (ha : cnt a = some 0) : pos i ≠ some a := by
  intro hi
  have hempty : standing pos a = ∅ := (Set.ncard_eq_zero (Set.toFinite _)).mp (h.count a 0 ha).symm
  have hmem : i ∈ standing pos a := hi
  simp [hempty] at hmem

omit [DecidableEq A] in
theorem pos_of_standing (h : ExactCounts cnt pos) (hi : pos i = some a) (ha : cnt a = some n) :
    0 < n := by
  rw [h.count a n ha]
  exact (Set.ncard_pos (Set.toFinite _)).mpr ⟨i, hi⟩

theorem destroy (h : ExactCounts cnt pos) (ha : cnt a = some 0) :
    ExactCounts (update cnt a none) pos := by
  refine ⟨fun b n hb ↦ ?_, fun i b hi ↦ ?_⟩
  · by_cases hba : b = a
    · subst hba
      rw [update_self] at hb
      cases hb
    · rw [update_of_ne hba] at hb
      exact h.count b n hb
  · have hba : b ≠ a := by
      rintro rfl
      exact h.not_standing ha hi
    rw [update_of_ne hba]
    exact h.exist i b hi

variable [DecidableEq I]

omit [Finite I] [DecidableEq A] in
theorem standing_update_of_ne {x : Option A} (hold : pos i ≠ some a) (hnew : x ≠ some a) :
    standing (update pos i x) a = standing pos a := by
  ext j
  by_cases hji : j = i
  · subst hji
    simp [standing, hold, hnew]
  · simp [standing, hji]

theorem enter (h : ExactCounts cnt pos) (hi : pos i = none) (ha : cnt a = some n) :
    ExactCounts (update cnt a (some (n + 1))) (update pos i (some a)) := by
  have hset : standing (update pos i (some a)) a = insert i (standing pos a) := by
    ext j
    by_cases hji : j = i
    · simp [standing, hji]
    · simp [standing, hji]
  have hnot : i ∉ standing pos a := by simp [standing, hi]
  refine ⟨fun b m hb ↦ ?_, fun j b hj ↦ ?_⟩
  · by_cases hba : b = a
    · subst hba
      rw [update_self] at hb
      obtain rfl := some.inj hb
      rw [hset, Set.ncard_insert_of_notMem hnot (Set.toFinite _), ← h.count b n ha]
    · rw [update_of_ne hba] at hb
      rw [standing_update_of_ne (by simp [hi]) (by simp [Ne.symm hba])]
      exact h.count b m hb
  · by_cases hba : b = a
    · simp [hba]
    · have hji : j ≠ i := by
        rintro rfl
        rw [update_self] at hj
        exact hba (some.inj hj).symm
      rw [update_of_ne hba]
      rw [update_of_ne hji] at hj
      exact h.exist j b hj

omit [Finite I] in
theorem leave (h : ExactCounts cnt pos) (hi : pos i = some a) (ha : cnt a = some n) :
    ExactCounts (update cnt a (some (n - 1))) (update pos i none) := by
  have hset : standing (update pos i none) a = standing pos a \ {i} := by
    ext j
    by_cases hji : j = i
    · simp [standing, hji]
    · simp [standing, hji]
  have hmem : i ∈ standing pos a := hi
  refine ⟨fun b m hb ↦ ?_, fun j b hj ↦ ?_⟩
  · by_cases hba : b = a
    · subst hba
      rw [update_self] at hb
      obtain rfl := some.inj hb
      rw [hset, Set.ncard_sdiff_singleton_of_mem hmem, ← h.count b n ha]
    · rw [update_of_ne hba] at hb
      rw [standing_update_of_ne (by simp [hi, Ne.symm hba]) (by simp)]
      exact h.count b m hb
  · have hji : j ≠ i := by
      rintro rfl
      rw [update_self] at hj
      cases hj
    rw [update_of_ne hji] at hj
    by_cases hba : b = a
    · simp [hba]
    · rw [update_of_ne hba]
      exact h.exist j b hj

end ExactCounts
