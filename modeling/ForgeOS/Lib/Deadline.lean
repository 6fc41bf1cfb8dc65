import Mathlib.Algebra.Order.BigOperators.Group.List
import Mathlib.Algebra.Order.Group.Nat
import Mathlib.Data.List.Induction
import Mathlib.Data.UInt

/-!
# Durations that add up to a deadline

Something is due when the durations of the ticks so far add up to a time `T` (`Reached`).
-/

namespace Deadline

open List

def Reached (T : ℕ) (ds : List ℕ) : Prop := ds ≠ [] ∧ T ≤ ds.sum

instance (T : ℕ) (ds : List ℕ) : Decidable (Reached T ds) := inferInstanceAs (Decidable (_ ∧ _))

variable {T d : ℕ} {ds : List ℕ}

theorem not_reached_nil (T : ℕ) : ¬ Reached T [] := fun h ↦ h.1 rfl

theorem reached_snoc : Reached T (ds ++ [d]) ↔ T ≤ ds.sum + d := by
  simp [Reached]

theorem Reached.snoc (h : Reached T ds) (d : ℕ) : Reached T (ds ++ [d]) :=
  reached_snoc.mpr (h.2.trans (Nat.le_add_right _ _))

theorem reached_of_mem (h : T ∈ ds) : Reached T ds :=
  ⟨ne_nil_of_mem h, le_sum_of_mem h⟩

def OnTheDot (T : ℕ) (ds : List ℕ) : Prop :=
  ∀ ds' d, ds' ++ [d] <+: ds → ¬ Reached T ds' → T ≤ ds'.sum + d → d = T

theorem onTheDot_iff : OnTheDot T ds ↔ ∀ ds', ds' <+: ds → (T ∈ ds' ↔ Reached T ds') := by
  constructor
  · intro hdot ds' hpre
    refine ⟨reached_of_mem, ?_⟩
    induction ds' using reverseRecOn with
    | nil => exact fun hr ↦ absurd hr (not_reached_nil T)
    | append_singleton ds' d ih =>
      intro hr
      rw [mem_append, mem_singleton]
      by_cases hr' : Reached T ds'
      · exact .inl (ih ((prefix_append ds' [d]).trans hpre) hr')
      · exact .inr (hdot ds' d hpre hr' (reached_snoc.mp hr)).symm
  · intro hall ds' d hpre hno hle
    have hmem := (hall _ hpre).mpr (reached_snoc.mpr hle)
    rw [mem_append, mem_singleton] at hmem
    rcases hmem with hmem | hmem
    · exact absurd (reached_of_mem hmem) hno
    · exact hmem.symm

end Deadline
