import ForgeOS.Lib.Run

/-!
# Loops that step through memory

A loop `for(; inside a; a = next a) body` is a run of its body along the values of the variable.
-/

universe u v

variable {σ : Type u} {α : Type v}

/-- `for(; inside a; a = next a) s = body s a`, with at most so many turns. -/
def stride (inside : α → Bool) (next : α → α) (body : σ → α → Option σ) : ℕ → α → σ → Option σ
  | 0, a, s => if inside a then none else some s
  | n + 1, a, s =>
    if inside a then (body s a).bind (stride inside next body n (next a)) else some s

variable {inside : α → Bool} {next : α → α} {body : σ → α → Option σ}

theorem stride_eq_exec (value : ℕ → α) {a : α} {k n : ℕ} (hfirst : value 0 = a) (hk : k ≤ n)
    (hnext : ∀ i < k, next (value i) = value (i + 1)) (hinside : ∀ i < k, inside (value i))
    (houtside : ¬ inside (value k)) (s : σ) :
    stride inside next body n a s = Run.exec body s ((List.range k).map value) := by
  subst hfirst
  induction k generalizing n value s with
  | zero =>
    cases n with
    | zero => exact if_neg houtside
    | succ n => exact if_neg houtside
  | succ k ih =>
    obtain ⟨n, rfl⟩ := Nat.exists_eq_add_one_of_ne_zero (by omega : n ≠ 0)
    rw [stride, if_pos (hinside 0 (by omega)), hnext 0 (by omega), List.range_succ_eq_map,
      List.map_cons, List.map_map, Run.exec]
    refine Option.bind_congr fun s' _ ↦ ?_
    exact ih (fun i ↦ value (i + 1)) (by omega) (fun i hi ↦ hnext (i + 1) (by omega))
      (fun i hi ↦ hinside (i + 1) (by omega)) houtside s'

namespace Run

open List Option

variable {C : σ → α → Prop} {value : ℕ → α} {k : ℕ} {s : σ}

theorem Guarded.and {D : σ → α → Prop} {is : List α} (hC : Guarded body C s is)
    (hD : Guarded body D s is) : Guarded body (fun s a ↦ C s a ∧ D s a) s is := by
  induction is generalizing s with
  | nil => trivial
  | cons i is ih => exact ⟨⟨hC.1, hD.1⟩, fun t ht ↦ ih (hC.2 t ht) (hD.2 t ht)⟩

theorem guarded_range_succ : Guarded body C s ((List.range (k + 1)).map value) ↔
    Guarded body C s ((List.range k).map value) ∧
      ∀ t, exec body s ((List.range k).map value) = some t → C t (value k) := by
  rw [range_succ, map_append, guarded_append]
  refine and_congr_right fun _ ↦ forall₂_congr fun t _ ↦ ?_
  exact ⟨fun h ↦ h.1, fun h ↦ ⟨h, fun _ _ ↦ trivial⟩⟩

variable {motive : ℕ → σ → Prop}

theorem exec_range (first : motive 0 s) (turn : ∀ i s, i < k → motive i s → C s (value i) →
      ∃ t, body s (value i) = some t ∧ motive (i + 1) t)
    (hg : Guarded body C s ((List.range k).map value)) :
    ∃ t, exec body s ((List.range k).map value) = some t ∧ motive k t := by
  induction k with
  | zero => exact ⟨s, rfl, first⟩
  | succ k ih =>
    obtain ⟨hg, hlast⟩ := guarded_range_succ.mp hg
    obtain ⟨t, ht, hmotive⟩ := ih (fun i s hi ↦ turn i s (by omega)) hg
    obtain ⟨r, hr, hmotive⟩ := turn k t (by omega) hmotive (hlast t ht)
    refine ⟨r, ?_, hmotive⟩
    rw [range_succ, map_append]
    exact exec_snoc_eq_some.mpr ⟨t, ht, hr⟩

theorem inv_range (first : motive 0 s)
    (turn : ∀ i s t, i < k → motive i s → C s (value i) → body s (value i) = some t →
      motive (i + 1) t) (hg : Guarded body C s ((List.range k).map value)) {t : σ}
    (he : exec body s ((List.range k).map value) = some t) : motive k t := by
  induction k generalizing t with
  | zero => exact some.inj he ▸ first
  | succ k ih =>
    obtain ⟨hg, hlast⟩ := guarded_range_succ.mp hg
    rw [range_succ, map_append] at he
    obtain ⟨r, hr, ht⟩ := exec_snoc_eq_some.mp he
    exact turn k r t (by omega) (ih (fun i s t hi ↦ turn i s t (by omega)) hg hr) (hlast r hr) ht

end Run
