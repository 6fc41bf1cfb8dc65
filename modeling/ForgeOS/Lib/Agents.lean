import Mathlib.Algebra.Order.BigOperators.Group.Finset
import ForgeOS.Lib.Run

/-!
# Agents that own and carry things

An agent *owns* what only it may touch (`UniqueOwner`), and in the middle of an operation may
*carry* a value.
-/

universe u v

variable {I : Type u} {V : Type v}

def UniqueOwner {A : Type v} (owns : I → A → Prop) : Prop := ∀ i j a, owns i a → owns j a → i = j

variable {i : I}

theorem UniqueOwner.move {A : Type v} {owns owns' : I → A → Prop} (h : UniqueOwner owns)
    (hother : ∀ j ≠ i, ∀ a, owns' j a → owns j a) (hself : ∀ a, owns' i a → ∀ j ≠ i, ¬ owns j a) :
    UniqueOwner owns' := by
  intro j k a hj hk
  by_cases hji : j = i
  · by_cases hki : k = i
    · rw [hji, hki]
    · subst hji
      exact absurd (hother k hki a hk) (hself a hj k hki)
  · by_cases hki : k = i
    · subst hki
      exact absurd (hother j hji a hj) (hself a hk j hji)
    · exact h j k a (hother j hji a hj) (hother k hki a hk)

def Totals (f : I → ℕ) (n : ℕ) : Prop := ∃ F : Finset I, (∀ i ∉ F, f i = 0) ∧ ∑ i ∈ F, f i = n

theorem totals_zero : Totals (fun _ : I ↦ 0) 0 := ⟨∅, by simp, by simp⟩

variable {n : ℕ} {f : I → ℕ}

theorem totals_univ [Fintype I] : Totals f n ↔ ∑ i, f i = n := by
  refine ⟨fun ⟨F, hF, hsum⟩ ↦ ?_, fun hsum ↦ ⟨Finset.univ, by simp, hsum⟩⟩
  rw [← hsum]
  exact (Finset.sum_subset (Finset.subset_univ F) fun i _ hi ↦ hF i hi).symm

theorem Totals.add_le [DecidableEq I] (h : Totals f n) {j : I} (hij : i ≠ j) : f i + f j ≤ n := by
  obtain ⟨F, hF, rfl⟩ := h
  have hle : ∑ k ∈ {i, j}, f k ≤ ∑ k ∈ F ∪ {i, j}, f k :=
    Finset.sum_le_sum_of_subset Finset.subset_union_right
  rw [Finset.sum_pair hij] at hle
  rwa [← Finset.sum_subset Finset.subset_union_left fun k _ hk ↦ hF k hk] at hle

theorem Totals.le (h : Totals f n) (i : I) : f i ≤ n := by
  obtain ⟨F, hF, rfl⟩ := h
  by_cases hi : i ∈ F
  · exact Finset.single_le_sum (fun _ _ ↦ Nat.zero_le _) hi
  · rw [hF i hi]
    exact Nat.zero_le _

theorem Totals.move [DecidableEq I] {f' : I → ℕ} (h : Totals f n) (hother : ∀ j ≠ i, f' j = f j) :
    ∃ n', Totals f' n' ∧ n' + f i = n + f' i := by
  obtain ⟨F, hF, rfl⟩ := h
  refine ⟨∑ j ∈ insert i F, f' j, ⟨insert i F, fun j hj ↦ ?_, rfl⟩, ?_⟩
  · obtain ⟨hji, hjF⟩ := not_or.mp (mt Finset.mem_insert.mpr hj)
    rw [hother j hji, hF j hjF]
  · have hsum : ∑ j ∈ F, f j = ∑ j ∈ insert i F, f j :=
      Finset.sum_subset (Finset.subset_insert i F) fun j _ hj ↦ hF j hj
    have herase : ∑ j ∈ (insert i F).erase i, f' j = ∑ j ∈ (insert i F).erase i, f j :=
      Finset.sum_congr rfl fun j hj ↦ hother j (Finset.ne_of_mem_erase hj)
    have hi := Finset.mem_insert_self i F
    rw [hsum, ← Finset.add_sum_erase _ f hi, ← Finset.add_sum_erase _ f' hi, herase]
    omega

def Carried (f : I → Option V) (vs : List V) : Prop :=
  ∃ is : List I, is.Nodup ∧ (∀ i, i ∈ is ↔ f i ≠ none) ∧ vs.Perm (is.filterMap f)

theorem carried_none : Carried (fun _ : I ↦ (none : Option V)) [] :=
  ⟨[], List.nodup_nil, by simp, by simp⟩

def Accounts (f : I → Option V) (st vs : List V) : Prop :=
  ∃ cs, Carried f cs ∧ vs.Perm (cs ++ st)

variable [DecidableEq I] {f : I → Option V} {vs st st' : List V} {i : I} {v : V}

theorem Carried.set (h : Carried f vs) (hi : f i = none) :
    Carried (Function.update f i (some v)) (v :: vs) := by
  obtain ⟨is, hnd, hmem, hvs⟩ := h
  have hnot : i ∉ is := fun hi' ↦ (hmem i).mp hi' hi
  refine ⟨i :: is, List.nodup_cons.mpr ⟨hnot, hnd⟩, fun j ↦ ?_, ?_⟩
  · by_cases hj : j = i
    · simp [hj]
    · simpa [hj] using hmem j
  · have heq : is.filterMap (Function.update f i (some v)) = is.filterMap f := by
      refine List.filterMap_congr fun j hj ↦ ?_
      rw [Function.update_of_ne]
      rintro rfl
      exact hnot hj
    rw [List.filterMap_cons_some (b := v) (by simp), heq]
    exact hvs.cons v

theorem Carried.clear (h : Carried f vs) (hi : f i = some v) :
    ∃ ws, vs.Perm (v :: ws) ∧ Carried (Function.update f i none) ws := by
  obtain ⟨is, hnd, hmem, hvs⟩ := h
  have hin : i ∈ is := (hmem i).mpr (by simp [hi])
  obtain ⟨s, t, rfl⟩ := List.append_of_mem hin
  have hnot : i ∉ s ++ t := (List.nodup_middle.mp hnd).notMem
  refine ⟨(s ++ t).filterMap f, ?_, s ++ t, (List.nodup_middle.mp hnd).of_cons, fun j ↦ ?_, ?_⟩
  · refine hvs.trans ((List.perm_middle.filterMap f).trans ?_)
    rw [List.filterMap_cons_some hi]
  · by_cases hj : j = i
    · subst hj
      simpa using hnot
    · have hj' := hmem j
      simp only [List.mem_append, List.mem_cons, hj, false_or] at hj'
      simpa [hj] using hj'
  · refine List.Perm.of_eq (List.filterMap_congr fun j hj ↦ ?_)
    rw [Function.update_of_ne]
    rintro rfl
    exact hnot hj

theorem Carried.update (h : Carried f vs) (i : I) (x : Option V) :
    ∃ ws, vs.Perm ((f i).toList ++ ws) ∧ Carried (Function.update f i x) (x.toList ++ ws) := by
  obtain ⟨ws, hp, hws⟩ : ∃ ws, vs.Perm ((f i).toList ++ ws) ∧
      Carried (Function.update f i none) ws := by
    cases hi : f i with
    | none => exact ⟨vs, .refl _, by rwa [← hi, Function.update_eq_self]⟩
    | some v => exact h.clear hi
  refine ⟨ws, hp, ?_⟩
  cases x with
  | none => exact hws
  | some v => simpa using hws.set (v := v) (i := i) (by simp)

open scoped List in
theorem Accounts.move (h : Accounts f st vs) {x : Option V} {g r : List V}
    (hp : g ++ ((f i).toList ++ st) ~ r ++ (x.toList ++ st')) :
    ∃ ws, Accounts (Function.update f i x) st' ws ∧ g ++ vs ~ r ++ ws := by
  obtain ⟨cs, hcs, hvs⟩ := h
  obtain ⟨ds, hds, hcs'⟩ := hcs.update i x
  refine ⟨ds ++ (x.toList ++ st'), ⟨x.toList ++ ds, hcs', ?_⟩, ?_⟩
  · rw [List.append_assoc]
    exact List.perm_append_comm_assoc ..
  calc g ++ vs
      _ ~ g ++ (cs ++ st) := hvs.append_left g
      _ ~ g ++ ((f i).toList ++ ds ++ st) := (hds.append_right st).append_left g
      _ ~ g ++ (ds ++ ((f i).toList ++ st)) := by
        rw [List.append_assoc]
        exact (List.perm_append_comm_assoc ..).append_left g
      _ ~ ds ++ (g ++ ((f i).toList ++ st)) := List.perm_append_comm_assoc ..
      _ ~ ds ++ (r ++ (x.toList ++ st')) := hp.append_left ds
      _ ~ r ++ (ds ++ (x.toList ++ st')) := List.perm_append_comm_assoc ..

variable {σ ι : Type*} {R : σ → List V → Prop} {g r : σ → ι → List V} {C : σ → ι → Prop}
    {is : List ι} {t : σ}

omit [DecidableEq I]

open scoped List in
/-- **Accounts along a run.**  `R s vs` says that the values inside are `vs`. -/
theorem Run.conserved_of_guarded {step : σ → ι → Option σ}
    (hstep : ∀ s i t vs, R s vs → C s i → step s i = some t →
      ∃ ws, R t ws ∧ (g s i ++ vs).Perm (r s i ++ ws)) {s : σ} {vs : List V} (hs : R s vs)
    (hg : Run.Guarded step C s is) (he : Run.exec step s is = some t) :
    ∃ ws, R t ws ∧ (Run.trace step g s is ++ vs).Perm (Run.trace step r s is ++ ws) := by
  induction is generalizing s vs with
  | nil => exact ⟨vs, Option.some.inj he ▸ hs, .refl _⟩
  | cons i is ih =>
    obtain ⟨m, hm, he⟩ := Run.exec_cons_eq_some.mp he
    obtain ⟨us, hus, hp⟩ := hstep s i m vs hs hg.1 hm
    obtain ⟨ws, hws, hq⟩ := ih hus (hg.2 m hm) he
    refine ⟨ws, hws, ?_⟩
    rw [Run.trace, Run.trace, hm, Option.elim_some, Option.elim_some]
    calc g s i ++ Run.trace step g m is ++ vs
        _ = g s i ++ (Run.trace step g m is ++ vs) := List.append_assoc ..
        _ ~ Run.trace step g m is ++ (g s i ++ vs) := List.perm_append_comm_assoc ..
        _ ~ Run.trace step g m is ++ (r s i ++ us) := hp.append_left _
        _ ~ r s i ++ (Run.trace step g m is ++ us) := List.perm_append_comm_assoc ..
        _ ~ r s i ++ (Run.trace step r m is ++ ws) := hq.append_left _
        _ = r s i ++ Run.trace step r m is ++ ws := (List.append_assoc ..).symm

theorem Run.subperm_of_guarded {step : σ → ι → Option σ}
    (hstep : ∀ s i t vs, R s vs → C s i → step s i = some t →
      ∃ ws, R t ws ∧ (g s i ++ vs).Perm (r s i ++ ws)) {s : σ} (hs : R s [])
    (hg : Run.Guarded step C s is) (he : Run.exec step s is = some t) :
    (Run.trace step r s is).Subperm (Run.trace step g s is) := by
  obtain ⟨ws, -, hp⟩ := Run.conserved_of_guarded hstep hs hg he
  rw [List.append_nil] at hp
  exact (List.sublist_append_left _ ws).subperm.trans hp.symm.subperm
