import ForgeOS.Lib.Run

/-!
# Loops that return

A loop is a function of its fuel, which bounds how many turns it may take; without enough of it the
result is `none`.
-/

universe u v

variable {α : Type u} {β : Type v}

/-- With enough fuel the result is `a`. -/
def Returns (f : ℕ → Option α) (a : α) : Prop := ∃ N, ∀ fuel ≥ N, f fuel = some a

namespace Returns

open Option

variable {f g : ℕ → Option α} {a b : α}

theorem of_eq {m : Option α} (h : m = some a) : Returns (fun _ ↦ m) a := ⟨0, fun _ _ ↦ h⟩

theorem turn (hf : Returns f a) (h : ∀ fuel, g (fuel + 1) = f fuel) : Returns g a := by
  obtain ⟨N, hN⟩ := hf
  refine ⟨N + 1, fun fuel hfuel ↦ ?_⟩
  obtain ⟨m, rfl⟩ : ∃ m, fuel = m + 1 := ⟨fuel - 1, by omega⟩
  rw [h]
  exact hN m (by omega)

theorem bind {g : α → ℕ → Option β} {b : β} (hf : Returns f a) (hg : Returns (g a) b) :
    Returns (fun fuel ↦ (f fuel).bind fun x ↦ g x fuel) b := by
  obtain ⟨N, hN⟩ := hf
  obtain ⟨M, hM⟩ := hg
  refine ⟨max N M, fun fuel hfuel ↦ ?_⟩
  show (f fuel).bind _ = some b
  rw [hN fuel (by omega), bind_some, hM fuel (by omega)]

theorem map {b : β} {k : α → β} (hf : Returns f a) (hk : k a = b) :
    Returns (fun fuel ↦ (f fuel).map k) b := by
  obtain ⟨N, hN⟩ := hf
  refine ⟨N, fun fuel hfuel ↦ ?_⟩
  show (f fuel).map k = some b
  rw [hN fuel hfuel, map_some, hk]

theorem unique (ha : Returns f a) (hb : Returns f b) : a = b := by
  obtain ⟨N, hN⟩ := ha
  obtain ⟨M, hM⟩ := hb
  exact some.inj ((hN (max N M) (by omega)).symm.trans (hM (max N M) (by omega)))

end Returns

/-- **A loop with a counter.** -/
theorem foldl_range_induction {motive : ℕ → α → Prop} (step : α → ℕ → α) {a : α} (n : ℕ)
    (first : motive 0 a) (turn : ∀ i a, i < n → motive i a → motive (i + 1) (step a i)) :
    motive n ((List.range n).foldl step a) := by
  induction n with
  | zero => exact first
  | succ n ih =>
    rw [List.range_succ, List.foldl_append]
    exact turn n _ (by omega) (ih fun i a hi ↦ turn i a (by omega))

/-- However much fuel there is, from some bound on there is no result. -/
def Fails (f : ℕ → Option α) : Prop := ∃ N, ∀ fuel ≥ N, f fuel = none

namespace Fails

variable {f g : ℕ → Option α} {a : α}

theorem not_returns (hf : Fails f) : ¬ Returns f a := by
  rintro ⟨M, hM⟩
  obtain ⟨N, hN⟩ := hf
  have hnone := hN (max N M) (by omega)
  rw [hM (max N M) (by omega)] at hnone
  cases hnone

theorem turn (hf : Fails f) (h : ∀ fuel, g (fuel + 1) = f fuel) : Fails g := by
  obtain ⟨N, hN⟩ := hf
  refine ⟨N + 1, fun fuel hfuel ↦ ?_⟩
  obtain ⟨m, rfl⟩ : ∃ m, fuel = m + 1 := ⟨fuel - 1, by omega⟩
  rw [h]
  exact hN m (by omega)

theorem bind (hf : Fails f) (g : α → ℕ → Option β) :
    Fails fun fuel ↦ (f fuel).bind fun x ↦ g x fuel := by
  obtain ⟨N, hN⟩ := hf
  refine ⟨N, fun fuel hfuel ↦ ?_⟩
  show (f fuel).bind _ = none
  rw [hN fuel hfuel, Option.bind_none]

end Fails

theorem Returns.bind_fails {f : ℕ → Option α} {g : α → ℕ → Option β} {a : α} (hf : Returns f a)
    (hg : Fails (g a)) : Fails fun fuel ↦ (f fuel).bind fun x ↦ g x fuel := by
  obtain ⟨N, hN⟩ := hf
  obtain ⟨M, hM⟩ := hg
  refine ⟨max N M, fun fuel hfuel ↦ ?_⟩
  show (f fuel).bind _ = none
  rw [hN fuel (by omega), Option.bind_some, hM fuel (by omega)]

def Ends (f : ℕ → Option α) (P : α → Prop) : Prop := Fails f ∨ ∃ a, Returns f a ∧ P a

namespace Ends

variable {f : ℕ → Option α} {P : α → Prop}

theorem of_option {m : Option α} (h : ∀ a, m = some a → P a) : Ends (fun _ ↦ m) P := by
  cases m with
  | none => exact .inl ⟨0, fun _ _ ↦ rfl⟩
  | some a => exact .inr ⟨a, Returns.of_eq rfl, h a rfl⟩

theorem of_returns {a : α} (hf : Returns f a) (ha : P a) : Ends f P := .inr ⟨a, hf, ha⟩

theorem bind {g : α → ℕ → Option β} {Q : β → Prop} (hf : Ends f P) (hg : ∀ a, P a → Ends (g a) Q) :
    Ends (fun fuel ↦ (f fuel).bind fun x ↦ g x fuel) Q := by
  rcases hf with hf | ⟨a, hf, ha⟩
  · exact .inl (hf.bind g)
  rcases hg a ha with hg | ⟨b, hg, hb⟩
  · exact .inl (hf.bind_fails hg)
  · exact .inr ⟨b, hf.bind hg, hb⟩

end Ends

/-- **The simulation rule for steps with fuel**: a run breaks the condition, or returns with the
relation kept. -/
theorem Run.returns_of_guarded {σ τ ι : Type*} {step : ℕ → σ → ι → Option σ} {next : τ → ι → τ}
    {C : σ → ι → Prop} {R : σ → τ → Prop}
    (hstep : ∀ s m i, R s m → C s i → ∃ s', Returns (fun fuel ↦ step fuel s i) s' ∧ R s' (next m i))
    {s : σ} {m : τ} (hs : R s m) (is : List ι) :
    (∃ N, ∀ fuel ≥ N, ¬ Guarded (step fuel) C s is) ∨
      ∃ t, Returns (fun fuel ↦ exec (step fuel) s is) t ∧ R t (is.foldl next m) := by
  induction is generalizing s m with
  | nil => exact .inr ⟨s, Returns.of_eq rfl, hs⟩
  | cons i is ih =>
    by_cases hC : C s i
    · obtain ⟨s', hret, hR⟩ := hstep s m i hs hC
      rcases ih hR with ⟨N, hN⟩ | ⟨t, ht, hRt⟩
      · obtain ⟨M, hM⟩ := hret
        refine .inl ⟨max N M, fun fuel hfuel hg ↦ hN fuel (by omega) (hg.2 s' ?_)⟩
        exact hM fuel (by omega)
      · exact .inr ⟨t, hret.bind ht, hRt⟩
    · exact .inl ⟨0, fun fuel _ hg ↦ hC hg.1⟩

theorem Run.returns_of_inv {σ ι : Type*} {step : ℕ → σ → ι → Option σ} {C : σ → ι → Prop}
    {P : σ → Prop} (hstep : ∀ s i, P s → C s i → ∃ s', Returns (fun fuel ↦ step fuel s i) s' ∧ P s')
    {s : σ} (hs : P s) (is : List ι) :
    (∃ N, ∀ fuel ≥ N, ¬ Guarded (step fuel) C s is) ∨
      ∃ t, Returns (fun fuel ↦ exec (step fuel) s is) t ∧ P t :=
  @Run.returns_of_guarded σ Unit ι step (fun m _ ↦ m) C (fun s _ ↦ P s)
    (fun s _ i hs hC ↦ hstep s i hs hC) s () hs is

/-- **The simulation rule for what steps with fuel emit**, if they may also fail. -/
theorem Run.emits_of_guarded {σ τ ι ε : Type*} {step : ℕ → σ → ι → Option σ}
    {emit : ℕ → σ → ι → List ε} {mstep : τ → ε → Option τ} {C : σ → ι → Prop} {R : σ → τ → Prop}
    (hstep : ∀ s m i, R s m → C s i → ∃ m', Returns (fun fuel ↦ exec mstep m (emit fuel s i)) m' ∧
      (Fails (fun fuel ↦ step fuel s i) ∨
        ∃ s', Returns (fun fuel ↦ step fuel s i) s' ∧ R s' m'))
    {s : σ} {m : τ} (hs : R s m) (is : List ι) :
    ∃ N, ∀ fuel ≥ N, Guarded (step fuel) C s is →
      ∃ m', exec mstep m (trace (step fuel) (emit fuel) s is) = some m' ∧
        ∀ t, exec (step fuel) s is = some t → R t m' := by
  induction is generalizing s m with
  | nil => exact ⟨0, fun fuel _ _ ↦ ⟨m, rfl, fun t ht ↦ Option.some.inj ht ▸ hs⟩⟩
  | cons i is ih =>
    by_cases hC : C s i
    swap
    · exact ⟨0, fun fuel _ hg ↦ absurd hg.1 hC⟩
    obtain ⟨m', ⟨M, hM⟩, ⟨L, hL⟩ | ⟨s', ⟨L, hL⟩, hR⟩⟩ := hstep s m i hs hC
    · refine ⟨max M L, fun fuel hfuel _ ↦ ?_⟩
      have hnone : step fuel s i = none := hL fuel (by omega)
      refine ⟨m', ?_, fun t ht ↦ ?_⟩
      · rw [trace, hnone, Option.elim_none, List.append_nil]
        exact hM fuel (by omega)
      · rw [exec, hnone] at ht
        cases ht
    · obtain ⟨N, hN⟩ := ih hR
      refine ⟨max N (max M L), fun fuel hfuel hg ↦ ?_⟩
      have hs' : step fuel s i = some s' := hL fuel (by omega)
      obtain ⟨m'', hm'', ht⟩ := hN fuel (by omega) (hg.2 s' hs')
      refine ⟨m'', ?_, fun t hexec ↦ ht t ?_⟩
      · have hm' : exec mstep m (emit fuel s i) = some m' := hM fuel (by omega)
        rw [trace, hs', Option.elim_some, exec_append, hm']
        exact hm''
      · rwa [exec, hs'] at hexec

/-- **The invariant rule for steps with fuel that may fail.** -/
theorem Run.inv_of_ends {σ ι : Type*} {step : ℕ → σ → ι → Option σ} {P : σ → Prop}
    (hstep : ∀ s i, P s → Ends (fun fuel ↦ step fuel s i) P) {s : σ} (hs : P s) (is : List ι) :
    ∃ N, ∀ fuel ≥ N, ∀ t, exec (step fuel) s is = some t → P t := by
  induction is generalizing s with
  | nil => exact ⟨0, fun fuel _ t ht ↦ Option.some.inj ht ▸ hs⟩
  | cons i is ih =>
    rcases hstep s i hs with ⟨N, hN⟩ | ⟨s', ⟨N, hN⟩, hs'⟩
    · refine ⟨N, fun fuel hfuel t ht ↦ ?_⟩
      have hnone : step fuel s i = none := hN fuel hfuel
      rw [exec, hnone] at ht
      cases ht
    · obtain ⟨M, hM⟩ := ih hs'
      refine ⟨max N M, fun fuel hfuel t ht ↦ hM fuel (by omega) t ?_⟩
      have hsome : step fuel s i = some s' := hN fuel (by omega)
      rwa [exec, hsome] at ht
