import ForgeOS.Lib.Fuel
import ForgeOS.Powerman.Model

/-!
# From a power state to a sleep state

`powerman_state_to_acpi` asks the firmware whether the machine supports a sleep state, and if not
tries the next lighter one.

The main result is `powermanStateToAcpi_iff`.
-/

namespace ForgeOS.Powerman

open List Option

def stateHalt : ℤ := 1

def stateCpuoff : ℤ := 2

def stateStandby : ℤ := 3

def stateHibernate : ℤ := 4

def aeOk : UInt32 := 0

/-- A call of `AcpiGetSleepTypeData`: the sleep state asked for, and the status returned. -/
structure Query where
  state : UInt8
  result : UInt32
  deriving DecidableEq

/-- The sleep state for a power state: `ACPI_STATE_S0` is 0, up to `ACPI_STATE_S5`, which is 5. -/
def sleepState (status : ℤ) : UInt8 :=
  if status = stateWorking then 0
  else if status = stateHalt then 1
  else if status = stateCpuoff then 2
  else if status = stateStandby then 3
  else if status = stateHibernate then 4
  else if status = stateOff then 5
  else 0

/-- The loop of `powerman_state_to_acpi`, after the queries `qs`. -/
def fallback (answer : ℕ → UInt32) : ℕ → UInt8 → List Query → Option (UInt8 × List Query)
  | 0, _, _ => none
  | fuel + 1, newStatus, qs =>
    let result := answer qs.length
    let qs := qs ++ [⟨newStatus, result⟩]
    if result ≠ aeOk then
      if newStatus = 3 then fallback answer fuel 2 qs
      else if newStatus = 2 then fallback answer fuel 1 qs
      else if newStatus = 1 then some (0, qs)
      else fallback answer fuel newStatus qs
    else some (newStatus, qs)

/-- `powerman_state_to_acpi`: the sleep state, and the queries made. -/
def powermanStateToAcpi (answer : ℕ → UInt32) (fuel : ℕ) (status : ℤ) :
    Option (UInt8 × List Query) :=
  fallback answer fuel (sleepState status) []

variable {answer : ℕ → UInt32} {newStatus : UInt8} {qs : List Query}

/-- A sleep state may be entered: it is S0, or the firmware has said that it is supported. -/
def Supported (qs : List Query) (r : UInt8) : Prop := r = 0 ∨ ⟨r, aeOk⟩ ∈ qs

theorem fallback_spec {fuel : ℕ} {r : UInt8 × List Query}
    (h : fallback answer fuel newStatus qs = some r) : Supported r.2 r.1 ∧ r.1 ≤ newStatus := by
  induction fuel generalizing newStatus qs with
  | zero => cases h
  | succ fuel ih =>
    rw [fallback] at h
    split at h
    · split at h
      next h3 =>
        obtain ⟨hsup, hle⟩ := ih h
        exact ⟨hsup, UInt8.le_trans hle (by rw [h3]; decide)⟩
      next =>
        split at h
        next h2 =>
          obtain ⟨hsup, hle⟩ := ih h
          exact ⟨hsup, UInt8.le_trans hle (by rw [h2]; decide)⟩
        next =>
          split at h
          next h1 =>
            obtain rfl := some.inj h
            exact ⟨.inl rfl, UInt8.zero_le⟩
          next => exact ih h
    next hok =>
      obtain rfl := some.inj h
      rw [not_not] at hok
      refine ⟨.inr ?_, UInt8.le_refl _⟩
      rw [hok]
      exact mem_append_right _ (mem_singleton_self _)

def Halts (answer : ℕ → UInt32) (newStatus : UInt8) (qs : List Query) : Prop :=
  ∃ r, Returns (fun fuel ↦ fallback answer fuel newStatus qs) r

theorem halts_of_ok (h : answer qs.length = aeOk) : Halts answer newStatus qs := by
  refine ⟨(newStatus, qs ++ [⟨newStatus, answer qs.length⟩]),
    (Returns.of_eq rfl).turn fun fuel ↦ ?_⟩
  rw [fallback]
  exact if_neg (not_not.mpr h)

theorem halts_s1 (answer : ℕ → UInt32) (qs : List Query) : Halts answer 1 qs := by
  by_cases h : answer qs.length = aeOk
  · exact halts_of_ok h
  · refine ⟨(0, qs ++ [⟨1, answer qs.length⟩]), (Returns.of_eq rfl).turn fun fuel ↦ ?_⟩
    rw [fallback]
    exact if_pos h

theorem halts_s2 (answer : ℕ → UInt32) (qs : List Query) : Halts answer 2 qs := by
  by_cases h : answer qs.length = aeOk
  · exact halts_of_ok h
  · obtain ⟨r, hr⟩ := halts_s1 answer (qs ++ [⟨2, answer qs.length⟩])
    refine ⟨r, hr.turn fun fuel ↦ ?_⟩
    rw [fallback]
    exact if_pos h

theorem halts_s3 (answer : ℕ → UInt32) (qs : List Query) : Halts answer 3 qs := by
  by_cases h : answer qs.length = aeOk
  · exact halts_of_ok h
  · obtain ⟨r, hr⟩ := halts_s2 answer (qs ++ [⟨3, answer qs.length⟩])
    refine ⟨r, hr.turn fun fuel ↦ ?_⟩
    rw [fallback]
    exact if_pos h

theorem fallback_again (h1 : newStatus ≠ 1) (h2 : newStatus ≠ 2) (h3 : newStatus ≠ 3)
    (hfail : answer qs.length ≠ aeOk) (fuel : ℕ) :
    fallback answer (fuel + 1) newStatus qs =
      fallback answer fuel newStatus (qs ++ [⟨newStatus, answer qs.length⟩]) := by
  rw [fallback]
  simp only [if_pos hfail, if_neg h1, if_neg h2, if_neg h3]

theorem halts_of_later (h1 : newStatus ≠ 1) (h2 : newStatus ≠ 2) (h3 : newStatus ≠ 3) (k : ℕ)
    (hk : answer (qs.length + k) = aeOk) : Halts answer newStatus qs := by
  induction k generalizing qs with
  | zero => exact halts_of_ok hk
  | succ k ih =>
    by_cases h : answer qs.length = aeOk
    · exact halts_of_ok h
    · obtain ⟨r, hr⟩ := @ih (qs ++ [⟨newStatus, answer qs.length⟩]) (by
        rw [length_append, length_singleton, Nat.add_assoc, Nat.add_comm 1 k]
        exact hk)
      exact ⟨r, hr.turn (fallback_again h1 h2 h3 h)⟩

theorem fallback_eq_none (h1 : newStatus ≠ 1) (h2 : newStatus ≠ 2) (h3 : newStatus ≠ 3)
    (hfail : ∀ i, answer i ≠ aeOk) (qs : List Query) (fuel : ℕ) :
    fallback answer fuel newStatus qs = none := by
  induction fuel generalizing qs with
  | zero => rw [fallback]
  | succ fuel ih => rw [fallback_again h1 h2 h3 (hfail _), ih]

/-- A request for a state of the chain, in which the loop can go down. -/
def InChain (status : ℤ) : Prop :=
  status = stateHalt ∨ status = stateCpuoff ∨ status = stateStandby

instance (status : ℤ) : Decidable (InChain status) :=
  inferInstanceAs (Decidable (_ ∨ _ ∨ _))

theorem halts_of_inChain {status : ℤ} (h : InChain status) :
    Halts answer (sleepState status) qs := by
  rcases h with rfl | rfl | rfl
  · exact halts_s1 answer qs
  · exact halts_s2 answer qs
  · exact halts_s3 answer qs

theorem sleepState_ne_of_not_inChain {status : ℤ} (h : ¬ InChain status) :
    sleepState status ≠ 1 ∧ sleepState status ≠ 2 ∧ sleepState status ≠ 3 := by
  simp only [InChain, not_or] at h
  rw [sleepState, if_neg h.1, if_neg h.2.1, if_neg h.2.2]
  split_ifs <;> decide

/-- **The search for a sleep state ends** exactly when the request is for a state of the chain or
one of the answers is a success. -/
theorem powermanStateToAcpi_iff (answer : ℕ → UInt32) (status : ℤ) :
    (∃ r qs, Returns (fun fuel ↦ powermanStateToAcpi answer fuel status) (r, qs) ∧
        Supported qs r ∧ r ≤ sleepState status) ↔
      InChain status ∨ ∃ i, answer i = aeOk := by
  constructor
  · rintro ⟨r, qs, ⟨N, hN⟩, -⟩
    by_contra hcon
    obtain ⟨hchain, hfail⟩ := not_or.mp hcon
    obtain ⟨h1, h2, h3⟩ := sleepState_ne_of_not_inChain hchain
    have hnone := fallback_eq_none h1 h2 h3 (not_exists.mp hfail) [] N
    exact absurd ((hN N (Nat.le_refl N)).symm.trans hnone) nofun
  · intro h
    have hhalts : Halts answer (sleepState status) [] := by
      by_cases hchain : InChain status
      · exact halts_of_inChain hchain
      · obtain ⟨h1, h2, h3⟩ := sleepState_ne_of_not_inChain hchain
        obtain ⟨i, hi⟩ := h.resolve_left hchain
        exact halts_of_later h1 h2 h3 i (by rwa [length_nil, Nat.zero_add])
    obtain ⟨⟨r, qs⟩, N, hN⟩ := hhalts
    exact ⟨r, qs, ⟨N, hN⟩, fallback_spec (hN N (Nat.le_refl N))⟩

/-- **Without support for S5, the request to power off does not return.** -/
theorem not_powermanStateToAcpi_off :
    ¬ ∃ r, Returns (fun fuel ↦ powermanStateToAcpi (fun _ ↦ 5) fuel stateOff) r := by
  rintro ⟨r, N, hN⟩
  have hnone : powermanStateToAcpi (fun _ ↦ 5) N stateOff = none :=
    fallback_eq_none (by decide) (by decide) (by decide) (fun _ ↦ by decide) _ N
  exact absurd ((hN N (Nat.le_refl N)).symm.trans hnone) nofun

end ForgeOS.Powerman
