import ForgeOS.Semaphore.Permits

/-!
# A semaphore with one permit is a mutex

While a release is under way the permit is with the releasing thread and `s->count` is 0, and no
operation asks for fewer than one permit (`Positive`), so there is no compare-and-swap to succeed.

The main result is `holder_unique_of_allowed`.
-/

namespace ForgeOS.Semaphore

open Function Option

variable {T : Type}

def acpiOsCreateMutex : Semaphore T := createSemaphore 1 1

/-- `AcpiOsAcquireMutex`; the timeout is printed and not used. -/
def acpiOsAcquireMutex (_timeout : ℕ) : Op := .acquire 1

def acpiOsReleaseMutex : Op := .release 1

def Pc.amount : Pc T → Option ℕ
  | .tryLoad _ count | .trySwap _ count _ | .releaseLock count | .releaseLoad count
  | .releaseAdd count _ | .releaseStore count _ => some count
  | _ => none

def Positive (s : Semaphore T) : Prop := ∀ i, ∀ count ∈ (s.pc i).amount, 0 < count

theorem effective_pos {s : Semaphore T} (hmax : 0 < s.max) (count : ℕ) : 0 < s.effective count := by
  have hone : 0 < atLeastOne count := by
    unfold atLeastOne
    split <;> omega
  unfold effective honorMax
  split
  · exact hmax
  · exact hone

theorem amount_refused (s : Semaphore T) (k : Caller) : (s.refused k).amount = none := by
  cases k <;> rfl

theorem amount_acquired (k : Caller) : (acquired k : Pc T).amount = none := by
  cases k <;> rfl

theorem Pc.amount_run (pc : Pc T) : pc.run.amount = pc.amount := by
  cases pc <;> rfl

variable [DecidableEq T] {s s' : Semaphore T} {i : T} {lbl : Label T}

theorem amount_access (hs : s.access i = some s') :
    ∃ pc, s'.pc = Function.update s.pc i pc ∧
      (pc.amount = none ∨ pc.amount = (s.pc i).amount ∨ ∃ c, pc.amount = some (s.effective c)) := by
  unfold access at hs
  split at hs
  case h_1 | h_10 => cases hs
  case h_2 k count hpc =>
    split at hs
    · cases hs
      exact ⟨_, rfl, .inl (amount_refused s k)⟩
    · cases hs
      exact ⟨_, rfl, .inr (.inl (by rw [hpc]; rfl))⟩
  case h_3 k count value hpc =>
    split at hs
    · cases hs
      exact ⟨_, rfl, .inl (amount_acquired k)⟩
    · cases hs
      exact ⟨_, rfl, .inl (amount_refused s k)⟩
  case h_4 count hpc =>
    split at hs
    · cases hs
      exact ⟨_, rfl, .inr (.inr ⟨count, rfl⟩)⟩
    · cases hs
  case h_12 count hpc =>
    split at hs
    · cases hs
      exact ⟨_, rfl, .inr (.inl (by rw [hpc]; rfl))⟩
    · cases hs
  case h_13 | h_14 =>
    rename_i hpc
    cases hs
    exact ⟨_, rfl, .inr (.inl (by rw [hpc]; rfl))⟩
  case h_9 | h_11 | h_18 =>
    split at hs
    all_goals
      cases hs
      exact ⟨_, rfl, .inl rfl⟩
  case h_16 =>
    cases hs
    refine ⟨_, rfl, .inl ?_⟩
    split <;> rfl
  all_goals
    cases hs
    exact ⟨_, rfl, .inl rfl⟩

theorem Positive.goto (h : Positive s) {pc : Pc T} (hpc : s'.pc = Function.update s.pc i pc)
    (hpos : ∀ count ∈ pc.amount, 0 < count) : Positive s' := by
  intro j count hcount
  rw [hpc] at hcount
  by_cases hj : j = i
  · subst hj
    rw [update_self] at hcount
    exact hpos count hcount
  · rw [update_of_ne hj] at hcount
    exact h j count hcount

theorem positive_access (h : Positive s) (hmax : 0 < s.max) (hs : s.access i = some s') :
    Positive s' := by
  obtain ⟨pc, hpc, hamount⟩ := amount_access hs
  refine h.goto hpc fun count hcount ↦ ?_
  rcases hamount with hnone | hsame | ⟨c, hc⟩
  · rw [hnone] at hcount
    cases hcount
  · rw [hsame] at hcount
    exact h i count hcount
  · rw [hc] at hcount
    cases hcount
    exact effective_pos hmax c

theorem positive_dispatch (h : Positive s) (hs : s.dispatch = some s') : Positive s' := by
  unfold dispatch at hs
  split at hs
  next => cases hs
  next thr rest hq =>
    split at hs
    · cases hs
      refine h.goto rfl fun count hcount ↦ ?_
      rw [Pc.amount_run] at hcount
      exact h thr count hcount
    · cases hs
      exact h

theorem positive_call (h : Positive s) (hmax : 0 < s.max) (op : Op) : Positive (s.call i op) := by
  cases op
  all_goals
    refine h.goto rfl fun count hcount ↦ ?_
    cases hcount
    exact effective_pos hmax _

theorem positive_step (h : Positive s) (hmax : 0 < s.max) (hs : step s lbl = some s') :
    Positive s' := by
  cases lbl with
  | call i op =>
    rw [step] at hs
    split at hs
    · cases hs
      exact positive_call h hmax op
    · cases hs
  | access i => exact positive_access h hmax hs
  | dispatch => exact positive_dispatch h hs

omit [DecidableEq T] in
theorem Kept.undisturbed (h : Kept 1 s) (hpos : Positive s) (lbl : Label T) :
    Undisturbed s lbl := by
  cases lbl with
  | call i op => trivial
  | dispatch => trivial
  | access i =>
    intro hexpects j
    by_contra hadding
    have hcount : 0 < s.count := by
      have hok := h.ok i
      have hasks := hpos i
      cases hpc : s.pc i with
      | trySwap k count value =>
        rw [hpc] at hok hasks hexpects
        have hle : count ≤ value := hok
        have hlt : 0 < count := hasks count rfl
        have hvalue : value = s.count := some.inj hexpects
        omega
      | _ =>
        rw [hpc] at hexpects
        cases hexpects
    have hstake : 0 < s.stake j := by
      have hgives := hpos j
      unfold stake
      cases hpc : s.pc j with
      | releaseAdd count _ | releaseStore count _ =>
        rw [hpc] at hgives
        exact Nat.add_pos_right _ (hgives count rfl)
      | _ =>
        rw [hpc] at hadding
        exact absurd rfl hadding
    have hle := h.stake_le j
    omega

structure IsMutex (s : Semaphore T) : Prop where
  kept : Kept 1 s
  positive : Positive s

theorem isMutex_step (h : IsMutex s) (hallowed : Allowed s lbl) (hs : step s lbl = some s') :
    IsMutex s' where
  kept := kept_step h.kept hallowed (h.kept.undisturbed h.positive lbl) hs
  positive := positive_step h.positive h.kept.le_max hs

omit [DecidableEq T] in
theorem isMutex_acpiOsCreateMutex : IsMutex (acpiOsCreateMutex : Semaphore T) where
  kept := kept_createSemaphore le_rfl (by decide)
  positive i count hcount := by cases hcount

theorem IsMutex.holder_unique (h : IsMutex s) {i j : T} (hi : 0 < s.held i) (hj : 0 < s.held j) :
    i = j := by
  by_contra hij
  obtain ⟨n, hn, hpermits⟩ := h.kept.permits
  have hle : s.stake i + s.stake j ≤ n := hn.add_le hij
  unfold stake at hle
  omega

/-- **Mutual exclusion**: if only a thread that holds the mutex releases it, at most one thread
holds it. -/
theorem holder_unique_of_allowed {lbls : List (Label T)} {t : Semaphore T}
    (hrun : Run.Guarded step Allowed acpiOsCreateMutex lbls)
    (ht : Run.exec step acpiOsCreateMutex lbls = some t) {i j : T} (hi : 0 < t.held i)
    (hj : 0 < t.held j) : i = j := by
  have hmutex : IsMutex t := Run.inv_of_guarded (fun _ _ _ h hc hs ↦ isMutex_step h hc hs)
    isMutex_acpiOsCreateMutex hrun ht
  exact hmutex.holder_unique hi hj

/-- Thread 0 takes the mutex at once, and thread 1 has to wait; thread 0 releases it between the
load of thread 1 and its second try, and thread 1 gets it. -/
def passedOn : List (Label (Fin 2)) :=
  [.call 0 (acpiOsAcquireMutex 0), .access 0, .access 0, .call 1 (acpiOsAcquireMutex 0),
    .access 1] ++
    .call 0 acpiOsReleaseMutex :: List.replicate 7 (.access 0) ++ List.replicate 4 (.access 1)

theorem holder_unique_passedOn : ∃ t : Semaphore (Fin 2),
    Run.exec step acpiOsCreateMutex passedOn = some t ∧ 0 < t.held 1 ∧
      ∀ i, 0 < t.held i → i = 1 := by
  have hend : (Run.exec step acpiOsCreateMutex passedOn).map (fun t ↦ t.held 1) =
      some 1 := by decide
  obtain ⟨t, ht, hheld⟩ := map_eq_some_iff.mp hend
  have hone : 0 < t.held 1 := by rw [hheld]; decide
  exact ⟨t, ht, hone, fun i hi ↦ holder_unique_of_allowed (by decide) ht hi hone⟩

end ForgeOS.Semaphore
