import Mathlib.Algebra.BigOperators.Fin
import ForgeOS.Lib.Agents
import ForgeOS.Semaphore.Model

/-!
# When the semaphore keeps its permits

If the compare-and-swap of `semaphore_tryacquire` succeeds between the load and the store of
`s->count += count`, the store overwrites it and the permits it took are back.

The main result is `count_add_held_of_undisturbed`.
-/

namespace ForgeOS.Semaphore

open Function Option

variable {T : Type}

def Pc.adding : Pc T → Bool
  | .releaseAdd _ _ | .releaseStore _ _ => true
  | _ => false

def Pc.expects : Pc T → Option ℕ
  | .trySwap _ _ value => some value
  | _ => none

/-- No compare-and-swap succeeds while a release is between its load and its store. -/
def Undisturbed (s : Semaphore T) : Label T → Prop
  | .access i => (s.pc i).expects = some s.count → ∀ j, (s.pc j).adding = false
  | _ => True

instance Undisturbed.decidable [Fintype T] (s : Semaphore T) : ∀ lbl, Decidable (s.Undisturbed lbl)
  | .access i =>
    inferInstanceAs (Decidable ((s.pc i).expects = some s.count → ∀ j, (s.pc j).adding = false))
  | .call _ _ => isTrue trivial
  | .dispatch => isTrue trivial

def Pc.critical : Pc T → Bool
  | .tryLoad (.locked _) _ | .trySwap (.locked _) _ _ | .acquireDone | .acquirePush _
  | .acquireUnlock _ | .releaseLoad _ | .releaseAdd _ _ | .releaseStore _ _ | .releaseTest
  | .releaseClamp | .releasePop | .releaseWakePush _ | .releaseWakeReady _ | .releaseUnlock => true
  | _ => false

def Pc.owed : Pc T → ℕ
  | .releaseLock count | .releaseLoad count | .releaseAdd count _ | .releaseStore count _ => count
  | _ => 0

def stake (s : Semaphore T) (i : T) : ℕ := s.held i + (s.pc i).owed

def Ok (s : Semaphore T) : Pc T → Prop
  | .trySwap _ count value => count ≤ value
  | .releaseAdd _ value => value = s.count
  | .releaseStore count sum => sum = s.count + count
  | .releaseClamp => False
  | _ => True

/-- The invariant, for a semaphore that was created with `initial` permits and is used by any number
of threads. -/
structure Kept (initial : ℕ) (s : Semaphore T) : Prop where
  le_max : initial ≤ s.max
  max_lt : s.max < wordSize
  spinlock : ∀ i, (s.pc i).critical = true → s.spinlock = some i
  permits : ∃ n, Totals s.stake n ∧ s.count + n = initial
  ok : ∀ i, Ok s (s.pc i)

structure Inv [Fintype T] (initial : ℕ) (s : Semaphore T) : Prop where
  le_max : initial ≤ s.max
  max_lt : s.max < wordSize
  spinlock : ∀ i, (s.pc i).critical = true → s.spinlock = some i
  permits : s.count + ∑ i, s.stake i = initial
  ok : ∀ i, Ok s (s.pc i)

theorem inv_iff_kept [Fintype T] {initial : ℕ} {s : Semaphore T} :
    Inv initial s ↔ Kept initial s := by
  refine ⟨fun h ↦ ⟨h.le_max, h.max_lt, h.spinlock, ⟨_, totals_univ.mpr rfl, h.permits⟩, h.ok⟩,
    fun h ↦ ⟨h.le_max, h.max_lt, h.spinlock, ?_, h.ok⟩⟩
  obtain ⟨n, hn, hpermits⟩ := h.permits
  rw [totals_univ.mp hn, hpermits]

theorem Ok.congr {s s' : Semaphore T} {pc : Pc T} (h : Ok s pc) (hcount : s'.count = s.count) :
    Ok s' pc := by
  cases pc <;> first | exact h | simpa only [Ok, hcount] using h

theorem Ok.of_adding {s s' : Semaphore T} {pc : Pc T} (h : Ok s pc) (hadding : pc.adding = false) :
    Ok s' pc := by
  cases pc <;> first | exact h | cases hadding

variable [DecidableEq T] {s s' : Semaphore T} {initial : ℕ} {i : T} {pc : Pc T}

attribute [local simp] Pc.critical

omit [DecidableEq T] in
theorem Kept.not_adding (h : Kept initial s) (hi : (s.pc i).critical = true) {j : T} (hj : j ≠ i) :
    (s.pc j).adding = false := by
  by_contra hadd
  have hcritical : (s.pc j).critical = true := by
    cases hpc : s.pc j <;> simp_all [Pc.adding]
  have hij := (h.spinlock i hi).symm.trans (h.spinlock j hcritical)
  exact hj (some.inj hij).symm

omit [DecidableEq T] in
theorem Kept.stake_le (h : Kept initial s) (i : T) : s.count + s.stake i ≤ initial := by
  obtain ⟨n, hn, hpermits⟩ := h.permits
  have hle := hn.le i
  omega

theorem Kept.move (h : Kept initial s) (hmax : s'.max = s.max)
    (hpc : s'.pc = Function.update s.pc i pc) (hheld : ∀ j ≠ i, s'.held j = s.held j)
    (hpermits : s'.count + (s'.held i + pc.owed) = s.count + (s.held i + (s.pc i).owed))
    (hcount : s'.count = s.count ∨ ∀ j ≠ i, (s.pc j).adding = false)
    (hspinlock : ∀ j ≠ i, (s.pc j).critical = true → s'.spinlock = some j)
    (hcritical : pc.critical = true → s'.spinlock = some i) (hok : Ok s' pc) : Kept initial s' := by
  have hself : s'.pc i = pc := by simp [hpc]
  have hother : ∀ j ≠ i, s'.pc j = s.pc j := fun j hj ↦ by simp [hpc, hj]
  refine ⟨hmax ▸ h.le_max, hmax ▸ h.max_lt, fun j hj ↦ ?_, ?_, fun j ↦ ?_⟩
  · by_cases hji : j = i
    · subst hji
      exact hcritical (hself ▸ hj)
    · rw [hother j hji] at hj
      exact hspinlock j hji hj
  · obtain ⟨n, hn, hpermits'⟩ := h.permits
    have hstake : ∀ j ≠ i, s'.stake j = s.stake j := fun j hj ↦ by
      rw [stake, stake, hother j hj, hheld j hj]
    obtain ⟨n', hn', hsum⟩ := hn.move hstake
    have hi : s'.stake i = s'.held i + pc.owed := by rw [stake, hself]
    have hi' : s.stake i = s.held i + (s.pc i).owed := rfl
    exact ⟨n', hn', by omega⟩
  · by_cases hji : j = i
    · subst hji
      rwa [hself]
    · rw [hother j hji]
      rcases hcount with hcount | hcount
      · exact (h.ok j).congr hcount
      · exact (h.ok j).of_adding (hcount j hji)

theorem Kept.goto (h : Kept initial s) (hpc : s'.pc = Function.update s.pc i pc) (hok : Ok s pc)
    (hcritical : pc.critical = true → (s.pc i).critical = true := by simp [*])
    (howed : pc.owed = (s.pc i).owed := by simp [*, Pc.owed, tryEntry])
    (hmax : s'.max = s.max := by rfl) (hcount : s'.count = s.count := by rfl)
    (hheld : s'.held = s.held := by rfl) (hspinlock : s'.spinlock = s.spinlock := by rfl) :
    Kept initial s' := by
  refine h.move hmax hpc (fun j _ ↦ by rw [hheld]) ?_ (.inl hcount) (fun j _ hj ↦ ?_) (fun hi ↦ ?_)
    (hok.congr hcount)
  · rw [hcount, hheld, howed]
  · rw [hspinlock]
    exact h.spinlock j hj
  · rw [hspinlock]
    exact h.spinlock i (hcritical hi)

theorem Kept.lock (h : Kept initial s) (hfree : s.spinlock = none) (hok : Ok s pc)
    (howed : pc.owed = (s.pc i).owed := by simp [*, Pc.owed, tryEntry]) :
    Kept initial ({ s with spinlock := some i }.goto i pc) := by
  refine h.move rfl rfl (fun _ _ ↦ rfl) ?_ (.inl rfl) (fun j _ hj ↦ ?_) (fun _ ↦ rfl)
    (hok.congr rfl)
  · show s.count + (s.held i + pc.owed) = s.count + (s.held i + (s.pc i).owed)
    rw [howed]
  · have hj' := h.spinlock j hj
    rw [hfree] at hj'
    cases hj'

theorem Kept.unlock (h : Kept initial s) (hok : Ok s pc)
    (hi : (s.pc i).critical = true := by simp [*])
    (howed : pc.owed = (s.pc i).owed := by simp [*, Pc.owed, tryEntry])
    (hcritical : pc.critical = false := by rfl) :
    Kept initial ({ s with spinlock := none }.goto i pc) := by
  refine h.move rfl rfl (fun _ _ ↦ rfl) ?_ (.inl rfl) (fun j hj hj' ↦ ?_) (fun hc ↦ ?_)
    (hok.congr rfl)
  · show s.count + (s.held i + pc.owed) = s.count + (s.held i + (s.pc i).owed)
    rw [howed]
  · have hij := (h.spinlock i hi).symm.trans (h.spinlock j hj')
    exact absurd (some.inj hij).symm hj
  · rw [hcritical] at hc
    cases hc

section

omit [DecidableEq T]

theorem refused_owed (k : Caller) : (s.refused k).owed = 0 := by
  cases k <;> rfl

theorem acquired_owed (k : Caller) : (acquired k : Pc T).owed = 0 := by
  cases k <;> rfl

theorem ok_refused (k : Caller) : Ok s (s.refused k) := by
  cases k <;> trivial

theorem ok_acquired (k : Caller) : Ok s (acquired k) := by
  cases k <;> trivial

end

theorem kept_access (h : Kept initial s) (hundist : Undisturbed s (.access i))
    (hs : s.access i = some s') : Kept initial s' := by
  have hok := h.ok i
  unfold access at hs
  split at hs
  case h_1 | h_10 => cases hs
  case h_2 k count hpc =>
    split at hs
    next =>
      cases hs
      refine h.goto rfl (ok_refused k) (fun hc ↦ ?_) (by rw [hpc, refused_owed]; rfl)
      cases k <;> simp_all [refused]
    next hle =>
      cases hs
      refine h.goto rfl (Nat.le_of_not_lt hle) fun hc ↦ ?_
      cases k <;> simp_all
  case h_3 k count value hpc =>
    rw [hpc] at hok
    split at hs
    next hvalue =>
      cases hs
      refine h.move rfl rfl (fun j hj ↦ update_of_ne hj _ _) ?_
        (.inr fun j _ ↦ hundist (by rw [hpc, hvalue]; rfl) j) (fun j _ ↦ h.spinlock j) (fun hc ↦ ?_)
        (ok_acquired k)
      · have hle : count ≤ value := hok
        have howed : (s.pc i).owed = 0 := by rw [hpc]; rfl
        simp only [Semaphore.goto, update_self, acquired_owed, howed]
        omega
      · refine h.spinlock i ?_
        cases k <;> simp_all [acquired]
    next =>
      cases hs
      refine h.goto rfl (ok_refused k) (fun hc ↦ ?_) (by rw [hpc, refused_owed]; rfl)
      cases k <;> simp_all [refused]
  case h_4 count hpc | h_12 count hpc =>
    split at hs
    next hfree =>
      cases hs
      exact h.lock hfree trivial
    next => cases hs
  case h_13 count hpc =>
    cases hs
    exact h.goto rfl rfl
  case h_14 count value hpc =>
    cases hs
    rw [hpc] at hok
    refine h.goto rfl ?_
    obtain rfl : value = s.count := hok
    have hle : s.count + (s.held i + count) ≤ initial := by
      have hstake := h.stake_le i
      rwa [stake, hpc] at hstake
    refine Nat.mod_eq_of_lt ?_
    have hmax := h.le_max
    have hword := h.max_lt
    omega
  case h_15 count sum hpc =>
    cases hs
    rw [hpc] at hok
    have hcritical : (s.pc i).critical = true := by rw [hpc]; rfl
    refine h.move rfl rfl (fun _ _ ↦ rfl) ?_ (.inr fun j hj ↦ h.not_adding hcritical hj)
      (fun j _ ↦ h.spinlock j) (fun _ ↦ h.spinlock i hcritical) trivial
    have hsum : sum = s.count + count := hok
    simp only [Semaphore.goto, hpc, Pc.owed]
    omega
  case h_16 hpc =>
    cases hs
    have hle : ¬ s.count > s.max := by
      have hstake := h.stake_le i
      have hmax := h.le_max
      omega
    rw [if_neg hle]
    exact h.goto rfl trivial
  case h_17 hpc =>
    rw [hpc] at hok
    exact absurd hok id
  case h_5 hpc | h_7 _ hpc | h_21 hpc =>
    cases hs
    exact h.unlock trivial
  case h_9 _ hpc | h_11 _ hpc | h_18 hpc =>
    split at hs
    all_goals
      cases hs
      exact h.goto rfl trivial
  case h_6 _ hpc | h_8 _ hpc | h_19 _ hpc | h_20 _ hpc =>
    cases hs
    exact h.goto rfl trivial

section

omit [DecidableEq T]

theorem Pc.run_owed (pc : Pc T) : pc.run.owed = pc.owed := by
  cases pc <;> rfl

theorem Pc.run_critical (pc : Pc T) : pc.run.critical = pc.critical := by
  cases pc <;> rfl

theorem Ok.run (h : Ok s pc) : Ok s pc.run := by
  cases pc <;> exact h

end

theorem kept_dispatch (h : Kept initial s) (hs : s.dispatch = some s') : Kept initial s' := by
  unfold dispatch at hs
  split at hs
  next => cases hs
  next thr rest hq =>
    split at hs
    next =>
      cases hs
      exact h.goto rfl (h.ok thr).run (fun hc ↦ (s.pc thr).run_critical ▸ hc) (s.pc thr).run_owed
    next =>
      cases hs
      exact ⟨h.le_max, h.max_lt, h.spinlock, h.permits, fun j ↦ (h.ok j).congr rfl⟩

theorem kept_call {op : Op} (h : Kept initial s) (hpc : s.pc i = .idle)
    (hallowed : Allowed s (.call i op)) : Kept initial (s.call i op) := by
  cases op with
  | tryacquire count | acquire count => exact h.goto rfl trivial (by simp [tryEntry])
  | release count =>
    refine h.move rfl rfl (fun j hj ↦ update_of_ne hj _ _) ?_ (.inl rfl)
      (fun j _ ↦ h.spinlock j) (by simp) trivial
    have hle : s.effective count ≤ s.held i := hallowed
    have howed : (s.pc i).owed = 0 := by rw [hpc]; rfl
    rw [howed]
    simp only [call, Semaphore.goto, update_self, Pc.owed]
    omega

theorem kept_step {lbl : Label T} (h : Kept initial s) (hallowed : Allowed s lbl)
    (hundist : Undisturbed s lbl) (hs : step s lbl = some s') : Kept initial s' := by
  cases lbl with
  | call i op =>
    rw [step] at hs
    split at hs
    next hpc =>
      cases hs
      exact kept_call h hpc hallowed
    next => cases hs
  | access i => exact kept_access h hundist hs
  | dispatch => exact kept_dispatch h hs

omit [DecidableEq T] in
theorem kept_createSemaphore {max : ℕ} (hmax : initial ≤ max) (hword : max < wordSize) :
    Kept initial (createSemaphore max initial : Semaphore T) where
  le_max := hmax
  max_lt := hword
  spinlock i hi := by simp [createSemaphore] at hi
  permits := ⟨0, totals_zero, rfl⟩
  ok _ := trivial

variable [Fintype T]

omit [DecidableEq T] in
theorem Inv.count_add_held (h : Inv initial s) (hquiet : Quiescent s) :
    s.count + ∑ i, s.held i = initial := by
  have hstake : ∀ i, s.stake i = s.held i := fun i ↦ by rw [stake, hquiet i]; rfl
  simpa only [hstake] using h.permits

/-- **The permits are kept** in every run in which no compare-and-swap succeeds while a release is
between its load and its store. -/
theorem count_add_held_of_undisturbed {max : ℕ} (hmax : initial ≤ max) (hword : max < wordSize)
    {lbls : List (Label T)} {t : Semaphore T}
    (hrun : Run.Guarded step (fun s lbl ↦ Allowed s lbl ∧ Undisturbed s lbl)
      (createSemaphore max initial) lbls)
    (ht : Run.exec step (createSemaphore max initial) lbls = some t) (hquiet : Quiescent t) :
    t.count + ∑ i, t.held i = initial := by
  have hkept : Kept initial t := Run.inv_of_guarded (fun s lbl r h hc hs ↦ kept_step h hc.1 hc.2 hs)
    (kept_createSemaphore hmax hword) hrun ht
  exact (inv_iff_kept.mpr hkept).count_add_held hquiet

def runTryacquire (i : Fin 2) (count : ℕ) : List (Label (Fin 2)) :=
  [.call i (.tryacquire count), .access i, .access i]

def runRelease (i : Fin 2) (count waiting : ℕ) : List (Label (Fin 2)) :=
  .call i (.release count) :: List.replicate (7 + 3 * waiting) (.access i)

def runBlock (i : Fin 2) (count : ℕ) : List (Label (Fin 2)) :=
  .call i (.acquire count) :: List.replicate 7 (.access i)

def handedOver : List (Label (Fin 2)) :=
  runTryacquire 0 1 ++ runBlock 1 1 ++ runRelease 0 1 1 ++ [.dispatch] ++
    List.replicate 5 (.access 1)

theorem count_add_held_handedOver : ∃ t : Semaphore (Fin 2),
    Run.exec step (createSemaphore 1 1) handedOver = some t ∧ Quiescent t ∧ t.held 1 = 1 ∧
      t.count + ∑ i, t.held i = 1 := by
  have hend : (Run.exec step (createSemaphore 1 1) handedOver).map
      (fun t ↦ (decide (Quiescent t), t.held 1)) = some (true, 1) := by decide
  obtain ⟨t, ht, hend⟩ := map_eq_some_iff.mp hend
  obtain ⟨hquiet, hheld⟩ := Prod.mk.inj hend
  exact ⟨t, ht, of_decide_eq_true hquiet, hheld,
    count_add_held_of_undisturbed (by decide) (by decide)
    (by decide) ht (of_decide_eq_true hquiet)⟩

/-- Thread 0 has one of two permits and is releasing it.  When it has read `s->count`, thread 1
takes the other permit; thread 0 then writes the number it has computed. -/
def disturbed : List (Label (Fin 2)) :=
  runTryacquire 0 1 ++ [.call 0 (.release 1), .access 0, .access 0] ++ runTryacquire 1 1 ++
    List.replicate 5 (.access 0)

/-- **A permit out of nothing**: both permits are in the semaphore, and thread 1 holds one. -/
theorem not_count_add_held_disturbed : ∃ t : Semaphore (Fin 2),
    Run.Guarded step Allowed (createSemaphore 2 2) disturbed ∧
      Run.exec step (createSemaphore 2 2) disturbed = some t ∧ Quiescent t ∧
      t.count = 2 ∧ t.held 1 = 1 ∧ t.count + ∑ i, t.held i = 3 := by
  have hend : (Run.exec step (createSemaphore 2 2) disturbed).map
      (fun t ↦ (decide (Quiescent t), t.count, t.held 0, t.held 1)) = some (true, 2, 0, 1) := by
    decide
  obtain ⟨t, ht, hend⟩ := map_eq_some_iff.mp hend
  simp only [Prod.mk.injEq] at hend
  obtain ⟨hquiet, hcount, h0, h1⟩ := hend
  refine ⟨t, by decide, ht, of_decide_eq_true hquiet, hcount, h1, ?_⟩
  simp [Fin.sum_univ_two, hcount, h0, h1]

end ForgeOS.Semaphore
