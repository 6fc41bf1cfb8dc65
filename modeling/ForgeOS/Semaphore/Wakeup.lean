import ForgeOS.Semaphore.Permits

/-!
# When no wake-up is lost

A thread that waits for permits queues itself on `tqueue`, lets the spinlock go, and only then
writes `SLEEPING` to its state.  `SleepsInTime` excludes that a release comes in between.

The main result is `tqueue_or_wakeUpComing_of_inTime`.
-/

namespace ForgeOS.Semaphore

open List Option Semaphore

variable {T : Type}

def Pc.waking : Pc T → Option T
  | .releaseWakePush thr | .releaseWakeReady thr => some thr
  | _ => none

def Pc.sleeps : Pc T → Bool
  | .acquireSleep _ => true
  | _ => false

def Pc.acquiring : Pc T → Bool
  | .tryLoad (.quick _) _ | .tryLoad (.locked _) _ | .trySwap (.quick _) _ _
  | .trySwap (.locked _) _ _ | .acquireLock _ | .acquireDone | .acquirePush _ | .acquireUnlock _
  | .acquireSleep _ | .acquireReschedule _ | .acquireSwitched _ | .acquireCleanup _ => true
  | _ => false

def Waits (s : Semaphore T) (thr : T) : Prop := thr ∈ s.tqueue ∨ ∃ j, (s.pc j).waking = some thr

/-- `SLEEPING` is not written after the `READY` of the release that wakes the thread. -/
def SleepsInTime (s : Semaphore T) : Label T → Prop
  | .access i => (s.pc i).sleeps = true → s.Waits i
  | _ => True

/-- The scheduler does not get to a thread that has been put on the ready queue and not been made
`READY` yet. -/
def DispatchedInTime (s : Semaphore T) : Label T → Prop
  | .dispatch => ∀ thr ∈ s.readyQueue.head?, ∀ j, s.pc j ≠ .releaseWakeReady thr
  | _ => True

/-- A release will make the thread `READY`, with an entry on the ready queue. -/
def WakeUpComing (s : Semaphore T) (thr : T) : Prop :=
  ∃ j, s.pc j = .releaseWakePush thr ∨ (s.pc j = .releaseWakeReady thr ∧ thr ∈ s.readyQueue)

/-- The thread is in `semaphore_acquire`, on neither queue, and no release is about to wake it. -/
def Lost (s : Semaphore T) (thr : T) : Prop :=
  (s.pc thr).acquiring = true ∧ thr ∉ s.tqueue ∧ thr ∉ s.readyQueue ∧ ¬ s.WakeUpComing thr

structure Wakes (s : Semaphore T) : Prop where
  waits : ∀ thr, s.state thr = .sleeping → s.Waits thr
  queued : ∀ j thr, s.pc j = .releaseWakeReady thr → thr ∈ s.readyQueue

variable {s s' : Semaphore T}

theorem Wakes.tqueue_or (h : Wakes s) {thr : T} (hthr : s.state thr = .sleeping) :
    thr ∈ s.tqueue ∨ s.WakeUpComing thr := by
  rcases h.waits thr hthr with hq | ⟨j, hj⟩
  · exact .inl hq
  · refine .inr ⟨j, ?_⟩
    cases hpc : s.pc j with
    | releaseWakePush thr' =>
      rw [hpc] at hj
      exact .inl (by rw [some.inj hj])
    | releaseWakeReady thr' =>
      have hq := h.queued j thr' hpc
      rw [hpc] at hj
      obtain rfl : thr' = thr := some.inj hj
      exact .inr ⟨rfl, hq⟩
    | _ =>
      rw [hpc] at hj
      cases hj

variable [DecidableEq T] {i : T} {pc : Pc T}

theorem Wakes.move (h : Wakes s) (hpc : s'.pc = Function.update s.pc i pc)
    (hstate : ∀ thr, s'.state thr = .sleeping → s.state thr = .sleeping ∨ s.Waits thr)
    (htqueue : ∀ thr ∈ s.tqueue, thr ∈ s'.tqueue ∨ pc.waking = some thr)
    (hwaking : ∀ thr, (s.pc i).waking = some thr → s'.state thr = .sleeping → pc.waking = some thr)
    (hready : ∀ j thr, s.pc j = .releaseWakeReady thr → thr ∈ s'.readyQueue)
    (hpush : ∀ thr, pc = .releaseWakeReady thr → thr ∈ s'.readyQueue) : Wakes s' := by
  have hself : s'.pc i = pc := by simp [hpc]
  have hother : ∀ j ≠ i, s'.pc j = s.pc j := fun j hj ↦ by simp [hpc, hj]
  refine ⟨fun thr hthr ↦ ?_, fun j thr hj ↦ ?_⟩
  · have hwaits : s.Waits thr := (hstate thr hthr).elim (h.waits thr) id
    rcases hwaits with hq | ⟨j, hj⟩
    · exact (htqueue thr hq).imp_right fun hw ↦ ⟨i, by rwa [hself]⟩
    · right
      by_cases hji : j = i
      · subst hji
        exact ⟨j, hself ▸ hwaking thr hj hthr⟩
      · exact ⟨j, by rwa [hother j hji]⟩
  · by_cases hji : j = i
    · subst hji
      exact hpush thr (hself ▸ hj)
    · rw [hother j hji] at hj
      exact hready j thr hj

theorem Wakes.goto (h : Wakes s) (hpc : s'.pc = Function.update s.pc i pc)
    (hstate : ∀ thr, s'.state thr = .sleeping → s.state thr = .sleeping ∨ s.Waits thr)
    (htqueue : ∀ thr ∈ s.tqueue, thr ∈ s'.tqueue)
    (hready : ∀ thr ∈ s.readyQueue, thr ∈ s'.readyQueue) (hi : (s.pc i).waking = none)
    (hi' : pc.waking = none) : Wakes s' := by
  refine h.move hpc hstate (fun thr hq ↦ .inl (htqueue thr hq)) (fun thr hw ↦ ?_)
    (fun j thr hj ↦ hready thr (h.queued j thr hj)) (fun thr hp ↦ ?_)
  · rw [hi] at hw
    cases hw
  · rw [hp] at hi'
    cases hi'

attribute [local simp] Pc.waking goto setState

theorem Wakes.skip (h : Wakes s) (hpc : s'.pc = Function.update s.pc i pc)
    (hi : (s.pc i).waking = none := by simp [*]) (hi' : pc.waking = none := by simp [tryEntry])
    (hstate : s'.state = s.state := by rfl) (htqueue : s'.tqueue = s.tqueue := by rfl)
    (hready : s'.readyQueue = s.readyQueue := by rfl) : Wakes s' :=
  h.goto hpc (fun _ hthr ↦ .inl (hstate ▸ hthr)) (fun _ hq ↦ htqueue ▸ hq) (fun _ hq ↦ hready ▸ hq)
    hi hi'

omit [DecidableEq T] in
theorem refused_waking (k : Caller) : (s.refused k).waking = none := by
  cases k <;> rfl

omit [DecidableEq T] in
theorem acquired_waking (k : Caller) : (acquired k : Pc T).waking = none := by
  cases k <;> rfl

theorem wakes_access (h : Wakes s) (hsleeps : SleepsInTime s (.access i))
    (hs : s.access i = some s') : Wakes s' := by
  unfold access at hs
  split at hs
  case h_1 | h_10 => cases hs
  case h_2 k count hpc =>
    split at hs
    next =>
      cases hs
      exact h.skip rfl (by simp [*]) (refused_waking k)
    next =>
      cases hs
      exact h.skip rfl
  case h_3 k count value hpc =>
    split at hs
    next =>
      cases hs
      exact h.skip rfl (by simp [*]) (acquired_waking k)
    next =>
      cases hs
      exact h.skip rfl (by simp [*]) (refused_waking k)
  case h_6 count hpc =>
    cases hs
    exact h.goto rfl (fun _ ↦ .inl) (fun thr hq ↦ mem_append_left _ hq) (fun _ ↦ id)
      (by rw [hpc]; rfl) rfl
  case h_8 count hpc =>
    cases hs
    refine h.goto rfl (fun thr hthr ↦ ?_) (fun _ ↦ id) (fun _ ↦ id) (by rw [hpc]; rfl) rfl
    by_cases hi : thr = i
    · subst hi
      exact .inr (hsleeps (by rw [hpc]; rfl))
    · left
      simpa [hi] using hthr
  case h_9 count hpc =>
    split at hs
    next =>
      cases hs
      refine h.goto rfl (fun thr hthr ↦ .inl ?_) (fun _ ↦ id)
        (fun thr hq ↦ mem_append_left _ hq)
        (by rw [hpc]; rfl) rfl
      by_cases hi : thr = i
      · subst hi
        simp at hthr
      · simpa [hi] using hthr
    next =>
      cases hs
      exact h.skip rfl
  case h_18 hpc =>
    split at hs
    next =>
      cases hs
      exact h.skip rfl
    next thr rest hq =>
      cases hs
      refine h.move rfl (fun _ ↦ .inl) (fun thr' hthr ↦ ?_) (fun thr' hw ↦ ?_) h.queued (by simp)
      · rw [hq] at hthr
        rcases mem_cons.mp hthr with rfl | hthr
        · exact .inr rfl
        · exact .inl hthr
      · rw [hpc] at hw
        cases hw
  case h_19 thr hpc =>
    cases hs
    refine h.move rfl (fun _ ↦ .inl) (fun _ ↦ .inl) (fun thr' hw _ ↦ ?_)
      (fun j thr' hj ↦ mem_append_left _ (h.queued j thr' hj)) (fun thr' hp ↦ ?_)
    · rwa [hpc] at hw
    · obtain rfl : thr = thr' := by simpa using hp
      exact mem_append_right _ (by simp)
  case h_20 thr hpc =>
    cases hs
    refine h.move rfl (fun thr' hthr ↦ ?_) (fun _ ↦ .inl) (fun thr' hw hthr ↦ ?_) h.queued (by simp)
    · by_cases hi : thr' = thr
      · subst hi
        simp at hthr
      · left
        simpa [hi] using hthr
    · rw [hpc] at hw
      obtain rfl : thr = thr' := some.inj hw
      simp at hthr
  case h_16 hpc =>
    cases hs
    exact h.skip rfl (by simp [*]) (by split <;> rfl)
  case h_4 _ hpc | h_11 _ hpc | h_12 _ hpc =>
    split at hs
    all_goals
      cases hs
    all_goals exact h.skip rfl
  case h_5 hpc | h_7 _ hpc | h_13 _ hpc | h_14 _ _ hpc | h_15 _ _ hpc | h_17 hpc | h_21 hpc =>
    cases hs
    exact h.skip rfl

omit [DecidableEq T] in
theorem Pc.run_waking (pc : Pc T) : pc.run.waking = pc.waking := by
  cases pc <;> rfl

omit [DecidableEq T] in
theorem Pc.eq_of_run {thr : T} (h : pc.run = .releaseWakeReady thr) :
    pc = .releaseWakeReady thr := by
  cases pc <;> first | exact h | cases h

theorem wakes_dispatch (h : Wakes s) (hdispatched : DispatchedInTime s .dispatch)
    (hs : s.dispatch = some s') : Wakes s' := by
  unfold dispatch at hs
  split at hs
  next => cases hs
  next thr rest hq =>
    have hrest : ∀ j x, s.pc j = .releaseWakeReady x → x ∈ rest := by
      intro j x hj
      have hx := h.queued j x hj
      rw [hq] at hx
      refine (mem_cons.mp hx).resolve_left ?_
      rintro rfl
      exact hdispatched x (by simp [hq]) j hj
    split at hs
    next =>
      cases hs
      refine h.move rfl (fun x hx ↦ .inl ?_) (fun _ ↦ .inl) (fun x hw _ ↦ ?_) hrest fun x hp ↦ ?_
      · by_cases hthr : x = thr
        · subst hthr
          simp at hx
        · simpa [hthr] using hx
      · rwa [Pc.run_waking]
      · exact hrest thr x (Pc.eq_of_run hp)
    next =>
      cases hs
      exact ⟨h.waits, hrest⟩

theorem wakes_step {lbl : Label T} (h : Wakes s) (hsleeps : SleepsInTime s lbl)
    (hdispatched : DispatchedInTime s lbl) (hs : step s lbl = some s') : Wakes s' := by
  cases lbl with
  | call i op =>
    rw [step] at hs
    split at hs
    next hpc =>
      cases hs
      cases op <;> exact h.skip rfl (by rw [hpc]; rfl) rfl
    next => cases hs
  | access i => exact wakes_access h hsleeps hs
  | dispatch => exact wakes_dispatch h hdispatched hs

omit [DecidableEq T] in
theorem wakes_createSemaphore (max initial : ℕ) :
    Wakes (createSemaphore max initial : Semaphore T) where
  waits thr hthr := by simp [createSemaphore] at hthr
  queued j thr hj := by simp [createSemaphore] at hj

/-- **No wake-up is lost** in a run in which `SLEEPING` is never written after the `READY` of the
release that wakes the thread, and the scheduler does not get to a thread before that `READY`. -/
theorem tqueue_or_wakeUpComing_of_inTime {max initial : ℕ} {lbls : List (Label T)} {t : Semaphore T}
    (hrun : Run.Guarded step (fun s lbl ↦ SleepsInTime s lbl ∧ DispatchedInTime s lbl)
      (createSemaphore max initial) lbls)
    (ht : Run.exec step (createSemaphore max initial) lbls = some t) (thr : T)
    (hthr : t.state thr = .sleeping) : thr ∈ t.tqueue ∨ t.WakeUpComing thr := by
  have hinv : Wakes t := Run.inv_of_guarded (fun s lbl r h hc hs ↦ wakes_step h hc.1 hc.2 hs)
    (wakes_createSemaphore max initial) hrun ht
  exact hinv.tqueue_or hthr

instance SleepsInTime.decidable [Fintype T] (s : Semaphore T) : ∀ lbl, Decidable (s.SleepsInTime lbl)
  | .access i => inferInstanceAs (Decidable ((s.pc i).sleeps = true →
      i ∈ s.tqueue ∨ ∃ j, (s.pc j).waking = some i))
  | .call _ _ => isTrue trivial
  | .dispatch => isTrue trivial

instance DispatchedInTime.decidable [Fintype T] (s : Semaphore T) :
    ∀ lbl, Decidable (s.DispatchedInTime lbl)
  | .dispatch => inferInstanceAs (Decidable
      (∀ thr ∈ s.readyQueue.head?, ∀ j, s.pc j ≠ .releaseWakeReady thr))
  | .call _ _ => isTrue trivial
  | .access _ => isTrue trivial

instance WakeUpComing.decidable [Fintype T] (s : Semaphore T) (thr : T) :
    Decidable (s.WakeUpComing thr) :=
  inferInstanceAs (Decidable (∃ j, s.pc j = .releaseWakePush thr ∨
    (s.pc j = .releaseWakeReady thr ∧ thr ∈ s.readyQueue)))

instance Lost.decidable [Fintype T] (s : Semaphore T) (thr : T) : Decidable (s.Lost thr) :=
  inferInstanceAs (Decidable ((s.pc thr).acquiring = true ∧ thr ∉ s.tqueue ∧ thr ∉ s.readyQueue ∧
    ¬ s.WakeUpComing thr))

def halfWoken : List (Label (Fin 2)) :=
  runTryacquire 0 1 ++ runBlock 1 1 ++ [.call 0 (.release 1)] ++ List.replicate 6 (.access 0)

theorem tqueue_or_wakeUpComing_halfWoken : ∃ t : Semaphore (Fin 2),
    Run.exec step (createSemaphore 1 1) halfWoken = some t ∧ t.state 1 = .sleeping ∧
      t.tqueue = [] ∧ (1 ∈ t.tqueue ∨ t.WakeUpComing 1) := by
  have hend : (Run.exec step (createSemaphore 1 1) halfWoken).map (fun t ↦ (t.state 1, t.tqueue)) =
      some (.sleeping, []) := by decide
  obtain ⟨t, ht, hend⟩ := map_eq_some_iff.mp hend
  obtain ⟨hstate, htqueue⟩ := Prod.mk.inj hend
  exact ⟨t, ht, hstate, htqueue, tqueue_or_wakeUpComing_of_inTime (by decide) ht 1 hstate⟩

/-- Thread 1 finds no permit, queues itself and unlocks.  Thread 0 releases the permit, which wakes
thread 1.  Thread 1 goes to sleep, and the scheduler drops it. -/
def sleptLate : List (Label (Fin 2)) :=
  runTryacquire 0 1 ++ [.call 1 (.acquire 1)] ++ List.replicate 5 (.access 1) ++ runRelease 0 1 1 ++
    [.access 1, .access 1, .dispatch]

/-- Thread 1 sleeps.  Thread 0 releases the permit and has put thread 1 on the ready queue; before
it makes it `READY`, the scheduler drops it. -/
def dispatchedEarly : List (Label (Fin 2)) := halfWoken ++ [.access 0, .dispatch]

/-- **A wake-up is lost.**  After the first run thread 1 sleeps for ever, although the permit is
free.  After the second its entry on the ready queue is gone. -/
theorem not_tqueue_or_wakeUpComing_sleptLate :
    (∃ t : Semaphore (Fin 2), Run.exec step (createSemaphore 1 1) sleptLate = some t ∧
      t.state 1 = .sleeping ∧ t.Lost 1 ∧ t.count = 1 ∧ t.pc 0 = .idle) ∧
    ∃ t : Semaphore (Fin 2), Run.exec step (createSemaphore 1 1) dispatchedEarly = some t ∧
      t.state 1 = .sleeping ∧ t.Lost 1 := by
  constructor
  · have hend : (Run.exec step (createSemaphore 1 1) sleptLate).map
        (fun t ↦ (t.state 1, decide (t.Lost 1), t.count, decide (t.pc 0 = .idle))) =
        some (.sleeping, true, 1, true) := by decide
    obtain ⟨t, ht, hend⟩ := map_eq_some_iff.mp hend
    exact ⟨t, ht, by simpa only [Prod.mk.injEq, decide_eq_true_eq] using hend⟩
  · have hend : (Run.exec step (createSemaphore 1 1) dispatchedEarly).map
        (fun t ↦ (t.state 1, decide (t.Lost 1))) = some (.sleeping, true) := by decide
    obtain ⟨t, ht, hend⟩ := map_eq_some_iff.mp hend
    exact ⟨t, ht, by simpa only [Prod.mk.injEq, decide_eq_true_eq] using hend⟩

end ForgeOS.Semaphore
