import ForgeOS.Sched.Smp

/-!
# Popping a queue that was not empty

`is_idle` tests whether the ready queue is empty, and if it is not, `reschedule_internal` pops it
and asserts that it got a thread.  The processors in between are `pending`.

The main result is `popReturns_of_guarded`.
-/

namespace ForgeOS.Smp

open List Option

variable {C T : Type}

/-- **A pop returns a thread.**  Whenever `is_idle` has returned 0 there is a thread to be popped,
and no assertion has failed. -/
structure PopReturns (s : Smp C T) : Prop where
  pop : ∀ c, (s.cpu c).pc = .pop → s.readyQueue ≠ []
  assert : ∀ c, (s.cpu c).pc ≠ .failed

variable {s s' : Smp C T} {c : C}

structure Quiet (s s' : Smp C T) : Prop where
  pop : ∀ c, (s'.cpu c).pc = .pop → (s.cpu c).pc = .pop
  failed : ∀ c, (s'.cpu c).pc = .failed → (s.cpu c).pc = .failed
  queue : s.readyQueue.length ≤ s'.readyQueue.length

section

variable [DecidableEq C]

theorem Quiet.setCpu {p : Cpu T} {state : T → ThreadState} {queue zombies : List T}
    (hpop : p.pc ≠ .pop) (hfailed : p.pc ≠ .failed) (hq : s.readyQueue.length ≤ queue.length) :
    Quiet s ⟨Function.update s.cpu c p, state, queue, zombies⟩ := by
  refine ⟨fun c' hc' ↦ ?_, fun c' hc' ↦ ?_, hq⟩
  · by_cases hc : c' = c
    · subst hc
      exact absurd (by simpa using hc') hpop
    · simpa [hc] using hc'
  · by_cases hc : c' = c
    · subst hc
      exact absurd (by simpa using hc') hfailed
    · simpa [hc] using hc'

theorem quiet_cpuStep [DecidableEq T] (hpop : (s.cpu c).pc ≠ .pop)
    (htest : ∀ a, (s.cpu c).pc = .test a → s.readyQueue = []) (hs' : s.cpuStep c = some s') :
    Quiet s s' := by
  cases hpc : (s.cpu c).pc with
  | out | failed => simp [cpuStep, hpc] at hs'
  | pop => exact absurd hpc hpop
  | start | idleRun | run =>
    simp only [cpuStep, hpc] at hs'
    split at hs' <;>
    · obtain rfl := some.inj hs'
      exact .setCpu (by simp) (by simp) le_rfl
  | test a =>
    simp only [cpuStep, hpc, htest a hpc, ne_eq, not_true_eq_false, if_false] at hs'
    split at hs' <;>
    · obtain rfl := some.inj hs'
      exact .setCpu (by simp) (by simp) le_rfl
  | check thr =>
    simp only [cpuStep, hpc] at hs'
    split at hs' <;>
    · obtain rfl := some.inj hs'
      exact .setCpu (by simp) (by simp) le_rfl
  | push a =>
    obtain rfl : _ = s' := by simpa only [cpuStep, hpc, some.injEq] using hs'
    exact .setCpu (by simp) (by simp) (by simp)
  | markReady | idleSet | zombiePush | setCurrent | save | restore =>
    obtain rfl : _ = s' := by simpa only [cpuStep, hpc, some.injEq] using hs'
    exact .setCpu (by simp) (by simp) le_rfl

end

section

variable [Fintype C] [DecidableEq T]

def pending (s : Smp C T) : Finset C := Finset.univ.filter fun c ↦ (s.cpu c).pc = .pop

/-- A processor finds the queue non-empty only while there is a thread in it for each pending
processor and one more. -/
def ThreadLeft (s : Smp C T) : Label C T → Prop
  | .cpu c => (∃ a, (s.cpu c).pc = .test a) → s.readyQueue ≠ [] →
      s.pending.card < s.readyQueue.length
  | _ => True

structure Served (s : Smp C T) : Prop where
  pending : s.pending.card ≤ s.readyQueue.length
  assert : ∀ c, (s.cpu c).pc ≠ .failed

@[simp] theorem mem_pending : c ∈ s.pending ↔ (s.cpu c).pc = .pop := by simp [pending]

theorem Served.popReturns (h : Served s) : PopReturns s := by
  refine ⟨fun c hc hq ↦ ?_, h.assert⟩
  have hpos := Finset.card_pos.mpr ⟨c, mem_pending.mpr hc⟩
  have hle := h.pending
  rw [hq, length_nil] at hle
  omega

theorem Init.served (h : Init s) : Served s := by
  refine ⟨?_, fun c ↦ by simp [h.pc]⟩
  simp [pending, h.pc]

theorem Served.quiet (h : Served s) (hq : Quiet s s') : Served s' := by
  refine ⟨?_, fun c hc ↦ h.assert c (hq.failed c hc)⟩
  have hsub : s'.pending ⊆ s.pending := fun c hc ↦ mem_pending.mpr (hq.pop c (mem_pending.mp hc))
  exact (Finset.card_le_card hsub).trans (h.pending.trans hq.queue)

variable [DecidableEq C]

theorem pending_goto (pc : Pc T) : (s.goto c pc).pending =
    if pc = .pop then insert c s.pending else s.pending.erase c := by
  ext c'
  by_cases hc : c' = c
  · subst hc
    by_cases hpc : pc = .pop <;> simp [goto, Smp.setCpu, hpc]
  · by_cases hpc : pc = .pop <;> simp [goto, Smp.setCpu, hpc, hc]

theorem served_cpuStep (h : Served s) (hleft : s.ThreadLeft (.cpu c))
    (hs' : s.cpuStep c = some s') : Served s' := by
  by_cases hpop : (s.cpu c).pc = .pop
  · simp only [cpuStep, hpop] at hs'
    split at hs'
    · next hq => exact absurd hq (h.popReturns.pop c hpop)
    · next thr rest hq =>
      obtain rfl := some.inj hs'
      have hle := h.pending
      rw [hq, length_cons] at hle
      have hquiet : Quiet s (s.goto c (.check thr)) := .setCpu (by simp) (by simp) le_rfl
      refine ⟨?_, (h.quiet hquiet).assert⟩
      show (s.goto c (.check thr)).pending.card ≤ rest.length
      rw [pending_goto, if_neg (by simp), Finset.card_erase_of_mem (mem_pending.mpr hpop)]
      omega
  · by_cases htest : ∃ a, (s.cpu c).pc = .test a ∧ s.readyQueue ≠ []
    · obtain ⟨a, ha, hq⟩ := htest
      simp only [cpuStep, ha, hq, ne_eq, not_false_eq_true, if_true, some.injEq] at hs'
      obtain rfl := hs'
      refine ⟨?_, fun c' hc' ↦ ?_⟩
      · rw [pending_goto, if_pos rfl]
        exact (Finset.card_insert_le _ _).trans (hleft ⟨a, ha⟩ hq)
      · by_cases hc : c' = c
        · subst hc
          simp [goto, Smp.setCpu] at hc'
        · exact h.assert c' (by simpa [goto, Smp.setCpu, hc] using hc')
    · refine h.quiet (quiet_cpuStep hpop (fun a ha ↦ ?_) hs')
      by_contra hq
      exact htest ⟨a, ha, hq⟩

theorem served_step {l : Label C T} (h : Served s) (hleft : s.ThreadLeft l)
    (hs' : s.step l = some s') : Served s' := by
  cases l with
  | cpu c => exact served_cpuStep h hleft hs'
  | threadWake t =>
    obtain rfl := some.inj hs'
    exact h.quiet ⟨fun _ hc ↦ hc, fun _ hc ↦ hc, by simp [setState]⟩
  | call c a =>
    simp only [step, ite_none_right_eq_some, some.injEq] at hs'
    obtain ⟨-, rfl⟩ := hs'
    exact h.quiet (.setCpu (by simp) (by simp) le_rfl)
  | threadSleep c =>
    simp only [step, ite_none_right_eq_some, some.injEq] at hs'
    obtain ⟨-, rfl⟩ := hs'
    exact h.quiet (.setCpu (by simp) (by simp) le_rfl)
  | threadKill c =>
    simp only [step, ite_none_right_eq_some, some.injEq] at hs'
    obtain ⟨-, rfl⟩ := hs'
    exact h.quiet (.setCpu (by simp) (by simp) le_rfl)

/-- **A pop after a non-empty test returns a thread** in every run in which the queue is found
non-empty only while more threads are queued than processors are pending. -/
theorem popReturns_of_guarded (s : Smp C T) (hs : Init s) (ls : List (Label C T))
    (hls : Run.Guarded step ThreadLeft s ls) : ∀ t ∈ Run.exec step s ls, PopReturns t :=
  fun _ ht ↦ (Run.inv_of_guarded (fun _ _ _ h hl hs' ↦ served_step h hl hs') hs.served hls
    ht).popReturns

instance ThreadLeft.decidable (s : Smp C T) : ∀ l, Decidable (s.ThreadLeft l)
  | .cpu c => inferInstanceAs (Decidable ((∃ a, (s.cpu c).pc = .test a) → s.readyQueue ≠ [] →
      s.pending.card < s.readyQueue.length))
  | .call _ _ | .threadSleep _ | .threadKill _ | .threadWake _ => isTrue trivial

end

def popBoth : List (Label (Fin 2) ℕ) :=
  [.call 0 .runthread, .cpu 0, .cpu 0, .call 1 .runthread, .cpu 1, .cpu 1, .cpu 0, .cpu 1]

def raced : List (Label (Fin 2) ℕ) := .threadWake 2 :: popBoth

/-- **The assertion can fail**: both processors find the queue non-empty, and the thread goes to
the first one. -/
theorem not_popReturns_raced :
    Init boot ∧ Run.Guarded step Allowed boot raced ∧
      ∃ t, Run.exec step boot raced = some t ∧ (t.cpu 1).pc = .failed ∧ ¬ PopReturns t := by
  refine ⟨boot_init, by decide, ?_⟩
  have hrun : (Run.exec step boot raced).map (fun t ↦ (t.cpu 1).pc) = some .failed := by decide
  obtain ⟨t, ht, heq⟩ := map_eq_some_iff.mp hrun
  exact ⟨t, ht, heq, fun h ↦ h.assert 1 heq⟩

def shared : List (Label (Fin 2) ℕ) := .threadWake 2 :: .threadWake 3 :: popBoth

theorem popReturns_shared :
    Init boot ∧ Run.Guarded step ThreadLeft boot shared ∧
      (Run.exec step boot shared).map (fun t ↦ ((t.cpu 0).pc, (t.cpu 1).pc)) =
        some (.check 2, .check 3) ∧
      ∀ t ∈ Run.exec step boot shared, PopReturns t := by
  have hg : Run.Guarded step ThreadLeft boot shared := by decide
  exact ⟨boot_init, hg, by decide, popReturns_of_guarded boot boot_init shared hg⟩

end ForgeOS.Smp
