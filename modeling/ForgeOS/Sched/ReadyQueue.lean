import ForgeOS.Sched.Model

/-!
# The ready queue of one processor

`ReadyInv` says what `reschedule_internal` is for, and `Inv` carries the proof.

The main result is `always_readyInv`.
-/

namespace ForgeOS.Sched

open Function List Option

variable {T : Type} {s : Sched T} {t u : T} {th : Thread} {st : ThreadState}

def HasState (s : Sched T) (t : T) (st : ThreadState) : Prop :=
  (s.thread t).map Thread.state = some st

/-- **The invariant of the ready queue.** -/
structure ReadyInv (s : Sched T) : Prop where
  /-- No thread is on the queue twice. -/
  nodup : s.readyQueue.Nodup
  /-- The queue lists exactly the ready threads. -/
  mem_iff : ∀ t, t ∈ s.readyQueue ↔ t ≠ s.idle ∧ s.HasState t .ready
  /-- Only the current thread is running. -/
  running : ∀ t, t ≠ s.idle → s.HasState t .running → t = s.current

structure Queues (s : Sched T) : Prop where
  nodup : s.readyQueue.Nodup
  mem_iff : ∀ t, t ∈ s.readyQueue ↔ t ≠ s.idle ∧ s.HasState t .ready
  idle : (s.thread s.idle).isSome
  zombie_nodup : s.zombieQueue.Nodup
  zombie : ∀ t ∈ s.zombieQueue, t ≠ s.idle ∧ s.HasState t .zombie

structure Inv (s : Sched T) : Prop extends Queues s where
  running : ∀ t, t ≠ s.idle → s.HasState t .running → t = s.current
  current : s.current ≠ s.idle → s.HasState s.current .running

structure Settled (s : Sched T) : Prop extends Queues s where
  none_running : ∀ t, t ≠ s.idle → ¬ s.HasState t .running

theorem Inv.readyInv (h : Inv s) : ReadyInv s := ⟨h.nodup, h.mem_iff, h.running⟩

theorem Settled.inv (h : Settled s) (hcur : s.current = s.idle) : Inv s :=
  ⟨h.toQueues, fun t ht hrun ↦ absurd hrun (h.none_running t ht), fun hne ↦ absurd hcur hne⟩

theorem Inv.settled (h : Inv s) (hcur : s.current = s.idle) : Settled s :=
  ⟨h.toQueues, fun t ht hrun ↦ ht ((h.running t ht hrun).trans hcur)⟩

theorem hasState_iff : s.HasState t st ↔ ∃ th, s.thread t = some th ∧ th.state = st :=
  map_eq_some_iff

theorem HasState.unique {st' : ThreadState} (h : s.HasState t st) (h' : s.HasState t st') :
    st = st' :=
  some.inj (h.symm.trans h')

theorem Init.inv (h : Init s) : Inv s := by
  have hno : ∀ u st, u ≠ s.idle → s.HasState u st → st = .sleeping := by
    intro u st hu hst
    obtain ⟨th, hth, rfl⟩ := hasState_iff.mp hst
    exact h.others u th hu hth
  refine ⟨⟨by simp [h.ready], fun u ↦ ?_, h.idle, by simp [h.zombie], by simp [h.zombie]⟩,
    fun u hu hrun ↦ absurd (hno u _ hu hrun) (by simp), fun hc ↦ absurd h.current hc⟩
  simp only [h.ready, not_mem_nil, false_iff, not_and]
  exact fun hu hready ↦ absurd (hno u _ hu hready) (by simp)

variable [DecidableEq T]

attribute [local simp] HasState setThread

@[simp] theorem hasState_setThread :
    (s.setThread t th).HasState u st ↔ if u = t then th.state = st else s.HasState u st := by
  by_cases hut : u = t
  · simp [hut]
  · simp [hut]

theorem thread_setThread_isSome (h : (s.thread u).isSome) :
    ((s.setThread t th).thread u).isSome := by
  by_cases hut : u = t
  · simp [hut]
  · simpa [hut] using h

theorem modify_eq (h : s.thread t = some th) (f : Thread → Thread) :
    s.modify t f = some (s.setThread t (f th)) := by
  simp [modify, h]

theorem inv_dispatch (h : Settled s) {rest : List T} (hq : s.readyQueue = t :: rest) :
    ∃ s', dispatch { s with readyQueue := rest } t = some s' ∧ Inv s' := by
  have hnd := h.nodup
  rw [hq, nodup_cons] at hnd
  have ht := (h.mem_iff t).mp (by simp [hq])
  obtain ⟨th, hth, hready⟩ := hasState_iff.mp ht.2
  obtain ⟨s', hs', hthread, hcur, hidle, hrest, hzq⟩ :
      ∃ s', dispatch { s with readyQueue := rest } t = some s' ∧
        (∀ u st, s'.HasState u st ↔ if u = t then .running = st else s.HasState u st) ∧
        s'.current = t ∧ s'.idle = s.idle ∧ s'.readyQueue = rest ∧
        s'.zombieQueue = s.zombieQueue := by
    rw [dispatch, modify_eq (s := { s with readyQueue := rest }) hth]
    simp only [bind_eq_bind, bind_some]
    split
    · exact ⟨_, rfl, fun u st ↦ hasState_setThread, rfl, rfl, rfl, rfl⟩
    · next hc => exact ⟨_, rfl, fun u st ↦ hasState_setThread, (not_not.mp hc).symm, rfl, rfl, rfl⟩
  refine ⟨s', hs', ⟨⟨hrest ▸ hnd.2, fun u ↦ ?_, ?_, hzq ▸ h.zombie_nodup, fun u hu ↦ ?_⟩,
    fun u hu hrun ↦ ?_, fun _ ↦ ?_⟩⟩
  · rw [hthread, hrest, hidle]
    by_cases hut : u = t
    · simpa [hut] using hnd.1
    · have hmem := h.mem_iff u
      rw [hq, mem_cons, or_iff_right hut] at hmem
      simpa [hut] using hmem
  · obtain ⟨ith, hith⟩ := isSome_iff_exists.mp h.idle
    have hidle' : s'.HasState s'.idle ith.state := by
      rw [hidle, hthread, if_neg ht.1.symm]
      exact hasState_iff.mpr ⟨ith, hith, rfl⟩
    obtain ⟨x, hx, -⟩ := hasState_iff.mp hidle'
    simp [hx]
  · obtain ⟨hne, hz⟩ := h.zombie u (hzq ▸ hu)
    have hut : u ≠ t := by
      rintro rfl
      exact absurd (hz.unique ht.2) (by simp)
    rw [hthread, hidle, if_neg hut]
    exact ⟨hne, hz⟩
  · rw [hcur]
    by_contra hut
    rw [hthread, if_neg hut] at hrun
    exact h.none_running u (hidle ▸ hu) hrun
  · rw [hthread, if_pos hcur]

theorem inv_goIdle (h : Settled s) (th : Thread) :
    Inv { s.setThread s.idle th with current := s.idle } := by
  have hst : ∀ u st, u ≠ s.idle →
      (({ s.setThread s.idle th with current := s.idle } : Sched T).HasState u st ↔
        s.HasState u st) := by
    intro u st hu
    exact hasState_setThread.trans (by simp [hu])
  refine ⟨⟨h.nodup, fun u ↦ ?_, ?_, h.zombie_nodup, fun u hu ↦ ?_⟩, fun u hu hrun ↦ ?_,
    fun hne ↦ absurd rfl hne⟩
  · exact (h.mem_iff u).trans (and_congr_right fun hu ↦ (hst u _ hu).symm)
  · exact thread_setThread_isSome h.idle
  · obtain ⟨hne, hz⟩ := h.zombie u hu
    exact ⟨hne, (hst u _ hne).mpr hz⟩
  · exact absurd ((hst u _ hu).mp hrun) (h.none_running u hu)

theorem inv_of_settled {s0 : Sched T} (action : IdleAction) (hreq : s0.requeue = some s)
    (h : Settled s) (hret : s.readyQueue = [] → action = .ret → s.current = s.idle) (fuel : ℕ) :
    ∃ s', rescheduleInternal (fuel + 1) action s0 = some s' ∧ Inv s' := by
  obtain ⟨ith, hith⟩ := isSome_iff_exists.mp h.idle
  rw [rescheduleInternal, hreq]
  cases hq : s.readyQueue with
  | nil =>
    by_cases hc : s.current = s.idle ∧ action ≠ .runthreadRestore ∨ action = .ret
    · refine ⟨s, ?_, h.inv ?_⟩
      · simp [isIdle, hq, hc]
      · exact hc.elim (fun hc ↦ hc.1) (hret hq)
    · have hact : action = .runthread ∨ action = .runthreadRestore := by
        cases action <;> simp_all
      have hcond : action = .runthreadRestore ∨ s.current ≠ s.idle := by
        by_contra hno
        exact hc (.inl ⟨not_not.mp fun hne ↦ hno (.inr hne), fun ha ↦ hno (.inl ha)⟩)
      refine ⟨_, ?_, inv_goIdle h { ith with state := .running, timeslice := defaultTimeslice }⟩
      simp [isIdle, hq, hc, hact, modify_eq hith, hcond]
  | cons t rest =>
    obtain ⟨s', hs', hinv⟩ := inv_dispatch h hq
    have ht := (h.mem_iff t).mp (by simp [hq])
    obtain ⟨tth, htth, hready⟩ := hasState_iff.mp ht.2
    refine ⟨s', ?_, hinv⟩
    simp [isIdle, hq, htth, hready, hs']

/-! ## Giving up the processor

The current thread leaves the state `RUNNING` in one of three ways.  Since it was the only thread
in that state, none is left in it. -/

theorem settled_leave (h : Inv s) (hcur : s.current ≠ s.idle) (th : Thread)
    (hth : th.state ≠ .running) (hready : th.state ≠ .ready) (zq : List T) (hnd : zq.Nodup)
    (hz : ∀ u ∈ zq, u = s.current ∧ th.state = .zombie ∨ u ∈ s.zombieQueue) :
    Settled { s.setThread s.current th with zombieQueue := zq } := by
  have hst : ∀ u st, (({ s.setThread s.current th with zombieQueue := zq } : Sched T).HasState u st ↔
      if u = s.current then th.state = st else s.HasState u st) := fun u st ↦ hasState_setThread
  refine ⟨⟨h.nodup, fun u ↦ ?_, thread_setThread_isSome h.idle, hnd, fun u hu ↦ ?_⟩,
    fun u hu hrun ↦ ?_⟩
  · rw [hst]
    by_cases huc : u = s.current
    · subst huc
      have hno : s.current ∉ s.readyQueue := fun hmem ↦
        absurd (((h.mem_iff _).mp hmem).2.unique (h.current hcur)) (by simp)
      simpa [hready] using hno
    · simpa [huc] using h.mem_iff u
  · rw [hst]
    by_cases huc : u = s.current
    · rcases hz u hu with ⟨rfl, hzs⟩ | hmem
      · simpa [hzs] using hcur
      · have hzc := (h.zombie u hmem).2
        rw [huc] at hzc
        exact absurd (hzc.unique (h.current hcur)) (by simp)
    · rw [if_neg huc]
      exact h.zombie u ((hz u hu).resolve_left fun hc ↦ huc hc.1)
  · rw [hst] at hrun
    by_cases huc : u = s.current
    · rw [if_pos huc] at hrun
      exact hth hrun
    · rw [if_neg huc] at hrun
      exact huc (h.running u hu hrun)

theorem requeue_of_not_running (s : Sched T) (th : Thread) (hth : s.thread s.current = some th)
    (hrun : th.state ≠ .running) : s.requeue = some s := by
  by_cases hc : s.current = s.idle
  · simp [requeue, hc]
  · simp [requeue, hc, hth, hrun]

theorem settled_requeue (h : Inv s) : ∃ s', s.requeue = some s' ∧ Settled s' ∧
    (s'.readyQueue = [] → s'.current = s'.idle) := by
  by_cases hcur : s.current = s.idle
  · exact ⟨s, by simp [requeue, hcur], h.settled hcur, fun _ ↦ hcur⟩
  obtain ⟨th, hth, hrun⟩ := hasState_iff.mp (h.current hcur)
  have hno : s.current ∉ s.readyQueue := fun hmem ↦
    absurd (((h.mem_iff _).mp hmem).2.unique (h.current hcur)) (by simp)
  have hst : ∀ u st, ((s.setThread s.current { th with state := .ready }).HasState u st ↔
      if u = s.current then .ready = st else s.HasState u st) := fun u st ↦ hasState_setThread
  refine ⟨{ s.setThread s.current { th with state := .ready } with
    readyQueue := s.readyQueue ++ [s.current] }, ?_, ⟨⟨?_, fun u ↦ ?_, ?_, h.zombie_nodup,
    fun u hu ↦ ?_⟩, fun u hu hr ↦ ?_⟩, fun he ↦ absurd he (by simp)⟩
  · simp [requeue, hcur, hth, hrun, setState, modify_eq hth]
  · exact h.nodup.append (nodup_singleton _) (by simpa using hno)
  · refine Iff.trans ?_ (and_congr_right fun _ ↦ (hst u .ready).symm)
    by_cases huc : u = s.current
    · simpa [huc] using hcur
    · simpa [huc] using h.mem_iff u
  · exact thread_setThread_isSome h.idle
  · obtain ⟨hne, hz⟩ := h.zombie u hu
    refine ⟨hne, (hst u _).mpr ?_⟩
    have huc : u ≠ s.current := by
      rintro rfl
      exact absurd (hz.unique (h.current hcur)) (by simp)
    simpa [huc] using hz
  · have hr' := (hst u _).mp hr
    by_cases huc : u = s.current
    · simp [huc] at hr'
    · rw [if_neg huc] at hr'
      exact huc (h.running u hu hr')

theorem inv_resched (h : Inv s) (action : IdleAction) :
    ∃ s', s.resched action = some s' ∧ Inv s' := by
  obtain ⟨s1, hreq, hs1, hidle⟩ := settled_requeue h
  exact inv_of_settled action hreq hs1 (fun he _ ↦ hidle he) _

theorem inv_threadSleep (h : Inv s) (hcur : s.current ≠ s.idle) :
    ∃ s', s.threadSleep = some s' ∧ Inv s' := by
  obtain ⟨th, hth, -⟩ := hasState_iff.mp (h.current hcur)
  have hs := settled_leave h hcur { th with state := .sleeping } (by simp) (by simp) s.zombieQueue
    h.zombie_nodup fun u hu ↦ .inr hu
  have hreq := requeue_of_not_running (s.setThread s.current { th with state := .sleeping })
    { th with state := .sleeping } (by simp) (by simp)
  obtain ⟨s', hs', hinv⟩ := inv_of_settled .runthread hreq hs (by simp) _
  exact ⟨s', by simpa [threadSleep, setState, modify_eq hth, reschedule, resched] using hs', hinv⟩

theorem inv_threadKill (h : Inv s) (hcur : s.current ≠ s.idle) :
    ∃ s', s.threadKill = some s' ∧ Inv s' := by
  obtain ⟨th, hth, -⟩ := hasState_iff.mp (h.current hcur)
  have hno : s.current ∉ s.zombieQueue := fun hmem ↦
    absurd ((h.zombie _ hmem).2.unique (h.current hcur)) (by simp)
  have hs := settled_leave h hcur { th with state := .zombie } (by simp) (by simp)
    (s.zombieQueue ++ [s.current])
    (h.zombie_nodup.append (nodup_singleton _) (by simpa using hno)) fun u hu ↦ by
      rcases mem_append.mp hu with hu | hu
      · exact .inr hu
      · exact .inl ⟨mem_singleton.mp hu, rfl⟩
  have hreq := requeue_of_not_running { s.setThread s.current { th with state := .zombie } with
      zombieQueue := s.zombieQueue ++ [s.current] } { th with state := .zombie }
    (by simp) (by simp)
  obtain ⟨s', hs', hinv⟩ := inv_of_settled .runthread hreq hs (by simp) _
  exact ⟨s', by simpa [threadKill, setState, modify_eq hth, reschedule, resched] using hs', hinv⟩

theorem inv_setThread (h : Inv s) (ht : t ≠ s.idle) (htc : t ≠ s.current) (th : Thread)
    (rq : List T) (hrun : th.state ≠ .running) (hz : t ∉ s.zombieQueue) (hnd : rq.Nodup)
    (hrq : ∀ u, u ∈ rq ↔ if u = t then th.state = .ready else u ∈ s.readyQueue) :
    Inv { s.setThread t th with readyQueue := rq } := by
  have hst : ∀ u st, (({ s.setThread t th with readyQueue := rq } : Sched T).HasState u st ↔
      if u = t then th.state = st else s.HasState u st) := fun u st ↦ hasState_setThread
  refine ⟨⟨hnd, fun u ↦ ?_, thread_setThread_isSome h.idle, h.zombie_nodup, fun u hu ↦ ?_⟩,
    fun u hu hr ↦ ?_, fun hc ↦ ?_⟩
  · rw [hst, hrq]
    by_cases hut : u = t
    · simpa [hut] using fun _ ↦ ht
    · simpa [hut] using h.mem_iff u
  · have hut : u ≠ t := fun hut ↦ hz (hut ▸ hu)
    rw [hst, if_neg hut]
    exact h.zombie u hu
  · rw [hst] at hr
    by_cases hut : u = t
    · rw [if_pos hut] at hr
      exact absurd hr hrun
    · rw [if_neg hut] at hr
      exact h.running u hu hr
  · rw [hst]
    simpa [htc.symm] using h.current hc

theorem inv_threadWake (h : Inv s) (ht : t ≠ s.idle) (hsl : s.HasState t .sleeping) :
    ∃ s', s.threadWake t = some s' ∧ Inv s' := by
  obtain ⟨th, hth, -⟩ := hasState_iff.mp hsl
  have hno : t ∉ s.readyQueue := fun hmem ↦
    absurd (((h.mem_iff _).mp hmem).2.unique hsl) (by simp)
  have htc : t ≠ s.current := by
    rintro rfl
    exact absurd ((h.current ht).unique hsl) (by simp)
  refine ⟨_, ?_, inv_setThread h ht htc { th with state := .ready }
    (s.readyQueue ++ [t]) (by simp) (fun hmem ↦ ?_) ?_ fun u ↦ ?_⟩
  · simp [threadWake, setState, modify_eq (s := { s with readyQueue := s.readyQueue ++ [t] }) hth,
      setThread]
  · exact absurd ((h.zombie t hmem).2.unique hsl) (by simp)
  · exact h.nodup.append (nodup_singleton _) (by simpa using hno)
  · by_cases hut : u = t <;> simp [hut]

theorem inv_createThread (h : Inv s) (hnew : s.thread t = none) :
    ∃ s', s.createThread t = some s' ∧ Inv s' := by
  have hno : ∀ st, ¬ s.HasState t st := fun st hst ↦ by simp [hnew] at hst
  have ht : t ≠ s.idle := by
    rintro rfl
    have hidle := h.idle
    simp [hnew] at hidle
  have htc : t ≠ s.current := by
    rintro rfl
    exact hno _ (h.current ht)
  refine ⟨s.setThread t ⟨.sleeping, defaultTimeslice⟩, by simp [createThread, hnew],
    inv_setThread h ht htc _ s.readyQueue (by simp)
      (fun hmem ↦ hno _ (h.zombie t hmem).2) h.nodup fun u ↦ ?_⟩
  by_cases hut : u = t
  · subst hut
    simpa using fun hmem ↦ hno _ ((h.mem_iff u).mp hmem).2
  · simp [hut]

theorem reap_spec {zq : List T} (threads : T → Option Thread) (hnd : zq.Nodup)
    (hz : ∀ u ∈ zq, (threads u).isSome) :
    ∃ threads', reap zq threads = some threads' ∧
      (∀ u ∈ zq, threads' u = none) ∧ ∀ u ∉ zq, threads' u = threads u := by
  induction zq generalizing threads with
  | nil => exact ⟨threads, rfl, by simp, fun _ _ ↦ rfl⟩
  | cons t zq ih =>
    rw [nodup_cons] at hnd
    obtain ⟨th, hth⟩ := isSome_iff_exists.mp (hz t (by simp))
    obtain ⟨threads', hr, hin, hout⟩ := ih (update threads t none) hnd.2
      fun u hu ↦ by
        have hut : u ≠ t := fun hut ↦ hnd.1 (hut ▸ hu)
        simpa [hut] using hz u (by simp [hu])
    refine ⟨threads', by simp [reap, hth, hr], fun u hu ↦ ?_, fun u hu ↦ ?_⟩
    · rcases mem_cons.mp hu with rfl | hu
      · simpa using hout u hnd.1
      · exact hin u hu
    · rw [mem_cons, not_or] at hu
      simpa [hu.1] using hout u hu.2

theorem inv_zombieReaper (h : Inv s) : ∃ s', s.zombieReaper = some s' ∧ Inv s' := by
  obtain ⟨threads, hr, hin, hout⟩ := reap_spec s.thread h.zombie_nodup fun u hu ↦ by
    obtain ⟨th, hth, -⟩ := hasState_iff.mp (h.zombie u hu).2
    simp [hth]
  have hst : ∀ u st, st ≠ .zombie → (({ s with thread := threads, zombieQueue := [] } :
      Sched T).HasState u st ↔ s.HasState u st) := by
    intro u st hne
    by_cases hu : u ∈ s.zombieQueue
    · refine ⟨fun hc ↦ ?_, fun hc ↦ absurd (hc.unique (h.zombie u hu).2) hne⟩
      simp [hin u hu] at hc
    · simp [hout u hu]
  refine ⟨{ s with thread := threads, zombieQueue := [] }, by simp [zombieReaper, hr],
    ⟨⟨h.nodup, fun u ↦ ?_, ?_, nodup_nil, by simp⟩, fun u hu hrun ↦ ?_, fun hc ↦ ?_⟩⟩
  · exact (h.mem_iff u).trans (and_congr_right fun _ ↦ (hst u _ (by simp)).symm)
  · have hno : s.idle ∉ s.zombieQueue := fun hmem ↦ (h.zombie _ hmem).1 rfl
    simpa [hout _ hno] using h.idle
  · exact h.running u hu ((hst u _ (by simp)).mp hrun)
  · exact (hst _ _ (by simp)).mpr (h.current hc)

theorem inv_step (op : Op T) (h : Inv s) (hop : s.Allowed op) : ∃ s' ∈ s.step op, Inv s' := by
  cases op with
  | createThread t => exact inv_createThread h hop
  | threadWake t => exact inv_threadWake h hop.1 hop.2
  | threadSleep => exact inv_threadSleep h hop
  | threadKill => exact inv_threadKill h hop
  | schedYield => exact inv_resched h .ret
  | reschedule => exact inv_resched h .runthread
  | zombieReaper => exact inv_zombieReaper h

/-- **The ready queue is right in every reachable state**, and no operation faults. -/
theorem always_readyInv (s : Sched T) (hs : Init s) (ops : List (Op T))
    (hops : Run.Guarded step Allowed s ops) : Run.Always step ReadyInv s ops :=
  (Run.always_of_guarded (fun _ op h hop ↦ inv_step op h hop) hs.inv hops).mono
    fun _ h ↦ h.readyInv

def fresh : Sched ℕ where
  thread := fun t ↦ if t = 0 then some ⟨.running, defaultTimeslice⟩ else none
  current := 0
  idle := 0
  readyQueue := []
  zombieQueue := []

theorem fresh_init : Init fresh := by
  refine ⟨rfl, rfl, rfl, rfl, fun t th ht hth ↦ ?_⟩
  have ht : t ≠ 0 := ht
  simp [fresh, ht] at hth

def turns : List (Op ℕ) :=
  [.createThread 1, .createThread 2, .threadWake 1, .threadWake 2, .reschedule, .schedYield,
    .threadSleep, .threadWake 2, .reschedule, .threadKill, .zombieReaper]

theorem always_readyInv_turns :
    Init fresh ∧ Run.Guarded step Allowed fresh turns ∧ Run.Always step ReadyInv fresh turns := by
  have hg : Run.Guarded step Allowed fresh turns := by decide
  exact ⟨fresh_init, hg, always_readyInv fresh fresh_init turns hg⟩

end ForgeOS.Sched
