import ForgeOS.Sched.ReadyQueue

/-!
# A waiting thread gets its turn

A thread that becomes ready or gives up the processor goes to the end of the ready queue, and every
pass of `reschedule_internal` takes the next thread from its front.

The main result is `turn_of_position`.
-/

namespace ForgeOS.Sched

open List Option Run

variable {T : Type} [DecidableEq T] {s : Sched T} {t u : T} {us : List T} {op : Op T}

def Op.isPass : Op T → Bool
  | .threadSleep | .threadKill | .schedYield | .reschedule => true
  | .createThread _ | .threadWake _ | .zombieReaper => false

def passes (ops : List (Op T)) : ℕ := ops.countP Op.isPass

/-- What may happen while the thread `t` waits: other sleeping threads are woken, and the current
thread gives up the processor. -/
def Continues (t : T) (s : Sched T) : Op T → Prop
  | .threadWake u => u ≠ t ∧ (s.thread u).map Thread.state = some .sleeping
  | .createThread _ | .zombieReaper => False
  | _ => True

instance Continues.decidable (t : T) (s : Sched T) : ∀ op, Decidable (Continues t s op)
  | .threadWake u =>
    inferInstanceAs (Decidable (u ≠ t ∧ (s.thread u).map Thread.state = some .sleeping))
  | .createThread _ | .zombieReaper => isFalse id
  | .threadSleep | .threadKill | .schedYield | .reschedule => isTrue trivial

structure Line (s : Sched T) (us : List T) : Prop where
  queue : us <+: s.readyQueue
  nodup : us.Nodup
  ready : ∀ u ∈ us, s.HasState u .ready
  current : s.current ∉ us
  allocated : (s.thread s.current).isSome

theorem Inv.line (h : Inv s) (n : ℕ) : Line s (s.readyQueue.take n) := by
  have hsub := ( take_prefix n s.readyQueue).sublist
  refine ⟨ take_prefix n _, hsub.nodup h.nodup, fun u hu ↦ ?_, fun hmem ↦ ?_, ?_⟩
  · exact ((h.mem_iff u).mp (hsub.subset hu)).2
  · obtain ⟨hne, hready⟩ := (h.mem_iff _).mp (hsub.subset hmem)
    exact absurd (hready.unique (h.current hne)) (by simp)
  · by_cases hcur : s.current = s.idle
    · rw [hcur]
      exact h.idle
    · obtain ⟨th, hth, -⟩ := hasState_iff.mp (h.current hcur)
      simp [hth]

theorem Line.setCurrent (h : Line s us) (th : Thread) (zombies : List T) :
    Line { s.setThread s.current th with zombieQueue := zombies } us where
  queue := h.queue
  nodup := h.nodup
  ready u hu := by
    have hne : u ≠ s.current := fun he ↦ h.current (he ▸ hu)
    exact hasState_setThread.mpr (by simpa [hne] using h.ready u hu)
  current := h.current
  allocated := by simp [setThread]

omit [DecidableEq T] in
theorem Line.push (h : Line s us) (u : T) : Line { s with readyQueue := s.readyQueue ++ [u] } us :=
  { h with queue := h.queue.trans (prefix_append _ _) }

theorem Line.requeue (h : Line s us) : ∃ s', s.requeue = some s' ∧ Line s' us := by
  obtain ⟨th, hth⟩ := isSome_iff_exists.mp h.allocated
  by_cases hcur : s.current = s.idle
  · exact ⟨s, by simp [Sched.requeue, hcur], h⟩
  by_cases hrun : th.state = .running
  · refine ⟨_, ?_, (h.setCurrent { th with state := .ready } s.zombieQueue).push s.current⟩
    simp [Sched.requeue, hcur, hth, hrun, setState, modify_eq hth, setThread]
  · exact ⟨s, requeue_of_not_running s th hth hrun, h⟩

theorem Line.dispatch (h : Line s (u :: us)) {rest : List T} (hq : s.readyQueue = u :: rest) :
    ∃ s', Sched.dispatch { s with readyQueue := rest } u = some s' ∧ s'.current = u ∧
      Line s' us := by
  obtain ⟨th, hth, -⟩ := hasState_iff.mp (h.ready u (by simp))
  obtain ⟨hu, hnd⟩ := nodup_cons.mp h.nodup
  have hfront : us <+: rest := by simpa [hq, cons_prefix_cons] using h.queue
  have hne : u ≠ s.current := fun he ↦ h.current (by simp [he])
  refine ⟨{ s.setThread u { th with timeslice := defaultTimeslice, state := .running } with
    readyQueue := rest, current := u }, ?_, rfl, hfront, hnd, fun v hv ↦ ?_, hu, ?_⟩
  · simp [Sched.dispatch, modify, hth, setThread, hne]
  · have hvu : v ≠ u := fun he ↦ hu (he ▸ hv)
    exact hasState_setThread.mpr (by simpa [hvu] using h.ready v (by simp [hv]))
  · simp [setThread]

theorem Line.resched (h : Line s (u :: us)) (action : IdleAction) :
    ∃ s', s.resched action = some s' ∧ s'.current = u ∧ Line s' us := by
  obtain ⟨s1, hreq, h1⟩ := h.requeue
  obtain ⟨post, hpost⟩ := h1.queue
  have hq : s1.readyQueue = u :: (us ++ post) := hpost.symm
  obtain ⟨th, hth, hready⟩ := hasState_iff.mp (h1.ready u (by simp))
  obtain ⟨s2, hs2, hcur, h2⟩ := h1.dispatch hq
  refine ⟨s2, ?_, hcur, h2⟩
  simp [Sched.resched, rescheduleInternal, hreq, isIdle, hq, hth, hready, hs2]

theorem Line.pass (h : Line s (u :: us)) (hop : op.isPass) :
    ∃ s' ∈ s.step op, s'.current = u ∧ Line s' us := by
  obtain ⟨th, hth⟩ := isSome_iff_exists.mp h.allocated
  cases op with
  | createThread _ => simp [Op.isPass] at hop
  | threadWake _ => simp [Op.isPass] at hop
  | zombieReaper => simp [Op.isPass] at hop
  | schedYield => exact h.resched .ret
  | reschedule => exact h.resched .runthread
  | threadSleep =>
    obtain ⟨s', hs', h'⟩ :=
      (h.setCurrent { th with state := .sleeping } s.zombieQueue).resched .runthread
    exact ⟨s', by simpa [step, threadSleep, setState, modify_eq hth, Sched.reschedule, setThread]
      using hs', h'⟩
  | threadKill =>
    obtain ⟨s', hs', h'⟩ :=
      (h.setCurrent { th with state := .zombie } (s.zombieQueue ++ [s.current])).resched .runthread
    exact ⟨s', by simpa [step, threadKill, setState, modify_eq hth, Sched.reschedule] using hs', h'⟩

theorem Line.wake (h : Line s us) (hu : s.HasState u .sleeping) :
    ∃ s' ∈ s.step (.threadWake u), Line s' us := by
  obtain ⟨th, hth, -⟩ := hasState_iff.mp hu
  refine ⟨{ s.setThread u { th with state := .ready } with
    readyQueue := s.readyQueue ++ [u] }, ?_, (h.push u).queue, h.nodup, fun v hv ↦ ?_, h.current,
    thread_setThread_isSome h.allocated⟩
  · simp [step, threadWake, setState, modify, hth, setThread]
  · refine hasState_setThread.mpr ?_
    split
    · rfl
    · exact h.ready v hv

theorem Line.run {ops : List (Op T)} (h : Line s us) (hops : Guarded step (Continues t) s ops)
    (hlen : passes ops ≤ us.length) :
    ∃ s', exec step s ops = some s' ∧ Line s' (us.drop (passes ops)) := by
  induction ops generalizing s us with
  | nil => exact ⟨s, rfl, by simpa [passes] using h⟩
  | cons op ops ih =>
    by_cases hop : op.isPass
    · have hcount : passes (op :: ops) = passes ops + 1 := by simp [passes, hop]
      cases us with
      | nil => simp [hcount] at hlen
      | cons u us =>
        obtain ⟨s1, hs1, -, h1⟩ := h.pass hop
        obtain ⟨s', hs', h'⟩ := ih h1 (hops.2 s1 hs1) (by simpa [hcount] using hlen)
        exact ⟨s', exec_cons_eq_some.mpr ⟨s1, hs1, hs'⟩, by simpa [hcount] using h'⟩
    · have hcount : passes (op :: ops) = passes ops := by simp [passes, hop]
      have hwake : ∃ u, op = .threadWake u ∧ s.HasState u .sleeping := by
        cases op with
        | threadWake u => exact ⟨u, rfl, hops.1.2⟩
        | createThread _ => exact hops.1.elim
        | zombieReaper => exact hops.1.elim
        | threadSleep | threadKill | schedYield | reschedule => simp [Op.isPass] at hop
      obtain ⟨u, rfl, hu⟩ := hwake
      obtain ⟨s1, hs1, h1⟩ := h.wake hu
      obtain ⟨s', hs', h'⟩ := ih h1 (hops.2 s1 hs1) (hcount ▸ hlen)
      exact ⟨s', exec_cons_eq_some.mpr ⟨s1, hs1, hs'⟩, hcount.symm ▸ h'⟩

/-- **Round robin.**  A thread at position `k` of the ready queue becomes current with the `k + 1`st
pass of `reschedule_internal`, and not before. -/
theorem turn_of_position (s₀ : Sched T) (hs₀ : Init s₀) (ops : List (Op T))
    (hops : Guarded step Allowed s₀ ops) (s : Sched T) (hs : exec step s₀ ops = some s)
    (t : T) (k : ℕ) (hk : s.readyQueue[k]? = some t) (cont : List (Op T))
    (hcont : Guarded step (Continues t) s cont) (hpasses : passes cont ≤ k) :
    ∃ s', exec step s cont = some s' ∧ s'.current ≠ t ∧
      (passes cont = k → ∀ op : Op T, op.isPass → ∃ s'' ∈ s'.step op, s''.current = t) := by
  obtain ⟨m, hm, hinv⟩ := (always_of_guarded (fun _ op h hop ↦ inv_step op h hop) hs₀.inv
    hops).exec
  obtain rfl : m = s := some.inj (hm.symm.trans hs)
  have htake : m.readyQueue.take (k + 1) = m.readyQueue.take k ++ [t] := by
    rw [take_add_one, hk, toList_some]
  have hlen : (m.readyQueue.take k).length = k :=
    List.length_take_of_le (List.getElem?_eq_some_iff.mp hk).1.le
  have hline := hinv.line (k + 1)
  rw [htake] at hline
  obtain ⟨s', hs', h'⟩ := hline.run hcont (by simp only [length_append, hlen]; omega)
  rw [drop_append_of_le_length (by omega)] at h'
  refine ⟨s', hs', fun hcur ↦ h'.current (by simp [hcur]), fun hlast op hop ↦ ?_⟩
  rw [drop_of_length_le (by omega), nil_append] at h'
  obtain ⟨s'', hs'', hcur, -⟩ := h'.pass hop
  exact ⟨s'', hs'', hcur⟩

def arrivals : List (Op ℕ) :=
  [.createThread 1, .createThread 2, .createThread 3, .threadWake 1, .threadWake 2]

theorem turn_of_position_arrivals : Init fresh ∧ Guarded step Allowed fresh arrivals ∧
    ∃ s, exec step fresh arrivals = some s ∧ s.readyQueue[1]? = some 2 ∧
      Guarded step (Continues 2) s [.threadWake 3, .schedYield] ∧
      passes ([.threadWake 3, .schedYield] : List (Op ℕ)) = 1 ∧
      ∃ s', exec step s [.threadWake 3, .schedYield] = some s' ∧ s'.current ≠ 2 ∧
        (passes ([.threadWake 3, .schedYield] : List (Op ℕ)) = 1 →
          ∀ op : Op ℕ, op.isPass → ∃ s'' ∈ s'.step op, s''.current = 2) := by
  have hg : Guarded step Allowed fresh arrivals := by decide
  refine ⟨fresh_init, hg, _, rfl, rfl, by decide, rfl, ?_⟩
  exact turn_of_position fresh fresh_init arrivals hg _ rfl 2 1 rfl _ (by decide) (by decide)

end ForgeOS.Sched
