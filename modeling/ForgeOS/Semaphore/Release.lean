import ForgeOS.Semaphore.Model

/-!
# One release, running alone

`semaphore_release` cuts the sum down to `s->max` after it has been computed, in the width of the
maximum itself.

The main result is `semaphoreRelease_iff`.
-/

namespace ForgeOS.Semaphore

open Function List Option

variable {T : Type} [DecidableEq T] {s t m : Semaphore T} {i : T} {count : ℕ}

def Solo (i : T) (s t : Semaphore T) : Prop :=
  ∃ k, Run.exec step s (List.replicate k (.access i)) = some t

theorem Solo.refl (i : T) (s : Semaphore T) : Solo i s s := ⟨0, rfl⟩

theorem Solo.head (hm : s.access i = some m) (h : Solo i m t) : Solo i s t := by
  obtain ⟨k, hk⟩ := h
  refine ⟨k + 1, ?_⟩
  rw [replicate_succ, Run.exec_cons_eq_some]
  exact ⟨m, hm, hk⟩

theorem Solo.trans (h : Solo i s m) (h' : Solo i m t) : Solo i s t := by
  obtain ⟨k, hk⟩ := h
  obtain ⟨j, hj⟩ := h'
  refine ⟨k + j, ?_⟩
  rw [replicate_add, Run.exec_append, hk, bind_some, hj]

theorem Solo.unique (h : Solo i s t) (ht : t.pc i = .idle) (h' : Solo i s m)
    (hm : m.pc i = .idle) : t = m := by
  obtain ⟨k, hk⟩ := h
  obtain ⟨j, hj⟩ := h'
  have hstuck : ∀ {r : Semaphore T}, r.pc i = .idle → r.step (.access i) = none := by
    intro r hr
    rw [step, access, hr]
  induction k generalizing s j with
  | zero =>
    obtain rfl := some.inj hk
    cases j with
    | zero => exact some.inj hj
    | succ j =>
      rw [replicate_succ, Run.exec, hstuck ht] at hj
      cases hj
  | succ k ih =>
    rw [replicate_succ, Run.exec_cons_eq_some] at hk
    obtain ⟨r, hr, hk⟩ := hk
    cases j with
    | zero =>
      obtain rfl := some.inj hj
      rw [hstuck hm] at hr
      cases hr
    | succ j =>
      rw [replicate_succ, Run.exec_cons_eq_some] at hj
      obtain ⟨r', hr', hj⟩ := hj
      obtain rfl := some.inj (hr.symm.trans hr')
      exact ih hk j hj

structure WokenAll (s t : Semaphore T) : Prop where
  tqueue : t.tqueue = []
  readyQueue : t.readyQueue = s.readyQueue ++ s.tqueue
  state : ∀ thr, t.state thr = if thr ∈ s.tqueue then .ready else s.state thr

theorem WokenAll.cons {thr : T} {rest : List T} (htq : s.tqueue = thr :: rest)
    (hmtq : m.tqueue = rest) (hmrq : m.readyQueue = s.readyQueue ++ [thr])
    (hmst : m.state = Function.update s.state thr .ready) (h : WokenAll m t) : WokenAll s t := by
  refine ⟨h.tqueue, ?_, fun k ↦ ?_⟩
  · rw [h.readyQueue, hmrq, hmtq, htq, append_assoc, singleton_append]
  · rw [h.state, hmtq, hmst, htq]
    by_cases hk : k = thr
    · subst hk
      rw [update_self, ite_self, if_pos mem_cons_self]
    · rw [update_of_ne hk]
      simp only [mem_cons, hk, false_or]

theorem solo_wake_first {thr : T} {rest : List T} (hpc : s.pc i = .releasePop)
    (hq : s.tqueue = thr :: rest) :
    ∃ m, Solo i s m ∧ m.pc i = .releasePop ∧ m.count = s.count ∧ m.tqueue = rest ∧
      m.readyQueue = s.readyQueue ++ [thr] ∧ m.state = Function.update s.state thr .ready := by
  let popped := { s with tqueue := rest }.goto i (.releaseWakePush thr)
  let pushed :=
    { popped with readyQueue := popped.readyQueue ++ [thr] }.goto i (.releaseWakeReady thr)
  have hpop : s.access i = some popped := by rw [access, hpc, hq]
  have hpush : popped.access i = some pushed := by
    have hpc : popped.pc i = .releaseWakePush thr := update_self ..
    rw [access, hpc]
  have hready : pushed.access i = some ((pushed.setState thr .ready).goto i .releasePop) := by
    have hpc : pushed.pc i = .releaseWakeReady thr := update_self ..
    rw [access, hpc]
  exact ⟨_, .head hpop (.head hpush (.head hready (.refl i _))), update_self .., rfl, rfl,
    rfl, rfl⟩

theorem solo_wake (hpc : s.pc i = .releasePop) :
    ∃ t, Solo i s t ∧ t.pc i = .releaseUnlock ∧ t.count = s.count ∧ WokenAll s t := by
  obtain ⟨q, hq⟩ : ∃ q, s.tqueue = q := ⟨_, rfl⟩
  induction q generalizing s with
  | nil =>
    have hstep : s.access i = some (s.goto i .releaseUnlock) := by rw [access, hpc, hq]
    refine ⟨_, .head hstep (.refl i _), update_self .., rfl, hq, ?_, fun thr ↦ ?_⟩
    · rw [hq, append_nil, goto]
    · rw [hq, if_neg not_mem_nil, goto]
  | cons thr rest ih =>
    obtain ⟨m, hm, hmpc, hmcount, hmtq, hmrq, hmst⟩ := solo_wake_first hpc hq
    obtain ⟨t, ht, htpc, htcount, hwoken⟩ := ih hmpc hmtq
    exact ⟨t, hm.trans ht, htpc, htcount.trans hmcount, hwoken.cons hq hmtq hmrq hmst⟩

/-- Thread `i` calls `semaphore_release(sem, n)` in the state `s` and returns from it in the state
`t`, and no other thread moves in between. -/
def Released (i : T) (n : ℕ) (s t : Semaphore T) : Prop :=
  Solo i (s.call i (.release n)) t ∧ t.pc i = .idle

omit [DecidableEq T] in
theorem effective_eq_min (s : Semaphore T) (n : ℕ) : s.effective n = min (Max.max n 1) s.max := by
  rw [effective, honorMax, atLeastOne]
  split_ifs <;> omega

theorem solo_add (hpc : s.pc i = .releaseLoad count) :
    ∃ m, Solo i s m ∧ m.pc i = .releasePop ∧ m.count = min ((s.count + count) % wordSize) s.max ∧
      m.tqueue = s.tqueue ∧ m.readyQueue = s.readyQueue ∧ m.state = s.state := by
  let sum := (s.count + count) % wordSize
  let loaded := s.goto i (.releaseAdd count s.count)
  let added := loaded.goto i (.releaseStore count sum)
  let stored := { added with count := sum }.goto i .releaseTest
  have hload : s.access i = some loaded := by rw [access, hpc]
  have hadd : loaded.access i = some added := by
    have hpc : loaded.pc i = .releaseAdd count s.count := update_self ..
    rw [access, hpc]
  have hstore : added.access i = some stored := by
    have hpc : added.pc i = .releaseStore count sum := update_self ..
    rw [access, hpc]
  have hstored : stored.pc i = .releaseTest := update_self ..
  by_cases hover : sum > s.max
  · let tested := stored.goto i .releaseClamp
    have htest : stored.access i = some tested := by
      rw [access, hstored]
      exact congrArg (fun pc ↦ some (stored.goto i pc)) (if_pos hover)
    have hclamp : tested.access i =
        some ({ tested with count := tested.max }.goto i .releasePop) := by
      have hpc : tested.pc i = .releaseClamp := update_self ..
      rw [access, hpc]
    exact ⟨_, .head hload (.head hadd (.head hstore (.head htest (.head hclamp (.refl i _))))),
      update_self .., (min_eq_right hover.le).symm, rfl, rfl, rfl⟩
  · have htest : stored.access i = some (stored.goto i .releasePop) := by
      rw [access, hstored]
      exact congrArg (fun pc ↦ some (stored.goto i pc)) (if_neg hover)
    exact ⟨_, .head hload (.head hadd (.head hstore (.head htest (.refl i _)))),
      update_self .., (min_eq_left (not_lt.mp hover)).symm, rfl, rfl, rfl⟩

theorem released_spec (hfree : s.spinlock = none) (n : ℕ) :
    ∃ t, Released i n s t ∧ t.count = min ((s.count + s.effective n) % wordSize) s.max ∧
      WokenAll s t := by
  let called := s.call i (.release n)
  let locked := { called with spinlock := some i }.goto i (.releaseLoad (s.effective n))
  have hlock : called.access i = some locked := by
    have hpc : called.pc i = .releaseLock (s.effective n) := update_self ..
    rw [access, hpc]
    exact if_pos hfree
  obtain ⟨m, hm, hmpc, hmcount, hmtq, hmrq, hmst⟩ :=
    solo_add (show locked.pc i = .releaseLoad (s.effective n) from update_self ..)
  obtain ⟨r, hr, hrpc, hrcount, hwoken⟩ := solo_wake hmpc
  have hunlock : r.access i = some ({ r with spinlock := none }.goto i .idle) := by
    rw [access, hrpc]
  refine ⟨_,
    ⟨.head hlock (hm.trans (hr.trans (.head hunlock (.refl i _)))), update_self ..⟩,
    hrcount.trans hmcount, hwoken.tqueue, ?_, fun thr ↦ ?_⟩
  · refine hwoken.readyQueue.trans ?_
    rw [hmrq, hmtq]
    rfl
  · refine (hwoken.state thr).trans ?_
    rw [hmtq, hmst]
    rfl

/-- **A release is right as long as the sum fits into a word**: it sets the count, and wakes every
waiter once. -/
theorem semaphoreRelease_iff (hfree : s.spinlock = none) (hcount : s.count ≤ s.max)
    (hmax : s.max < wordSize) (i : T) (n : ℕ) :
    (∃ t, Released i n s t ∧ t.count = min (s.count + min (Max.max n 1) s.max) s.max ∧
        WokenAll s t) ↔
      s.count + min (Max.max n 1) s.max < wordSize := by
  obtain ⟨t, ht, htcount, hwoken⟩ := released_spec (i := i) hfree n
  rw [effective_eq_min] at htcount
  constructor
  · rintro ⟨t', ht', htcount', -⟩
    obtain rfl := ht.1.unique ht.2 ht'.1 ht'.2
    by_contra hover
    -- the sum wraps around to something below the maximum
    have hwrap : (s.count + min (Max.max n 1) s.max) % wordSize =
        s.count + min (Max.max n 1) s.max - wordSize := by
      rw [Nat.mod_eq_sub_mod (by omega), Nat.mod_eq_of_lt (by omega)]
    rw [hwrap] at htcount
    omega
  · intro hfits
    rw [Nat.mod_eq_of_lt hfits] at htcount
    exact ⟨t, ht, htcount, hwoken⟩

def oneWaiting : Semaphore (Fin 2) :=
  { createSemaphore 3 1 with
    tqueue := [1]
    state := Function.update (fun _ ↦ .running) 1 .sleeping }

theorem semaphoreRelease_oneWaiting :
    ∃ t, Released 0 5 oneWaiting t ∧ t.count = 3 ∧ WokenAll oneWaiting t :=
  (semaphoreRelease_iff (s := oneWaiting) rfl (by decide) (by decide) 0 5).mpr (by decide)

/-- **A unit given back to a full ACPI semaphore empties it.** -/
theorem not_semaphoreRelease_full :
    ∃ t, Released 0 1 (createSemaphore 0xFFFFFFFF 0xFFFFFFFF : Semaphore (Fin 2)) t ∧
      t.count = 0 ∧ min (0xFFFFFFFF + min (Max.max 1 1) 0xFFFFFFFF) 0xFFFFFFFF ≠ t.count := by
  obtain ⟨t, ht, htcount, -⟩ := released_spec (i := (0 : Fin 2))
    (s := createSemaphore 0xFFFFFFFF 0xFFFFFFFF) rfl 1
  have hzero : t.count = 0 := htcount.trans (by decide)
  exact ⟨t, ht, hzero, by rw [hzero]; decide⟩

end ForgeOS.Semaphore
