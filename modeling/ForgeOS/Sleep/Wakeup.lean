import ForgeOS.Sleep.Model

/-!
# When no wake-up is lost

`sleep_ms` makes the record visible to the timer before the thread is in state `SLEEPING`.

The main result is `woken_of_inTime`.
-/

namespace ForgeOS

open Function List Option

namespace Sched

variable {T : Type} {v v' : Sched T}

def Asleep (v : Sched T) (t : T) : Prop := (v.thread t).map Thread.state = some .sleeping

def NobodyDozes (v v' : Sched T) : Prop := ∀ t, v'.Asleep t → v.Asleep t

theorem NobodyDozes.refl (v : Sched T) : v.NobodyDozes v := fun _ ↦ id

theorem NobodyDozes.trans {v'' : Sched T} (h : v.NobodyDozes v') (h' : v'.NobodyDozes v'') :
    v.NobodyDozes v'' :=
  fun t ht ↦ h t (h' t ht)

variable [DecidableEq T]

theorem asleep_setThread {t t' : T} {th : Thread} :
    (v.setThread t th).Asleep t' ↔ if t' = t then th.state = .sleeping else v.Asleep t' := by
  show (update v.thread t (some th) t').map Thread.state = some .sleeping ↔ _
  by_cases h : t' = t
  · rw [h, if_pos rfl, update_self, map_some, some.injEq]
  · rw [if_neg h, update_of_ne h, Asleep]

theorem modify_nobodyDozes {t : T} {f : Thread → Thread} (h : v.modify t f = some v')
    (hf : ∀ th, (f th).state ≠ .sleeping) : v.NobodyDozes v' := by
  obtain ⟨th, -, rfl⟩ := map_eq_some_iff.mp h
  intro t' ht'
  rw [asleep_setThread] at ht'
  split at ht'
  · exact absurd ht' (hf th)
  · exact ht'

theorem requeue_nobodyDozes (h : v.requeue = some v') : v.NobodyDozes v' := by
  rw [requeue] at h
  split at h
  · exact some.inj h ▸ .refl v
  · obtain ⟨cur, -, h⟩ := bind_eq_some_iff.mp h
    split at h
    · obtain ⟨u, hu, h⟩ := bind_eq_some_iff.mp h
      have hdoze : v.NobodyDozes u := modify_nobodyDozes hu fun _ ↦ nofun
      obtain rfl := some.inj h
      exact hdoze
    · exact some.inj h ▸ .refl v

variable {action : IdleAction}

theorem isIdle_nobodyDozes {b : Bool} (h : v.isIdle action = some (b, v')) : v.NobodyDozes v' := by
  rw [isIdle] at h
  split at h
  · obtain ⟨-, rfl⟩ := Prod.mk.inj (some.inj h)
    exact .refl v
  · split at h
    · split at h
      · obtain ⟨u, hu, h⟩ := bind_eq_some_iff.mp h
        have hdoze : v.NobodyDozes u := modify_nobodyDozes hu fun _ ↦ nofun
        split at h
        all_goals
          obtain ⟨-, rfl⟩ := Prod.mk.inj (some.inj h)
          exact hdoze
      · cases h
    · obtain ⟨-, rfl⟩ := Prod.mk.inj (some.inj h)
      exact .refl v

theorem dispatch_nobodyDozes {thr : T} (h : v.dispatch thr = some v') : v.NobodyDozes v' := by
  obtain ⟨u, hu, h⟩ := bind_eq_some_iff.mp h
  have hdoze : v.NobodyDozes u := modify_nobodyDozes hu fun _ ↦ nofun
  split at h
  all_goals
    obtain rfl := some.inj h
    exact hdoze

theorem rescheduleInternal_nobodyDozes {fuel : ℕ} (h : rescheduleInternal fuel action v = some v') :
    v.NobodyDozes v' := by
  induction fuel generalizing action v with
  | zero => cases h
  | succ fuel ih =>
    rw [rescheduleInternal] at h
    obtain ⟨u, hu, h⟩ := bind_eq_some_iff.mp h
    obtain ⟨⟨idle, w⟩, hw, h⟩ := bind_eq_some_iff.mp h
    have hdoze := (requeue_nobodyDozes hu).trans (isIdle_nobodyDozes hw)
    dsimp only at h
    split at h
    · exact some.inj h ▸ hdoze
    · split at h
      · cases h
      next thr rest hq =>
        obtain ⟨th, hth, h⟩ := bind_eq_some_iff.mp h
        split at h
        · have hrun := dispatch_nobodyDozes h
          exact hdoze.trans hrun
        · refine hdoze.trans ?_
          have hrec := ih h
          split at hrec
          all_goals exact hrec

theorem reschedule_nobodyDozes (h : v.reschedule = some v') : v.NobodyDozes v' :=
  rescheduleInternal_nobodyDozes h

theorem threadWake_asleep {t t' : T} (h : v.threadWake t = some v') (ht' : v'.Asleep t') :
    t' ≠ t ∧ v.Asleep t' := by
  obtain ⟨th, -, rfl⟩ := map_eq_some_iff.mp h
  rw [asleep_setThread] at ht'
  split at ht'
  · cases ht'
  next hne => exact ⟨hne, ht'⟩

end Sched

namespace Sleep

variable {C T : Type} {s s' : Sleep C T}

def Asleep (s : Sleep C T) (t : T) : Prop := (s.thread t).map Thread.state = some .sleeping

def Listed (s : Sleep C T) (t : T) : Prop := ∃ tc, (t, tc) ∈ s.tlist

/-- **No wake-up is lost**: a thread in `sleep_ms` in state `SLEEPING` has a record, or is ready and
on the ready queue. -/
def Woken (s : Sleep C T) : Prop :=
  ∀ t, s.pc t ≠ .out → s.Asleep t →
    s.Listed t ∨ t ∈ s.readyQueue ∧ (s.thread t).map Thread.state = some .ready

/-- The condition: the threads whose time is over at a tick are not between the insertion of their
record and the write of their state. -/
def InTime (s : Sleep C T) : Label C T → Prop
  | .tick _ ticks => ∀ e ∈ s.tlist, e.2 ≤ ticks → s.pc e.1 ≠ .install ∧ s.pc e.1 ≠ .sleep
  | _ => True

variable {ticks : ℕ} {l : List (T × ℕ)}

theorem mem_expire_fst {t : T} {tc : ℕ} (h : (t, tc) ∈ l)
    (hle : tc ≤ ticks) : t ∈ (expire ticks l).1 := by
  rw [expire_eq]
  exact mem_map_of_mem (f := Prod.fst) (mem_filter.mpr ⟨h, by simpa using hle⟩)

theorem mem_expire_snd {t : T} {tc : ℕ} (h : (t, tc) ∈ l)
    (hlt : ticks < tc) : (t, tc - ticks) ∈ (expire ticks l).2 := by
  rw [expire_eq]
  exact mem_map_of_mem (f := fun e : T × ℕ ↦ (e.1, e.2 - ticks))
    (mem_filter.mpr ⟨h, by simpa using hlt⟩)

variable [DecidableEq C] [DecidableEq T]

theorem wakeAll_asleep {ts : List T} {v v' : Sched T} (h : wakeAll ts v = some v') {t : T}
    (ht : v'.Asleep t) : t ∉ ts ∧ v.Asleep t := by
  induction ts generalizing v with
  | nil => exact ⟨not_mem_nil, some.inj h ▸ ht⟩
  | cons u ts ih =>
    obtain ⟨w, hw, h⟩ := bind_eq_some_iff.mp h
    obtain ⟨hnot, hasleep⟩ := ih h
    obtain ⟨hne, hasleep⟩ := Sched.threadWake_asleep hw hasleep
    refine ⟨?_, hasleep⟩
    rw [mem_cons, not_or]
    exact ⟨hne, hnot⟩

def Pc.Armed (pc : Pc) : Prop := pc = .install ∨ pc = .sleep

def Pc.Late (pc : Pc) : Prop := pc = .resched ∨ pc = .asleep

structure Ok (s : Sleep C T) (t : T) : Prop where
  early : ∀ ms, s.pc t = .insert ms → ¬ s.Asleep t
  armed : (s.pc t).Armed → ¬ s.Asleep t ∧ s.Listed t
  late : (s.pc t).Late → s.Asleep t → s.Listed t

section

omit [DecidableEq C] [DecidableEq T]

theorem Ok.woken {t : T} (h : Ok s t) (hpc : s.pc t ≠ .out) (hasleep : s.Asleep t) :
    s.Listed t := by
  cases hp : s.pc t with
  | out => exact absurd hp hpc
  | insert ms => exact absurd hasleep (h.early ms hp)
  | install => exact absurd hasleep (h.armed (.inl hp)).1
  | sleep => exact absurd hasleep (h.armed (.inr hp)).1
  | resched => exact h.late (.inl hp) hasleep
  | asleep => exact h.late (.inr hp) hasleep

theorem ok_of_out {t : T} (h : s.pc t = .out) : Ok s t := by
  refine ⟨?_, ?_, ?_⟩
  · intro ms hp
    exact absurd (h.symm.trans hp) nofun
  · rintro (hp | hp) <;> exact absurd (h.symm.trans hp) nofun
  · rintro (hp | hp) <;> exact absurd (h.symm.trans hp) nofun

theorem ok_of_armed {t : T} (hp : (s.pc t).Armed) (h : ¬ s.Asleep t ∧ s.Listed t) : Ok s t := by
  refine ⟨fun _ _ ↦ h.1, fun _ ↦ h, ?_⟩
  rintro hlate
  rcases hp with hp | hp <;> rcases hlate with hp' | hp' <;> exact absurd (hp.symm.trans hp') nofun

theorem ok_of_late {t : T} (hp : (s.pc t).Late) (h : s.Asleep t → s.Listed t) : Ok s t := by
  refine ⟨?_, ?_, fun _ ↦ h⟩
  · intro ms hp'
    rcases hp with hp | hp <;> exact absurd (hp.symm.trans hp') nofun
  · intro harmed
    rcases hp with hp | hp <;> rcases harmed with hp' | hp' <;> exact absurd (hp.symm.trans hp') nofun

theorem Ok.of_same {t : T} (h : Ok s t) (hpc : s'.pc t = s.pc t)
    (hdoze : s.pc t ≠ .out → s'.Asleep t → s.Asleep t)
    (hlisted : (s.pc t).Armed ∨ s'.Asleep t → s.Listed t → s'.Listed t) : Ok s' t := by
  have hout : (s.pc t).Armed ∨ (s.pc t).Late → s.pc t ≠ .out := by
    rintro ((hp | hp) | (hp | hp)) <;> rw [hp] <;> exact nofun
  refine ⟨?_, ?_, ?_⟩
  · intro ms hp hasleep
    rw [hpc] at hp
    exact h.early ms hp (hdoze (by rw [hp]; exact nofun) hasleep)
  · intro hp
    rw [hpc] at hp
    obtain ⟨hawake, hrec⟩ := h.armed hp
    exact ⟨fun hasleep ↦ hawake (hdoze (hout (.inl hp)) hasleep), hlisted (.inl hp) hrec⟩
  · intro hp hasleep
    rw [hpc] at hp
    exact hlisted (.inr hasleep) (h.late hp (hdoze (hout (.inr hp)) hasleep))

end

omit [DecidableEq C] in
theorem goto_pc_of_ne {t t' : T} (pc : Pc) (h : t' ≠ t) : (s.goto t pc).pc t' = s.pc t' :=
  update_of_ne h ..

omit [DecidableEq C] in
theorem goto_pc (t : T) (pc : Pc) : (s.goto t pc).pc t = pc := update_self ..

theorem ok_move {c : C} (h : ∀ t, Ok s t) (hstep : s.move c = some s') (t : T) : Ok s' t := by
  rw [move] at hstep
  split at hstep
  · cases hstep
  next ms hp =>
    obtain rfl := some.inj hstep
    by_cases ht : t = s.current c
    · subst ht
      exact ok_of_armed (.inl (goto_pc _ _)) ⟨(h _).early ms hp, ticksOf ms, mem_cons_self ..⟩
    · refine (h t).of_same (goto_pc_of_ne _ ht) (fun _ ↦ id) ?_
      rintro - ⟨tc, hmem⟩
      exact ⟨tc, mem_cons_of_mem _ hmem⟩
  next hp =>
    obtain rfl := some.inj hstep
    by_cases ht : t = s.current c
    · subst ht
      exact ok_of_armed (.inr (goto_pc _ _)) ((h _).armed (.inl hp))
    · exact (h t).of_same (goto_pc_of_ne _ ht) (fun _ ↦ id) fun _ ↦ id
  next hp =>
    obtain ⟨v, hv, rfl⟩ := map_eq_some_iff.mp hstep
    obtain ⟨th, -, rfl⟩ := map_eq_some_iff.mp hv
    by_cases ht : t = s.current c
    · subst ht
      exact ok_of_late (.inl (goto_pc _ _)) fun _ ↦ ((h _).armed (.inr hp)).2
    · refine (h t).of_same (goto_pc_of_ne _ ht) ?_ fun _ ↦ id
      intro _ hasleep
      have hasleep : ((s.view c).setThread (s.current c) { th with state := .sleeping }).Asleep t :=
          hasleep
      rw [Sched.asleep_setThread, if_neg ht] at hasleep
      exact hasleep
  next hp =>
    obtain ⟨v, hv, rfl⟩ := map_eq_some_iff.mp hstep
    have hdoze := Sched.reschedule_nobodyDozes hv
    by_cases ht : t = s.current c
    · subst ht
      exact ok_of_late (.inr (goto_pc _ _)) fun hasleep ↦ (h _).late (.inl hp) (hdoze _ hasleep)
    · exact (h t).of_same (goto_pc_of_ne _ ht) (fun _ hasleep ↦ hdoze t hasleep) fun _ ↦ id
  next hp =>
    obtain rfl := some.inj hstep
    by_cases ht : t = s.current c
    · subst ht
      exact ok_of_out (goto_pc _ _)
    · exact (h t).of_same (goto_pc_of_ne _ ht) (fun _ ↦ id) fun _ ↦ id

theorem ok_tick {c : C} (h : ∀ t, Ok s t) (hok : InTime s (.tick c ticks))
    (hstep : s.sleepTimerTick c ticks = some s') (t : T) : Ok s' t := by
  obtain ⟨v, hv, rfl⟩ := map_eq_some_iff.mp hstep
  refine (h t).of_same rfl (fun _ hasleep ↦ (wakeAll_asleep hv hasleep).2) ?_
  rintro hor ⟨tc, hmem⟩
  refine ⟨tc - ticks, mem_expire_snd hmem (Nat.lt_of_not_le fun hle ↦ ?_)⟩
  rcases hor with hp | hasleep
  · obtain ⟨hinstall, hsleep⟩ := hok (t, tc) hmem hle
    exact hp.elim hinstall hsleep
  · exact (wakeAll_asleep hv hasleep).1 (mem_expire_fst hmem hle)

theorem ok_sleep {c : C} {v : Sched T} (h : ∀ t, Ok s t) (hpc : s.pc (s.current c) = .out)
    (hv : (s.view c).threadSleep = some v) (t : T) : Ok (s.put c v) t := by
  obtain ⟨u, hu, hv⟩ := bind_eq_some_iff.mp hv
  obtain ⟨th, -, rfl⟩ := map_eq_some_iff.mp hu
  refine (h t).of_same rfl ?_ fun _ ↦ id
  intro hout hasleep
  have ht : t ≠ (s.view c).current := by
    rintro rfl
    exact hout hpc
  have hasleep := Sched.reschedule_nobodyDozes hv t hasleep
  rw [Sched.asleep_setThread, if_neg ht] at hasleep
  exact hasleep

theorem ok_step {l : Label C T} (h : ∀ t, Ok s t) (hok : InTime s l) (hstep : s.step l = some s')
    (t : T) : Ok s' t := by
  cases l with
  | call c ms =>
    rw [step] at hstep
    split at hstep
    next hg =>
      obtain rfl := some.inj hstep
      by_cases ht : t = s.current c
      · subst ht
        refine ⟨fun _ _ ↦ hg.2.2, ?_, ?_⟩
        all_goals
          rw [goto_pc]
          rintro (hp | hp) <;> cases hp
      · exact (h t).of_same (goto_pc_of_ne _ ht) (fun _ ↦ id) fun _ ↦ id
    · cases hstep
  | move c =>
    rw [step] at hstep
    split at hstep
    · cases hstep
    · exact ok_move h hstep t
  | tick c ticks =>
    rw [step] at hstep
    split at hstep
    · exact ok_tick h hok hstep t
    · cases hstep
  | reschedule c =>
    obtain ⟨v, hv, rfl⟩ := map_eq_some_iff.mp hstep
    exact (h t).of_same rfl (fun _ hasleep ↦ Sched.reschedule_nobodyDozes hv t hasleep) fun _ ↦ id
  | wake u =>
    rw [step] at hstep
    split at hstep
    next hout =>
      obtain ⟨th, -, rfl⟩ := map_eq_some_iff.mp hstep
      refine (h t).of_same rfl ?_ fun _ ↦ id
      intro hne hasleep
      have ht : t ≠ u := by
        rintro rfl
        exact hne hout
      have hasleep : (update s.thread u (some { th with state := .ready }) t).map Thread.state =
        some .sleeping := hasleep
      rwa [update_of_ne ht] at hasleep
    · cases hstep
  | sleep c =>
    rw [step] at hstep
    split at hstep
    next hg =>
      obtain ⟨v, hv, rfl⟩ := map_eq_some_iff.mp hstep
      exact ok_sleep h hg.1 hv t
    · cases hstep

/-- **No wake-up is lost in a run in which every tick is in time.** -/
theorem woken_of_inTime {ls : List (Label C T)} (hinit : Init s)
    (hls : Run.Guarded step InTime s ls) (hrun : Run.exec step s ls = some s') : Woken s' := by
  have h : ∀ t, Ok s' t := Run.inv_of_guarded (P := fun s ↦ ∀ t, Ok s t)
    (fun _ _ _ h hok hstep ↦ ok_step h hok hstep) (fun t ↦ ok_of_out (hinit.pc t)) hls hrun
  intro t hpc hasleep
  exact .inl ((h t).woken hpc hasleep)

omit [DecidableEq C] [DecidableEq T] in
instance InTime.decidable (s : Sleep C T) : ∀ l, Decidable (InTime s l)
  | .tick _ _ => inferInstanceAs (Decidable (∀ e ∈ s.tlist, _ → _))
  | .call _ _ | .move _ | .reschedule _ | .wake _ | .sleep _ => isTrue trivial

def alone : Sleep Unit (Fin 2) :=
  ⟨fun _ ↦ some ⟨.running, 0⟩, fun _ ↦ 1, fun _ ↦ 0, [], [], [], true, fun _ ↦ .out, fun _ ↦ false⟩

theorem init_alone : Init alone := ⟨fun _ ↦ rfl, rfl⟩

def halfAsleep : List (Label Unit (Fin 2)) :=
  [.call () 1, .move (), .move (), .move (), .move (), .tick () 500000]

theorem woken_halfAsleep :
    Init alone ∧ Run.Guarded step InTime alone halfAsleep ∧
      ∃ s, Run.exec step alone halfAsleep = some s ∧ s.pc 1 ≠ .out ∧ s.Asleep 1 ∧ Woken s := by
  have hls : Run.Guarded step InTime alone halfAsleep := by decide
  obtain ⟨s, hs⟩ := isSome_iff_exists.mp (show (Run.exec step alone halfAsleep).isSome by decide)
  have hasleep : ∀ s ∈ Run.exec step alone halfAsleep,
      s.pc 1 ≠ .out ∧ (s.thread 1).map Thread.state = some .sleeping := by
    decide
  exact ⟨init_alone, hls, s, hs, (hasleep s hs).1, (hasleep s hs).2,
    woken_of_inTime init_alone hls hs⟩

def lateSleeper : List (Label Unit (Fin 2)) :=
  [.call () 1, .move (), .tick () 1000000, .reschedule (), .move (), .move (), .move ()]

theorem not_woken_late :
    Init alone ∧ ∃ s, Run.exec step alone lateSleeper = some s ∧ ¬ Woken s := by
  obtain ⟨s, hs⟩ := isSome_iff_exists.mp (show (Run.exec step alone lateSleeper).isSome by decide)
  have hlost : ∀ s ∈ Run.exec step alone lateSleeper, s.pc 1 ≠ .out ∧
      (s.thread 1).map Thread.state = some .sleeping ∧ s.tlist = [] ∧ s.readyQueue = [] := by
    decide
  obtain ⟨hpc, hasleep, htlist, hready⟩ := hlost s hs
  refine ⟨init_alone, s, hs, ?_⟩
  intro h
  rcases h 1 hpc hasleep with ⟨tc, hmem⟩ | ⟨hmem, -⟩
  · rw [htlist] at hmem
    exact not_mem_nil hmem
  · rw [hready] at hmem
    exact not_mem_nil hmem

end Sleep
end ForgeOS
