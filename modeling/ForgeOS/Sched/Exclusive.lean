import ForgeOS.Lib.Agents
import ForgeOS.Sched.Smp

/-!
# A thread is executed by one processor

`reschedule_internal` pushes the current thread on the ready queue first and saves its context last.

The main result is `exclusive_of_guarded`.
-/

namespace ForgeOS.Smp

open Function List Option Cpu

variable {C T : Type}

/-- **No thread is executed twice.**  A processor that is about to restore a context does not
restore that of a thread which is another processor's current thread and is not saved yet, and no
two processors execute one thread. -/
structure Exclusive (s : Smp C T) : Prop where
  restore : ∀ c c' t, (s.cpu c).pc = .restore t → c' ≠ c →
    ¬ ((s.cpu c').current = t ∧ (s.cpu c').live = some t)
  live : ∀ c c' t, (s.cpu c).live = some t → (s.cpu c').live = some t → c = c'

def SavedBeforePop (s : Smp C T) : Label C T → Prop
  | .cpu c => (s.cpu c).pc = .pop → ∀ thr ∈ s.readyQueue.head?, ∀ c' ≠ c, (s.cpu c').live ≠ some thr
  | _ => True

def Pc.held : Pc T → Option T
  | .check thr | .zombiePush thr | .run thr | .setCurrent thr => some thr
  | .save _ new | .restore new => some new
  | _ => none

def Cpu.Owns (p : Cpu T) (t : T) : Prop := t = p.idle ∨ p.live = some t ∨ p.pc.held = some t

def Cpu.Ok (p : Cpu T) (state : T → ThreadState) (queue : List T) : Prop :=
  match p.pc with
  | .out => p.live = some p.current ∧ (p.current ≠ p.idle → state p.current = .running)
  | .start a =>
    p.live = some p.current ∧ (a = .ret → p.current ≠ p.idle → state p.current = .running)
  | .markReady _ => p.live = some p.current ∧ p.current ≠ p.idle ∧ state p.current = .running
  | .push _ =>
    p.live = some p.current ∧ p.current ≠ p.idle ∧ state p.current = .ready ∧ p.current ∉ queue
  | .test a => p.live = some p.current ∧ (a = .ret → p.current ≠ p.idle → p.current ∈ queue)
  | .idleRun a => p.live = some p.current ∧ (a = .runthreadRestore ∨ p.current ≠ p.idle)
  | .idleSet | .pop | .failed => p.live = some p.current
  | .check thr | .run thr => p.live = some p.current ∧ state thr = .ready
  | .zombiePush _ => False
  | .setCurrent thr => p.live = some p.current ∧ state thr = .running
  | .save _ new => p.current = new ∧ (new ≠ p.idle → state new = .running)
  | .restore new => p.current = new ∧ (new ≠ p.idle → state new = .running)

/-! ## The invariant -/

structure Inv (s : Smp C T) : Prop where
  nodup : s.readyQueue.Nodup
  ready : ∀ t ∈ s.readyQueue, s.state t = .ready
  ready_idle : ∀ t ∈ s.readyQueue, ∀ c, t ≠ (s.cpu c).idle
  /-- A thread has at most one owner. -/
  owner : ∀ c c' t, (s.cpu c).Owns t → (s.cpu c').Owns t → c = c'
  /-- A thread popped is no longer queued. -/
  held : ∀ c t, (s.cpu c).pc.held = some t → t ∉ s.readyQueue
  ok : ∀ c, (s.cpu c).Ok s.state s.readyQueue

variable {s : Smp C T} {c c' : C} {t : T}

theorem Inv.exclusive (h : Inv s) : Exclusive s where
  restore c c' t hc hne hc' :=
    hne (h.owner c' c t (.inr (.inl hc'.2)) (.inr (.inr (by simp [hc, Pc.held]))))
  live c c' t hc hc' := h.owner c c' t (.inr (.inl hc)) (.inr (.inl hc'))

theorem Init.inv (h : Init s) : Inv s := by
  have howns : ∀ c t, (s.cpu c).Owns t → t = (s.cpu c).idle := by
    intro c t ht
    simpa [Owns, h.pc, h.live, Pc.held, eq_comm] using ht
  refine ⟨by simp [h.ready], by simp [h.ready], by simp [h.ready], fun c c' t hc hc' ↦ ?_,
    fun c t hc ↦ by simp [h.ready], fun c ↦ ?_⟩
  · exact h.idle c c' ((howns c t hc).symm.trans (howns c' t hc'))
  · simp [Ok, h.pc, h.live, h.current]

variable {p : Cpu T} {queue : List T}

theorem Cpu.Ok.congr {state state' : T → ThreadState} {queue' : List T} (h : p.Ok state queue)
    (heq : ∀ t, p.Owns t → state' t = state t ∧ (t ∈ queue' ↔ t ∈ queue)) : p.Ok state' queue' := by
  have hlive : p.live = some p.current →
      state' p.current = state p.current ∧ (p.current ∈ queue' ↔ p.current ∈ queue) :=
    fun hl ↦ heq _ (.inr (.inl hl))
  have hheld : ∀ t, p.pc.held = some t → state' t = state t := fun t ht ↦ (heq t (.inr (.inr ht))).1
  cases hpc : p.pc with
  | out | start | markReady | push | test | idleRun | idleSet | pop | failed =>
    simp only [Ok, hpc] at h ⊢
    have hl := hlive (by first | exact h.1 | exact h)
    simpa only [hl] using h
  | check thr | run thr | setCurrent thr | save _ thr | restore thr =>
    simp only [Ok, hpc] at h ⊢
    simpa only [hheld thr (by simp [hpc, Pc.held])] using h
  | zombiePush => simp [Ok, hpc] at h

variable {state : T → ThreadState}

theorem Cpu.Ok.awake (h : p.Ok state queue)
    (ht : p.pc.held = some t) (hidle : t ≠ p.idle) : state t = .ready ∨ state t = .running := by
  cases hpc : p.pc with
  | out | start | markReady | push | test | idleRun | idleSet | pop | failed =>
    simp [hpc, Pc.held] at ht
  | zombiePush => simp [Ok, hpc] at h
  | check thr | run thr =>
    obtain rfl : thr = t := by simpa [hpc, Pc.held] using ht
    simp only [Ok, hpc] at h
    exact .inl h.2
  | setCurrent thr =>
    obtain rfl : thr = t := by simpa [hpc, Pc.held] using ht
    simp only [Ok, hpc] at h
    exact .inr h.2
  | save _ thr | restore thr =>
    obtain rfl : thr = t := by simpa [hpc, Pc.held] using ht
    simp only [Ok, hpc] at h
    exact .inr (h.2 hidle)

theorem Inv.not_owns (h : Inv s) (hc : (s.cpu c).Owns t) (hne : c' ≠ c) : ¬ (s.cpu c').Owns t :=
  fun hc' ↦ hne (h.owner c' c t hc' hc)

variable [DecidableEq C] {zombies : List T}

theorem Inv.move (h : Inv s) (hidle : p.idle = (s.cpu c).idle)
    (hown : ∀ t, p.Owns t → ∀ c' ≠ c, ¬ (s.cpu c').Owns t)
    (hframe : ∀ c' ≠ c, ∀ t, (s.cpu c').Owns t →
      state t = s.state t ∧ (t ∈ queue ↔ t ∈ s.readyQueue)) (hnodup : queue.Nodup)
    (hqueue : ∀ t ∈ queue, state t = .ready ∧ ∀ c', t ≠ (s.cpu c').idle)
    (hheld : ∀ t, p.pc.held = some t → t ∉ queue) (hok : p.Ok state queue) :
    Inv ⟨Function.update s.cpu c p, state, queue, zombies⟩ := by
  have hcpu : ∀ c' ≠ c, update s.cpu c p c' = s.cpu c' :=
    fun c' hne ↦ update_of_ne hne _ _
  have howner : UniqueOwner fun c' ↦ (s.cpu c').Owns := h.owner
  have howner' : UniqueOwner fun c' ↦ (update s.cpu c p c').Owns := by
    refine howner.move (i := c) (fun c' hc t ht ↦ ?_) fun t ht ↦ hown t ?_
    · rwa [hcpu c' hc] at ht
    · rwa [update_self] at ht
  refine ⟨hnodup, fun t ht ↦ (hqueue t ht).1, fun t ht c' ↦ ?_, howner', fun c' t ht ↦ ?_,
    fun c' ↦ ?_⟩
  · by_cases hc : c' = c
    · subst hc
      simpa [hidle] using (hqueue t ht).2 c'
    · simpa [hc] using (hqueue t ht).2 c'
  · by_cases hc : c' = c
    · subst hc
      simp only [update_self] at ht
      exact hheld t ht
    · simp only [hcpu _ hc] at ht
      rw [(hframe c' hc t (.inr (.inr ht))).2]
      exact h.held c' t ht
  · by_cases hc : c' = c
    · subst hc
      simpa using hok
    · simp only [hcpu _ hc]
      exact (h.ok c').congr (hframe c' hc)

theorem Inv.move_local (h : Inv s) (hidle : p.idle = (s.cpu c).idle)
    (hown : ∀ t, p.Owns t → (s.cpu c).Owns t) (hheld : ∀ t, p.pc.held = some t → t ∉ s.readyQueue)
    (hok : p.Ok s.state s.readyQueue) : Inv (s.setCpu c p) :=
  h.move hidle (fun t ht _ hne ↦ h.not_owns (hown t ht) hne) (fun _ _ _ _ ↦ ⟨rfl, Iff.rfl⟩) h.nodup
    (fun t ht ↦ ⟨h.ready t ht, h.ready_idle t ht⟩) hheld hok

variable {pc : Pc T}

theorem Inv.goto (h : Inv s) (hpc : pc.held = none)
    (hok : Ok { s.cpu c with pc := pc } s.state s.readyQueue) : Inv (s.goto c pc) := by
  refine h.move_local rfl (fun t ht ↦ ?_) (fun t ht ↦ ?_) hok
  · rcases ht with ht | ht | ht
    · exact .inl ht
    · exact .inr (.inl ht)
    · simp [hpc] at ht
  · simp [hpc] at ht

theorem inv_push (h : Inv s) {a : IdleAction} (hpc : (s.cpu c).pc = .push a) :
    Inv (({ s with readyQueue := s.readyQueue ++ [(s.cpu c).current] } : Smp C T).goto c (.test a)) := by
  have hok := h.ok c
  simp only [Ok, hpc] at hok
  obtain ⟨hlive, hne, hready, hnot⟩ := hok
  have hcur : (s.cpu c).Owns (s.cpu c).current := .inr (.inl hlive)
  refine h.move rfl (fun t ht c' hc' ↦ h.not_owns ?_ hc') (fun c' hc' t ht ↦ ⟨rfl, ?_⟩) ?_
    (fun t ht ↦ ?_) (fun t ht ↦ by simp [Pc.held] at ht) ?_
  · simpa [Owns, hpc, Pc.held] using ht
  · have htc : t ≠ (s.cpu c).current := by
      rintro rfl
      exact hc' (h.owner c' c _ ht hcur)
    simp [htc]
  · exact h.nodup.append (nodup_singleton _) (by simpa using hnot)
  · rcases mem_append.mp ht with ht | ht
    · exact ⟨h.ready t ht, h.ready_idle t ht⟩
    · obtain rfl := mem_singleton.mp ht
      refine ⟨hready, fun c' heq ↦ ?_⟩
      obtain rfl := h.owner c c' _ hcur (.inl heq)
      exact hne heq
  · exact ⟨hlive, fun _ _ ↦ by simp⟩

theorem inv_pop (h : Inv s) (hpc : (s.cpu c).pc = .pop) {rest : List T}
    (hq : s.readyQueue = t :: rest) (hsaved : ∀ c' ≠ c, (s.cpu c').live ≠ some t) :
    Inv (({ s with readyQueue := rest } : Smp C T).goto c (.check t)) := by
  have hok := h.ok c
  simp only [Ok, hpc] at hok
  have ht : t ∈ s.readyQueue := by simp [hq]
  have hnd := h.nodup
  rw [hq, nodup_cons] at hnd
  have hfree : ∀ c' ≠ c, ¬ (s.cpu c').Owns t := by
    rintro c' hc' (hidle | hlive | hheld)
    · exact h.ready_idle t ht c' hidle
    · exact hsaved c' hc' hlive
    · exact h.held c' t hheld ht
  refine h.move rfl (fun u hu c' hc' ↦ ?_) (fun c' hc' u hu ↦ ⟨rfl, ?_⟩) hnd.2
    (fun u hu ↦ ?_) (fun u hu ↦ ?_) ⟨hok, h.ready t ht⟩
  · rcases hu with hu | hu | hu
    · exact h.not_owns (.inl hu) hc'
    · exact h.not_owns (.inr (.inl hu)) hc'
    · obtain rfl : t = u := by simpa [Pc.held] using hu
      exact hfree c' hc'
  · have hut : u ≠ t := by
      rintro rfl
      exact hfree c' hc' hu
    simp [hq, hut]
  · have hu' : u ∈ s.readyQueue := by simp [hq, hu]
    exact ⟨h.ready u hu', h.ready_idle u hu'⟩
  · obtain rfl : t = u := by simpa [Pc.held] using hu
    exact hnd.1

variable [DecidableEq T]

theorem Inv.write (h : Inv s) {st : ThreadState} (ht : (s.cpu c).Owns t)
    (hpc : ∀ u, pc.held = some u → (s.cpu c).pc.held = some u)
    (hqueue : t ∈ s.readyQueue → st = .ready)
    (hok : Ok { s.cpu c with pc := pc } (Function.update s.state t st) s.readyQueue) :
    Inv (({ s with zombieQueue := zombies } : Smp C T).setState t st |>.goto c pc) := by
  refine h.move rfl (fun u hu c' hne ↦ h.not_owns ?_ hne) (fun c' hne u hu ↦ ⟨?_, Iff.rfl⟩) h.nodup
    (fun u hu ↦ ⟨?_, h.ready_idle u hu⟩) (fun u hu ↦ h.held c u (hpc u hu)) hok
  · rcases hu with hu | hu | hu
    · exact .inl hu
    · exact .inr (.inl hu)
    · exact .inr (.inr (hpc u hu))
  · have hut : u ≠ t := by
      rintro rfl
      exact hne (h.owner c' c u hu ht)
    simp [setState, hut]
  · by_cases hut : u = t
    · subst hut
      simpa [setState] using hqueue hu
    · simpa [setState, hut] using h.ready u hu

variable {s' : Smp C T}

theorem inv_cpuStep (h : Inv s) (hsaved : s.SavedBeforePop (.cpu c))
    (hs' : s.cpuStep c = some s') : Inv s' := by
  have hok := h.ok c
  cases hpc : (s.cpu c).pc with
  | out => simp [cpuStep, hpc] at hs'
  | failed => simp [cpuStep, hpc] at hs'
  | zombiePush thr => simp [Ok, hpc] at hok
  | start a =>
    simp only [Ok, hpc] at hok
    simp only [cpuStep, hpc] at hs'
    split at hs'
    · next hc =>
      obtain rfl := some.inj hs'
      exact h.goto rfl ⟨hok.1, hc⟩
    · next hc =>
      obtain rfl := some.inj hs'
      exact h.goto rfl ⟨hok.1, fun ha hne ↦ absurd ⟨hne, hok.2 ha hne⟩ hc⟩
  | markReady a =>
    simp only [Ok, hpc] at hok
    obtain rfl : _ = s' := by simpa only [cpuStep, hpc, some.injEq] using hs'
    refine h.write (.inr (.inl hok.1)) (by simp [Pc.held]) (fun _ ↦ rfl)
      ⟨hok.1, hok.2.1, by simp, fun hmem ↦ ?_⟩
    exact absurd ((h.ready _ hmem).symm.trans hok.2.2) (by simp)
  | push a =>
    obtain rfl : _ = s' := by simpa only [cpuStep, hpc, some.injEq] using hs'
    exact inv_push h hpc
  | test a =>
    simp only [Ok, hpc] at hok
    simp only [cpuStep, hpc] at hs'
    split at hs'
    · obtain rfl := some.inj hs'
      exact h.goto rfl hok.1
    · next hq =>
      rw [not_not] at hq
      split at hs'
      · next hc =>
        obtain rfl := some.inj hs'
        refine h.goto rfl ⟨hok.1, fun hne ↦ ?_⟩
        have hmem := hok.2 (hc.resolve_left fun hcur ↦ hne hcur.1) hne
        simp [hq] at hmem
      · next hc =>
        obtain rfl := some.inj hs'
        refine h.goto rfl ⟨hok.1, ?_⟩
        by_contra hno
        rw [not_or, not_not] at hno
        exact hc (.inl ⟨hno.2, hno.1⟩)
  | idleRun a =>
    simp only [Ok, hpc] at hok
    simp only [cpuStep, hpc, hok.2, if_true, some.injEq] at hs'
    obtain rfl := hs'
    exact h.write (.inl rfl) (by simp [Pc.held]) (fun hmem ↦ absurd rfl (h.ready_idle _ hmem c))
      hok.1
  | idleSet =>
    obtain rfl : _ = s' := by simpa only [cpuStep, hpc, some.injEq] using hs'
    refine h.move_local rfl (fun t ht ↦ ?_) (fun t ht ↦ ?_) ⟨rfl, fun hne ↦ absurd rfl hne⟩
    · rcases ht with ht | ht | ht
      · exact .inl ht
      · exact .inr (.inl ht)
      · exact .inl (by simpa [Pc.held, eq_comm] using ht)
    · obtain rfl : (s.cpu c).idle = t := by simpa [Pc.held] using ht
      exact fun hmem ↦ h.ready_idle _ hmem c rfl
  | pop =>
    simp only [Ok, hpc] at hok
    simp only [cpuStep, hpc] at hs'
    split at hs'
    · obtain rfl := some.inj hs'
      exact h.goto rfl hok
    · next thr rest hq =>
      obtain rfl := some.inj hs'
      exact inv_pop h hpc hq (hsaved hpc thr (by simp [hq]))
  | check thr =>
    simp only [Ok, hpc] at hok
    simp only [cpuStep, hpc, hok.2, some.injEq] at hs'
    obtain rfl := hs'
    have hheld : (s.cpu c).pc.held = some thr := by simp [hpc, Pc.held]
    refine h.move_local rfl (fun t ht ↦ ?_) (fun t ht ↦ ?_) hok
    · simpa [Owns, hpc, Pc.held] using ht
    · exact h.held c t (hheld.trans ht)
  | run thr =>
    simp only [Ok, hpc] at hok
    have hheld : (s.cpu c).pc.held = some thr := by simp [hpc, Pc.held]
    have hnot : thr ∈ s.readyQueue → ThreadState.running = .ready :=
      fun hmem ↦ absurd hmem (h.held c thr hheld)
    simp only [cpuStep, hpc] at hs'
    split at hs'
    · obtain rfl := some.inj hs'
      exact h.write (.inr (.inr hheld)) (by simp [hpc, Pc.held]) hnot ⟨hok.1, by simp⟩
    · next hc =>
      rw [not_not] at hc
      obtain rfl := some.inj hs'
      exact h.write (.inr (.inr hheld)) (by simp [Pc.held]) hnot ⟨hok.1, fun _ ↦ by simp [hc]⟩
  | setCurrent thr =>
    simp only [Ok, hpc] at hok
    obtain rfl : _ = s' := by simpa only [cpuStep, hpc, some.injEq] using hs'
    refine h.move_local rfl (fun t ht ↦ ?_) (fun t ht ↦ ?_) ⟨rfl, fun _ ↦ hok.2⟩
    · simpa [Owns, hpc, Pc.held] using ht
    · exact h.held c t (by simpa [hpc, Pc.held] using ht)
  | save old new =>
    simp only [Ok, hpc] at hok
    obtain rfl : _ = s' := by simpa only [cpuStep, hpc, some.injEq] using hs'
    refine h.move_local rfl (fun t ht ↦ ?_) (fun t ht ↦ ?_) hok
    · rcases ht with ht | ht | ht
      · exact .inl ht
      · simp at ht
      · exact .inr (.inr (by simpa [hpc, Pc.held] using ht))
    · exact h.held c t (by simpa [hpc, Pc.held] using ht)
  | restore new =>
    simp only [Ok, hpc] at hok
    obtain rfl : _ = s' := by simpa only [cpuStep, hpc, some.injEq] using hs'
    refine h.move_local rfl (fun t ht ↦ ?_) (fun t ht ↦ by simp [Pc.held] at ht)
      ⟨by simp [hok.1], fun hne ↦ ?_⟩
    · rcases ht with ht | ht | ht
      · exact .inl ht
      · exact .inr (.inr (by simpa [hpc, Pc.held] using ht))
      · simp [Pc.held] at ht
    · simp only [hok.1] at hne ⊢
      exact hok.2 hne

theorem inv_leave (h : Inv s) (hpc : (s.cpu c).pc = .out) (hne : (s.cpu c).current ≠ (s.cpu c).idle)
    (st : ThreadState) (zombies : List T) :
    Inv (({ s with zombieQueue := zombies } : Smp C T).setState (s.cpu c).current st |>.goto c
      (.start .runthread)) := by
  have hok := h.ok c
  simp only [Ok, hpc] at hok
  refine h.write (.inr (.inl hok.1)) (by simp [Pc.held]) (fun hmem ↦ ?_) ⟨hok.1, by simp⟩
  exact absurd ((h.ready _ hmem).symm.trans (hok.2 hne)) (by simp)

omit [DecidableEq C] in
theorem inv_threadWake (h : Inv s) (hst : s.state t = .sleeping) (hidle : ∀ c, t ≠ (s.cpu c).idle) :
    Inv (({ s with readyQueue := s.readyQueue ++ [t] } : Smp C T).setState t .ready) := by
  have hnot : t ∉ s.readyQueue := fun hmem ↦ absurd ((h.ready t hmem).symm.trans hst) (by simp)
  have hother : ∀ u, s.state u ≠ .sleeping → update s.state t .ready u = s.state u := by
    intro u hu
    have hut : u ≠ t := by
      rintro rfl
      exact hu hst
    exact update_of_ne hut _ _
  refine ⟨?_, fun u hu ↦ ?_, fun u hu c ↦ ?_, h.owner, fun c u hc ↦ ?_, fun c ↦ ?_⟩
  · exact h.nodup.append (nodup_singleton _) (by simpa using hnot)
  · rcases mem_append.mp hu with hu | hu
    · have hr := h.ready u hu
      exact (hother u (by simp [hr])).trans hr
    · simp [setState, mem_singleton.mp hu]
  · rcases mem_append.mp hu with hu | hu
    · exact h.ready_idle u hu c
    · obtain rfl := mem_singleton.mp hu
      exact hidle c
  · have hut : u ≠ t := by
      rintro rfl
      rcases (h.ok c).awake hc (hidle c) with hawake | hawake
      · exact absurd (hst.symm.trans hawake) (by simp)
      · exact absurd (hst.symm.trans hawake) (by simp)
    have hmem : u ∉ s.readyQueue := h.held c u hc
    simp [setState, hut, hmem]
  · have hok := h.ok c
    have hcur := hother (s.cpu c).current
    have hmem : t = (s.cpu c).current → s.state (s.cpu c).current = .sleeping := by
      rintro rfl
      exact hst
    show (s.cpu c).Ok (update s.state t .ready) (s.readyQueue ++ [t])
    cases hpc : (s.cpu c).pc with
    | zombiePush => simp [Ok, hpc] at hok
    | out | start | markReady | push | test =>
      simp only [Ok, hpc] at hok ⊢
      grind
    | idleRun | idleSet | pop | failed => simpa only [Ok, hpc] using hok
    | check thr | run thr | setCurrent thr | save _ thr | restore thr =>
      have hthr := hother thr
      simp only [Ok, hpc] at hok ⊢
      grind

/-! ## Whole runs -/

theorem inv_step {l : Label C T} (h : Inv s) (hl : s.Allowed l)
    (hsaved : s.SavedBeforePop l) (hs' : s.step l = some s') : Inv s' := by
  cases l with
  | cpu c => exact inv_cpuStep h hsaved hs'
  | threadWake t =>
    obtain rfl := some.inj hs'
    exact inv_threadWake h hl.1 hl.2
  | call c a =>
    simp only [step, ite_none_right_eq_some, some.injEq] at hs'
    obtain ⟨hpc, rfl⟩ := hs'
    have hok := h.ok c
    simp only [Ok, hpc] at hok
    exact h.goto rfl ⟨hok.1, fun _ ↦ hok.2⟩
  | threadSleep c =>
    simp only [step, ite_none_right_eq_some, some.injEq] at hs'
    obtain ⟨hpc, rfl⟩ := hs'
    exact inv_leave h hpc hl .sleeping s.zombieQueue
  | threadKill c =>
    simp only [step, ite_none_right_eq_some, some.injEq] at hs'
    obtain ⟨hpc, rfl⟩ := hs'
    exact inv_leave h hpc hl .zombie (s.zombieQueue ++ [(s.cpu c).current])

/-- **A thread is executed by at most one processor** in every run in which no processor pops a
thread that another one still has to save. -/
theorem exclusive_of_guarded (s : Smp C T) (hs : Init s) (ls : List (Label C T))
    (hls : Run.Guarded step (fun s l ↦ s.Allowed l ∧ s.SavedBeforePop l) s ls) :
    ∀ t ∈ Run.exec step s ls, Exclusive t :=
  fun _ ht ↦ (Run.inv_of_guarded (fun _ _ _ h hl hs' ↦ inv_step h hl.1 hl.2 hs') hs.inv hls
    ht).exclusive

instance SavedBeforePop.decidable [Fintype C] (s : Smp C T) : ∀ l, Decidable (s.SavedBeforePop l)
  | .cpu c => inferInstanceAs (Decidable ((s.cpu c).pc = .pop → ∀ thr ∈ s.readyQueue.head?,
      ∀ c' ≠ c, (s.cpu c').live ≠ some thr))
  | .call _ _ | .threadSleep _ | .threadKill _ | .threadWake _ => isTrue trivial

def stolen : List (Label (Fin 2) ℕ) :=
  runTwo ++ .call 0 .ret :: List.replicate 3 (.cpu 0) ++ .call 1 .runthread :: List.replicate 8 (.cpu 1)

/-- **A thread is executed by two processors**: one restores it before the other one has saved
it. -/
theorem not_exclusive_stolen :
    Init boot ∧ Run.Guarded step Allowed boot stolen ∧
      ∃ t, Run.exec step boot stolen = some t ∧ (t.cpu 0).current = 2 ∧ (t.cpu 0).live = some 2 ∧
        (t.cpu 1).live = some 2 ∧ ¬ Exclusive t := by
  refine ⟨boot_init, by decide, ?_⟩
  have hrun : (Run.exec step boot stolen).map
      (fun t ↦ ((t.cpu 0).current, (t.cpu 0).live, (t.cpu 1).live)) = some (2, some 2, some 2) := by
    decide
  obtain ⟨t, ht, heq⟩ := map_eq_some_iff.mp hrun
  rw [Prod.mk.injEq, Prod.mk.injEq] at heq
  refine ⟨t, ht, heq.1, heq.2.1, heq.2.2, fun h ↦ ?_⟩
  exact absurd (h.live 0 1 2 heq.2.1 heq.2.2) (by decide)

def migrated : List (Label (Fin 2) ℕ) :=
  runTwo ++ .threadSleep 0 :: List.replicate 6 (.cpu 0) ++ .threadWake 2 :: .call 1 .runthread ::
    List.replicate 8 (.cpu 1)

theorem exclusive_migrated :
    Init boot ∧ Run.Guarded step (fun s l ↦ s.Allowed l ∧ s.SavedBeforePop l) boot migrated ∧
      (Run.exec step boot migrated).map (fun t ↦ ((t.cpu 0).live, (t.cpu 1).live)) =
        some (some 0, some 2) ∧
      ∀ t ∈ Run.exec step boot migrated, Exclusive t := by
  have hg : Run.Guarded step (fun s l ↦ s.Allowed l ∧ s.SavedBeforePop l) boot migrated := by decide
  exact ⟨boot_init, hg, by decide, exclusive_of_guarded boot boot_init migrated hg⟩

end ForgeOS.Smp
