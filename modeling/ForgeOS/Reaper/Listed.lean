import ForgeOS.Reaper.Model

/-!
# What is left of a thread that is reaped

`create_thread` puts a thread into the `thread_list` of its process, and there is no code that takes
one out.

The main result is `not_released_of_free`.
-/

namespace ForgeOS.Reaper

open Function List Option

variable {C T P : Type}

/-- **Nothing refers to the thread.** -/
structure Released (s : Reaper C T P) (t : T) (p : P) : Prop where
  current : ∀ c, s.current c ≠ t
  ready : t ∉ s.smp.readyQueue
  zombie : t ∉ s.smp.zombieQueue
  unlisted : ∀ i, (s.threadList p).listAt i ≠ some (some t)

variable {s s' : Reaper C T P} {t : T} {p : P}

theorem Listed.congr (h : s.Listed) (hlist : s'.threadList = s.threadList)
    (hparent : ∀ t p, s'.parent t = some p → s.parent t = some p) : s'.Listed := by
  intro p
  obtain ⟨es, hes, hmem⟩ := h p
  refine ⟨es, ?_, fun t ht ↦ hmem t (hparent t p ht)⟩
  rw [hlist]
  exact hes

theorem Listed.listAt (h : s.Listed) (ht : s.parent t = some p) :
    ∃ i, (s.threadList p).listAt i = some (some t) := by
  obtain ⟨es, hes, hmem⟩ := h p
  obtain ⟨e, he, rfl⟩ := mem_map.mp (hmem t ht)
  obtain ⟨i, hi⟩ := mem_iff_getElem?.mp he
  exact ⟨i, by rw [hes.listAt, hi, map_some]⟩

variable [DecidableEq C] [DecidableEq T] [DecidableEq P]

omit [DecidableEq C] in
theorem Listed.createThread (h : s.Listed) {a : Ptr} {junk : LList.Node T}
    (ha : s.Allowed (.createThread t p a junk)) (hs' : s.createThread t p a junk = some s') :
    s'.Listed := by
  obtain ⟨ha0, ha⟩ := ha
  rw [isNone_iff_eq_none] at ha
  simp only [Reaper.createThread, ite_none_right_eq_some, map_eq_some_iff] at hs'
  obtain ⟨-, l, hl, rfl⟩ := hs'
  intro q
  obtain ⟨es, hes, hmem⟩ := h q
  by_cases hq : q = p
  · subst hq
    obtain ⟨l', hl', hfront⟩ := hes.insert ha0 ha junk t
    obtain rfl : l' = l := some.inj (hl'.symm.trans hl)
    refine ⟨(a, t) :: es, ?_, fun u hu ↦ ?_⟩
    · show (update s.threadList q l' q).Front _
      rw [update_self]
      exact hfront
    · rw [map_cons, mem_cons]
      by_cases hut : u = t
      · exact .inl hut
      · exact .inr (hmem u (by simpa [hut] using hu))
  · refine ⟨es, ?_, fun u hu ↦ hmem u ?_⟩
    · show (update s.threadList p l q).Front _
      rw [update_of_ne hq]
      exact hes
    · by_cases hut : u = t
      · subst hut
        exact absurd (by simpa using hu.symm) hq
      · simpa [hut] using hu

omit [DecidableEq P] in
theorem Listed.zombieReaper (h : s.Listed) {c : C} (hs' : s.zombieReaper c = some s') :
    s'.Listed := by
  rw [Reaper.zombieReaper] at hs'
  split at hs'
  · cases hs'
  · split at hs' <;>
    · obtain rfl := some.inj hs'
      exact h
  · split at hs'
    · cases hs'
    · obtain rfl := some.inj hs'
      exact h
  · split at hs'
    · cases hs'
    next thr _ _ =>
      obtain rfl := some.inj hs'
      refine h.congr rfl fun t p ht ↦ ?_
      by_cases hthr : t = thr
      · simp [goto, hthr] at ht
      · simpa [goto, hthr] using ht

theorem Listed.step (h : s.Listed) {l : Label C T P} (hl : s.Allowed l) (hs' : s.step l = some s') :
    s'.Listed := by
  cases l with
  | createThread t p a junk => exact h.createThread hl hs'
  | reaper c => exact h.zombieReaper hs'
  | sched l =>
    simp only [Reaper.step, ite_none_right_eq_some, map_eq_some_iff] at hs'
    obtain ⟨-, m, -, rfl⟩ := hs'
    exact h
  | kill c | push c | timer c =>
    simp only [Reaper.step, ite_none_right_eq_some] at hs'
    obtain ⟨-, hs'⟩ := hs'
    obtain rfl := some.inj hs'
    exact h

theorem listed_of_guarded {s₀ : Reaper C T P} (h₀ : Init s₀) {ls : List (Label C T P)}
    (hls : Run.Guarded step Allowed s₀ ls) : ∀ s ∈ Run.exec step s₀ ls, s.Listed :=
  fun _ hs ↦ Run.inv_of_guarded (fun _ _ _ h hl hs' ↦ h.step hl hs') h₀.listed hls hs

/-- **A thread that is reaped is still in its process's list** when it is freed, in every run. -/
theorem not_released_of_free (s₀ : Reaper C T P) (h₀ : Init s₀) (ls : List (Label C T P))
    (hls : Run.Guarded step Allowed s₀ ls) :
    ∀ s ∈ Run.exec step s₀ ls, ∀ c t p, s.irq c = .free t → s.parent t = some p →
      ¬ s.Released t p := by
  intro s hs c t p _ hp hrel
  obtain ⟨i, hi⟩ := (listed_of_guarded h₀ hls s hs).listAt hp
  exact hrel.unlisted i hi

def buried : List (Label (Fin 2) ℕ Unit) :=
  dying ++ List.replicate 6 (.sched (.cpu 0)) ++ [.timer 1, .reaper 1, .reaper 1]

theorem not_released_of_free_buried :
    Init boot ∧ Run.Guarded step Allowed boot buried ∧
      ∃ s ∈ Run.exec step boot buried, s.irq 1 = .free 2 ∧ s.parent 2 = some () ∧
        s.current 0 = 0 ∧ ¬ s.Released 2 () := by
  have hg : Run.Guarded step Allowed boot buried := by decide
  have hrun : (Run.exec step boot buried).map (fun s ↦ (s.irq 1, s.parent 2, s.current 0)) =
      some (.free 2, some (), 0) := by decide
  obtain ⟨s, hs, heq⟩ := map_eq_some_iff.mp hrun
  rw [Prod.mk.injEq, Prod.mk.injEq] at heq
  obtain ⟨hirq, hparent, hcur⟩ := heq
  exact ⟨boot_init, hg, s, hs, hirq, hparent, hcur,
    not_released_of_free boot boot_init buried hg s hs 1 2 () hirq hparent⟩

/-- Thread 2 has pushed itself on the zombie queue when a timer interrupt comes on its processor. -/
def interrupted : List (Label (Fin 2) ℕ Unit) := dying ++ [.timer 0, .reaper 0, .reaper 0]

/-- **The reaper frees the thread it runs on**, which is in the list of its process. -/
theorem not_released_interrupted :
    Init boot ∧ Run.Guarded step Allowed boot interrupted ∧
      ∃ s ∈ Run.exec step boot interrupted, s.irq 0 = .free 2 ∧ s.parent 2 = some () ∧
        s.current 0 = 2 ∧ (s.threadList ()).listAt 0 = some (some 2) ∧ ¬ s.Released 2 () := by
  have hg : Run.Guarded step Allowed boot interrupted := by decide
  have hrun : (Run.exec step boot interrupted).map
      (fun s ↦ (s.irq 0, s.parent 2, s.current 0, (s.threadList ()).listAt 0)) =
      some (.free 2, some (), 2, some (some 2)) := by decide
  obtain ⟨s, hs, heq⟩ := map_eq_some_iff.mp hrun
  rw [Prod.mk.injEq, Prod.mk.injEq, Prod.mk.injEq] at heq
  obtain ⟨hirq, hparent, hcur, hat⟩ := heq
  exact ⟨boot_init, hg, s, hs, hirq, hparent, hcur, hat, fun hrel ↦ hrel.current 0 hcur⟩

end ForgeOS.Reaper
