import ForgeOS.Spinlock.Model

/-!
# Nested spin locks and the interrupt flag

The outermost lock has saved the flag from before, and every other lock that is held has saved
"off".

The main result is `always_flag_of_nested`.
-/

namespace ForgeOS.Spinlock

open Function List

variable {s : Spinlock} {f : Bool} {lock : Ptr → Lock} {l : Ptr} {ls : List Ptr}

/-- The calls are well nested and the locks uncontended. -/
def Nested (s : Spinlock) : Label → Prop
  | .acquire l => s.pc = .out ∧ (l ≠ 0 → (s.lock l).locked = 0)
  | .release l => s.pc = .out ∧ (l ≠ 0 → s.held.head? = some l)
  | .access => s.pc ≠ .out
  | .other l _ => l ∉ s.held ∧ s.pc.lock? ≠ some l

instance Nested.decidable (s : Spinlock) : ∀ i, Decidable (Nested s i)
  | .acquire _ | .release _ => inferInstanceAs (Decidable (_ ∧ (_ → _)))
  | .access => inferInstanceAs (Decidable (¬ _))
  | .other _ _ => inferInstanceAs (Decidable (_ ∧ _))

def flagIn (f : Bool) : List Ptr → Bool
  | [] => f
  | _ :: _ => false

def Kept (f : Bool) (lock : Ptr → Lock) : List Ptr → Prop
  | [] => True
  | l :: ls => l ∉ ls ∧ lock l = ⟨1, flagIn f ls⟩ ∧ Kept f lock ls

theorem flagIn_of_ne_nil (h : ls ≠ []) : flagIn f ls = false := by
  cases ls with
  | nil => exact absurd rfl h
  | cons l ls => rw [flagIn]

theorem Kept.locked (h : Kept f lock ls) (hl : l ∈ ls) : (lock l).locked = 1 := by
  induction ls with
  | nil => exact absurd hl not_mem_nil
  | cons k ls ih =>
    obtain ⟨-, hk, h⟩ := h
    rcases mem_cons.mp hl with rfl | hl
    · rw [hk]
    · exact ih h hl

theorem Kept.not_mem (h : Kept f lock ls) (hfree : (lock l).locked = 0) : l ∉ ls := by
  intro hl
  rw [h.locked hl] at hfree
  exact absurd hfree (by decide)

theorem Kept.update (h : Kept f lock ls) (hl : l ∉ ls) (x : Lock) :
    Kept f (Function.update lock l x) ls := by
  induction ls with
  | nil => trivial
  | cons k ls ih =>
    obtain ⟨hk, hsaved, h⟩ := h
    rw [mem_cons, not_or] at hl
    refine ⟨hk, ?_, ih h hl.2⟩
    rw [update_of_ne (Ne.symm hl.1), hsaved]

structure Innermost (f : Bool) (s : Spinlock) (l : Ptr) : Prop where
  kept : Kept f s.lock s.held
  head : s.held.head? = some l
  flag : s.flag = false

/-- What holds at each point of the two functions.  Between the compare-and-swap of
`spinlock_acquire` and the move after it the lock is held and has saved nothing yet, and after the
compare-and-swap of `spinlock_release` it is no longer held and the flag is not restored yet. -/
def Inv (f : Bool) (s : Spinlock) : Prop :=
  match s.pc with
  | .out => Kept f s.lock s.held ∧ s.flag = flagIn f s.held
  | .disable l wasints =>
    Kept f s.lock s.held ∧ (s.lock l).locked = 0 ∧ wasints = flagIn f s.held ∧
      s.flag = flagIn f s.held
  | .acquire l wasints =>
    Kept f s.lock s.held ∧ (s.lock l).locked = 0 ∧ wasints = flagIn f s.held ∧ s.flag = false
  | .save l wasints =>
    ∃ ls, s.held = l :: ls ∧ l ∉ ls ∧ Kept f s.lock ls ∧ (s.lock l).locked = 1 ∧
      wasints = flagIn f ls ∧ s.flag = false
  | .assertAcquired l | .assertLocked l | .load l => Innermost f s l
  | .check l wasints => Innermost f s l ∧ wasints = false
  | .release l wasints => Innermost f s l ∧ wasints = flagIn f s.held.tail
  | .restore wasints => Kept f s.lock s.held ∧ wasints = flagIn f s.held ∧ s.flag = false

theorem Innermost.eq_cons (h : Innermost f s l) : s.held = l :: s.held.tail := by
  obtain ⟨ls, hls⟩ := head?_eq_some_iff.mp h.head
  rw [hls, tail_cons]

theorem Innermost.lock_eq (h : Innermost f s l) : s.lock l = ⟨1, flagIn f s.held.tail⟩ := by
  have hkept := h.kept
  rw [h.eq_cons] at hkept
  exact hkept.2.1

theorem Innermost.assert (h : Innermost f s l) (pc : Pc) :
    s.assert l pc = some { s with pc := pc } := by
  rw [Spinlock.assert, h.lock_eq, if_neg (show ¬ (1 : UInt32) = 0 by decide)]

theorem Inv.access (h : Inv f s) (hpc : s.pc ≠ .out) : ∃ t ∈ s.access, Inv f t := by
  unfold Inv at h
  unfold Spinlock.access
  split at h <;> rename_i heq
  · exact absurd heq hpc
  · rw [heq]
    exact ⟨_, rfl, h.1, h.2.1, h.2.2.1, rfl⟩
  · -- the lock is free, so that the compare-and-swap succeeds
    rename_i l wasints
    obtain ⟨hkept, hfree, hwas, hflag⟩ := h
    have hl := hkept.not_mem hfree
    rw [heq]
    simp only [if_pos hfree]
    refine ⟨_, rfl, s.held, rfl, hl, hkept.update hl _, ?_, hwas, hflag⟩
    simp only [update_self]
  · rename_i l wasints
    obtain ⟨ls, hheld, hl, hkept, hlocked, hwas, hflag⟩ := h
    rw [heq]
    refine ⟨_, rfl, ?_, ?_, hflag⟩
    · simp only [hheld]
      refine ⟨hl, ?_, hkept.update hl _⟩
      rw [update_self, hlocked, hwas]
    · simp only [hheld, head?_cons]
  · -- `assertAcquired`: nothing is left to do, and interrupts are off as a lock is held
    rw [heq]
    refine ⟨_, h.assert _, h.kept, ?_⟩
    rw [h.flag, h.eq_cons, flagIn]
  · rw [heq]
    exact ⟨_, h.assert _, h.kept, h.head, h.flag⟩
  · rw [heq]
    refine ⟨_, rfl, ⟨h.kept, h.head, h.flag⟩, ?_⟩
    simp only [h.lock_eq]
  · rename_i l wasints
    obtain ⟨h, hwas⟩ := h
    rw [heq]
    simp only [hwas, Bool.false_eq_true, false_and, if_false]
    exact ⟨_, rfl, h.kept, h.head, h.flag⟩
  · -- the lock is given up: what is left of the held locks has been kept all along
    rename_i l wasints
    obtain ⟨h, hwas⟩ := h
    have hkept := h.kept
    rw [h.eq_cons] at hkept
    have herase : s.held.erase l = s.held.tail := by
      conv_lhs => rw [h.eq_cons]
      exact erase_cons_head _ _
    rw [heq]
    simp only [h.lock_eq, if_true]
    refine ⟨_, rfl, ?_, ?_, h.flag⟩
    · simp only [herase]
      exact hkept.2.2.update hkept.1 _
    · simp only [herase, hwas]
  · rename_i wasints
    rw [heq]
    exact ⟨_, rfl, h.1, h.2.1⟩

theorem Inv.other (h : Inv f s) (hl : l ∉ s.held) (hpc : s.pc.lock? ≠ some l) (x : Lock) :
    Inv f { s with lock := Function.update s.lock l x } := by
  have hne : ∀ k, s.pc.lock? = some k → update s.lock l x k = s.lock k := by
    intro k hk
    refine update_of_ne ?_ _ _
    rintro rfl
    exact hpc hk
  unfold Inv at h ⊢
  split at h <;> rename_i heq <;> simp only [heq]
  · exact ⟨h.1.update hl x, h.2⟩
  · rw [hne _ (by rw [heq, Pc.lock?])]
    exact ⟨h.1.update hl x, h.2⟩
  · rw [hne _ (by rw [heq, Pc.lock?])]
    exact ⟨h.1.update hl x, h.2⟩
  · rw [hne _ (by rw [heq, Pc.lock?])]
    obtain ⟨ls, hheld, hk, hkept, h⟩ := h
    rw [hheld, mem_cons, not_or] at hl
    exact ⟨ls, hheld, hk, hkept.update hl.2 x, h⟩
  · exact ⟨h.kept.update hl x, h.head, h.flag⟩
  · exact ⟨h.kept.update hl x, h.head, h.flag⟩
  · exact ⟨h.kept.update hl x, h.head, h.flag⟩
  · exact ⟨⟨h.1.kept.update hl x, h.1.head, h.1.flag⟩, h.2⟩
  · exact ⟨⟨h.1.kept.update hl x, h.1.head, h.1.flag⟩, h.2⟩
  · exact ⟨h.1.update hl x, h.2⟩

theorem inv_out (hpc : s.pc = .out) :
    Inv f s ↔ Kept f s.lock s.held ∧ s.flag = flagIn f s.held := by
  rw [Inv, hpc]

theorem Inv.step (h : Inv f s) {i : Label} (hi : Nested s i) : ∃ t ∈ s.step i, Inv f t := by
  cases i with
  | acquire l =>
    obtain ⟨hpc, hfree⟩ := hi
    rw [Spinlock.step, if_pos hpc, spinlockAcquire]
    refine ⟨_, rfl, ?_⟩
    split
    next => exact h
    next hl =>
      obtain ⟨hkept, hflag⟩ := (inv_out hpc).mp h
      exact ⟨hkept, hfree hl, hflag, hflag⟩
  | release l =>
    obtain ⟨hpc, hhead⟩ := hi
    rw [Spinlock.step, if_pos hpc, spinlockRelease]
    refine ⟨_, rfl, ?_⟩
    split
    next => exact h
    next hl =>
      obtain ⟨hkept, hflag⟩ := (inv_out hpc).mp h
      obtain ⟨ls, hls⟩ := head?_eq_some_iff.mp (hhead hl)
      rw [hls, flagIn] at hflag
      exact ⟨⟨hkept, hhead hl, hflag⟩, hflag⟩
  | access => exact h.access hi
  | other l x => exact ⟨_, rfl, h.other hi.1 hi.2 x⟩

theorem Inv.flag_of_held (h : Inv f s) (hheld : s.held ≠ []) : s.flag = false := by
  unfold Inv at h
  split at h
  · rw [h.2, flagIn_of_ne_nil hheld]
  · rw [h.2.2.2, flagIn_of_ne_nil hheld]
  · exact h.2.2.2
  · obtain ⟨ls, -, -, -, -, -, hflag⟩ := h
    exact hflag
  · exact h.flag
  · exact h.flag
  · exact h.flag
  · exact h.1.flag
  · exact h.1.flag
  · exact h.2.2

/-- **Nested locks keep interrupts off and give the flag back.**  A processor takes free locks and
always gives up the one it took last.  Then interrupts are off while a lock is held, and whenever
none is the flag is what it was at the start. -/
theorem always_flag_of_nested (hpc : s.pc = .out) (hheld : s.held = []) {is : List Label}
    (hnested : Run.Guarded step Nested s is) :
    Run.Always step (fun t ↦ (t.held ≠ [] → t.flag = false) ∧
      (t.pc = .out → t.held = [] → t.flag = s.flag)) s is := by
  have hinit : Inv s.flag s := by
    rw [inv_out hpc, hheld]
    exact ⟨trivial, rfl⟩
  refine (Run.always_of_guarded (P := Inv s.flag) (fun t i h hi ↦ h.step hi) hinit hnested).mono ?_
  intro t h
  refine ⟨h.flag_of_held, fun hpc hheld ↦ ?_⟩
  rw [((inv_out hpc).mp h).2, hheld, flagIn]

def idle : Spinlock := ⟨true, 1, fun _ ↦ ⟨0, false⟩, .out, []⟩

def twoLocks : List Label :=
  .acquire 4 :: List.replicate 4 .access ++ .acquire 8 :: List.replicate 4 .access ++
    .release 8 :: List.replicate 5 .access ++ .release 4 :: List.replicate 5 .access

theorem always_flag_twoLocks :
    Run.Guarded step Nested idle twoLocks ∧
      Run.Always step (fun t ↦ (t.held ≠ [] → t.flag = false) ∧
        (t.pc = .out → t.held = [] → t.flag = true)) idle twoLocks ∧
      ∃ t, Run.exec step idle (twoLocks.take 10) = some t ∧ t.held = [8, 4] := by
  have hnested : Run.Guarded step Nested idle twoLocks := by decide
  exact ⟨hnested, always_flag_of_nested rfl rfl hnested, _, rfl, rfl⟩

end ForgeOS.Spinlock
