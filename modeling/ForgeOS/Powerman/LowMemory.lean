import ForgeOS.Powerman.Enter
import Mathlib.Data.UInt

/-!
# The mapping of low memory across a change of the power state

`vmem_powerstate_change` maps the first four megabytes by a large page on the way to a sleep state,
and puts the entry of the page directory back when it is notified of the working state, also if it
has saved nothing.

The main result is `low_kept_iff`.
-/

namespace ForgeOS.Powerman

/-- What `vmem_powerstate_change` works on: entry 0 of the page directory, and its static variable.
-/
structure LowMap where
  pdir0 : UInt32
  persistPdir : UInt32
  deriving DecidableEq

/-- `vmem_powerstate_change`.  The segment tables, which it reloads and copies, are left out.  The
result is always 0. -/
def vmemPowerstateChange (newState : ℤ) (l : LowMap) : LowMap :=
  if newState = stateWorking then
    -- Restore the old 0 - 4 MB page table.
    { l with pdir0 := l.persistPdir }
  else if newState < stateOff then
    -- Map in the first 4 MB with a large page again.
    ⟨0x83, l.pdir0⟩
  else l

variable {E K : Type}

/-- A platform and callbacks, with `vmem_powerstate_change` as a further callback, written `none`.
-/
def withVmem (q : Platform E K) : Platform (E × LowMap) (Option K) where
  callback
    | none, n, e => (0, (e.1, vmemPowerstateChange n e.2))
    | some cb, n, e => ((q.callback cb n e.1).1, ((q.callback cb n e.1).2, e.2))
  prep n e := ((q.prep n e.1).1, ((q.prep n e.1).2, e.2))
  enter n e := ((q.enter n e.1).1, ((q.enter n e.1).2, e.2))

def around (pre post : List K) : List (Option K) := pre.map some ++ none :: post.map some

def Saves (q : Platform E K) (newState : ℤ) (pre : List K) (e : E) : Prop :=
  newState ≠ stateWorking ∧ newState < stateOff ∧ ∃ e₁, Accepts q newState pre e e₁

variable {q : Platform E K} {n : ℤ}

theorem told_others (cbs : List K) (e : E × LowMap) :
    (told (withVmem q) n (cbs.map some) e).2 = e.2 := by
  induction cbs generalizing e with
  | nil => rfl
  | cons cb cbs ih => exact ih _

theorem told_around (pre post : List K) (e : E × LowMap) :
    (told (withVmem q) n (around pre post) e).2 = vmemPowerstateChange n e.2 := by
  rw [around, told, List.foldl_append, List.foldl_cons]
  refine (told_others post _).trans ?_
  show vmemPowerstateChange n (told (withVmem q) n (pre.map some) e).2 = _
  rw [told_others]

variable {e e' : E × LowMap}

theorem Accepts.others {cbs : List K} (h : Accepts (withVmem q) n (cbs.map some) e e') :
    e'.2 = e.2 := by
  induction cbs generalizing e with
  | nil =>
    cases h
    rfl
  | cons cb cbs ih =>
    obtain _ | ⟨hcb, hcbs⟩ := h
    rw [ih hcbs, ← (Prod.mk.inj hcb).2]

variable {r : ℤ}

theorem Refuses.others {cbs : List K} (h : Refuses (withVmem q) n r (cbs.map some) e e') :
    e'.2 = e.2 := by
  induction cbs generalizing e with
  | nil => cases h
  | cons cb cbs ih =>
    cases h with
    | here _ hcb hr => rw [← (Prod.mk.inj hcb).2]
    | there hcb hcbs => rw [ih hcbs, ← (Prod.mk.inj hcb).2]

variable {pre post : List K}

theorem Accepts.around (h : Accepts (withVmem q) n (around pre post) e e') :
    e'.2 = vmemPowerstateChange n e.2 ∧ ∃ e₁, Accepts q n pre e.1 e₁ := by
  induction pre generalizing e with
  | nil =>
    obtain _ | ⟨hcb, hcbs⟩ := h
    obtain ⟨-, rfl⟩ := Prod.mk.inj hcb
    exact ⟨hcbs.others, e.1, .nil e.1⟩
  | cons cb pre ih =>
    obtain _ | ⟨hcb, hcbs⟩ := h
    obtain ⟨h0, rfl⟩ := Prod.mk.inj hcb
    obtain ⟨hlow, e₁, he1⟩ := ih hcbs
    exact ⟨hlow, e₁, .cons (Prod.ext h0 rfl) he1⟩

theorem Refuses.around (h : Refuses (withVmem q) n r (around pre post) e e') :
    (e'.2 = vmemPowerstateChange n e.2 ∧ ∃ e₁, Accepts q n pre e.1 e₁) ∨
      (e'.2 = e.2 ∧ ¬ ∃ e₁, Accepts q n pre e.1 e₁) := by
  induction pre generalizing e with
  | nil =>
    cases h with
    | here _ hcb hr => exact absurd (Prod.mk.inj hcb).1.symm hr
    | there hcb hcbs =>
      obtain ⟨-, rfl⟩ := Prod.mk.inj hcb
      exact .inl ⟨hcbs.others, e.1, .nil e.1⟩
  | cons cb pre ih =>
    cases h with
    | here _ hcb hr =>
      obtain ⟨hr', rfl⟩ := Prod.mk.inj hcb
      refine .inr ⟨rfl, ?_⟩
      rintro ⟨e₁, _ | ⟨hcb', -⟩⟩
      exact hr (hr'.symm.trans (congrArg Prod.fst hcb'))
    | there hcb hcbs =>
      obtain ⟨h0, rfl⟩ := Prod.mk.inj hcb
      rcases ih hcbs with ⟨hlow, e₁, he1⟩ | ⟨hlow, hnot⟩
      · exact .inl ⟨hlow, e₁, .cons (Prod.ext h0 rfl) he1⟩
      · refine .inr ⟨hlow, ?_⟩
        rintro ⟨e₁, _ | ⟨hcb', hcbs'⟩⟩
        refine hnot ⟨e₁, ?_⟩
        rw [hcb']
        exact hcbs'

theorem Outcome.low (h : Outcome (withVmem q) n (Powerman.around pre post) e r e') :
    (e'.2 = vmemPowerstateChange n e.2 ∧ ∃ e₁, Accepts q n pre e.1 e₁) ∨
      (e'.2 = e.2 ∧ ¬ ∃ e₁, Accepts q n pre e.1 e₁) := by
  cases h with
  | refused hr => exact hr.around
  | notPrepared ha hp hr =>
    obtain ⟨hlow, hacc⟩ := ha.around
    exact .inl ⟨(congrArg (fun x ↦ x.2.2) hp).symm.trans hlow, hacc⟩
  | notEntered ha hp he hr =>
    obtain ⟨hlow, hacc⟩ := ha.around
    refine .inl ⟨?_, hacc⟩
    rw [← hlow, ← congrArg (fun x ↦ x.2.2) he]
    exact (congrArg (fun x ↦ x.2.2) hp).symm
  | entered ha hp he =>
    obtain ⟨hlow, hacc⟩ := ha.around
    refine .inl ⟨?_, hacc⟩
    rw [← hlow, ← congrArg (fun x ↦ x.2.2) he]
    exact (congrArg (fun x ↦ x.2.2) hp).symm

theorem Outcome.persistPdir (h : Outcome (withVmem q) n (Powerman.around pre post) e r e') :
    (Saves q n pre e.1 → e'.2.persistPdir = e.2.pdir0) ∧
      (¬ Saves q n pre e.1 → e'.2.persistPdir = e.2.persistPdir) := by
  rcases h.low with ⟨hlow, hacc⟩ | ⟨hlow, hnot⟩
  · rw [hlow, vmemPowerstateChange]
    refine ⟨?_, ?_⟩
    · rintro ⟨hne, hlt, -⟩
      rw [if_neg hne, if_pos hlt]
    · intro hsave
      split
      · rfl
      next hne =>
        rw [if_neg fun hlt ↦ hsave ⟨hne, hlt, hacc⟩]
  · rw [hlow]
    exact ⟨fun hsave ↦ absurd hsave.2.2 hnot, fun _ ↦ rfl⟩

variable [DecidableEq K]

/-- **The mapping of low memory survives a request exactly if** the entry is saved on the way, or
the variable happens to have the same value, whatever the callbacks and the platform do. -/
theorem low_kept_iff {s : Powerman (E × LowMap) (Option K)} (hs : Ready s) {pre post : List K}
    (hlist : s.powermanCblist = around pre post) (ops : List (Op (E × LowMap))) (n : ℤ) :
    ∃ t, Run.exec (Powerman.step (withVmem q)) s ops = some t ∧
      ∃ r u, t.powermanEnter (withVmem q) n = some (r, u) ∧
        (u.env.2.pdir0 = t.env.2.pdir0 ↔
          t.env.2.persistPdir = t.env.2.pdir0 ∨ Saves q n pre t.env.1) := by
  obtain ⟨t, ht, hready, hlist'⟩ := exec_ready (p := withVmem q) hs ops
  obtain ⟨r, e, last, hout, heq⟩ := powermanEnter_eq (p := withVmem q) hready n
  obtain ⟨last', hfin, -⟩ :=
    finish_eq (p := withVmem q) { t with env := e, last := last, locked := true }
  rw [hfin] at heq
  refine ⟨t, ht, r, _, heq, ?_⟩
  rw [hlist'.trans hlist] at hout
  obtain ⟨hsaved, hstale⟩ := hout.persistPdir
  have hpdir : (told (withVmem q) t.currentState t.powermanCblist e).2.pdir0 = e.2.persistPdir := by
    rw [hlist'.trans hlist, told_around, hready.currentState, vmemPowerstateChange, if_pos rfl]
  show (told (withVmem q) t.currentState t.powermanCblist e).2.pdir0 = t.env.2.pdir0 ↔ _
  rw [hpdir]
  by_cases hsave : Saves q n pre t.env.1
  · exact ⟨fun _ ↦ .inr hsave, fun _ ↦ hsaved hsave⟩
  · rw [hstale hsave]
    exact ⟨.inl, fun hor ↦ hor.resolve_right hsave⟩

def stubborn : Platform Unit Unit :=
  ⟨fun _ _ e ↦ (0, e), fun _ e ↦ (0, e), fun n e ↦ (if n = stateOff then -1 else 0, e)⟩

/-- After `init_powerman`, with the callbacks `pre` before that of the page tables. -/
def booted (pre : List Unit) : Powerman (Unit × LowMap) (Option Unit) :=
  ⟨((), ⟨0x1003, 0⟩), stateWorking, false, around pre [], fun _ ↦ none⟩

/-- After a standby the variable has the entry, and switching off in vain does no harm. -/
theorem low_kept_iff_booted :
    Ready (booted [()]) ∧ (booted [()]).powermanCblist = around [()] [] ∧
      ∃ t, Run.exec (Powerman.step (withVmem stubborn)) (booted [()]) [.enter 3] = some t ∧
        ∃ r u, t.powermanEnter (withVmem stubborn) stateOff = some (r, u) ∧
          u.env.2.pdir0 = t.env.2.pdir0 := by
  obtain ⟨t, ht, r, u, hu, hiff⟩ :=
    low_kept_iff (q := stubborn) (s := booted [()]) ⟨rfl, rfl⟩ rfl [.enter 3] stateOff
  refine ⟨⟨rfl, rfl⟩, rfl, t, ht, r, u, hu, hiff.mpr (.inl ?_)⟩
  obtain rfl := Option.some.inj ht
  rfl

/-- Switching off fails as the first request: the mapping is gone. -/
theorem not_low_kept_off :
    Ready (booted []) ∧ (booted []).powermanCblist = around [] [] ∧
      (booted []).env.2.pdir0 = 0x1003 ∧
      ∃ u, (booted []).powermanEnter (withVmem stubborn) stateOff = some (-1, u) ∧
        u.env.2.pdir0 = 0 :=
  ⟨⟨rfl, rfl⟩, rfl, rfl, _, rfl, rfl⟩

end ForgeOS.Powerman
