import ForgeOS.Powerman.Model

/-!
# What a request leaves behind

There are four ways out of `powerman_enter`: a callback refuses, the platform cannot prepare for the
new state, it cannot enter it, or the state was entered and left again (`Outcome`).

The main result is `enter_returns`.
-/

namespace ForgeOS.Powerman

open Function List Option

variable {E K : Type} {p : Platform E K}

inductive Accepts (p : Platform E K) (newState : ℤ) : List K → E → E → Prop where
  | nil (e : E) : Accepts p newState [] e e
  | cons {cb : K} {cbs : List K} {e e₁ e₂ : E} (hcb : p.callback cb newState e = (0, e₁))
      (hcbs : Accepts p newState cbs e₁ e₂) : Accepts p newState (cb :: cbs) e e₂

inductive Refuses (p : Platform E K) (newState r : ℤ) : List K → E → E → Prop where
  | here {cb : K} (cbs : List K) {e e₁ : E} (hcb : p.callback cb newState e = (r, e₁)) (hr : r ≠ 0) :
      Refuses p newState r (cb :: cbs) e e₁
  | there {cb : K} {cbs : List K} {e e₁ e₂ : E} (hcb : p.callback cb newState e = (0, e₁))
      (hcbs : Refuses p newState r cbs e₁ e₂) : Refuses p newState r (cb :: cbs) e e₂

def told (p : Platform E K) (state : ℤ) (cbs : List K) (e : E) : E :=
  cbs.foldl (fun e cb ↦ (p.callback cb state e).2) e

variable {cbs : List K} {e₁ e e₂ : E}

theorem Accepts.unique {n : ℤ} (h1 : Accepts p n cbs e e₁)
    (h2 : Accepts p n cbs e e₂) : e₁ = e₂ := by
  induction h1 with
  | nil e =>
    cases h2
    rfl
  | cons hcb _ ih =>
    cases h2 with
    | cons hcb' hcbs' =>
      obtain ⟨-, rfl⟩ := Prod.mk.inj (hcb.symm.trans hcb')
      exact ih hcbs'

variable {n r : ℤ}

theorem Refuses.ne_zero (h : Refuses p n r cbs e e₁) : r ≠ 0 := by
  induction h with
  | here _ _ hr => exact hr
  | there _ _ ih => exact ih

theorem Refuses.not_accepts (h : Refuses p n r cbs e e₁) : ¬ Accepts p n cbs e e₂ := by
  induction h with
  | here cbs hcb hr =>
    rintro (_ | ⟨hcb', -⟩)
    exact hr (Prod.mk.inj (hcb.symm.trans hcb')).1
  | there hcb _ ih =>
    rintro (_ | ⟨hcb', hcbs'⟩)
    obtain ⟨-, rfl⟩ := Prod.mk.inj (hcb.symm.trans hcb')
    exact ih hcbs'

/-- How a request in environment `e` ends: the result, and the environment before the last
notifications. -/
inductive Outcome (p : Platform E K) (newState : ℤ) (cbs : List K) (e : E) : ℤ → E → Prop where
  | refused {r : ℤ} {e₁ : E} (hr : Refuses p newState r cbs e e₁) : Outcome p newState cbs e r e₁
  | notPrepared {e₁ e₂ : E} {r : ℤ} (ha : Accepts p newState cbs e e₁)
      (hp : p.prep newState e₁ = (r, e₂)) (hr : r ≠ 0) : Outcome p newState cbs e (-1) e₂
  | notEntered {e₁ e₂ e₃ : E} {r : ℤ} (ha : Accepts p newState cbs e e₁)
      (hp : p.prep newState e₁ = (0, e₂)) (he : p.enter newState e₂ = (r, e₃)) (hr : r ≠ 0) :
      Outcome p newState cbs e (-1) e₃
  | entered {e₁ e₂ e₃ : E} (ha : Accepts p newState cbs e e₁) (hp : p.prep newState e₁ = (0, e₂))
      (he : p.enter newState e₂ = (0, e₃)) : Outcome p newState cbs e 0 e₃

def Succeeds (p : Platform E K) (newState : ℤ) (cbs : List K) (e : E) : Prop :=
  ∃ e₁ e₂ e₃, Accepts p newState cbs e e₁ ∧ p.prep newState e₁ = (0, e₂) ∧
    p.enter newState e₂ = (0, e₃)

theorem Outcome.eq_zero_iff {e' : E} (h : Outcome p n cbs e r e') : r = 0 ↔ Succeeds p n cbs e := by
  cases h with
  | refused hr =>
    refine ⟨fun h0 ↦ absurd h0 hr.ne_zero, ?_⟩
    rintro ⟨e₁, -, -, ha, -, -⟩
    exact absurd ha hr.not_accepts
  | notPrepared ha hp hr =>
    refine ⟨fun h0 ↦ absurd h0 (by decide), ?_⟩
    rintro ⟨e₁, e₂, -, ha', hp', -⟩
    obtain rfl := ha.unique ha'
    exact absurd (Prod.mk.inj (hp.symm.trans hp')).1 hr
  | notEntered ha hp he hr =>
    refine ⟨fun h0 ↦ absurd h0 (by decide), ?_⟩
    rintro ⟨e₁, e₂, e₃, ha', hp', he'⟩
    obtain rfl := ha.unique ha'
    obtain ⟨-, rfl⟩ := Prod.mk.inj (hp.symm.trans hp')
    exact absurd (Prod.mk.inj (he.symm.trans he')).1 hr
  | entered ha hp he => exact ⟨fun _ ↦ ⟨_, _, _, ha, hp, he⟩, fun _ ↦ rfl⟩

variable [DecidableEq K]

theorem callAll_eq (n : ℤ) (cbs : List K) (s : Powerman E K) :
    ∃ r e last, s.callAll p n cbs = (r, { s with env := e, last := last }) ∧
      (r = 0 ∧ Accepts p n cbs s.env e ∨ Refuses p n r cbs s.env e) := by
  induction cbs generalizing s with
  | nil => exact ⟨0, s.env, s.last, rfl, .inl ⟨rfl, .nil s.env⟩⟩
  | cons cb cbs ih =>
    obtain ⟨r, e, hcb⟩ : ∃ r e, p.callback cb n s.env = (r, e) := ⟨_, _, rfl⟩
    have hcall : s.call p cb n =
        (r, { s with env := e, last := update s.last cb (some n) }) := by
      rw [call, hcb]
    rw [callAll, hcall]
    by_cases hr : r = 0
    · subst hr
      obtain ⟨r', e', last, heq, hor⟩ :=
        ih { s with env := e, last := update s.last cb (some n) }
      refine ⟨r', e', last, ?_, ?_⟩
      · rw [if_neg (not_not.mpr rfl), heq]
      · rcases hor with ⟨h0, ha⟩ | hrf
        · exact .inl ⟨h0, .cons hcb ha⟩
        · exact .inr (.there hcb hrf)
    · exact ⟨r, e, _, if_pos hr, .inr (.here cbs hcb hr)⟩

theorem notify_eq (cbs : List K) (s : Powerman E K) :
    ∃ last, s.notify p cbs = { s with env := told p s.currentState cbs s.env, last := last } ∧
      ∀ cb, last cb = if cb ∈ cbs then some s.currentState else s.last cb := by
  induction cbs generalizing s with
  | nil => exact ⟨s.last, rfl, fun cb ↦ rfl⟩
  | cons cb cbs ih =>
    obtain ⟨last, heq, hlast⟩ := ih (s.call p cb s.currentState).2
    refine ⟨last, heq, ?_⟩
    intro cb'
    rw [hlast cb']
    show (if cb' ∈ cbs then some s.currentState
      else update s.last cb (some s.currentState) cb') = _
    by_cases hmem : cb' ∈ cbs
    · rw [if_pos hmem, if_pos (mem_cons_of_mem _ hmem)]
    · rw [if_neg hmem]
      by_cases heq : cb' = cb
      · rw [heq, update_self, if_pos (mem_cons_self ..)]
      · rw [update_of_ne heq, if_neg]
        simp [heq, hmem]

theorem finish_eq (s : Powerman E K) :
    ∃ last, s.finish p = { s with
        env := told p s.currentState s.powermanCblist s.env, locked := false, last := last } ∧
      ∀ cb ∈ s.powermanCblist, last cb = some s.currentState := by
  obtain ⟨last, heq, hlast⟩ := notify_eq (p := p) s.powermanCblist s
  refine ⟨last, ?_, ?_⟩
  · rw [finish, heq]
  · intro cb hcb
    rw [hlast cb, if_pos hcb]

structure Ready (s : Powerman E K) : Prop where
  currentState : s.currentState = stateWorking
  locked : s.locked = false

variable {s : Powerman E K}

theorem powermanEnter_eq (hs : Ready s) (n : ℤ) :
    ∃ r e last, Outcome p n s.powermanCblist s.env r e ∧
      s.powermanEnter p n =
      some (r, { s with env := e, last := last, locked := true }.finish p) := by
  have hmax : s.currentState ≠ stateMax := by
    rw [hs.currentState]
    decide
  obtain ⟨r, e₁, last, hall, hor⟩ :=
    callAll_eq (p := p) n s.powermanCblist { s with locked := true }
  have hopen : ¬ s.locked = true := by
    rw [hs.locked]
    exact Bool.false_ne_true
  rw [powermanEnter, if_neg hmax, if_neg hopen]
  dsimp only
  rw [hall]
  rcases hor with ⟨rfl, ha⟩ | hrf
  · rw [if_neg (not_not.mpr rfl)]
    obtain ⟨r, e₂, hp⟩ : ∃ r e, p.prep n e₁ = (r, e) := ⟨_, _, rfl⟩
    dsimp only
    rw [hp]
    by_cases hr : r = 0
    · subst hr
      rw [if_neg (not_not.mpr rfl)]
      obtain ⟨r, e₃, he⟩ : ∃ r e, p.enter n e₂ = (r, e) := ⟨_, _, rfl⟩
      dsimp only
      rw [he]
      by_cases hr : r = 0
      · subst hr
        refine ⟨0, e₃, last, .entered ha hp he, ?_⟩
        rw [if_neg (not_not.mpr rfl), ← hs.currentState]
      · exact ⟨-1, e₃, last, .notEntered ha hp he hr, if_pos hr⟩
    · exact ⟨-1, e₂, last, .notPrepared ha hp hr, if_pos hr⟩
  · exact ⟨r, e₁, last, .refused hrf, if_pos hrf.ne_zero⟩

theorem powermanEnter_ready (hs : Ready s) (n : ℤ) :
    ∃ r t, s.powermanEnter p n = some (r, t) ∧ Ready t ∧ t.powermanCblist = s.powermanCblist ∧
      (∀ cb ∈ t.powermanCblist, t.last cb = some t.currentState) ∧
      (r = 0 ↔ Succeeds p n s.powermanCblist s.env) := by
  obtain ⟨r, e, last, hout, heq⟩ := powermanEnter_eq (p := p) hs n
  obtain ⟨last', hfin, hlast⟩ :=
    finish_eq (p := p) { s with env := e, last := last, locked := true }
  rw [hfin] at heq
  exact ⟨r, _, heq, ⟨hs.currentState, rfl⟩, rfl, hlast, hout.eq_zero_iff⟩

theorem Ready.step (hs : Ready s) (op : Op E) :
    ∃ t, s.step p op = some t ∧ Ready t ∧ t.powermanCblist = s.powermanCblist := by
  cases op with
  | enter n =>
    obtain ⟨r, t, heq, ht, hlist, -⟩ := powermanEnter_ready (p := p) hs n
    refine ⟨t, ?_, ht, hlist⟩
    rw [Powerman.step, heq, map_some]
  | other env => exact ⟨_, rfl, ⟨hs.currentState, hs.locked⟩, rfl⟩

theorem exec_ready (hs : Ready s) (ops : List (Op E)) :
    ∃ t, Run.exec (Powerman.step p) s ops = some t ∧ Ready t ∧ t.powermanCblist = s.powermanCblist := by
  refine Run.Always.exec (Run.always_of_guarded
    (P := fun t ↦ Ready t ∧ t.powermanCblist = s.powermanCblist)
    ?_ ⟨hs, rfl⟩ (Run.guarded_true s ops))
  rintro t op ⟨ht, hlist⟩ -
  obtain ⟨u, hu, hready, hlist'⟩ := ht.step (p := p) op
  exact ⟨u, hu, hready, hlist'.trans hlist⟩

/-- **What holds after each request**, for all callbacks and platforms: the system works, as each
callback was last notified, the lock is released, and the result is 0 exactly if all accepted and
succeeded. -/
theorem enter_returns {s : Powerman E K} (hs : Ready s) (ops : List (Op E)) (n : ℤ) :
    ∃ t, Run.exec (Powerman.step p) s ops = some t ∧ t.powermanCblist = s.powermanCblist ∧
      ∃ r u, t.powermanEnter p n = some (r, u) ∧ u.powermanCblist = s.powermanCblist ∧
        (∀ cb ∈ u.powermanCblist, u.last cb = some u.currentState) ∧ u.currentState = stateWorking ∧
        u.locked = false ∧ (r = 0 ↔ Succeeds p n t.powermanCblist t.env) := by
  obtain ⟨t, ht, hready, hlist⟩ := exec_ready (p := p) hs ops
  obtain ⟨r, u, heq, hu, hlist', hlast, hr⟩ := powermanEnter_ready (p := p) hready n
  exact ⟨t, ht, hlist, r, u, heq, hlist'.trans hlist, hlast, hu.currentState, hu.locked, hr⟩

def fussy : Platform Unit Bool :=
  ⟨fun cb n e ↦ (if cb ∧ n = 3 then 7 else 0, e), fun _ e ↦ (0, e), fun _ e ↦ (0, e)⟩

def awake : Powerman Unit Bool := ⟨(), stateWorking, false, [false, true], fun _ ↦ none⟩

theorem enter_returns_fussy :
    Ready awake ∧ ∃ t, Run.exec (Powerman.step fussy) awake [.enter 1] = some t ∧
      t.powermanCblist = awake.powermanCblist ∧
      ∃ r u, t.powermanEnter fussy 3 = some (r, u) ∧ u.powermanCblist = awake.powermanCblist ∧
        (∀ cb ∈ u.powermanCblist, u.last cb = some u.currentState) ∧ u.currentState = stateWorking ∧
        u.locked = false ∧ (r = 0 ↔ Succeeds fussy 3 t.powermanCblist t.env) :=
  ⟨⟨rfl, rfl⟩, enter_returns ⟨rfl, rfl⟩ [.enter 1] 3⟩

end ForgeOS.Powerman
