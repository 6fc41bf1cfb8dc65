import ForgeOS.CrossCpu.Handover

/-!
# The interrupt flags across a call

`spinlock_acquire` stores the interrupt flag in the lock, and `spinlock_release` sets the flag to
what is stored, for this lock on another processor.

The main result is `flags_kept_iff`.
-/

namespace ForgeOS.CrossCpu

open Function List Option CrossCpu

variable {C : Type} {m : Machine C} {s t : CrossCpu C}

def flagOf (s : CrossCpu C) (k : ℕ) : Option Bool := s.calls[k]?.map Call.flag

/-- The sender's flag on its way into the lock.  From `interrupts_disable()` on the processor takes
no interrupts. -/
def BaseOk (s : CrossCpu C) (x : Cpu) : Prop :=
  match x.base with
  | .idle => True
  | .get k => s.flagOf k = some (if x.handler = none then x.flag else x.eflags)
  | .disable k w => s.flagOf k = some w
  | .acquire k w | .save k w => s.flagOf k = some w ∧ x.flag = false ∧ x.handler = none
  | .func k | .param k | .ipi k => s.flagOf k = some s.wasints ∧ x.flag = false ∧ x.handler = none

def HandlerOk (s : CrossCpu C) (x : Cpu) : Prop :=
  match x.handler with
  | some (.clear k) | some (.load k) => s.flagOf k = some s.wasints
  | some (.unlock k w) | some (.restore k w) => s.flagOf k = some w
  | some (.ack (some k)) => s.flagOf k = some x.flag
  | _ => True

structure Carries (m : Machine C) (s : CrossCpu C) : Prop where
  owned : ∃ o, Owned m s o
  base : ∀ c, s.BaseOk (s.cpu c)
  handler : ∀ c, s.HandlerOk (s.cpu c)
  waiting : ∀ k, s.Waiting k → s.flagOf k = some s.wasints
  returned : ∀ r ∈ s.returned, r.2 = false
  handled : ∀ y ∈ s.handled, y.after = y.before ∧ s.flagOf y.call = some y.inside

variable {x : Cpu}

theorem BaseOk.congr (h : s.BaseOk x) (hflag : ∀ k b, s.flagOf k = some b → t.flagOf k = some b)
    (hw : x.base.Critical → t.wasints = s.wasints) : t.BaseOk x := by
  unfold BaseOk at h ⊢
  cases hx : x.base with
  | idle => trivial
  | get k =>
    rw [hx] at h
    exact hflag _ _ h
  | disable k w =>
    rw [hx] at h
    exact hflag _ _ h
  | acquire k w | save k w =>
    rw [hx] at h
    exact ⟨hflag _ _ h.1, h.2⟩
  | func k | param k | ipi k =>
    rw [hx] at h hw
    exact ⟨hw trivial ▸ hflag _ _ h.1, h.2⟩

theorem HandlerOk.congr (h : s.HandlerOk x)
    (hflag : ∀ k b, s.flagOf k = some b → t.flagOf k = some b)
    (hw : ∀ y ∈ x.handler, y.Critical → t.wasints = s.wasints) : t.HandlerOk x := by
  unfold HandlerOk at h ⊢
  split at h
  next k hx => exact hw _ hx trivial ▸ hflag _ _ h
  next k hx => exact hw _ hx trivial ▸ hflag _ _ h
  next k w hx => exact hflag _ _ h
  next k w hx => exact hflag _ _ h
  next k hx => exact hflag _ _ h
  next => trivial

theorem BaseOk.of_interrupt {x y : Cpu} (h : s.BaseOk x) (hx : x.flag = true ∨ x.handler ≠ none)
    (hbase : y.base = x.base) (hflag : (if y.handler = none then y.flag else y.eflags) =
      if x.handler = none then x.flag else x.eflags) : s.BaseOk y := by
  unfold BaseOk at h ⊢
  rw [hbase]
  cases hb : x.base with
  | idle => trivial
  | get k =>
    rw [hb] at h
    exact h.trans (congrArg some hflag.symm)
  | disable k w =>
    rw [hb] at h
    exact h
  | acquire k w | save k w | func k | param k | ipi k =>
    rw [hb] at h
    exact hx.elim (fun hset ↦ absurd (hset.symm.trans h.2.1) nofun) (absurd h.2.2)

theorem BaseOk.of_handler {x y : Cpu} (h : s.BaseOk x) (hx : x.handler ≠ none)
    (hy : y.handler ≠ none) (hbase : y.base = x.base := by rfl)
    (heflags : y.eflags = x.eflags := by rfl) : s.BaseOk y :=
  h.of_interrupt (.inr hx) hbase (by rw [if_neg hy, if_neg hx, heflags])

theorem handlerOk_of_none (h : x.handler = none) : s.HandlerOk x := by
  unfold HandlerOk
  rw [h]
  trivial

theorem flagOf_append {k : ℕ} {b : Bool} (h : s.flagOf k = some b) (x : Call) :
    ((s.calls ++ [x])[k]?.map Call.flag) = some b := by
  obtain ⟨y, hy, hb⟩ := map_eq_some_iff.mp h
  rw [getElem?_append_of_some hy, map_some, hb]

variable {c : C}

theorem Carries.base_eq (h : Carries m s) {b : Base} (hb : (s.cpu c).base = b) :
    s.BaseOk { s.cpu c with base := b } := by
  rw [← hb]
  exact h.base c

theorem Carries.handler_eq (h : Carries m s) {y : Handler} (hy : (s.cpu c).handler = some y) :
    s.HandlerOk { s.cpu c with handler := some y } := by
  rw [← hy]
  exact h.handler c

variable [DecidableEq C]

theorem Carries.move (h : Carries m s) (howned : ∃ o, Owned m t o)
    (hcpu : t.cpu = Function.update s.cpu c x)
    (hflag : ∀ k b, s.flagOf k = some b → t.flagOf k = some b)
    (hw : t.wasints = s.wasints ∨ (s.cpu c).base.Critical) (hbase : t.BaseOk x)
    (hhandler : t.HandlerOk x) (hwaiting : ∀ k, t.Waiting k → t.flagOf k = some t.wasints)
    (hreturned : ∀ r ∈ t.returned, r.2 = false)
    (hhandled : ∀ y ∈ t.handled, y.after = y.before ∧ t.flagOf y.call = some y.inside) :
    Carries m t := by
  obtain ⟨o, ho⟩ := h.owned
  refine ⟨howned, ?_, ?_, hwaiting, hreturned, hhandled⟩
  · rw [hcpu]
    refine (forall_update_iff s.cpu fun _ ↦ t.BaseOk).mpr ⟨hbase, fun c' hc ↦ ?_⟩
    refine (h.base c').congr hflag fun hcrit ↦ hw.resolve_right fun hcrit' ↦ ?_
    have heq := (ho.sender c' hcrit).symm.trans (ho.sender c hcrit')
    injection heq with heq
    exact hc heq
  · rw [hcpu]
    refine (forall_update_iff s.cpu fun _ ↦ t.HandlerOk).mpr ⟨hhandler, fun c' _ ↦ ?_⟩
    refine (h.handler c').congr hflag fun y hy hcrit ↦ hw.resolve_right fun hcrit' ↦ ?_
    exact absurd ((ho.receiver c' y hy hcrit).symm.trans (ho.sender c hcrit')) nofun

theorem Carries.pass (h : Carries m s) (howned : ∃ o, Owned m t o)
    (hcpu : t.cpu = Function.update s.cpu c x)
    (hwaiting : x.handler = some .test ∨ x.handler = some .call →
      (s.cpu c).handler = some .test ∨ (s.cpu c).handler = some .call)
    (hbase : s.BaseOk x) (hhandler : s.HandlerOk x) (hcalls : t.calls = s.calls := by rfl)
    (hw : t.wasints = s.wasints := by rfl) (hfunc : t.crosscpuFunc = s.crosscpuFunc := by rfl)
    (hipis : t.ipis = s.ipis := by rfl) (hreturned : t.returned = s.returned := by rfl)
    (hhandled : t.handled = s.handled := by rfl) : Carries m t := by
  have hflag : t.flagOf = s.flagOf := by
    funext k
    rw [flagOf, flagOf, hcalls]
  have hkept : ∀ k b, s.flagOf k = some b → t.flagOf k = some b := fun _ _ hk ↦ hflag ▸ hk
  refine h.move howned hcpu hkept (.inl hw) (hbase.congr hkept fun _ ↦ hw)
    (hhandler.congr hkept fun _ _ _ ↦ hw) (fun k hk ↦ ?_) (hreturned ▸ h.returned) ?_
  · rw [hflag, hw]
    exact h.waiting k (hk.of_update hcpu hfunc hipis hwaiting)
  · rw [hflag, hhandled]
    exact h.handled

theorem Carries.step (h : Carries m s) {l : Label C} (hl : Moves m s l t) : Carries m t := by
  obtain ⟨o, ho⟩ := h.owned
  have howned := ho.step hl
  cases hl with
  | callLocal c cpu hbase hnone hloc =>
    refine h.move (c := c) (x := s.cpu c) howned (update_eq_self c s.cpu).symm
      (fun _ _ hk ↦ flagOf_append hk _) (.inl rfl) ?_ (handlerOk_of_none hnone) ?_ h.returned ?_
    · exact (h.base c).congr (fun _ _ hk ↦ flagOf_append hk _) fun _ ↦ rfl
    · exact fun k hk ↦ flagOf_append (h.waiting k hk) _
    · exact fun y hy ↦ ⟨(h.handled y hy).1, flagOf_append (h.handled y hy).2 _⟩
  | callRemote c cpu hbase hnone hloc =>
    refine h.move howned rfl (fun _ _ hk ↦ flagOf_append hk _)
      (.inl rfl) ?_ (handlerOk_of_none hnone) ?_
      h.returned ?_
    · show ((s.calls ++ [Call.mk cpu (s.cpu c).flag])[s.calls.length]?.map Call.flag) =
        some (if (s.cpu c).handler = none then (s.cpu c).flag else (s.cpu c).eflags)
      rw [if_pos hnone, getElem?_concat_length, map_some]
    · exact fun k hk ↦ flagOf_append (h.waiting k (hk.of_update rfl rfl rfl id)) _
    · exact fun y hy ↦ ⟨(h.handled y hy).1, flagOf_append (h.handled y hy).2 _⟩
  | setFlag c flag hbase hnone =>
    refine h.pass howned rfl id ?_ (handlerOk_of_none hnone)
    unfold BaseOk
    rw [hbase]
    trivial
  | makeLock => exact ⟨howned, h.base, h.handler, h.waiting, h.returned, h.handled⟩
  | deliver c hipi hflag hnone =>
    exact h.move howned rfl (fun _ _ ↦ id) (.inl rfl)
      ((h.base c).of_interrupt (.inl hflag) rfl (by simp [hnone])) trivial
      (fun k hk ↦ h.waiting k ⟨hk.1, .inl (ne_nil_of_mem hipi)⟩) h.returned h.handled
  | get c k hbase hnone =>
    refine h.pass howned rfl id ?_ (handlerOk_of_none hnone)
    have hb : s.flagOf k =
        some (if (s.cpu c).handler = none then (s.cpu c).flag else (s.cpu c).eflags) :=
      h.base_eq hbase
    rwa [if_pos hnone] at hb
  | disable c k w hbase hnone =>
    exact h.pass howned rfl id ⟨h.base_eq hbase, rfl, hnone⟩ (handlerOk_of_none hnone)
  | acquire c k _ hbase hnone | param c k hbase hnone =>
    have hb := h.base_eq hbase
    exact h.pass howned rfl id hb (handlerOk_of_none hnone)
  | save c k w hbase hnone =>
    obtain ⟨o', ho'⟩ := howned
    refine h.move ⟨o', ho'⟩ rfl (fun _ _ ↦ id) (.inr ?_) ?_ (handlerOk_of_none hnone) ?_ h.returned
      h.handled
    · rw [hbase]
      trivial
    · exact h.base_eq hbase
    · intro j hj
      refine absurd hj (ho'.not_waiting_of_sender (c := c) (b := .func k) ?_ trivial j)
      rw [setCpu_self]
  | func c k hbase hnone =>
    obtain ⟨o', ho'⟩ := howned
    refine h.move ⟨o', ho'⟩ rfl (fun _ _ ↦ id) (.inl rfl) ?_ (handlerOk_of_none hnone) ?_ h.returned
      h.handled
    · exact h.base_eq hbase
    · intro j hj
      refine absurd hj (ho'.not_waiting_of_sender (c := c) (b := .param k) ?_ trivial j)
      rw [setCpu_self]
  | ipi c k d hbase hnone hd =>
    have hb : s.flagOf k = some s.wasints ∧ (s.cpu c).flag = false ∧ _ := h.base_eq hbase
    refine h.move howned rfl (fun _ _ ↦ id)
      (.inl rfl) trivial (handlerOk_of_none hnone) ?_ ?_ h.handled
    · intro j hj
      obtain ⟨-, -, -, hsend, -⟩ := ho.sender_eq hbase trivial
      obtain rfl : k = j := some.inj (hsend.1.symm.trans hj.1)
      exact hb.1
    · intro r hr
      rcases mem_append.mp hr with hold | hnew
      · exact h.returned r hold
      · rw [mem_singleton.mp hnew]
        exact hb.2.1
  | test c hh hf =>
    exact h.pass howned rfl (fun _ ↦ .inl hh) ((h.base c).of_handler (hh ▸ nofun) nofun) trivial
  | testNull c hh hf =>
    exact h.pass howned rfl nofun ((h.base c).of_handler (hh ▸ nofun) nofun) trivial
  | call c k hh hf =>
    exact h.pass howned rfl nofun ((h.base c).of_handler (hh ▸ nofun) nofun)
      (h.waiting k ⟨hf, .inr ⟨c, .inr hh⟩⟩)
  | clear c k hh =>
    refine h.move howned rfl (fun _ _ ↦ id) (.inl rfl)
      ((h.base c).of_handler (hh ▸ nofun) nofun) ?_ (fun k hk ↦ absurd hk.1 nofun) h.returned
      h.handled
    exact h.handler_eq hh
  | load c k hh | unlock c k _ hh | restore c k _ hh =>
    have hok := h.handler_eq hh
    exact h.pass howned rfl nofun ((h.base c).of_handler (hh ▸ nofun) nofun) hok
  | ack c k hh =>
    refine h.move howned rfl (fun _ _ ↦ id) (.inl rfl)
      ((h.base c).of_interrupt (.inr (hh ▸ nofun)) rfl (by simp [hh])) trivial
      (fun k hk ↦ h.waiting k (hk.of_update rfl rfl rfl nofun)) h.returned ?_
    intro y hy
    rcases mem_append.mp hy with hold | hnew
    · exact h.handled y hold
    · obtain ⟨j, hj, rfl⟩ := mem_map.mp hnew
      obtain rfl := mem_toList.mp hj
      exact ⟨rfl, h.handler_eq hh⟩

omit [DecidableEq C] in
theorem carries_of_init (h : Init s) : Carries m s := by
  refine ⟨⟨.free, owned_of_init h⟩, ?_, fun c ↦ handlerOk_of_none (h.handler c), ?_, ?_, ?_⟩
  · intro c
    unfold BaseOk
    rw [h.base]
    trivial
  · exact fun k hk ↦ absurd (h.crosscpuFunc.symm.trans hk.1) nofun
  · rw [h.returned]
    exact fun _ hr ↦ absurd hr not_mem_nil
  · rw [h.handled]
    exact fun _ hy ↦ absurd hy not_mem_nil

/-- **The interrupt flags are kept exactly if the sender's interrupts were disabled**: the sender's
across the call, and the receiver's across the handler and across the interrupt. -/
theorem flags_kept_iff {ls : List (Label C)} (hinit : Init s)
    (hrun : Run.exec (step m) s ls = some t) {r : ℕ × Bool} (hr : r ∈ t.returned) {y : Handled}
    (hy : y ∈ t.handled) (hcall : y.call = r.1) {x : Call} (hx : t.calls[r.1]? = some x) :
    (r.2 = x.flag ∧ y.inside = false ∧ y.after = y.before) ↔ x.flag = false := by
  have h : Carries m t := Run.inv_of_exec (P := Carries m)
    (fun _ _ _ h hstep ↦ h.step (moves_of_step hstep)) (carries_of_init hinit) hrun
  have hr := h.returned r hr
  obtain ⟨hafter, hinside⟩ := h.handled y hy
  have hflag : x.flag = y.inside := by
    rw [hcall, flagOf, hx] at hinside
    exact some.inj hinside
  constructor
  · rintro ⟨hsame, -, -⟩
    rw [← hsame, hr]
  · intro hclear
    exact ⟨hr.trans hclear.symm, hflag ▸ hclear, hafter⟩

theorem flags_kept_iff_oneCall :
    Init atRest ∧ ∃ t, Run.exec (step straight) atRest (.setFlag 0 false :: oneCall) = some t ∧
      ∃ r ∈ t.returned, ∃ y ∈ t.handled, y.call = r.1 ∧ ∃ x, t.calls[r.1]? = some x ∧
      x.flag = false ∧
        ((r.2 = x.flag ∧ y.inside = false ∧ y.after = y.before) ↔ x.flag = false) := by
  obtain ⟨t, ht⟩ := isSome_iff_exists.mp
    (show (Run.exec (step straight) atRest (.setFlag 0 false :: oneCall)).isSome by decide)
  have hdone : ∀ t ∈ Run.exec (step straight) atRest (.setFlag 0 false :: oneCall),
      ∃ r ∈ t.returned, ∃ y ∈ t.handled, y.call = r.1 ∧ ∃ x ∈ t.calls[r.1]?, x.flag = false := by
    decide
  obtain ⟨r, hr, y, hy, hcall, x, hx, hflag⟩ := hdone t ht
  exact ⟨init_atRest, t, ht, r, hr, y, hy, hcall, x, hx, hflag,
    flags_kept_iff init_atRest ht hr hy hcall hx⟩

/-- A call made with interrupts enabled returns with interrupts disabled, and the handler enables
them. -/
theorem not_flags_kept_enabled :
    Init atRest ∧ ∃ t, Run.exec (step straight) atRest oneCall = some t ∧
      ∃ r ∈ t.returned, ∃ y ∈ t.handled, y.call = r.1 ∧ ∃ x ∈ t.calls[r.1]?,
        r.2 ≠ x.flag ∧ y.inside = true := by
  obtain ⟨t, ht⟩ := isSome_iff_exists.mp
    (show (Run.exec (step straight) atRest oneCall).isSome by decide)
  have hlost : ∀ t ∈ Run.exec (step straight) atRest oneCall,
      ∃ r ∈ t.returned, ∃ y ∈ t.handled, y.call = r.1 ∧ ∃ x ∈ t.calls[r.1]?,
        r.2 ≠ x.flag ∧ y.inside = true := by
    decide
  exact ⟨init_atRest, t, ht, hlost t ht⟩

end ForgeOS.CrossCpu
