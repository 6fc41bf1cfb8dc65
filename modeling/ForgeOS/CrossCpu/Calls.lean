import ForgeOS.CrossCpu.Handover

/-!
# Which processor calls the function

`multicpu_call` takes the number of a processor, as `multicpu_id` returns it, and `lapic_ipi` takes
it for an APIC id, so the function may be called on another processor, or on none.

The main result is `correct_of_stepOk`.
-/

namespace ForgeOS.CrossCpu

open Function List Option Execution CrossCpu

variable {C : Type} {m : Machine C} {s t : CrossCpu C}

/-- **The functions that have been picked up have been called once, with their own parameters, on
the processors asked for.** -/
structure Correct (m : Machine C) (s : CrossCpu C) : Prop where
  pickedUp : ∀ k ∈ s.pickedUp, (s.log.map func).count k = 1
  once : (s.log.map func).Nodup
  param : ∀ e ∈ s.log, e.param = some e.func
  cpu : ∀ e ∈ s.log, ∃ x, s.calls[e.func]? = some x ∧ m.multicpuId e.cpu = x.cpu

/-- The condition on a call.  If the function is called at once, this is the processor asked for;
otherwise the processor with this APIC id, if there is one, is the one asked for. -/
def StepOk (m : Machine C) (s : CrossCpu C) : Label C → Prop
  | .call c cpu => (s.Local m c cpu → m.multicpuId c = cpu) ∧
      (¬ s.Local m c cpu → ∀ c', m.apicId c' = cpu.toUInt8 → m.multicpuId c' = cpu)
  | _ => True

def Base.call : Base → Option ℕ
  | .idle => none
  | .get k | .disable k _ | .acquire k _ | .save k _ | .func k | .param k | .ipi k => some k

structure Fresh (m : Machine C) (s : CrossCpu C) (k : ℕ) : Prop where
  notCalled : k ∉ s.log.map func
  addressed : ∃ x, s.calls[k]? = some x ∧ ∀ c, m.apicId c = x.cpu.toUInt8 → m.multicpuId c = x.cpu

structure Inv (m : Machine C) (s : CrossCpu C) : Prop where
  owned : ∃ o, Owned m s o
  correct : Correct m s
  base : ∀ c k, (s.cpu c).base.call = some k → Fresh m s k
  unique : ∀ c c' k, (s.cpu c).base.call = some k → (s.cpu c').base.call = some k → c = c'
  waiting : ∀ k, s.Waiting k → Fresh m s k ∧ ∀ c, (s.cpu c).base.call ≠ some k
  called : ∀ c k, (s.cpu c).handler = some (.clear k) → k ∈ s.log.map func

variable {k : ℕ}

theorem Correct.func_lt (h : Correct m s) (hk : k ∈ s.log.map func) : k < s.calls.length := by
  obtain ⟨e, he, rfl⟩ := mem_map.mp hk
  obtain ⟨x, hx, -⟩ := h.cpu e he
  exact (List.getElem?_eq_some_iff.mp hx).1

theorem Fresh.append (h : Fresh m s k) (hlog : t.log = s.log) {x : Call}
    (hcalls : t.calls = s.calls ++ [x]) : Fresh m t k := by
  obtain ⟨y, hy, hadd⟩ := h.addressed
  exact ⟨hlog ▸ h.notCalled, y, hcalls ▸ getElem?_append_of_some hy x, hadd⟩

theorem Fresh.lt (h : Fresh m s k) : k < s.calls.length := by
  obtain ⟨x, hx, -⟩ := h.addressed
  exact (List.getElem?_eq_some_iff.mp hx).1

theorem Fresh.congr (h : Fresh m s k) (hlog : t.log = s.log) (hcalls : t.calls = s.calls) :
    Fresh m t k :=
  ⟨hlog ▸ h.notCalled, hcalls ▸ h.addressed⟩

theorem Correct.congr (h : Correct m s) (hlog : t.log = s.log) (hcalls : t.calls = s.calls)
    (hpicked : ∀ k ∈ t.pickedUp, k ∈ s.pickedUp ∨ k ∈ s.log.map func) : Correct m t := by
  refine ⟨?_, hlog ▸ h.once, hlog ▸ h.param, ?_⟩
  · intro k hk
    rw [hlog]
    rcases hpicked k hk with hold | hnew
    · exact h.pickedUp k hold
    · exact count_eq_one_of_mem h.once hnew
  · rw [hlog, hcalls]
    exact h.cpu

theorem Correct.snoc (h : Correct m s) {e : Execution C} (hnot : e.func ∉ s.log.map func)
    (hparam : e.param = some e.func) (hlog : t.log = s.log ++ [e])
    (hcalls : ∀ (k : ℕ) x, s.calls[k]? = some x → t.calls[k]? = some x)
    (hcpu : ∃ x, t.calls[e.func]? = some x ∧ m.multicpuId e.cpu = x.cpu)
    (hpicked : ∀ k ∈ t.pickedUp, k ∈ s.pickedUp ∨ k = e.func) : Correct m t := by
  have hfunc : t.log.map func = s.log.map func ++ [e.func] := by
    rw [hlog, map_append, map_singleton]
  have honce : (t.log.map func).Nodup := by
    rw [hfunc, nodup_append_comm]
    exact nodup_cons.mpr ⟨hnot, h.once⟩
  refine ⟨?_, honce, ?_, ?_⟩
  · intro k hk
    refine count_eq_one_of_mem honce ?_
    rw [hfunc, mem_append, mem_singleton]
    rcases hpicked k hk with hold | hnew
    · refine .inl (count_pos_iff.mp ?_)
      rw [h.pickedUp k hold]
      exact Nat.one_pos
    · exact .inr hnew
  · intro e' he'
    rw [hlog, mem_append, mem_singleton] at he'
    rcases he' with he' | rfl
    · exact h.param e' he'
    · exact hparam
  · intro e' he'
    rw [hlog, mem_append, mem_singleton] at he'
    rcases he' with he' | rfl
    · obtain ⟨x, hx, hid⟩ := h.cpu e' he'
      exact ⟨x, hcalls _ x hx, hid⟩
    · exact hcpu

variable [DecidableEq C] {c : C} {x : Cpu}

theorem forall_cpu_of_update (P : Cpu → Cpu → Prop) (hcpu : t.cpu = Function.update s.cpu c x)
    (hx : P (s.cpu c) x) (hrefl : ∀ y, P y y) (c' : C) : P (s.cpu c') (t.cpu c') := by
  rw [hcpu]
  exact (forall_update_iff s.cpu fun c' ↦ P (s.cpu c')).mpr ⟨hx, fun _ _ ↦ hrefl _⟩ c'

theorem Inv.aside (h : Inv m s) (howned : ∃ o, Owned m t o)
    (hcpu : t.cpu = Function.update s.cpu c x)
    (hbase : ∀ k, x.base.call = some k → (s.cpu c).base.call = some k)
    (hwaiting : ∀ k, t.Waiting k → s.Waiting k ∨ (s.cpu c).base.call = some k ∧ x.base.call = none)
    (hcalled : ∀ k, x.handler = some (.clear k) → (s.cpu c).handler = some (.clear k))
    (hpicked : ∀ k ∈ t.pickedUp, k ∈ s.pickedUp ∨ k ∈ s.log.map func := by
      exact fun _ ↦ .inl)
    (hlog : t.log = s.log := by rfl) (hcalls : t.calls = s.calls := by rfl) : Inv m t := by
  have hb : ∀ c' k, (t.cpu c').base.call = some k → (s.cpu c').base.call = some k :=
    forall_cpu_of_update (fun y z ↦ ∀ k, z.base.call = some k → y.base.call = some k) hcpu hbase
      fun _ _ ↦ id
  refine ⟨howned, h.correct.congr hlog hcalls hpicked, ?_, ?_, ?_, ?_⟩
  · intro c' k hk
    exact (h.base c' k (hb c' k hk)).congr hlog hcalls
  · intro c1 c2 k h1 h2
    exact h.unique c1 c2 k (hb c1 k h1) (hb c2 k h2)
  · intro k hk
    rcases hwaiting k hk with hw | ⟨hsent, hnone⟩
    · obtain ⟨hfresh, hne⟩ := h.waiting k hw
      exact ⟨hfresh.congr hlog hcalls, fun c' hc' ↦ hne c' (hb c' k hc')⟩
    · -- The interrupt has just been sent, and the processor is no longer making the call.
      refine ⟨(h.base c k hsent).congr hlog hcalls, fun c' hc' ↦ ?_⟩
      obtain rfl := h.unique c' c k (hb c' k hc') hsent
      rw [hcpu, update_self, hnone] at hc'
      cases hc'
  · intro c' k hk
    rw [hlog]
    exact h.called c' k (forall_cpu_of_update (fun y z ↦ ∀ k, z.handler = some (.clear k) →
      y.handler = some (.clear k)) hcpu hcalled (fun _ _ ↦ id) c' k hk)

variable {cpu : UInt32}

omit [DecidableEq C] in
theorem Inv.callLocal (h : Inv m s) (hid : m.multicpuId c = cpu) (howned : ∃ o, Owned m t o)
    (hcpu : t.cpu = s.cpu) (hcalls : t.calls = s.calls ++ [⟨cpu, (s.cpu c).flag⟩])
    (hlog : t.log = s.log ++ [⟨c, s.calls.length, some s.calls.length⟩])
    (hpicked : t.pickedUp = s.pickedUp ++ [s.calls.length])
    (hfunc : t.crosscpuFunc = s.crosscpuFunc) (hipis : t.ipis = s.ipis) : Inv m t := by
  have hnot : s.calls.length ∉ s.log.map func := fun hmem ↦
    absurd (h.correct.func_lt hmem) (Nat.lt_irrefl _)
  have hfresh : ∀ k, Fresh m s k → Fresh m t k := by
    intro k hk
    obtain ⟨x, hx, hadd⟩ := hk.addressed
    have hne : k ≠ s.calls.length := Nat.ne_of_lt hk.lt
    refine ⟨?_, x, hcalls ▸ getElem?_append_of_some hx _, hadd⟩
    rw [hlog, map_append, map_singleton, mem_append, mem_singleton]
    rintro (hmem | heq)
    · exact hk.notCalled hmem
    · exact hne heq
  have hwait : ∀ k, t.Waiting k ↔ s.Waiting k := by
    intro k
    rw [Waiting, Waiting, hfunc, hipis, hcpu]
  refine ⟨howned, ?_, ?_, ?_, ?_, ?_⟩
  · refine h.correct.snoc hnot rfl hlog ?_ ⟨⟨cpu, (s.cpu c).flag⟩, ?_, hid⟩ ?_
    · intro k x hx
      rw [hcalls]
      exact getElem?_append_of_some hx _
    · rw [hcalls]
      exact getElem?_concat_length
    · intro k hk
      rwa [hpicked, mem_append, mem_singleton] at hk
  · intro c' k hk
    rw [hcpu] at hk
    exact hfresh k (h.base c' k hk)
  · rw [hcpu]
    exact h.unique
  · intro k hk
    rw [hcpu]
    obtain ⟨hk, hne⟩ := h.waiting k ((hwait k).mp hk)
    exact ⟨hfresh k hk, hne⟩
  · intro c' k hk
    rw [hcpu] at hk
    rw [hlog, map_append]
    exact mem_append_left _ (h.called c' k hk)

theorem Inv.callRemote (h : Inv m s)
    (hadd : ∀ c', m.apicId c' = cpu.toUInt8 → m.multicpuId c' = cpu) (howned : ∃ o, Owned m t o)
    (hcpu : t.cpu = Function.update s.cpu c { s.cpu c with base := .get s.calls.length })
    (hcalls : t.calls = s.calls ++ [⟨cpu, (s.cpu c).flag⟩]) (hlog : t.log = s.log)
    (hpicked : t.pickedUp = s.pickedUp) (hfunc : t.crosscpuFunc = s.crosscpuFunc)
    (hipis : t.ipis = s.ipis) : Inv m t := by
  have hhandler : ∀ c', (t.cpu c').handler = (s.cpu c').handler :=
    forall_cpu_of_update (fun y z ↦ z.handler = y.handler) hcpu rfl fun _ ↦ rfl
  have hwait : ∀ k, t.Waiting k ↔ s.Waiting k := by
    intro k
    rw [Waiting, Waiting, hfunc, hipis]
    simp only [hhandler]
  -- A processor makes the new call, or a call with a smaller number.
  have hb : ∀ c' k, (t.cpu c').base.call = some k →
      c' = c ∧ k = s.calls.length ∨ c' ≠ c ∧ (s.cpu c').base.call = some k := by
    intro c' k hk
    rw [hcpu] at hk
    by_cases hc : c' = c
    · rw [hc, update_self] at hk
      exact .inl ⟨hc, (some.inj hk).symm⟩
    · rw [update_of_ne hc] at hk
      exact .inr ⟨hc, hk⟩
  refine ⟨howned, ?_, ?_, ?_, ?_, ?_⟩
  · refine ⟨?_, hlog ▸ h.correct.once, hlog ▸ h.correct.param, ?_⟩
    · rw [hpicked, hlog]
      exact h.correct.pickedUp
    · intro e he
      obtain ⟨x, hx, hid⟩ := h.correct.cpu e (hlog ▸ he)
      exact ⟨x, hcalls ▸ getElem?_append_of_some hx _, hid⟩
  · intro c' k hk
    rcases hb c' k hk with ⟨-, rfl⟩ | ⟨-, hold⟩
    · refine ⟨?_, ⟨cpu, (s.cpu c).flag⟩, ?_, hadd⟩
      · rw [hlog]
        exact fun hmem ↦ absurd (h.correct.func_lt hmem) (Nat.lt_irrefl _)
      · rw [hcalls]
        exact getElem?_concat_length
    · exact (h.base c' k hold).append hlog hcalls
  · intro c1 c2 k h1 h2
    rcases hb c1 k h1 with ⟨rfl, hk⟩ | ⟨-, hold1⟩ <;> rcases hb c2 k h2 with ⟨rfl, hk'⟩ | ⟨-, hold2⟩
    · rfl
    · exact absurd (h.base c2 k hold2).lt (by omega)
    · exact absurd (h.base c1 k hold1).lt (by omega)
    · exact h.unique c1 c2 k hold1 hold2
  · intro k hk
    obtain ⟨hfresh, hne⟩ := h.waiting k ((hwait k).mp hk)
    refine ⟨hfresh.append hlog hcalls, fun c' hc' ↦ ?_⟩
    rcases hb c' k hc' with ⟨-, rfl⟩ | ⟨-, hold⟩
    · exact absurd hfresh.lt (Nat.lt_irrefl _)
    · exact hne c' hold
  · intro c' k hk
    rw [hhandler] at hk
    rw [hlog]
    exact h.called c' k hk

theorem Inv.call (h : Inv m s) (hh : (s.cpu c).handler = some .call) (hf : s.crosscpuFunc = some k)
    (howned : ∃ o, Owned m t o) (hcpu : t.cpu = Function.update s.cpu c x)
    (hx : x.base = (s.cpu c).base) (hx' : x.handler = some (.clear k)) (hcalls : t.calls = s.calls)
    (hlog : t.log = s.log ++ [⟨c, k, s.crosscpuParam⟩]) (hpicked : t.pickedUp = s.pickedUp) :
    Inv m t := by
  obtain ⟨o, ho⟩ := h.owned
  obtain ⟨-, -, -, ⟨k', hf', hp, hd⟩, -⟩ := ho.receiver_eq hh trivial
  obtain rfl : k' = k := some.inj (hf'.symm.trans hf)
  obtain ⟨hfresh, hne⟩ := h.waiting k' ⟨hf, .inr ⟨c, .inr hh⟩⟩
  obtain ⟨y, hy, hadd⟩ := hfresh.addressed
  have hdest : m.apicId c = y.cpu.toUInt8 := by
    rw [destProc, hy] at hd
    exact (some.inj hd).symm
  have hbase : ∀ c', (t.cpu c').base = (s.cpu c').base :=
    forall_cpu_of_update (fun y z ↦ z.base = y.base) hcpu hx fun _ ↦ rfl
  have hmem : ∀ j, j ∈ t.log.map func ↔ j ∈ s.log.map func ∨ j = k' := by
    intro j
    rw [hlog, map_append, map_singleton, mem_append, mem_singleton]
  -- Once the function has been called, no call is waiting.
  have hnone : ∀ j, ¬ t.Waiting j := by
    obtain ⟨o', ho'⟩ := howned
    intro j hj
    have hself : (t.cpu c).handler = some (.clear k') := by rw [hcpu, update_self, hx']
    have hor := ho'.handler_of_waiting hself trivial hj
    simp at hor
  refine ⟨howned, ?_, ?_, ?_, fun j hj ↦ absurd hj (hnone j), ?_⟩
  · refine h.correct.snoc hfresh.notCalled hp hlog ?_ ⟨y, hcalls ▸ hy, hadd c hdest⟩ ?_
    · intro j z hz
      rwa [hcalls]
    · intro j hj
      exact .inl (hpicked ▸ hj)
  · intro c' j hj
    rw [hbase] at hj
    have hold := h.base c' j hj
    refine ⟨?_, hcalls ▸ hold.addressed⟩
    rw [hmem]
    rintro (hin | rfl)
    · exact hold.notCalled hin
    · exact hne c' hj
  · intro c1 c2 j
    rw [hbase, hbase]
    exact h.unique c1 c2 j
  · intro c' j hj
    rw [hmem]
    rw [hcpu] at hj
    by_cases hc : c' = c
    · rw [hc, update_self, hx'] at hj
      cases hj
      exact .inr rfl
    · rw [update_of_ne hc] at hj
      exact .inl (h.called c' j hj)

theorem Inv.step (h : Inv m s) {l : Label C} (hok : StepOk m s l) (hl : Moves m s l t) :
    Inv m t := by
  obtain ⟨o, ho⟩ := h.owned
  have howned := ho.step hl
  cases hl with
  | callLocal c cpu hbase hnone hloc =>
    exact h.callLocal (hok.1 hloc) howned rfl rfl rfl rfl rfl rfl
  | callRemote c cpu hbase hnone hloc =>
    exact h.callRemote (hok.2 hloc) howned rfl rfl rfl rfl rfl rfl
  | setFlag c flag hbase hnone =>
    exact h.aside howned rfl (fun _ ↦ id)
      (fun _ hk ↦ .inl (hk.of_update rfl rfl rfl id)) fun _ ↦ id
  | makeLock =>
    refine ⟨howned, h.correct.congr rfl rfl fun _ ↦ .inl, ?_, h.unique, ?_, h.called⟩
    · exact fun c k hk ↦ (h.base c k hk).congr rfl rfl
    · intro k hk
      obtain ⟨hfresh, hne⟩ := h.waiting k hk
      exact ⟨hfresh.congr rfl rfl, hne⟩
  | deliver c hipi hflag hnone =>
    refine h.aside howned rfl (fun _ ↦ id) ?_ nofun
    intro k hk
    exact .inl ⟨hk.1, .inl (ne_nil_of_mem hipi)⟩
  | get c k hbase hnone | disable c k _ hbase hnone | acquire c k _ hbase hnone _
  | save c k _ hbase hnone | param c k hbase hnone =>
    refine h.aside howned rfl ?_ (fun _ hk ↦ .inl (hk.of_update rfl rfl rfl id)) fun _ ↦ id
    rw [hbase]
    exact fun _ ↦ id
  | func c k hbase hnone =>
    refine h.aside howned rfl ?_ ?_ fun _ ↦ id
    · rw [hbase]
      exact fun _ ↦ id
    · obtain ⟨o', ho'⟩ := howned
      intro j hj
      refine absurd hj (ho'.not_waiting_of_sender (c := c) (b := .param k) ?_ trivial j)
      rw [setCpu_self]
  | ipi c k d hbase hnone hd =>
    refine h.aside howned rfl nofun ?_ fun _ ↦ id
    intro j hj
    obtain ⟨-, -, -, hsend, -⟩ := ho.sender_eq hbase trivial
    obtain rfl : k = j := some.inj (hsend.1.symm.trans hj.1)
    rw [hbase]
    exact .inr ⟨rfl, rfl⟩
  | test c hh hf | testNull c hh hf =>
    exact h.aside howned rfl (fun _ ↦ id)
      (fun _ hk ↦ .inl (hk.of_update rfl rfl rfl fun _ ↦ .inl hh)) nofun
  | call c k hh hf => exact h.call hh hf howned rfl rfl rfl rfl rfl rfl
  | clear c k hh =>
    refine h.aside howned rfl (fun _ ↦ id) (fun _ hk ↦ absurd hk.1 nofun) nofun fun j hj ↦ ?_
    rcases mem_append.mp hj with hold | hnew
    · exact .inl hold
    · rw [mem_singleton.mp hnew]
      exact .inr (h.called c k hh)
  | load c k hh hl | unlock c k w hh | restore c k w hh | ack c k hh =>
    exact h.aside howned rfl (fun _ ↦ id)
      (fun _ hk ↦ .inl (hk.of_update rfl rfl rfl nofun)) nofun

omit [DecidableEq C] in
theorem inv_of_init (h : Init s) : Inv m s := by
  refine ⟨⟨.free, owned_of_init h⟩, ⟨?_, ?_, ?_, ?_⟩, ?_, ?_, ?_, ?_⟩
  · rw [h.pickedUp]
    exact fun _ hk ↦ absurd hk not_mem_nil
  · rw [h.log]
    exact nodup_nil
  · rw [h.log]
    exact fun _ he ↦ absurd he not_mem_nil
  · rw [h.log]
    exact fun _ he ↦ absurd he not_mem_nil
  · intro c k hk
    rw [h.base] at hk
    cases hk
  · intro c c' k hk
    rw [h.base] at hk
    cases hk
  · intro k hk
    exact absurd (h.crosscpuFunc.symm.trans hk.1) nofun
  · intro c k hk
    rw [h.handler] at hk
    cases hk

/-- **The functions get to the processors asked for**, in every run in which all calls meet the
condition. -/
theorem correct_of_stepOk {ls : List (Label C)} (hinit : Init s)
    (hls : Run.Guarded (step m) (StepOk m) s ls)
    (hrun : Run.exec (step m) s ls = some t) : Correct m t :=
  (Run.inv_of_guarded (P := Inv m) (fun _ _ _ h hok hstep ↦ h.step hok (moves_of_step hstep))
    (inv_of_init hinit) hls hrun).correct

instance StepOk.decidable [Fintype C] (m : Machine C) (s : CrossCpu C) :
    ∀ l, Decidable (StepOk m s l)
  | .call _ _ => inferInstanceAs (Decidable (_ ∧ _))
  | .move _ | .deliver _ | .setFlag _ _ | .makeLock => isTrue trivial

def crossed : Machine (Fin 3) :=
  ⟨[⟨0, 0, true⟩, ⟨2, 1, false⟩, ⟨1, 2, false⟩], fun c ↦ UInt8.ofNat c⟩

theorem correct_oneCall :
    Init atRest ∧ Run.Guarded (step straight) (StepOk straight) atRest oneCall ∧
      ∃ t, Run.exec (step straight) atRest oneCall = some t ∧ t.pickedUp = [0] ∧
        Correct straight t := by
  have hls : Run.Guarded (step straight) (StepOk straight) atRest oneCall := by decide
  obtain ⟨t, ht⟩ := isSome_iff_exists.mp
    (show (Run.exec (step straight) atRest oneCall).isSome by decide)
  have hpicked : ∀ t ∈ Run.exec (step straight) atRest oneCall, t.pickedUp =
      [0] := by decide
  exact ⟨init_atRest, hls, t, ht, hpicked t ht, correct_of_stepOk init_atRest hls ht⟩

/-- Processor 0 asks for number 1, and the function is called on number 2. -/
theorem not_correct_crossed :
    (crossed.procList.map Apic.Processor.id).Nodup ∧ (crossed.procList.map Apic.Processor.apicId).Nodup ∧
      Function.Injective crossed.apicId ∧ Init atRest ∧
      ∃ t, Run.exec (step crossed) atRest oneCall = some t ∧ ¬ Correct crossed t := by
  obtain ⟨t, ht⟩ := isSome_iff_exists.mp
    (show (Run.exec (step crossed) atRest oneCall).isSome by decide)
  refine ⟨by decide, by decide, by decide, init_atRest, t, ht, ?_⟩
  have hwrong : ∀ t ∈ Run.exec (step crossed) atRest oneCall, ∃ e ∈ t.log,
      ¬ ∃ x ∈ t.calls[e.func]?, crossed.multicpuId e.cpu = x.cpu := by
    decide
  obtain ⟨e, he, hne⟩ := hwrong t ht
  intro h
  exact hne (h.cpu e he)

end ForgeOS.CrossCpu
