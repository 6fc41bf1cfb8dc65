import ForgeOS.CrossCpu.Model

/-!
# The lock goes from the sender to the receiver

The right to the two variables is with one party at most: the processor that has acquired the lock,
the interrupt on its way, or the processor that has taken it (`Owner`).
-/

namespace ForgeOS.CrossCpu

open Function List Option

variable {C : Type} [DecidableEq C] {m : Machine C} {s t : CrossCpu C}

@[simp] theorem setCpu_self (s : CrossCpu C) (c : C) (x : Cpu) : (s.setCpu c x).cpu c = x :=
  update_self ..

inductive Moves (m : Machine C) (s : CrossCpu C) : Label C → CrossCpu C → Prop where
  | callLocal (c : C) (cpu : UInt32) (hbase : (s.cpu c).base = .idle) (hnone : (s.cpu c).handler = none)
      (hloc : s.Local m c cpu) :
      Moves m s (.call c cpu)
        { s with
          calls := s.calls ++ [Call.mk cpu (s.cpu c).flag]
          log := s.log ++ [Execution.mk c s.calls.length (some s.calls.length)]
          pickedUp := s.pickedUp ++ [s.calls.length] }
  | callRemote (c : C) (cpu : UInt32) (hbase : (s.cpu c).base = .idle) (hnone : (s.cpu c).handler = none)
      (hloc : ¬ s.Local m c cpu) :
      Moves m s (.call c cpu)
        ({ s with calls := s.calls ++ [Call.mk cpu (s.cpu c).flag] }.setCpu c
          { s.cpu c with base := .get s.calls.length })
  | setFlag (c : C) (flag : Bool) (hbase : (s.cpu c).base = .idle) (hnone : (s.cpu c).handler = none) :
      Moves m s (.setFlag c flag) (s.setCpu c { s.cpu c with flag := flag })
  | makeLock : Moves m s .makeLock { s with lockMade := true }
  | deliver (c : C) (hipi : m.apicId c ∈ s.ipis) (hflag : (s.cpu c).flag = true)
      (hnone : (s.cpu c).handler = none) :
      Moves m s (.deliver c) ({ s with ipis := s.ipis.erase (m.apicId c) }.setCpu c
        { s.cpu c with handler := some .test, eflags := (s.cpu c).flag, flag := false })
  | get (c : C) (k : ℕ) (hbase : (s.cpu c).base = .get k) (hnone : (s.cpu c).handler = none) :
      Moves m s (.move c) (s.setCpu c { s.cpu c with base := .disable k (s.cpu c).flag })
  | disable (c : C) (k : ℕ) (w : Bool) (hbase : (s.cpu c).base = .disable k w)
      (hnone : (s.cpu c).handler = none) :
      Moves m s (.move c) (s.setCpu c { s.cpu c with base := .acquire k w, flag := false })
  | acquire (c : C) (k : ℕ) (w : Bool) (hbase : (s.cpu c).base = .acquire k w)
      (hnone : (s.cpu c).handler = none) (hfree : s.locked = false) :
      Moves m s (.move c) ({ s with locked := true }.setCpu c { s.cpu c with base := .save k w })
  | save (c : C) (k : ℕ) (w : Bool) (hbase : (s.cpu c).base = .save k w)
      (hnone : (s.cpu c).handler = none) :
      Moves m s (.move c) ({ s with wasints := w }.setCpu c { s.cpu c with base := .func k })
  | func (c : C) (k : ℕ) (hbase : (s.cpu c).base = .func k) (hnone : (s.cpu c).handler = none) :
      Moves m s (.move c)
        ({ s with crosscpuFunc := some k }.setCpu c { s.cpu c with base := .param k })
  | param (c : C) (k : ℕ) (hbase : (s.cpu c).base = .param k) (hnone : (s.cpu c).handler = none) :
      Moves m s (.move c)
        ({ s with crosscpuParam := some k }.setCpu c { s.cpu c with base := .ipi k })
  | ipi (c : C) (k : ℕ) (d : UInt8) (hbase : (s.cpu c).base = .ipi k) (hnone : (s.cpu c).handler = none)
      (hd : s.destProc k = some d) :
      Moves m s (.move c)
        ({ s with ipis := s.ipis ++ [d], returned := s.returned ++ [(k, (s.cpu c).flag)] }.setCpu c
          { s.cpu c with base := .idle })
  | test (c : C) (hh : (s.cpu c).handler = some .test) (hf : s.crosscpuFunc ≠ none) :
      Moves m s (.move c) (s.setCpu c { s.cpu c with handler := some .call })
  | testNull (c : C) (hh : (s.cpu c).handler = some .test) (hf : s.crosscpuFunc = none) :
      Moves m s (.move c) (s.setCpu c { s.cpu c with handler := some (.ack none) })
  | call (c : C) (k : ℕ) (hh : (s.cpu c).handler = some .call) (hf : s.crosscpuFunc = some k) :
      Moves m s (.move c)
        ({ s with log := s.log ++ [Execution.mk c k s.crosscpuParam] }.setCpu c
          { s.cpu c with handler := some (.clear k) })
  | clear (c : C) (k : ℕ) (hh : (s.cpu c).handler = some (.clear k)) :
      Moves m s (.move c)
        ({ s with crosscpuFunc := none, pickedUp := s.pickedUp ++ [k] }.setCpu c
          { s.cpu c with handler := some (.load k) })
  | load (c : C) (k : ℕ) (hh : (s.cpu c).handler = some (.load k)) (hl : s.locked = true) :
      Moves m s (.move c) (s.setCpu c { s.cpu c with handler := some (.unlock k s.wasints) })
  | unlock (c : C) (k : ℕ) (w : Bool) (hh : (s.cpu c).handler = some (.unlock k w)) :
      Moves m s (.move c)
        ({ s with locked := false }.setCpu c { s.cpu c with handler := some (.restore k w) })
  | restore (c : C) (k : ℕ) (w : Bool) (hh : (s.cpu c).handler = some (.restore k w)) :
      Moves m s (.move c) (s.setCpu c { s.cpu c with handler := some (.ack (some k)), flag := w })
  | ack (c : C) (k : Option ℕ) (hh : (s.cpu c).handler = some (.ack k)) :
      Moves m s (.move c)
        ({ s with
            handled := s.handled ++ k.toList.map fun k ↦
              Handled.mk k (s.cpu c).eflags (s.cpu c).flag (s.cpu c).eflags }.setCpu c
          { s.cpu c with handler := none, flag := (s.cpu c).eflags })

variable {c : C}

theorem moves_of_moveBase (hnone : (s.cpu c).handler = none) (h : s.moveBase c = some t) :
    Moves m s (.move c) t := by
  rw [moveBase] at h
  cases hbase : (s.cpu c).base with
  | idle => simp [hbase] at h
  | acquire k w =>
    simp only [hbase] at h
    split at h
    · cases h
    next hfree => exact some.inj h ▸ .acquire c k w hbase hnone (Bool.eq_false_iff.mpr hfree)
  | ipi k =>
    simp only [hbase, map_eq_some_iff] at h
    obtain ⟨d, hd, rfl⟩ := h
    exact .ipi c k d hbase hnone hd
  | get | disable | save | func | param =>
    simp only [hbase, some.injEq] at h
    subst h
    constructor <;> assumption

theorem moves_of_moveHandler {h : Handler} (hh : (s.cpu c).handler = some h)
    (hstep : s.moveHandler m c h = some t) : Moves m s (.move c) t := by
  cases h with
  | test =>
    obtain rfl := some.inj hstep
    cases hf : s.crosscpuFunc with
    | none => exact .testNull c hh hf
    | some k => exact .test c hh (by simp [hf])
  | call =>
    obtain ⟨k, hk, rfl⟩ := map_eq_some_iff.mp hstep
    exact .call c k hh hk
  | clear k => exact some.inj hstep ▸ .clear c k hh
  | load k =>
    rw [moveHandler] at hstep
    split at hstep
    · cases hstep
    next hl =>
      rw [not_or, Bool.not_eq_false] at hl
      exact some.inj hstep ▸ .load c k hh hl.2
  | unlock k w =>
    rw [moveHandler] at hstep
    split at hstep
    · exact some.inj hstep ▸ .unlock c k w hh
    · cases hstep
  | restore k w => exact some.inj hstep ▸ .restore c k w hh
  | ack k => exact some.inj hstep ▸ .ack c k hh

variable {l : Label C}

theorem moves_of_step (h : s.step m l = some t) : Moves m s l t := by
  cases l with
  | call c cpu =>
    rw [step] at h
    split at h
    next hidle =>
      obtain rfl := some.inj h
      rw [multicpuCall]
      split
      next hloc => exact .callLocal c cpu hidle.1 hidle.2 hloc
      next hloc => exact .callRemote c cpu hidle.1 hidle.2 hloc
    · cases h
  | move c =>
    rw [step] at h
    split at h
    next h' hh => exact moves_of_moveHandler hh h
    next hnone => exact moves_of_moveBase hnone h
  | deliver c =>
    rw [step] at h
    split at h
    next hc => exact some.inj h ▸ .deliver c hc.1 hc.2.1 hc.2.2
    · cases h
  | setFlag c flag =>
    rw [step] at h
    split at h
    next hc => exact some.inj h ▸ .setFlag c flag hc.1 hc.2
    · cases h
  | makeLock => exact some.inj h ▸ .makeLock

/-! ## Ownership -/

inductive Owner (C : Type) where
  | free
  | sender (c : C)
  /-- The interrupt for this call is on its way. -/
  | flight (k : ℕ)
  | receiver (c : C)

def Base.Critical : Base → Prop
  | .save .. | .func _ | .param _ | .ipi _ => True
  | _ => False

def Handler.Critical : Handler → Prop
  | .restore .. | .ack _ => False
  | _ => True

def Sending (s : CrossCpu C) : Base → Prop
  | .save .. | .func _ => s.crosscpuFunc = none
  | .param k => s.crosscpuFunc = some k
  | .ipi k => s.crosscpuFunc = some k ∧ s.crosscpuParam = some k
  | _ => False

def Receiving (s : CrossCpu C) (d : UInt8) : Option Handler → Prop
  | some .test | some .call =>
    ∃ k, s.crosscpuFunc = some k ∧ s.crosscpuParam = some k ∧ s.destProc k = some d
  | some (.clear k) => s.crosscpuFunc = some k
  | some (.load _) | some (.unlock ..) => s.crosscpuFunc = none
  | _ => False

def Slot (m : Machine C) (s : CrossCpu C) : Owner C → Prop
  | .free => s.locked = false ∧ s.ipis = [] ∧ s.crosscpuFunc = none
  | .sender c => s.locked = true ∧ s.ipis = [] ∧ s.Sending (s.cpu c).base
  | .flight k => s.locked = true ∧ s.crosscpuFunc = some k ∧ s.crosscpuParam = some k ∧
      ∃ d, s.destProc k = some d ∧ s.ipis = [d]
  | .receiver c => s.locked = true ∧ s.ipis = [] ∧ s.Receiving (m.apicId c) (s.cpu c).handler

/-- **The invariant of the hand-over.** -/
structure Owned (m : Machine C) (s : CrossCpu C) (o : Owner C) : Prop where
  slot : s.Slot m o
  sender : ∀ c, (s.cpu c).base.Critical → o = .sender c
  receiver : ∀ c, ∀ h ∈ (s.cpu c).handler, h.Critical → o = .receiver c

variable {k : ℕ}

theorem getElem?_append_of_some {calls : List Call} {x : Call} (hx : calls[k]? = some x)
    (y : Call) : (calls ++ [y])[k]? = some x := by
  rw [List.getElem?_append_left (List.getElem?_eq_some_iff.mp hx).1, hx]

variable {d : UInt8}

omit [DecidableEq C] in
theorem destProc_append (h : s.destProc k = some d) (x : Call) :
    ((s.calls ++ [x])[k]?.map fun x ↦ x.cpu.toUInt8) = some d := by
  obtain ⟨y, hy, hd⟩ := map_eq_some_iff.mp h
  rw [getElem?_append_of_some hy, map_some, hd]

variable {b : Base}

omit [DecidableEq C] in
theorem Sending.critical (h : s.Sending b) : b.Critical := by
  cases b <;> trivial

omit [DecidableEq C] in
theorem Receiving.critical {x : Option Handler} (h : s.Receiving d x) : ∃ y ∈ x, y.Critical := by
  unfold Receiving at h
  split at h
  all_goals first
    | exact ⟨_, rfl, trivial⟩
    | exact h.elim

structure Apart (s t : CrossCpu C) (o : Owner C) : Prop where
  locked : t.locked = s.locked
  ipis : t.ipis = s.ipis
  func : t.crosscpuFunc = s.crosscpuFunc
  param : t.crosscpuParam = s.crosscpuParam
  dest : ∀ k d, s.destProc k = some d → t.destProc k = some d
  base : ∀ c, o = .sender c → (t.cpu c).base = (s.cpu c).base
  handler : ∀ c, o = .receiver c → (t.cpu c).handler = (s.cpu c).handler

variable {o : Owner C}

omit [DecidableEq C] in
theorem Apart.slot (h : Apart s t o) (hs : s.Slot m o) : t.Slot m o := by
  cases o with
  | free => exact ⟨h.locked.trans hs.1, h.ipis.trans hs.2.1, h.func.trans hs.2.2⟩
  | sender c =>
    refine ⟨h.locked.trans hs.1, h.ipis.trans hs.2.1, ?_⟩
    have hsend := hs.2.2
    rw [h.base c rfl]
    revert hsend
    cases (s.cpu c).base <;> simp [Sending, h.func, h.param]
  | flight k =>
    obtain ⟨hl, hf, hp, d, hd, hi⟩ := hs
    exact ⟨h.locked.trans hl, h.func.trans hf, h.param.trans hp, d, h.dest k d hd, h.ipis.trans hi⟩
  | receiver c =>
    refine ⟨h.locked.trans hs.1, h.ipis.trans hs.2.1, ?_⟩
    have hrec := hs.2.2
    rw [h.handler c rfl]
    unfold Receiving at hrec ⊢
    rw [h.func, h.param]
    split <;> simp_all only
    all_goals
      obtain ⟨k, hf, hp, hd⟩ := hrec
      exact ⟨k, hf, hp, h.dest k _ hd⟩

variable {x : Cpu} {o' : Owner C}

theorem Owned.move (h : Owned m s o) (hcpu : t.cpu = update s.cpu c x)
    (hother : ∀ c' ≠ c, (o = .sender c' → o' = .sender c') ∧ (o = .receiver c' → o' = .receiver c'))
    (hbase : x.base.Critical → o' = .sender c)
    (hhandler : ∀ h ∈ x.handler, h.Critical → o' = .receiver c) (hslot : t.Slot m o') :
    Owned m t o' := by
  refine ⟨hslot, ?_, ?_⟩
  · rw [hcpu]
    refine (forall_update_iff s.cpu fun c' x ↦ x.base.Critical → o' = .sender c').mpr
      ⟨hbase, fun c' hc hcrit ↦ ?_⟩
    exact (hother c' hc).1 (h.sender c' hcrit)
  · rw [hcpu]
    refine (forall_update_iff s.cpu fun c' x ↦
      ∀ h ∈ x.handler, h.Critical → o' = .receiver c').mpr ⟨hhandler, fun c' hc y hy hcrit ↦ ?_⟩
    exact (hother c' hc).2 (h.receiver c' y hy hcrit)

theorem Owned.aside (h : Owned m s o) (hcpu : t.cpu = update s.cpu c x)
    (hbase : x.base = (s.cpu c).base ∨ ¬ x.base.Critical ∧ ¬ (s.cpu c).base.Critical)
    (hhandler : x.handler = (s.cpu c).handler ∨
      (∀ y ∈ x.handler, ¬ y.Critical) ∧ ∀ y ∈ (s.cpu c).handler, ¬ y.Critical)
    (hdest : ∀ k d, s.destProc k = some d → t.destProc k = some d := by exact fun _ _ hd ↦ hd)
    (hlocked : t.locked = s.locked := by rfl) (hipis : t.ipis = s.ipis := by rfl)
    (hfunc : t.crosscpuFunc = s.crosscpuFunc := by rfl)
    (hparam : t.crosscpuParam = s.crosscpuParam := by rfl) : Owned m t o := by
  refine h.move hcpu (fun _ _ ↦ ⟨id, id⟩) ?_ ?_ (Apart.slot ?_ h.slot)
  · intro hcrit
    rcases hbase with heq | hno
    · exact h.sender c (heq ▸ hcrit)
    · exact absurd hcrit hno.1
  · intro y hy hcrit
    rcases hhandler with heq | hno
    · exact h.receiver c y (heq ▸ hy) hcrit
    · exact absurd hcrit (hno.1 y hy)
  · refine ⟨hlocked, hipis, hfunc, hparam, hdest, ?_, ?_⟩
    · rintro c' rfl
      rw [hcpu]
      by_cases hc : c' = c
      · subst hc
        rw [update_self]
        exact hbase.resolve_right fun hno ↦ hno.2 h.slot.2.2.critical
      · rw [update_of_ne hc]
    · rintro c' rfl
      rw [hcpu]
      by_cases hc : c' = c
      · subst hc
        rw [update_self]
        obtain ⟨y, hy, hcrit⟩ := h.slot.2.2.critical
        exact hhandler.resolve_right fun hno ↦ hno.2 y hy hcrit
      · rw [update_of_ne hc]

theorem Owned.turn (h : Owned m s o) (hcpu : t.cpu = update s.cpu c x)
    (hother : ∀ c' ≠ c, o ≠ .sender c' ∧ o ≠ .receiver c')
    (hbase : x.base.Critical → o' = .sender c)
    (hhandler : ∀ h ∈ x.handler, h.Critical → o' = .receiver c) (hslot : t.Slot m o') :
    Owned m t o' :=
  h.move hcpu (fun c' hc ↦ ⟨fun ho ↦ absurd ho (hother c' hc).1, fun ho ↦ absurd ho (hother c' hc).2⟩)
    hbase hhandler hslot

omit [DecidableEq C] in
theorem Owned.sender_eq (h : Owned m s o) (hb : (s.cpu c).base = b) (hcrit : b.Critical) :
    o = .sender c ∧ s.locked = true ∧ s.ipis = [] ∧ s.Sending b ∧
      ∀ c' ≠ c, o ≠ .sender c' ∧ o ≠ .receiver c' := by
  obtain rfl := h.sender c (hb ▸ hcrit)
  refine ⟨rfl, h.slot.1, h.slot.2.1, hb ▸ h.slot.2.2, fun c' hc ↦ ⟨?_, nofun⟩⟩
  rintro ⟨⟩
  exact hc rfl

variable {y : Handler}

omit [DecidableEq C] in
theorem Owned.receiver_eq (h : Owned m s o) (hy : (s.cpu c).handler = some y) (hcrit : y.Critical) :
    o = .receiver c ∧ s.locked = true ∧ s.ipis = [] ∧ s.Receiving (m.apicId c) (some y) ∧
      ∀ c' ≠ c, o ≠ .sender c' ∧ o ≠ .receiver c' := by
  obtain rfl := h.receiver c y hy hcrit
  refine ⟨rfl, h.slot.1, h.slot.2.1, hy ▸ h.slot.2.2, fun c' hc ↦ ⟨nofun, ?_⟩⟩
  rintro ⟨⟩
  exact hc rfl

theorem Owned.turnSender (h : Owned m s o) (hb : (s.cpu c).base = b)
    (hcrit : b.Critical) (hcpu : t.cpu = update s.cpu c x) (hnone : x.handler = none)
    (hbase : x.base.Critical → o' = .sender c) (hslot : t.Slot m o') : Owned m t o' := by
  obtain ⟨-, -, -, -, hother⟩ := h.sender_eq hb hcrit
  refine h.turn hcpu hother hbase ?_ hslot
  intro y hy
  rw [hnone] at hy
  cases hy

theorem Owned.keepSender (h : Owned m s o) (hb : (s.cpu c).base = b) (hcrit : b.Critical)
    (hcpu : t.cpu = update s.cpu c x) (hnone : x.handler = none)
    (hsend : s.Sending b → t.Sending x.base) (hlocked : t.locked = s.locked := by rfl)
    (hipis : t.ipis = s.ipis := by rfl) : ∃ o', Owned m t o' := by
  obtain ⟨-, hl, hi, hs, -⟩ := h.sender_eq hb hcrit
  refine ⟨.sender c, h.turnSender hb hcrit hcpu hnone (fun _ ↦ rfl)
    ⟨hlocked.trans hl, hipis.trans hi, ?_⟩⟩
  rw [hcpu, update_self]
  exact hsend hs

theorem Owned.turnReceiver (h : Owned m s o) (hy : (s.cpu c).handler = some y)
    (hcrit : y.Critical) (hcpu : t.cpu = update s.cpu c x)
    (hbase : x.base = (s.cpu c).base) (hhandler : ∀ y ∈ x.handler, y.Critical → o' = .receiver c)
    (hslot : t.Slot m o') : Owned m t o' := by
  obtain ⟨rfl, -, -, -, hother⟩ := h.receiver_eq hy hcrit
  refine h.turn hcpu hother ?_ hhandler hslot
  intro hb
  rw [hbase] at hb
  exact absurd (h.sender c hb) nofun

theorem Owned.keepReceiver (h : Owned m s o) (hy : (s.cpu c).handler = some y) (hcrit : y.Critical)
    (hcpu : t.cpu = update s.cpu c x)
    (hrec : s.Receiving (m.apicId c) (some y) → t.Receiving (m.apicId c) x.handler)
    (hbase : x.base = (s.cpu c).base := by rfl) (hlocked : t.locked = s.locked := by rfl)
    (hipis : t.ipis = s.ipis := by rfl) : ∃ o', Owned m t o' := by
  obtain ⟨-, hl, hi, hs, -⟩ := h.receiver_eq hy hcrit
  refine ⟨.receiver c, h.turnReceiver hy hcrit hcpu hbase (fun _ _ _ ↦ rfl)
    ⟨hlocked.trans hl, hipis.trans hi, ?_⟩⟩
  rw [hcpu, update_self]
  exact hrec hs

theorem Owned.step (h : Owned m s o) (hl : Moves m s l t) : ∃ o', Owned m t o' := by
  cases hl with
  | callLocal c cpu hbase hnone hloc =>
    exact ⟨o, h.aside (update_eq_self c s.cpu).symm (.inl rfl) (.inl rfl)
      fun k d hd ↦ destProc_append hd _⟩
  | callRemote c cpu hbase hnone hloc =>
    refine ⟨o, h.aside rfl (.inr ⟨id, ?_⟩) (.inl rfl) fun k d hd ↦ destProc_append hd _⟩
    rw [hbase]
    exact id
  | setFlag c flag hbase hnone => exact ⟨o, h.aside rfl (.inl rfl) (.inl rfl)⟩
  | makeLock => exact ⟨o, ⟨Apart.slot ⟨rfl, rfl, rfl, rfl, fun _ _ hd ↦ hd, fun _ _ ↦ rfl, fun _ _ ↦ rfl⟩
      h.slot, h.sender, h.receiver⟩⟩
  | deliver c hipi hflag hnone =>
    -- There is an interrupt on its way, and it is the only one.
    cases o with
    | free | sender | receiver => simp [h.slot.2.1] at hipi
    | flight k =>
      obtain ⟨hl, hf, hp, d, hd, hi⟩ := h.slot
      obtain rfl : m.apicId c = d := by simpa [hi] using hipi
      refine ⟨.receiver c, h.turn rfl (fun _ _ ↦ ⟨nofun, nofun⟩) ?_ (fun _ _ _ ↦ rfl) ⟨hl, ?_, ?_⟩⟩
      · exact fun hb ↦ absurd (h.sender c hb) nofun
      · show s.ipis.erase (m.apicId c) = []
        rw [hi, erase_cons_head]
      · rw [setCpu_self]
        exact ⟨k, hf, hp, hd⟩
  | get c k hbase hnone | disable c k w hbase hnone =>
    refine ⟨o, h.aside rfl (.inr ⟨id, ?_⟩) (.inl rfl)⟩
    rw [hbase]
    exact id
  | acquire c k w hbase hnone hfree =>
    cases o with
    | sender | flight | receiver => exact absurd (hfree.symm.trans h.slot.1) nofun
    | free =>
      refine ⟨.sender c, h.turn rfl (fun _ _ ↦ ⟨nofun, nofun⟩) (fun _ ↦ rfl) ?_ ⟨rfl, h.slot.2.1, ?_⟩⟩
      · exact fun y hy hcrit ↦ absurd (h.receiver c y hy hcrit) nofun
      · rw [setCpu_self]
        exact h.slot.2.2
  | save c k w hbase hnone => exact h.keepSender hbase trivial rfl hnone id
  | func c k hbase hnone => exact h.keepSender hbase trivial rfl hnone fun _ ↦ rfl
  | param c k hbase hnone => exact h.keepSender hbase trivial rfl hnone fun hf ↦ ⟨hf, rfl⟩
  | ipi c k d hbase hnone hd =>
    obtain ⟨-, hl, hi, hsend, -⟩ := h.sender_eq hbase trivial
    refine ⟨.flight k, h.turnSender hbase trivial rfl hnone (fun hno ↦ hno.elim)
      ⟨hl, hsend.1, hsend.2, d, hd, ?_⟩⟩
    show s.ipis ++ [d] = [d]
    rw [hi, nil_append]
  | test c hh hf => exact h.keepReceiver hh trivial rfl id
  | testNull c hh hf =>
    obtain ⟨-, -, -, ⟨k, hk, -⟩, -⟩ := h.receiver_eq hh trivial
    exact absurd (hk.symm.trans hf) nofun
  | call c k hh hf => exact h.keepReceiver hh trivial rfl fun _ ↦ hf
  | clear c k hh => exact h.keepReceiver hh trivial rfl fun _ ↦ rfl
  | load c k hh hl => exact h.keepReceiver hh trivial rfl id
  | unlock c k w hh =>
    obtain ⟨-, hl, hi, hrec, -⟩ := h.receiver_eq hh trivial
    refine ⟨.free, h.turnReceiver hh trivial rfl rfl ?_ ⟨rfl, hi, hrec⟩⟩
    rintro y ⟨⟩ hcrit
    exact hcrit.elim
  | restore c k w hh =>
    refine ⟨o, h.aside rfl (.inl rfl) (.inr ⟨?_, ?_⟩)⟩
    · rintro y ⟨⟩
      exact id
    · rw [hh]
      rintro y ⟨⟩
      exact id
  | ack c k hh =>
    refine ⟨o, h.aside rfl (.inl rfl) (.inr ⟨nofun, ?_⟩)⟩
    rw [hh]
    rintro y ⟨⟩
    exact id

omit [DecidableEq C] in
theorem owned_of_init (h : Init s) : Owned m s .free := by
  refine ⟨⟨h.locked, h.ipis, h.crosscpuFunc⟩, ?_, ?_⟩
  · intro c hcrit
    rw [h.base] at hcrit
    exact hcrit.elim
  · intro c y hy
    rw [h.handler] at hy
    cases hy

def Waiting (s : CrossCpu C) (k : ℕ) : Prop :=
  s.crosscpuFunc = some k ∧
    (s.ipis ≠ [] ∨ ∃ c, (s.cpu c).handler = some .test ∨ (s.cpu c).handler = some .call)

omit [DecidableEq C] in
theorem Owned.not_waiting_of_sender (h : Owned m s o) (hb : (s.cpu c).base = b) (hcrit : b.Critical)
    (k : ℕ) : ¬ s.Waiting k := by
  obtain ⟨rfl, -, hi, -⟩ := h.sender_eq hb hcrit
  rintro ⟨-, hne | ⟨c', hh | hh⟩⟩
  · exact hne hi
  · exact absurd (h.receiver c' _ hh trivial) nofun
  · exact absurd (h.receiver c' _ hh trivial) nofun

omit [DecidableEq C] in
theorem Owned.handler_of_waiting (h : Owned m s o) (hy : (s.cpu c).handler = some y)
    (hcrit : y.Critical) (hk : s.Waiting k) : y = .test ∨ y = .call := by
  obtain ⟨rfl, -, hi, -⟩ := h.receiver_eq hy hcrit
  rcases hk.2 with hne | ⟨c', hh⟩
  · exact absurd hi hne
  · have hc : c' = c := by
      rcases hh with hh | hh
      all_goals
        have heq := h.receiver c' _ hh trivial
        injection heq with heq
        exact heq.symm
    subst hc
    rw [hy] at hh
    simpa using hh

theorem Waiting.of_update (h : t.Waiting k)
    (hcpu : t.cpu = update s.cpu c x) (hfunc : t.crosscpuFunc = s.crosscpuFunc)
    (hipis : t.ipis = s.ipis) (hx : x.handler = some .test ∨ x.handler = some .call →
      (s.cpu c).handler = some .test ∨ (s.cpu c).handler = some .call) : s.Waiting k := by
  refine ⟨hfunc ▸ h.1, ?_⟩
  rcases h.2 with hne | ⟨c', hc'⟩
  · exact .inl (hipis ▸ hne)
  · rw [hcpu] at hc'
    by_cases hc : c' = c
    · rw [hc, update_self] at hc'
      exact .inr ⟨c, hx hc'⟩
    · rw [update_of_ne hc] at hc'
      exact .inr ⟨c', hc'⟩

end ForgeOS.CrossCpu
