import ForgeOS.Sbrk.Contract

/-!
# What a call of `dlmalloc_sbrk` does

A call first sees to it that there is a heap (`start_spec`), and then leaves the break where it is,
moves it up, or moves it down (`outcome_of_call`).
-/

namespace ForgeOS.Sbrk

open List Option

theorem toInt_eq_toNat_cond (i : Int32) :
    i.toInt = if 2 * i.toUInt32.toNat < 2 ^ 32 then (i.toUInt32.toNat : ℤ)
      else (i.toUInt32.toNat : ℤ) - 2 ^ 32 :=
  BitVec.toInt_eq_toNat_cond ..

variable {i : Int32}

theorem toNat_toUInt32_of_nonneg (h : 0 ≤ i.toInt) : (i.toUInt32.toNat : ℤ) = i.toInt := by
  have hlt := i.toUInt32.toNat_lt
  have hint := toInt_eq_toNat_cond i
  split at hint
  · exact hint.symm
  · omega

theorem toNat_toUInt32_neg (h : i.toInt < 0) : ((-i).toUInt32.toNat : ℤ) = -i.toInt := by
  have hlt := i.toUInt32.toNat_lt
  have hint := toInt_eq_toNat_cond i
  rw [Int32.toUInt32_neg, UInt32.toNat_neg]
  simp only [UInt32.size]
  split at hint
  all_goals omega

theorem incr_pos (hzero : i ≠ 0) (hneg : ¬ i < 0) : 0 < i := by
  rw [Int32.lt_iff_toInt_lt] at hneg ⊢
  exact lt_of_le_of_ne (not_lt.mp hneg) fun h ↦ hzero (Int32.toInt_inj.mp h.symm)

variable {M : Type} {port : Port M} {s s' s₁ : Sbrk M} {call : Call}

theorem dlmallocSbrk_of_start (hstart : start port s (call.alloc 0) = some s₁) :
    dlmallocSbrk port s call =
      if call.incr = 0 then some (s₁.base, s₁, [])
      else if call.incr < 0 then
        (shrink port s₁ (-call.incr).toUInt32).map fun r ↦ (r.1.base, r.1, r.2)
      else (grow port s₁ call.incr.toUInt32 call.alloc).map fun s' ↦ (s₁.base, s', []) := by
  simp only [dlmallocSbrk, hstart, bind_eq_bind, bind_some]
  cases shrink port s₁ (-call.incr).toUInt32 <;>
    cases grow port s₁ call.incr.toUInt32 call.alloc <;> rfl

theorem dlmallocSbrk_cases (hstart : start port s (call.alloc 0) = some s₁) :
    (call.incr = 0 ∧ dlmallocSbrk port s call = some (s₁.base, s₁, [])) ∨
    (call.incr < 0 ∧ call.incr.toInt = -((-call.incr).toUInt32.toNat : ℤ) ∧
      0 < (-call.incr).toUInt32.toNat ∧ dlmallocSbrk port s call =
        (shrink port s₁ (-call.incr).toUInt32).map fun r ↦ (r.1.base, r.1, r.2)) ∨
    (0 < call.incr ∧ call.incr.toInt = call.incr.toUInt32.toNat ∧ 0 < call.incr.toUInt32.toNat ∧
      dlmallocSbrk port s call =
        (grow port s₁ call.incr.toUInt32 call.alloc).map fun s' ↦ (s₁.base, s', [])) := by
  rw [dlmallocSbrk_of_start hstart]
  by_cases hzero : call.incr = 0
  · exact .inl ⟨hzero, if_pos hzero⟩
  by_cases hneg : call.incr < 0
  · have hint : call.incr.toInt < 0 := Int32.lt_iff_toInt_lt.mp hneg
    have hn := toNat_toUInt32_neg hint
    refine .inr (.inl ⟨hneg, by omega, by omega, ?_⟩)
    rw [if_neg hzero, if_pos hneg]
  · have hpos := incr_pos hzero hneg
    have hint : 0 < call.incr.toInt := Int32.lt_iff_toInt_lt.mp hpos
    have hn := toNat_toUInt32_of_nonneg hint.le
    refine .inr (.inr ⟨hpos, hn.symm, by omega, ?_⟩)
    rw [if_neg hzero, if_neg hneg]

theorem dlmallocSbrk_of_ismapped {b n : ℕ} (hstart : start port s (call.alloc 0) = some s₁)
    (hpos : 0 < call.incr) (hbase : s₁.base.toNat = b) (hn : call.incr.toUInt32.toNat = n)
    (hb : b + n + 0x1000 ≤ 2 ^ 32) (hmapped : ∀ i < turnsFor b (b + n) n,
      port.vmemIsmapped s₁.vmem (upward b i).2 = some true) :
    dlmallocSbrk port s call = some (s₁.base, ⟨s₁.vmem, s₁.base + call.incr.toUInt32⟩, []) := by
  subst hbase hn
  have hpos' : (0 : Int32).toInt < call.incr.toInt := Int32.lt_iff_toInt_lt.mp hpos
  rcases dlmallocSbrk_cases hstart with ⟨hzero, -⟩ | ⟨hneg, -⟩ | ⟨-, -, -, heq⟩
  · rw [hzero] at hpos'
    exact absurd hpos' (lt_irrefl _)
  · exact absurd (Int32.lt_iff_toInt_lt.mp hneg) (not_lt.mpr hpos'.le)
  · rw [heq, grow_of_ismapped _ hb hmapped, map_some]

theorem step_of_ismapped {b n : ℕ} (hstart : start port s (call.alloc 0) = some s₁)
    (hpos : 0 < call.incr) (hbase : s₁.base.toNat = b) (hn : call.incr.toUInt32.toNat = n)
    (hb : b + n + 0x1000 ≤ 2 ^ 32) (hmapped : ∀ i < turnsFor b (b + n) n,
      port.vmemIsmapped s₁.vmem (upward b i).2 = some true) :
    step port s call = some ⟨s₁.vmem, s₁.base + call.incr.toUInt32⟩ := by
  rw [step, dlmallocSbrk_of_ismapped hstart hpos hbase hn hb hmapped, map_some]

theorem dlmallocSbrk_of_onePage {m : M} {freed : List (UInt32 × UInt64)}
    (hstart : start port s (call.alloc 0) = some s₁) (hincr : call.incr = -0x1000)
    (hb : 0x2000 ≤ s₁.base.toNat)
    (hturn : shrinkTurn port (s₁.vmem, []) s₁.base = some (m, freed)) :
    dlmallocSbrk port s call = some (s₁.base - 0x1000, ⟨m, s₁.base - 0x1000⟩, freed) := by
  have hn : (-(-0x1000 : Int32)).toUInt32 = 0x1000 := by decide
  have hone : turnsFor s₁.base.toNat (s₁.base.toNat - 0x1000) 0x1000 = 1 := by
    rw [turnsFor, if_neg (by omega)]
  have hfirst : downward s₁.base.toNat 0 = s₁.base := by
    rw [downward, Nat.zero_mul, Nat.sub_zero, UInt32.ofNat_toNat]
  have hshrink := @shrink_eq M port 0x1000 s₁ (by simp only [UInt32.reduceToNat]; omega)
  simp only [UInt32.reduceToNat, hone, range_one, map_cons, map_nil, hfirst,
    Run.exec, hturn, bind_some, map_some] at hshrink
  rw [dlmallocSbrk_of_start hstart, hincr, if_neg (by decide), if_pos (by decide), hn, hshrink,
    map_some]

def brk (port : Port M) (s : Sbrk M) : ℕ := if s.base = 0 then port.heapBase.toNat else s.base.toNat

def visits (s₁ : Sbrk M) (call : Call) : List (ℕ × UInt32) :=
  let n := call.incr.toUInt32.toNat
  (List.range (turnsFor s₁.base.toNat (s₁.base.toNat + n) n)).map (upward s₁.base.toNat)

namespace Contract

variable {c : Contract port} {freed : List (UInt32 × UInt64)} {ret : UInt32}

structure Started (c : Contract port) (s : Sbrk M) : Prop where
  ok : c.Ok s.vmem
  ge : port.heapBase.toNat ≤ s.base.toNat
  lt : s.base.toNat < c.limit

theorem Started.base_ne_zero (h : c.Started s) : s.base ≠ 0 := by
  intro hzero
  have hge := h.ge
  have hpos := c.heapBase_pos
  rw [hzero, UInt32.toNat_zero] at hge
  omega

def Inv (c : Contract port) (s : Sbrk M) : Prop := s.base = 0 ∧ c.Fresh s.vmem ∨ c.Started s

def InHeap (c : Contract port) (s : Sbrk M) (call : Call) : Prop :=
  port.heapBase.toNat ≤ brk port s + call.incr.toInt ∧ brk port s + call.incr.toInt < c.limit

def Supplied (c : Contract port) (s : Sbrk M) (call : Call) : Prop :=
  (s.base = 0 → c.Good s.vmem (call.alloc 0)) ∧
    ∀ s₁, start port s (call.alloc 0) = some s₁ → 0 < call.incr →
      Run.Guarded (growTurn port call.alloc) (fun m iv ↦ c.Good m (call.alloc (iv.1 + 1))) s₁.vmem
        (visits s₁ call)

theorem start_spec (h : c.Inv s) {alloc : UInt64 × UInt64}
    (hgood : s.base = 0 → c.Good s.vmem alloc) :
    ∃ s₁, start port s alloc = some s₁ ∧ c.Started s₁ ∧ s₁.base.toNat = brk port s ∧
      ∀ pg, pg * 0x1000 < c.limit → c.frame s₁.vmem pg =
        if s.base = 0 ∧ pg = port.heapBase.toNat / 0x1000 then some port.firstPage
        else c.frame s.vmem pg := by
  rcases h with ⟨hzero, hfresh⟩ | hstarted
  · obtain ⟨m', hmap, hok, hframe⟩ := c.mapFirst s.vmem alloc hfresh (hgood hzero)
    refine ⟨⟨m', port.heapBase⟩, ?_, ⟨hok, le_refl _, c.heapBase_lt⟩, ?_, fun pg hpg ↦ ?_⟩
    · simp only [start, if_pos hzero, hmap, bind_eq_bind, bind_some]
    · rw [brk, if_pos hzero]
    · simp only [hzero, true_and]
      exact hframe pg hpg
  · have hzero := hstarted.base_ne_zero
    refine ⟨s, if_neg hzero, hstarted, ?_, fun pg _ ↦ ?_⟩
    · rw [brk, if_neg hzero]
    · rw [if_neg fun h ↦ hzero h.1]

/-- **What a call can do**, once there is a heap. -/
inductive Outcome (c : Contract port) (s₁ : Sbrk M) :
    ℤ → Sbrk M → List (UInt32 × UInt64) → Prop where
  | stays : Outcome c s₁ 0 s₁ []
  | grows {n : ℕ} {s' : Sbrk M} (hpos : 0 < n) (hbase : s'.base.toNat = s₁.base.toNat + n)
      (hgrown : c.Grown s₁.vmem s₁.base.toNat
        (turnsFor s₁.base.toNat (s₁.base.toNat + n) n) s'.vmem) : Outcome c s₁ n s' []
  | shrinks {n : ℕ} {s' : Sbrk M} {freed : List (UInt32 × UInt64)} (hpos : 0 < n)
      (hbase : s'.base.toNat + n = s₁.base.toNat)
      (hshrunk : c.Shrunk s₁.vmem s₁.base.toNat (turnsFor s₁.base.toNat s'.base.toNat n)
        (s'.vmem, freed)) : Outcome c s₁ (-n) s' freed

theorem downward_within {n b' : ℕ} (hb : s₁.base.toNat = b' + n) (hge : port.heapBase.toNat ≤ b')
    {i : ℕ} (hi : i < turnsFor s₁.base.toNat b' n) :
    port.heapBase.toNat + i * 0x1000 ≤ s₁.base.toNat := by
  rw [turnsFor] at hi
  split at hi <;> omega

theorem upward_lt {n : ℕ} (hlt : s₁.base.toNat + n < c.limit) {i : ℕ}
    (hi : i < turnsFor s₁.base.toNat (s₁.base.toNat + n) n) :
    s₁.base.toNat + i * 0x1000 < c.limit := by
  rw [turnsFor] at hi
  split at hi <;> omega

theorem shrink_spec (h : c.Started s₁) {incr : UInt32} {n : ℕ} (hn : incr.toNat = n)
    (hge : port.heapBase.toNat + n ≤ s₁.base.toNat) :
    ∃ s' freed, shrink port s₁ incr = some (s', freed) ∧ s'.base.toNat + n = s₁.base.toNat ∧
      c.Shrunk s₁.vmem s₁.base.toNat (turnsFor s₁.base.toNat s'.base.toNat n) (s'.vmem, freed) := by
  have hheap := c.heapBase_pos
  have haligned := c.heapBase_aligned
  have hbase : (s₁.base - incr).toNat = s₁.base.toNat - n := by
    rw [UInt32.toNat_sub_of_le _ _ (UInt32.le_iff_toNat_le.mpr (by omega)), hn]
  obtain ⟨r, hr, hshrunk⟩ : ∃ r, Run.exec (shrinkTurn port) (s₁.vmem, [])
      ((range (turnsFor s₁.base.toNat (s₁.base.toNat - n) n)).map
        (downward s₁.base.toNat)) = some r ∧
      c.Shrunk s₁.vmem s₁.base.toNat (turnsFor s₁.base.toNat (s₁.base.toNat - n) n) r := by
    refine Run.exec_range (motive := fun i r ↦ c.Shrunk s₁.vmem s₁.base.toNat i r) (.first h.ok _)
      (fun i r hi hshrunk _ ↦ ?_) (Run.guarded_true _ _)
    exact hshrunk.turn h.lt (downward_within (by omega) (by omega) hi)
  refine ⟨⟨r.1, s₁.base - incr⟩, r.2, ?_, ?_, ?_⟩
  · rw [shrink_eq (by omega), hn, hr, map_some]
  · show (s₁.base - incr).toNat + n = _
    omega
  · show c.Shrunk _ _ (turnsFor _ (s₁.base - incr).toNat n) _
    rw [hbase]
    exact hshrunk

theorem outcome_of_call (h : c.Inv s) (hheap : c.InHeap s call) (hgood : c.Supplied s call)
    (hcall : dlmallocSbrk port s call = some (ret, s', freed)) :
    ∃ s₁, start port s (call.alloc 0) = some s₁ ∧ c.Started s₁ ∧ s₁.base.toNat = brk port s ∧
      c.Outcome s₁ call.incr.toInt s' freed := by
  obtain ⟨s₁, hstart, hstarted, hbrk, -⟩ := c.start_spec h hgood.1
  refine ⟨s₁, hstart, hstarted, hbrk, ?_⟩
  obtain ⟨hge, hlt⟩ := hheap
  have hlimit := c.limit_le
  rw [← hbrk] at hge hlt
  rcases dlmallocSbrk_cases hstart with ⟨hzero, heq⟩ | ⟨-, hint, hn, heq⟩ | ⟨hpos, hint, hn, heq⟩
  all_goals rw [heq] at hcall
  · cases hcall
    rw [hzero]
    exact .stays
  · obtain ⟨s'', freed', hshrink, hbase, hshrunk⟩ :=
      @shrink_spec M port s₁ c hstarted (-call.incr).toUInt32 _ rfl (by omega)
    rw [hshrink] at hcall
    cases hcall
    rw [hint]
    exact .shrinks hn hbase hshrunk
  · obtain ⟨s'', hgrow, hcall⟩ := map_eq_some_iff.mp hcall
    cases hcall
    rw [grow_eq call.alloc (by omega)] at hgrow
    obtain ⟨m', hexec, rfl⟩ := map_eq_some_iff.mp hgrow
    rw [hint]
    refine .grows hn ?_ ?_
    · show (s₁.base + call.incr.toUInt32).toNat = _
      rw [UInt32.toNat_add, Nat.mod_eq_of_lt (by omega)]
    · refine Run.inv_range (motive := fun i m ↦ c.Grown s₁.vmem s₁.base.toNat i m)
        ⟨hstarted.ok, fun _ _ _ ↦ rfl⟩ (fun i m m' hi hgrown hgood hturn ↦ ?_)
        (hgood.2 s₁ hstart hpos) hexec
      exact hgrown.turn hstarted.ge (upward_lt (by omega) hi) hgood hturn

theorem call_isSome (h : c.Inv s) (hheap : c.InHeap s call) (hgood : c.Supplied s call)
    (hpages : 0 < call.incr → ∀ i, (call.alloc (i + 1)).1 ≠ 0) :
    ∃ r, dlmallocSbrk port s call = some r := by
  obtain ⟨s₁, hstart, hstarted, hbrk, -⟩ := c.start_spec h hgood.1
  obtain ⟨hge, hlt⟩ := hheap
  have hlimit := c.limit_le
  rw [← hbrk] at hge hlt
  rcases dlmallocSbrk_cases hstart with ⟨-, heq⟩ | ⟨-, hint, -, heq⟩ | ⟨hpos, hint, -, heq⟩
  all_goals rw [heq]
  · exact ⟨_, rfl⟩
  · obtain ⟨s', freed, hshrink, -⟩ :=
      @shrink_spec M port s₁ c hstarted (-call.incr).toUInt32 _ rfl (by omega)
    rw [hshrink]
    exact ⟨_, rfl⟩
  · obtain ⟨m, hexec, -⟩ := Run.exec_range
      (motive := fun j m ↦ c.Grown s₁.vmem s₁.base.toNat j m) ⟨hstarted.ok, fun _ _ _ ↦ rfl⟩
      (fun i m hi hgrown hC ↦ by
        have hlast := upward_lt (c := c) (by omega) hi
        obtain ⟨hv, hlt, -⟩ := upward_within hstarted.ge hlast
        obtain ⟨m', hturn⟩ := growTurn_isSome hgrown.ok hv hlt hC (hpages hpos i)
        exact ⟨m', hturn, hgrown.turn hstarted.ge hlast hC hturn⟩)
      (hgood.2 s₁ hstart hpos)
    rw [grow_eq call.alloc (by omega), hexec]
    exact ⟨_, rfl⟩

theorem Outcome.freed_eq_nil {d : ℤ} (h : c.Outcome s₁ d s' freed) (hd : 0 ≤ d) : freed = [] := by
  cases h with
  | stays => rfl
  | grows => rfl
  | shrinks hpos => omega

theorem Outcome.started {d : ℤ} (h : c.Outcome s₁ d s' freed) (hs : c.Started s₁)
    (hge : port.heapBase.toNat ≤ s₁.base.toNat + d) (hlt : s₁.base.toNat + d < c.limit) :
    c.Started s' := by
  cases h with
  | stays => exact hs
  | grows hpos hbase hgrown => exact ⟨hgrown.ok, by omega, by omega⟩
  | shrinks hpos hbase hshrunk => exact ⟨hshrunk.ok, by omega, by omega⟩

end Contract
end ForgeOS.Sbrk
