import ForgeOS.Sbrk.X86

/-!
# Is every byte of the heap mapped?

The loops of `dlmalloc_sbrk` start with the old break, whatever its offset in its page, and step by
pages.

The main result is `always_covered`.
-/

namespace ForgeOS.Sbrk

open Option

variable {M : Type} {port : Port M} {s s' s₁ : Sbrk M} {call : Call}

def Covered (port : Port M) (s : Sbrk M) : Prop :=
  ∀ v, port.heapBase ≤ v → v < s.base → port.vmemIsmapped s.vmem v = some true

namespace Contract

variable {c : Contract port} {freed : List (UInt32 × UInt64)}

def Mapped (c : Contract port) (s : Sbrk M) (pg : ℕ) : Prop :=
  s.base = 0 ∧ pg = port.heapBase.toNat / 0x1000 ∨ (c.frame s.vmem pg).isSome

/-- The break moves up by `n` bytes from `b`, and the loop gets to all the pages it has to, with
memory for those that are not mapped. -/
def FitsUp (c : Contract port) (s : Sbrk M) (alloc : ℕ → UInt64 × UInt64) (b n : ℕ) : Prop :=
  (c.Mapped s ((b + n - 1) / 0x1000) ∨
    b / 0x1000 ≠ (b + n) / 0x1000 ∧ b % 0x1000 + (n - 1) % 0x1000 < 0x1000) ∧
  ∀ i < turnsFor b (b + n) n, c.Mapped s (b / 0x1000 + i) ∨
    (alloc (i + 1)).1 ≠ 0 ∧ (alloc (i + 1)).2 ≠ 0

def FitsDown (b b' n : ℕ) : Prop :=
  b / 0x1000 = b' / 0x1000 ∨ b' % 0x1000 = 0 ∨ 0x1000 ≤ b' % 0x1000 + ((n - 1) % 0x1000 + 1)

/-- **When all goes well.**  The break stays below the limit, the loops visit the right pages, and
there is memory for those that have to be mapped. -/
def Fits (c : Contract port) (s : Sbrk M) (call : Call) : Prop :=
  brk port s + call.incr.toInt < c.limit ∧
    (0 < call.incr → c.FitsUp s call.alloc (brk port s) call.incr.toInt.toNat) ∧
    (call.incr < 0 →
      FitsDown (brk port s) (brk port s + call.incr.toInt).toNat (-call.incr.toInt).toNat)

def Backed (c : Contract port) (s : Sbrk M) : Prop :=
  ∀ pg, port.heapBase.toNat ≤ pg * 0x1000 → pg * 0x1000 < s.base.toNat →
    (c.frame s.vmem pg).isSome

theorem Backed.covered (h : c.Backed s) (hs : c.Inv s) : Covered port s := by
  intro v hge hlt
  have hlt' : v.toNat < s.base.toNat := UInt32.lt_iff_toNat_lt.mp hlt
  have hge' : port.heapBase.toNat ≤ v.toNat := UInt32.le_iff_toNat_le.mp hge
  have haligned := c.heapBase_aligned
  rcases hs with ⟨hzero, -⟩ | hs
  · rw [hzero] at hlt'
    exact absurd hlt' (Nat.not_lt_zero _)
  · rw [c.ismapped s.vmem v hs.ok hge (hlt'.trans hs.lt), h _ (by omega) (by omega)]

theorem isSome_of_start {pg : ℕ} {f : Option UInt64}
    (hframe : f = if s.base = 0 ∧ pg = port.heapBase.toNat / 0x1000 then some port.firstPage
      else c.frame s.vmem pg) : f.isSome ↔ c.Mapped s pg := by
  rw [hframe, Mapped]
  split
  · next hfirst => exact iff_of_true rfl (.inl hfirst)
  · next hfirst => rw [or_iff_right hfirst]

theorem Backed.start (h : c.Backed s) (hbase : s₁.base.toNat = brk port s) (hlt : c.Started s₁)
    (hmapped : ∀ pg, pg * 0x1000 < c.limit → ((c.frame s₁.vmem pg).isSome ↔ c.Mapped s pg)) :
    c.Backed s₁ := by
  intro pg hge hbelow
  have hlim := hlt.lt
  rw [hmapped pg (by omega)]
  rw [hbase, brk] at hbelow
  split at hbelow
  · omega
  · exact .inr (h pg hge hbelow)

theorem grow_spec (hs : c.Started s₁) {incr : UInt32} {alloc : ℕ → UInt64 × UInt64} {n : ℕ}
    (hn : incr.toNat = n) (hlt : s₁.base.toNat + n < c.limit)
    (hg : Run.Guarded (growTurn port alloc) (fun m iv ↦ c.Good m (alloc (iv.1 + 1))) s₁.vmem
      ((List.range (turnsFor s₁.base.toNat (s₁.base.toNat + n) n)).map (upward s₁.base.toNat)))
    (hmemory : ∀ i < turnsFor s₁.base.toNat (s₁.base.toNat + n) n,
      (c.frame s₁.vmem (s₁.base.toNat / 0x1000 + i)).isSome ∨
        (alloc (i + 1)).1 ≠ 0 ∧ (alloc (i + 1)).2 ≠ 0) :
    ∃ s', grow port s₁ incr alloc = some s' ∧ s'.base.toNat = s₁.base.toNat + n ∧
      c.Grown s₁.vmem s₁.base.toNat (turnsFor s₁.base.toNat (s₁.base.toNat + n) n) s'.vmem ∧
      ∀ i < turnsFor s₁.base.toNat (s₁.base.toNat + n) n,
        (c.frame s'.vmem (s₁.base.toNat / 0x1000 + i)).isSome := by
  have hlimit := c.limit_le
  obtain ⟨m, hexec, hgrown, hmaps⟩ := Run.exec_range
    (motive := fun j m ↦ c.Grown s₁.vmem s₁.base.toNat j m ∧
      ∀ i < j, (c.frame m (s₁.base.toNat / 0x1000 + i)).isSome)
    ⟨⟨hs.ok, fun _ _ _ ↦ rfl⟩, fun _ h ↦ absurd h (Nat.not_lt_zero _)⟩
    (fun i m hi h hC ↦ h.1.turn_of_memory h.2 hs.ge (upward_lt hlt hi) hC (hmemory i hi)) hg
  refine ⟨⟨m, s₁.base + incr⟩, ?_, ?_, hgrown, hmaps⟩
  · rw [grow_eq alloc (by omega), hn, hexec, map_some]
  · show (s₁.base + incr).toNat = _
    rw [UInt32.toNat_add, hn, Nat.mod_eq_of_lt (by omega)]

theorem Backed.grow (h : c.Backed s₁) {n : ℕ} (hpos : 0 < n)
    (hbase : s'.base.toNat = s₁.base.toNat + n) (hlt : s'.base.toNat < c.limit)
    (hfits : (c.frame s₁.vmem ((s₁.base.toNat + n - 1) / 0x1000)).isSome ∨
      s₁.base.toNat / 0x1000 ≠ (s₁.base.toNat + n) / 0x1000 ∧
        s₁.base.toNat % 0x1000 + (n - 1) % 0x1000 < 0x1000)
    (hgrown : c.Grown s₁.vmem s₁.base.toNat (turnsFor s₁.base.toNat (s₁.base.toNat + n) n) s'.vmem)
    (hmaps : ∀ i < turnsFor s₁.base.toNat (s₁.base.toNat + n) n,
      (c.frame s'.vmem (s₁.base.toNat / 0x1000 + i)).isSome) : c.Backed s' := by
  intro pg hge hbelow
  -- What was mapped still is.
  have hkeeps : (c.frame s₁.vmem pg).isSome → (c.frame s'.vmem pg).isSome := by
    intro hmapped
    rw [hgrown.keeps pg (by omega) (.inl hmapped)]
    exact hmapped
  by_cases hold : pg * 0x1000 < s₁.base.toNat
  · exact hkeeps (h pg hge hold)
  -- A page that the loop visits.
  have hvisited : pg - s₁.base.toNat / 0x1000 < turnsFor s₁.base.toNat (s₁.base.toNat + n) n →
      (c.frame s'.vmem pg).isSome := by
    intro hlt
    have hself := hmaps _ hlt
    rwa [show s₁.base.toNat / 0x1000 + (pg - s₁.base.toNat / 0x1000) = pg by omega] at hself
  rcases hfits with hmapped | ⟨hdiff, hroom⟩
  · by_cases hlast : pg = (s₁.base.toNat + n - 1) / 0x1000
    · rw [← hlast] at hmapped
      exact hkeeps hmapped
    · refine hvisited ?_
      rw [turnsFor, if_neg (by omega)]
      omega
  · refine hvisited ?_
    rw [turnsFor, if_neg hdiff]
    omega

theorem Backed.shrink (h : c.Backed s₁) (hs : c.Started s₁) {n : ℕ} (hpos : 0 < n)
    (hbase : s'.base.toNat + n = s₁.base.toNat) (hfits : FitsDown s₁.base.toNat s'.base.toNat n)
    (hshrunk : c.Shrunk s₁.vmem s₁.base.toNat (turnsFor s₁.base.toNat s'.base.toNat n)
      (s'.vmem, freed)) : c.Backed s' := by
  intro pg hge hbelow
  have hlim := hs.lt
  -- The loop does not get down to this page.
  have hout : pg + turnsFor s₁.base.toNat s'.base.toNat n ≤ s₁.base.toNat / 0x1000 := by
    rw [turnsFor]
    rcases hfits with hsame | hstart | hroom
    · rw [if_pos hsame]
      omega
    · split <;> omega
    · split <;> omega
  rw [hshrunk.keeps pg (by omega) (.inr hout)]
  exact h pg hge (by omega)

theorem Backed.next (h : c.Backed s) (hs : c.Inv s)
    (hge : port.heapBase.toNat ≤ brk port s + call.incr.toInt) (hgood : c.Supplied s call)
    (hfits : c.Fits s call) : ∃ s', step port s call = some s' ∧ c.Inv s' ∧ c.Backed s' := by
  obtain ⟨s₁, hstart, hstarted, hbrk, hframe⟩ := c.start_spec hs hgood.1
  have hmapped : ∀ pg, pg * 0x1000 < c.limit → ((c.frame s₁.vmem pg).isSome ↔ c.Mapped s pg) :=
    fun pg hpg ↦ isSome_of_start (hframe pg hpg)
  have hbacked : c.Backed s₁ := h.start hbrk hstarted hmapped
  obtain ⟨hlt, hup, hdown⟩ := hfits
  -- The call returns.
  obtain ⟨ret, s', freed, hcall, hbacked'⟩ : ∃ ret s' freed,
      dlmallocSbrk port s call = some (ret, s', freed) ∧ c.Backed s' := by
    rw [← hbrk] at hge hlt hup hdown
    rcases dlmallocSbrk_cases hstart with ⟨-, heq⟩ | ⟨hneg, hint, hn, heq⟩ | ⟨hpos, hint, hn, heq⟩
    all_goals rw [heq]
    · exact ⟨_, _, _, rfl, hbacked⟩
    · obtain ⟨s', freed, hshrink, hbase, hshrunk⟩ :=
        @shrink_spec M port s₁ c hstarted (-call.incr).toUInt32 _ rfl (by omega)
      refine ⟨s'.base, s', freed, ?_, ?_⟩
      · rw [hshrink, map_some]
      · refine hbacked.shrink hstarted hn hbase ?_ hshrunk
        have hfits := hdown hneg
        rwa [show (s₁.base.toNat + call.incr.toInt).toNat = s'.base.toNat by omega,
          show (-call.incr.toInt).toNat = (-call.incr).toUInt32.toNat by omega] at hfits
    · have hfits := hup hpos
      rw [show call.incr.toInt.toNat = call.incr.toUInt32.toNat by omega] at hfits
      obtain ⟨hroom, hmemory⟩ := hfits
      obtain ⟨s', hgrow, hbase, hgrown, hmaps⟩ :=
        c.grow_spec hstarted rfl (by omega) (hgood.2 s₁ hstart hpos) fun i hi ↦ by
          have hlast := upward_lt (c := c) (by omega) hi
          rw [hmapped _ (by omega)]
          exact hmemory i hi
      refine ⟨s₁.base, s', [], ?_, ?_⟩
      · rw [hgrow, map_some]
      · rw [← hmapped _ (by omega)] at hroom
        exact hbacked.grow hn hbase (by omega) hroom hgrown hmaps
  have hstep : step port s call = some s' := by rw [step, hcall, map_some]
  obtain ⟨s2, hs2, hstarted2, hbrk2, houtcome⟩ := outcome_of_call hs ⟨hge, hlt⟩ hgood hcall
  refine ⟨s', hstep, .inr (houtcome.started hstarted2 ?_ ?_), hbacked'⟩
  · rw [hbrk2]
    exact hge
  · rw [hbrk2]
    exact hlt

theorem backed_of_base_eq_zero (hzero : s.base = 0) : c.Backed s := by
  intro pg _ hlt
  rw [hzero] at hlt
  exact absurd hlt (Nat.not_lt_zero _)

end Contract

/-- **When every byte of the heap is mapped**, after every call: if all calls fit.  Then they also
return. -/
theorem always_covered (c : Contract port) (hzero : s.base = 0) (hfresh : c.Fresh s.vmem)
    {calls : List Call} (hdomain : Run.Guarded (step port) (fun s call ↦
      port.heapBase.toNat ≤ brk port s + call.incr.toInt ∧ c.Supplied s call) s calls)
    (hfits : Run.Guarded (step port) c.Fits s calls) :
    Run.Always (step port) (Covered port) s calls := by
  refine Run.Always.mono (P := fun s ↦ c.Inv s ∧ c.Backed s) (fun s h ↦ h.2.covered h.1) ?_
  refine Run.always_of_guarded (fun s call h hC ↦ ?_)
    ⟨.inl ⟨hzero, hfresh⟩, c.backed_of_base_eq_zero hzero⟩ (hdomain.and hfits)
  exact h.2.next h.1 hC.1.1 hC.1.2 hC.2

/-- Growing by a page from `HEAP_BASE` fits. -/
theorem always_covered_onePage :
    Run.Always (step (x86 0x400000 0x2000)) (Covered (x86 0x400000 0x2000)) ⟨Vmem.blank, 0⟩
      [⟨0x1000, noMemory⟩] := by
  have hbrk : brk (x86 0x400000 0x2000) ⟨Vmem.blank, 0⟩ = 0xD0000000 := by decide
  have hincr : (0x1000 : Int32).toInt = 0x1000 := by decide
  refine @always_covered Vmem (x86 0x400000 0x2000) ⟨Vmem.blank, 0⟩ (x86Contract 0x400000 0x2000)
    rfl fresh_blank _ ⟨⟨by decide, supplied_noMemory _ _⟩, fun _ _ ↦ trivial⟩
    ⟨⟨by decide, fun _ ↦ ?_, fun hneg ↦ absurd hneg (by decide)⟩, fun _ _ ↦ trivial⟩
  rw [hbrk, hincr]
  refine ⟨.inr (by decide), fun i hi ↦ .inl (.inl ⟨rfl, ?_⟩)⟩
  have hone : turnsFor 0xD0000000 (0xD0000000 + 0x1000) 0x1000 = 1 := by decide
  obtain rfl : i = 0 := Nat.lt_one_iff.mp (hone ▸ hi)
  rfl

/-- **A page is missed** when the break is moved up by half a page, and then by a page. -/
theorem not_covered_halfPage : ∃ m,
    Run.exec (step (x86 0x400000 0x2000)) ⟨Vmem.blank, 0⟩
      [⟨0x800, noMemory⟩, ⟨0x1000, noMemory⟩] = some ⟨m, 0xD0001800⟩ ∧
    m.archVmemIsmapped 0xD0001000 = some false ∧
    ¬ Covered (x86 0x400000 0x2000) ⟨m, 0xD0001800⟩ := by
  obtain ⟨m, hstart, hismapped⟩ := start_blank
  have hmissed : m.archVmemIsmapped 0xD0001000 = some false := hismapped _ (by decide)
  have hmapped : m.archVmemIsmapped 0xD0000800 = some true := hismapped _ (by decide)
  have hfirst : step (x86 0x400000 0x2000) ⟨Vmem.blank, 0⟩ ⟨0x800, noMemory⟩ =
      some ⟨m, 0xD0000800⟩ := by
    have hnone : turnsFor 0xD0000000 (0xD0000000 + 0x800) 0x800 = 0 := by decide
    exact @step_of_ismapped Vmem (x86 0x400000 0x2000) ⟨Vmem.blank, 0⟩ ⟨m, 0xD0000000⟩
      ⟨0x800, noMemory⟩ 0xD0000000 0x800 hstart (by decide) rfl rfl (by decide)
      fun i hi ↦ absurd (hnone ▸ hi) (Nat.not_lt_zero i)
  have hsecond : step (x86 0x400000 0x2000) ⟨m, 0xD0000800⟩ ⟨0x1000, noMemory⟩ =
      some ⟨m, 0xD0001800⟩ := by
    have hone : turnsFor 0xD0000800 (0xD0000800 + 0x1000) 0x1000 = 1 := by decide
    refine @step_of_ismapped Vmem (x86 0x400000 0x2000) ⟨m, 0xD0000800⟩ ⟨m, 0xD0000800⟩
      ⟨0x1000, noMemory⟩ 0xD0000800 0x1000 rfl (by decide) rfl rfl (by decide) fun i hi ↦ ?_
    obtain rfl : i = 0 := Nat.lt_one_iff.mp (hone ▸ hi)
    exact hmapped
  refine ⟨m, ?_, hmissed, fun h ↦ ?_⟩
  · exact Run.exec_cons_eq_some.mpr ⟨_, hfirst, Run.exec_cons_eq_some.mpr ⟨_, hsecond, rfl⟩⟩
  · have hlt : (0xD0001000 : UInt32) < 0xD0001800 := by decide
    exact absurd (hmissed.symm.trans (h 0xD0001000 (by decide) hlt)) (by decide)

end ForgeOS.Sbrk
