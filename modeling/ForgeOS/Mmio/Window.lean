import ForgeOS.Context.Model
import ForgeOS.Mmio.Pages
import ForgeOS.Mmio.Regions

/-!
# The window for devices on x86

`_kmain` gives the pool 0xF0000000 bytes from 0xF0000000.

The main result is `always_safe_iff`.
-/

namespace ForgeOS.MmioPool

open List Option Context

def mmioBase : UInt32 := 0xF0000000

def mmioLength : UInt32 := 0xF0000000

def stackTop : ℕ := 0xFFC00000

def stackSize : ℕ := 0x4000

namespace Grant

def Clear (g : Grant) (lo hi : ℕ) : Prop := g.addr.toNat + g.size ≤ lo ∨ hi ≤ g.addr.toNat

/-- What a call has got does not reach past the last address, nor into the stacks, the boot stack or
the page tables. -/
structure Safe (stackpool : Pool) (g : Grant) : Prop where
  inside : g.addr.toNat + g.size ≤ 2 ^ 32
  threadStacks : g.Clear stackpool.base
    (stackpool.base + stackpool.bufferSize * stackpool.bufferCount)
  bootStack : g.Clear (stackTop - stackSize) stackTop
  pageTables : g.Clear Vmem.pdirBase.toNat (2 ^ 32)

end Grant

def Safe (stackpool : Pool) (s : MmioPool) : Prop := ∀ g ∈ s.grants, g.Safe stackpool

def taken (s : MmioPool) : ℕ := (s.grants.map Grant.size).sum

/-- A request fits below the stacks with all that went before, or it is for more than is left of the
window.  In that case its pages must not be more than a word can count. -/
def Room (s : MmioPool) (op : Op) : Prop :=
  s.taken + wholePages (extent op.len op.tophys) ≤ 0x0BBFC000 ∨
    (0xF0000000 < s.taken + wholePages (extent op.len op.tophys) ∧
      wholePages (extent op.len op.tophys) < 2 ^ 32)

instance (s : MmioPool) (op : Op) : Decidable (s.Room op) := inferInstanceAs (Decidable (_ ∨ _ ∧ _))

variable {vmem : Vmem} {s : MmioPool} {es : List Entry} {e : Entry} {op : Op}

theorem stacks_initContext (vmem : Vmem) :
    (initContext vmem).base = 0xFBBFC000 ∧
      (initContext vmem).base + (initContext vmem).bufferSize *
        (initContext vmem).bufferCount = 0xFFBFC000 := by
  simp [initContext, Pool.createPoolAt]

theorem Grant.safe_iff {g : Grant} (hlow : 0xF0000000 ≤ g.addr.toNat)
    (hhigh : g.addr.toNat ≤ 0xFBBFC000) :
    g.Safe (initContext vmem) ↔ g.addr.toNat + g.size ≤ 0xFBBFC000 := by
  have hpage : 0x1000 ≤ g.size := page_le_wholePages _
  obtain ⟨hbase, hend⟩ := stacks_initContext vmem
  constructor
  · intro h
    have hstacks := h.threadStacks
    rw [Grant.Clear, hend, hbase] at hstacks
    omega
  · intro h
    exact ⟨by omega, .inl (h.trans hbase.ge), .inl (h.trans (by decide)),
      .inl (h.trans (by decide))⟩

structure Inside (vmem : Vmem) (s : MmioPool) (es : List Entry) (e : Entry) : Prop where
  holds : s.Holds es e
  free : e.region.allocated = false
  base : e.region.base.toNat = 0xF0000000 + s.taken
  len : e.region.len.toNat = 0xF0000000 - s.taken
  room : s.taken ≤ 0x0BBFC000
  safe : s.Safe (initContext vmem)

theorem Inside.room_of_lt (h : Inside vmem s es e) (hno : e.region.len < pageLen op.len op.tophys) :
    s.Room op := by
  have hlt := UInt32.lt_iff_toNat_lt.mp hno
  have hroom := h.room
  rw [h.len] at hlt
  have hwhole : wholePages (extent op.len op.tophys) < 2 ^ 32 := by
    by_contra hle
    have hsmall := toNat_pageLen_le (Nat.le_of_not_lt hle)
    omega
  rw [toNat_pageLen hwhole] at hlt
  exact .inr ⟨by omega, hwhole⟩

theorem Inside.room_iff (h : Inside vmem s es e)
    (hyes : ¬ e.region.len < pageLen op.len op.tophys) :
    s.Room op ↔ s.taken + wholePages (extent op.len op.tophys) ≤ 0x0BBFC000 := by
  refine or_iff_left ?_
  rintro ⟨hmore, hwhole⟩
  refine hyes (UInt32.lt_iff_toNat_lt.mpr ?_)
  rw [h.len, toNat_pageLen hwhole]
  have hroom := h.room
  omega

theorem Inside.step (h : Inside vmem s es e) (hfresh : s.Fresh op) :
    ∃ s', s.step op = some s' ∧ (s'.Safe (initContext vmem) ↔ s.Room op) ∧
      (s'.Safe (initContext vmem) → ∃ es' e', Inside vmem s' es' e') := by
  have hroom := h.room
  by_cases hno : e.region.len < pageLen op.len op.tophys
  · refine ⟨s, ?_, iff_of_true h.safe (h.room_of_lt hno), fun _ ↦ ⟨es, e, h⟩⟩
    rw [MmioPool.step, h.holds.call_none (.inr hno), map_some]
  · have hyes : ¬ (e.region.allocated ∨ e.region.len < pageLen op.len op.tophys) := by
      rw [h.free]
      simpa using hno
    obtain ⟨s', hcall, hlists, -, hgrants⟩ := h.holds.call_some hfresh hyes
    have htaken : s'.taken = wholePages (extent op.len op.tophys) + s.taken := by
      rw [taken, hgrants, map_cons, sum_cons]
      rfl
    have hsafe : s'.Safe (initContext vmem) ↔
        s.taken + wholePages (extent op.len op.tophys) ≤ 0x0BBFC000 := by
      have hhigh : e.region.base.toNat ≤ 0xFBBFC000 := by
        rw [h.base]
        omega
      have hnew : Grant.Safe (initContext vmem) ⟨e.region.base, op.len, op.tophys⟩ ↔
          e.region.base.toNat + wholePages (extent op.len op.tophys) ≤ 0xFBBFC000 :=
        Grant.safe_iff (h.base ▸ Nat.le_add_right ..) hhigh
      rw [Safe, hgrants, forall_mem_cons, hnew, h.base,
        and_iff_left (show ∀ g ∈ s.grants, _ from h.safe)]
      omega
    refine ⟨s', ?_, hsafe.trans (h.room_iff hno).symm, fun hsafe' ↦ ?_⟩
    · rw [MmioPool.step, hcall, map_some]
    have hfits := hsafe.mp hsafe'
    have hsize : (pageLen op.len op.tophys).toNat = wholePages (extent op.len op.tophys) :=
      toNat_pageLen (by omega)
    have hbase := h.base
    have hlen := h.len
    -- Some of the window is always left, as it is longer than the addresses below the stacks.
    rcases h.holds.next rfl hlists with ⟨heq, -⟩ | ⟨-, hholds⟩
    · rw [heq] at hlen
      omega
    · refine ⟨_, _, hholds, rfl, ?_, ?_, by omega, hsafe'⟩
      · show (e.region.base + pageLen op.len op.tophys).toNat = _
        rw [UInt32.toNat_add, Nat.mod_eq_of_lt (by omega)]
        omega
      · show (e.region.len - pageLen op.len op.tophys).toNat = _
        rw [UInt32.toNat_sub_of_le _ _ (UInt32.not_lt.mp hno)]
        omega

/-- **When the regions are the callers' own**: there has been room for each request. -/
theorem always_safe_iff (vmem : Vmem) (space : Vmem.Space) (a c : Ptr) (junk : LList.Node Ptr)
    (ha : a ≠ 0) (hc : c ≠ 0) (ops : List Op) :
    ∃ s₀, initMmiopool space a c junk mmioBase mmioLength = some s₀ ∧
      (Run.Guarded step Fresh s₀ ops →
        (Run.Always step (Safe (initContext vmem)) s₀ ops ↔
          Run.Guarded step Room s₀ ops)) := by
  obtain ⟨s₀, hs0, hholds, hgrants⟩ := holds_initMmiopool space mmioBase mmioLength ha hc junk
  refine ⟨s₀, hs0, fun hops ↦ ?_⟩
  have htaken : s₀.taken = 0 := by rw [taken, hgrants]; rfl
  have hinside : Inside vmem s₀ [] ⟨c, a, ⟨mmioBase, mmioLength, false⟩⟩ := by
    refine ⟨hholds, rfl, ?_, ?_, by omega, ?_⟩
    · rw [htaken]
      rfl
    · rw [htaken]
      rfl
    · rw [Safe, hgrants]
      exact fun g hg ↦ absurd hg not_mem_nil
  refine Run.always_iff_guarded_of_inv (I := fun s ↦ ∃ es e, Inside vmem s es e) ?_ ?_ ⟨_, _,
    hinside⟩ hops
  · rintro s ⟨es, e, h⟩
    exact h.safe
  · rintro s op ⟨es, e, h⟩ hfresh
    exact h.step hfresh

def twoDevices : List Op :=
  [⟨3, 4, ⟨0, 0, 0⟩, 0x100, 0xFEC00000⟩, ⟨5, 6, ⟨0, 0, 0⟩, 0x20000, 0xFEBC0000⟩]

theorem always_safe_twoDevices :
    ∃ s₀, initMmiopool ⟨fun _ ↦ none, 0⟩ 1 2 ⟨0, 0, 0⟩ mmioBase mmioLength = some s₀ ∧
      Run.Guarded step Fresh s₀ twoDevices ∧ Run.Guarded step Room s₀ twoDevices ∧
      Run.Always step (Safe (initContext Vmem.blank)) s₀ twoDevices := by
  obtain ⟨s₀, hs0, h⟩ := always_safe_iff Vmem.blank ⟨fun _ ↦ none, 0⟩ 1 2 ⟨0, 0, 0⟩ (by decide)
    (by decide) twoDevices
  have hs0' := some.inj hs0
  have hfresh : Run.Guarded step Fresh s₀ twoDevices := by
    subst hs0'
    decide
  have hroom : Run.Guarded step Room s₀ twoDevices := by
    subst hs0'
    decide
  exact ⟨s₀, hs0, hfresh, hroom, (h hfresh).mpr hroom⟩

/-- **The window has other owners.**  A request of half a gigabyte is served, with addresses of the
stacks, the boot stack and the page tables, and with some that do not exist. -/
theorem not_safe_halfGigabyte :
    ∃ s₀ s g, initMmiopool ⟨fun _ ↦ none, 0⟩ 1 2 ⟨0, 0, 0⟩ mmioBase mmioLength = some s₀ ∧
      s₀.call ⟨3, 4, ⟨0, 0, 0⟩, 0x20000000, 0⟩ = some (0xF0000000, s) ∧ s.grants = [g] ∧
      s.regionAt 0 = some ⟨0xF0000000, 0x20000000, true⟩ ∧
      ¬ g.addr.toNat + g.size ≤ 2 ^ 32 ∧
      ¬ g.Clear (initContext Vmem.blank).base 0xFFBFC000 ∧
      ¬ g.Clear (stackTop - stackSize) stackTop ∧ ¬ g.Clear Vmem.pdirBase.toNat (2 ^ 32) := by
  obtain ⟨s₀, hs0, hholds, hgrants⟩ := holds_initMmiopool ⟨fun _ ↦ none, 0⟩ mmioBase mmioLength
    (show (1 : Ptr) ≠ 0 by decide) (show (2 : Ptr) ≠ 0 by decide) ⟨0, 0, 0⟩
  have hfresh : s₀.Fresh ⟨3, 4, ⟨0, 0, 0⟩, 0x20000000, 0⟩ := by
    obtain rfl := some.inj hs0
    decide
  obtain ⟨s, hcall, hlists, -, hs⟩ := hholds.call_some hfresh (by decide)
  rw [hgrants] at hs
  refine ⟨s₀, s, _, hs0, hcall, hs, ?_, ?_, ?_, ?_, ?_⟩
  · rw [hlists.regionAt]
    decide
  · decide
  · unfold Grant.Clear
    decide
  · unfold Grant.Clear
    decide
  · unfold Grant.Clear
    decide

end ForgeOS.MmioPool
