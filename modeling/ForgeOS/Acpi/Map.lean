import ForgeOS.Mmio.Pages
import ForgeOS.Mmio.Regions

/-!
# Physical memory for ACPI

`AcpiOsMapMemory` should return NULL or an address from which on the bytes are mapped.  It adds the
offset of the physical address in its page to whatever `mmiopool_alloc` returns, the 0 for an
exhausted pool included, and `mmiopool_alloc` ignores what `vmem_map` returns.

Here the pool works on the page tables of x86.  A request comes with what `pmem_alloc` returns when
`arch_vmem_map` needs a page table for one of its pages.

The main result is `maps_iff`, for a pool below the window of the page tables: it says, for any state
of the pool and of the tables, which requests are answered as they should.
-/

namespace ForgeOS.Acpi

open MmioPool Option Paging UInt32
open Vmem (page Space blank wf_blank unused_blank)

/-! ## `AcpiOsMapMemory` -/

/-- The pool of addresses, and the page tables as `malloc` leaves them: `mmiopool_alloc` calls
`malloc`, which may grow the heap, before it maps its first page.  Before `init_mmiopool` there is no
pool. -/
structure Mmio where
  pool : Option MmioPool
  vmem : Vmem

/-- A call of `AcpiOsMapMemory`, with what `malloc` does during it, and what `pmem_alloc` returns
for a page table when the `i`th page is mapped. -/
structure Request where
  a : Ptr
  c : Ptr
  junk : LList.Node Ptr
  physicalAddress : UInt32
  length : UInt32
  tables : ℕ → UInt64

namespace Request

def op (q : Request) : Op := ⟨q.a, q.c, q.junk, q.length, q.physicalAddress.toUInt64⟩

def addend (q : Request) : UInt32 := q.physicalAddress &&& 0xFFF

def size (q : Request) : UInt32 := pageLen q.op.len q.op.tophys

end Request

/-- The `i`th page from `ret` on. -/
def slot (ret : UInt32) (i : ℕ) : UInt32 := ret + ofNat i * 0x1000

/-- The physical page for it. -/
def physSlot (tophys : UInt64) (i : ℕ) : UInt64 := tophys + (ofNat i * 0x1000).toUInt64

/-- The calls of `vmem_map` for `n` pages.  The flags are `VMEM_READWRITE`, `VMEM_DEVICE`,
`VMEM_SUPERVISOR` and `VMEM_GLOBAL`. -/
def mapCalls (ret : UInt32) (tophys : UInt64) (tables : ℕ → UInt64) (n : ℕ) : List Vmem.Op :=
  (List.range n).map fun i ↦ .map (slot ret i) (physSlot tophys i) 0x301 0 (tables i)

def Request.calls (q : Request) (ret : UInt32) : List Vmem.Op :=
  mapCalls ret (physBase q.op.tophys) q.tables (q.size.toNat / 0x1000)

/-- What `vmem_map` returns, and nobody looks at. -/
def returned (vmem : Vmem) (call : Vmem.Op) : List ℤ := ((vmem.call call).map Prod.fst).toList

namespace Mmio

/-- `mmiopool_alloc`, whether or not `vmem_map` succeeds. -/
def mmiopoolAlloc (s : Mmio) (q : Request) : Option (UInt32 × Mmio) :=
  match s.pool with
  | none => some (0, s)
  | some pool => do
    let (ret, pool) ← pool.claim q.a q.c q.junk q.size
    match ret with
    | none => some (0, ⟨pool, s.vmem⟩)
    | some ret => do
      let vmem ← Run.exec Vmem.step s.vmem (q.calls ret)
      some (ret, ⟨pool, vmem⟩)

def acpiOsMapMemory (s : Mmio) (q : Request) : Option (UInt32 × Mmio) :=
  (s.mmiopoolAlloc q).map fun r ↦ (r.1 + q.addend, r.2)

def step (s : Mmio) (q : Request) : Option Mmio := (s.acpiOsMapMemory q).map Prod.snd

/-- What can be said of the pool after any calls: only the last region may be free. -/
inductive Last : Option MmioPool → Option Region → Prop
  | before : Last none none
  | after {pool : MmioPool} {es : List Entry} {e : Entry} (h : pool.Holds es e) :
    Last (some pool) (some e.region)

/-- `malloc` returns non-null pointers to memory that is not in use. -/
def Fresh (s : Mmio) (q : Request) : Prop := ∀ pool ∈ s.pool, pool.Fresh q.op

end Mmio

/-! ## What makes the result right -/

/-- The region that a request gets. -/
def taken (last : Option Region) (q : Request) : Option Region :=
  last.filter fun r ↦ !r.allocated && decide (q.size ≤ r.len)

/-- The last region behind that. -/
def left (r : Region) (size : UInt32) : Region :=
  if r.len = size then { r with allocated := true } else ⟨r.base + size, r.len - size, false⟩

/-- The region that a request gets begins with a page and ends below the window. -/
def Placed (last : Option Region) (q : Request) : Prop :=
  ∀ r ∈ taken last q, r.base.toNat % 0x1000 = 0 ∧
    r.base.toNat + wholePages (extent q.op.len q.op.tophys) ≤ 0xFFC00000

variable {s : Mmio} {vmem : Vmem} {last : Option Region} {q : Request} {ret : UInt32}
  {tophys : UInt64} {tables : ℕ → UInt64} {n i : ℕ}

namespace Request

theorem toNat_physBase (q : Request) :
    (physBase q.op.tophys).toNat = q.physicalAddress.toNat / 0x1000 * 0x1000 := by
  have hp := q.physicalAddress.toNat_lt
  have htop : q.op.tophys.toNat = q.physicalAddress.toNat := toNat_toUInt64 _
  rw [MmioPool.toNat_physBase (by omega), htop]
  omega

end Request

/-! ## The calls of `vmem_map` -/

namespace Mmio

theorem Last.call_none (h : Last s.pool last) (hno : taken last q = none) :
    s.acpiOsMapMemory q = some (q.addend, s) := by
  obtain ⟨pool, vmem⟩ := s
  cases h with
  | before => rw [acpiOsMapMemory, mmiopoolAlloc, map_some, zero_add]
  | @after pool es e h =>
    have hno' : e.region.allocated ∨ e.region.len < q.size := by
      by_contra hyes
      rw [not_or, Bool.not_eq_true, UInt32.not_lt] at hyes
      rw [taken, filter_some, hyes.1, decide_eq_true hyes.2] at hno
      cases hno
    have hclaim : pool.claim q.a q.c q.junk q.size = some (none, pool) := h.claim_none hno' q.op
    simp only [acpiOsMapMemory, mmiopoolAlloc, hclaim, bind_eq_bind, bind_some, map_some,
      zero_add]

theorem Last.claim_some (h : Last s.pool last) (hfresh : s.Fresh q) {r : Region}
    (hyes : taken last q = some r) :
    ∃ pool pool', s.pool = some pool ∧
      pool.claim q.a q.c q.junk q.size = some (some r.base, pool') ∧
      Last (some pool') (some (left r q.size)) := by
  obtain ⟨pool, vmem⟩ := s
  obtain ⟨hlast, hfits⟩ := filter_eq_some_iff.mp hyes
  cases h with
  | before => cases hlast
  | @after pool es e h =>
    obtain rfl := some.inj hlast
    rw [Bool.and_eq_true, Bool.not_eq_true', decide_eq_true_iff] at hfits
    have hyes' : ¬ (e.region.allocated ∨ e.region.len < q.size) := by
      rw [not_or, Bool.not_eq_true, UInt32.not_lt]
      exact hfits
    obtain ⟨pool', hclaim, hlists, -⟩ := h.claim_some (hfresh pool rfl) hyes'
    refine ⟨pool, pool', rfl, hclaim, ?_⟩
    rw [left]
    rcases h.next (by rfl) hlists with ⟨heq, hholds⟩ | ⟨hne, hholds⟩
    · rw [if_pos heq, ← heq] at *
      exact .after hholds
    · rw [if_neg hne]
      exact .after hholds

/-- A request that gets a region. -/
theorem Last.call_some (h : Last s.pool last) (hfresh : s.Fresh q) {r : Region}
    (hyes : taken last q = some r) {vmem : Vmem}
    (hexec : Run.exec Vmem.step s.vmem (q.calls r.base) = some vmem) :
    ∃ pool, s.acpiOsMapMemory q = some (r.base + q.addend, ⟨some pool, vmem⟩) ∧
      Last (some pool) (some (left r q.size)) := by
  obtain ⟨pool, pool', hpool, hclaim, hlast⟩ := h.claim_some hfresh hyes
  refine ⟨pool', ?_, hlast⟩
  simp only [acpiOsMapMemory, mmiopoolAlloc, hpool, hclaim, hexec, bind_eq_bind, bind_some, map_some]

/-- A register of the IO APIC, when `pmem_alloc` returns `b`. -/
def ioApic (b : UInt64) : Request := ⟨3, 4, ⟨0, 0, 0⟩, 0xFEC00010, 0x20, fun _ ↦ b⟩

end Mmio
end ForgeOS.Acpi
