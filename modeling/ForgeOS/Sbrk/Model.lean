import Mathlib.Data.Nat.Basic
import ForgeOS.Lib.Stride

/-!
# The break of the heap

`dlmalloc_sbrk` moves the break up or down, by any number of bytes, and maps or unmaps the pages it
passes.  It works on the functions of `vmem.h`, which are what a `Port` has, on states of the port's
own.  A `none` result is a fault or a panic.  The calls of `pmem_dealloc` are written down, each
with the address whose page has been unmapped before it.  Not part of the model are the contents of
the pages, and the calls of `malloc` by which `pmem_alloc` and `pmem_dealloc` may come back to
`dlmalloc_sbrk` while it is at work.
-/

namespace ForgeOS

/-- What a port of the kernel has for `sbrk.c`: `HEAP_BASE`, the physical addresses of `first_page`
and `prime_page`, and the functions of `vmem.h`. -/
structure Port (M : Type) where
  heapBase : UInt32
  firstPage : UInt64
  primePage : UInt64
  vmemPrime : M → UInt64 → M
  vmemMap : M → UInt32 → UInt64 → UInt32 → UInt64 × UInt64 → Option (ℤ × M)
  vmemUnmap : M → UInt32 → Option M
  vmemIsmapped : M → UInt32 → Option Bool
  vmemV2p : M → UInt32 → Option UInt64

/-- The page tables, and the break; 0 if there is no heap yet. -/
structure Sbrk (M : Type) where
  vmem : M
  base : UInt32

namespace Sbrk

/-- `dlmalloc_sbrk(incr)`, and what `pmem_alloc` returns during it. -/
structure Call where
  incr : Int32
  alloc : ℕ → UInt64 × UInt64

def pageAligned (x : UInt32) : UInt32 := x &&& ~~~0xFFF

/-- `VMEM_READWRITE | VMEM_SUPERVISOR | VMEM_GLOBAL`. -/
def heapFlags : UInt32 := 0x101

def turns : ℕ := 0x100000

variable {M : Type} (port : Port M)

/-- The first page is mapped, if there is no heap yet. -/
def start (s : Sbrk M) (alloc : UInt64 × UInt64) : Option (Sbrk M) :=
  if s.base = 0 then do
    let vmem := port.vmemPrime s.vmem port.primePage
    let (_, vmem) ← port.vmemMap vmem port.heapBase port.firstPage heapFlags alloc
    some ⟨vmem, port.heapBase⟩
  else some s

/-- A turn of the loop that maps pages, the `i`th one, for the address `v`. -/
def growTurn (alloc : ℕ → UInt64 × UInt64) (vmem : M) : ℕ × UInt32 → Option M
  | (i, v) => do
    if (← port.vmemIsmapped vmem v) then some vmem
    else
      let (_, vmem) ← port.vmemMap vmem v (~~~0) heapFlags (alloc (i + 1))
      some vmem

/-- A turn of the loop that unmaps pages, for the address `v`. -/
def shrinkTurn : M × List (UInt32 × UInt64) → UInt32 → Option (M × List (UInt32 × UInt64))
  | (vmem, freed), v => do
    if (← port.vmemIsmapped vmem v) then
      let p ← port.vmemV2p vmem v
      let vmem ← port.vmemUnmap vmem v
      some (vmem, freed ++ [(v, p)])
    else some (vmem, freed)

def grow (s : Sbrk M) (incr : UInt32) (alloc : ℕ → UInt64 × UInt64) : Option (Sbrk M) :=
  let base := s.base + incr
  if pageAligned s.base ≠ pageAligned base then do
    let vmem ← stride (fun iv ↦ iv.2 < base) (fun iv ↦ (iv.1 + 1, iv.2 + 0x1000))
      (growTurn port alloc) turns (0, s.base) s.vmem
    some ⟨vmem, base⟩
  else some ⟨s.vmem, base⟩

def shrink (s : Sbrk M) (incr : UInt32) : Option (Sbrk M × List (UInt32 × UInt64)) :=
  let base := s.base - incr
  if pageAligned s.base ≠ pageAligned base then do
    let (vmem, freed) ← stride (fun v ↦ v > base) (fun v ↦ v - 0x1000) (shrinkTurn port) turns
      s.base (s.vmem, [])
    some (⟨vmem, base⟩, freed)
  else some (⟨s.vmem, base⟩, [])

/-- `dlmalloc_sbrk`: what it returns, the state after it, and the calls of `pmem_dealloc`. -/
def dlmallocSbrk (s : Sbrk M) (call : Call) :
    Option (UInt32 × Sbrk M × List (UInt32 × UInt64)) := do
  let s ← start port s (call.alloc 0)
  if call.incr = 0 then some (s.base, s, [])
  else if call.incr < 0 then do
    let (s', freed) ← shrink port s (-call.incr).toUInt32
    some (s'.base, s', freed)
  else do
    let s' ← grow port s call.incr.toUInt32 call.alloc
    some (s.base, s', [])

def step (s : Sbrk M) (call : Call) : Option (Sbrk M) :=
  (dlmallocSbrk port s call).map fun r ↦ r.2.1

end Sbrk
end ForgeOS
