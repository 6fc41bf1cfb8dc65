import ForgeOS.LList.Model
import ForgeOS.Vmem.Refine

/-!
# The pool of addresses for memory-mapped devices

`mmiopool.c` hands out addresses from one range, which is divided into regions that are kept in a
list of `llist.c` in the order of their addresses. `mmiopool_alloc` takes the first region that is
free and large enough and splits it.  Nothing is ever given back.

All sizes and addresses are words and wrap.  `malloc` is handed the addresses it returns, `a` for a
region and `c` for a node of the list, with what is left in the node.  A `none` result is a fault.
All that is kept of the page tables is the frame of each page, and `vmem_map` succeeds; `claim` is
the part of `mmiopool_alloc` that does not depend on that.
-/

namespace ForgeOS

open Paging

structure MmioPool.Region where
  base : UInt32
  len : UInt32
  allocated : Bool
  deriving DecidableEq

structure MmioPool.Grant where
  addr : UInt32
  len : UInt32
  tophys : UInt64
  deriving DecidableEq

/-- The pool: the list of the regions, the regions, and the pages that are mapped. -/
structure MmioPool where
  freelist : LList Ptr
  regions : Heap Ptr MmioPool.Region
  space : Vmem.Space
  grants : List MmioPool.Grant

namespace MmioPool

def initMmiopool (space : Vmem.Space) (a c : Ptr) (junk : LList.Node Ptr)
    (mmiobase maxsz : UInt32) : Option MmioPool := do
  let regions ← Heap.empty.alloc a ⟨mmiobase, maxsz, false⟩
  let freelist ← LList.createList.listInsert c junk a 0
  some ⟨freelist, regions, space, []⟩

/-- The length of the region for a request: the offset of the physical address in its page is added,
and the sum is rounded up to whole pages. -/
def pageLen (len : UInt32) (tophys : UInt64) : UInt32 :=
  let len := if tophys &&& 0xFFF ≠ 0 then len + (tophys &&& 0xFFF).toUInt32 else len
  let len := if len < 0x1000 then 0x1000 else len
  if len % 0x1000 ≠ 0 then (len + 0x1000) &&& ~~~0xFFF else len

/-- The physical address of the first page.  The mask has 32 bits. -/
def physBase (tophys : UInt64) : UInt64 :=
  if tophys &&& 0xFFF ≠ 0 then tophys &&& (~~~0xFFF : UInt32).toUInt64 else tophys

/-- The loop that looks for a region, from position `i` on, with `k` positions to go before
`list_at` finds the end of the list.  The result is the position after the region, and the region.
-/
def find (s : MmioPool) (len : UInt32) : ℕ → ℕ → Option (Option (ℕ × Ptr × Region))
  | 0, _ => some none
  | k + 1, i => do
    match ← s.freelist.listAt i with
    | none => some none
    | some p => do
      let r ← s.regions.read p
      if r.allocated ∨ r.len < len then find s len k (i + 1) else some (some (i + 1, p, r))

/-- What is left of the region `r` goes into the list, at position `i`. -/
def split (s : MmioPool) (a c : Ptr) (junk : LList.Node Ptr) (r : Region) (len : UInt32) (i : ℕ) :
    Option MmioPool :=
  if r.len ≠ len then do
    let regions ← s.regions.alloc a ⟨r.base + len, r.len - len, false⟩
    let freelist ← s.freelist.listInsert c junk a i
    some { s with freelist := freelist, regions := regions }
  else some s

def vmemMap (m : Vmem.Space) (v : UInt32) (p : UInt64) : Vmem.Space :=
  m.set (Vmem.page v) (some (frameOf p.toUInt32))

def mapPages (m : Vmem.Space) (ret : UInt32) (tophys : UInt64) (n : ℕ) : Vmem.Space :=
  (List.range n).foldl (fun m i ↦
    vmemMap m (ret + UInt32.ofNat i * 0x1000) (tophys + (UInt32.ofNat i * 0x1000).toUInt64)) m

/-- What `mmiopool_alloc` does to the list: it finds a region of `size` bytes, puts back what it
does not need, and marks the rest.  The result is the start of the region, if there is one. -/
def claim (s : MmioPool) (a c : Ptr) (junk : LList.Node Ptr) (size : UInt32) :
    Option (Option UInt32 × MmioPool) := do
  match ← s.find size s.freelist.len 0 with
  | none => some (none, s)
  | some (i, p, r) => do
    let s ← s.split a c junk r size i
    let regions ← s.regions.modify p fun r ↦ { r with len := size, allocated := true }
    some (some r.base, { s with regions := regions })

/-- `mmiopool_alloc`, if `vmem_map` succeeds. -/
def mmiopoolAlloc (s : MmioPool) (a c : Ptr) (junk : LList.Node Ptr) (len : UInt32)
    (tophys : UInt64) : Option (UInt32 × MmioPool) := do
  let size := pageLen len tophys
  let (ret, s) ← s.claim a c junk size
  match ret with
  | none => some (0, s)
  | some ret =>
    some (ret,
      { s with
        space := mapPages s.space ret (physBase tophys) (size.toNat / 0x1000)
        grants := ⟨ret, len, tophys⟩ :: s.grants })

/-- A call of `mmiopool_alloc`, with what `malloc` does during it. -/
structure Op where
  a : Ptr
  c : Ptr
  junk : LList.Node Ptr
  len : UInt32
  tophys : UInt64

def call (s : MmioPool) (op : Op) : Option (UInt32 × MmioPool) :=
  s.mmiopoolAlloc op.a op.c op.junk op.len op.tophys

def step (s : MmioPool) (op : Op) : Option MmioPool := (s.call op).map Prod.snd

/-- `malloc` returns non-null pointers to memory that is not in use. -/
def Fresh (s : MmioPool) (op : Op) : Prop :=
  op.a ≠ 0 ∧ s.regions.read op.a = none ∧ op.c ≠ 0 ∧ s.freelist.heap.read op.c = none

instance (s : MmioPool) (op : Op) : Decidable (s.Fresh op) :=
  inferInstanceAs (Decidable (_ ∧ _ ∧ _ ∧ _))

def regionAt (s : MmioPool) (i : ℕ) : Option Region :=
  (s.freelist.listAt i).bind fun p ↦ p.bind fun p ↦ s.regions.read p

end MmioPool
end ForgeOS
