import ForgeOS.Lib.Paging
import ForgeOS.Lib.Run

/-!
# The page tables of the kernel on x86

`arch/x86/vmem.c` edits the page directory and the page tables through the window the last entry of
the directory opens, so every access below is a `load` or a `store` at a virtual address, which the
tables as they are at that moment translate.  A `none` result is a page fault or a panic.

`pmem_alloc` is handed what it returns, 0 if there is no memory left.  `arch_vmem_map` may call it
twice, for the page and for a page table. `invlpg` has no counterpart: an entry through which the
window leads to a table only ever changes from not present to present, and the other entries are
invalidated as soon as they have changed.
-/

namespace ForgeOS

open Paging

/-- What `vmem.c` works on: the tables, and `g_primedpage`. -/
structure Vmem where
  mmu : Mmu
  gPrimedpage : UInt64

namespace Vmem

def pdirOffset (a : UInt32) : UInt32 := (a >>> 22) &&& 0x3FF

def ptabOffset (a : UInt32) : UInt32 := (a >>> 12) &&& 0x3FF

def pdirVirt : UInt32 := 0xFFFFF000

def pdirBase : UInt32 := 0xFFC00000

def ptabFromVaddr (a : UInt32) : UInt32 := pdirBase + (pdirOffset a <<< 12)

/-- `&pdir[PDIR_OFFSET(v)]`. -/
def pdirSlot (v : UInt32) : UInt32 := pdirVirt + 4 * pdirOffset v

/-- `&ptab[PTAB_OFFSET(v)]`. -/
def ptabSlot (v : UInt32) : UInt32 := ptabFromVaddr v + 4 * ptabOffset v

def flagsToX86 (f : UInt32) : UInt32 :=
  let flags : UInt32 := 0x01
  let flags := if f &&& 0x01 ≠ 0 then flags ||| 0x02 else flags
  let flags := if f &&& 0x02 ≠ 0 then flags ||| 0x04 else flags
  if f &&& 0x100 ≠ 0 then flags ||| 0x100 else flags

def load (s : Vmem) (a : UInt32) : Option UInt32 := s.mmu.load a

def store (s : Vmem) (a x : UInt32) : Option Vmem :=
  (s.mmu.store a x).map fun m ↦ { s with mmu := m }

/-- Word `i` of what `memset(ptab, 0, PAGE_SIZE - 1)` clears.  The last byte of the page is the most
significant one of its last word, and stays as it is. -/
def clearWord (ptab : UInt32) (s : Vmem) (i : Fin 1024) : Option Vmem := do
  let a := ptab + 4 * UInt32.ofNat i
  let x ← s.load a
  s.store a (if i = 1023 then x &&& 0xFF000000 else 0)

/-- `memset(ptab, 0, PAGE_SIZE - 1)`. -/
def memset (s : Vmem) (ptab : UInt32) :
    Option Vmem := (List.finRange 1024).foldlM (clearWord ptab) s

/-- A page is taken: the primed one if there is one, else what `pmem_alloc` returns. -/
def takePage (s : Vmem) (alloc : UInt64) : UInt64 × Vmem :=
  if s.gPrimedpage = 0 then (alloc, s) else (s.gPrimedpage, { s with gPrimedpage := 0 })

def archVmemPrime (s : Vmem) (p : UInt64) : Vmem := { s with gPrimedpage := p }

/-- The physical page for `arch_vmem_map`, at its start. -/
def choosePage (s : Vmem) (p alloc : UInt64) : Option (UInt64 × Vmem) :=
  if p = ~~~0 then
    let (p, s) := s.takePage alloc
    -- panic("Out of memory.")
    if p = 0 then none else some (p, s)
  else if p &&& 0xFFF ≠ 0 then some (p &&& ~~~0xFFF, s)
  else some (p, s)

/-- `arch_vmem_map`, when `pmem_alloc` returns `a` for the page and `b` for a page table. -/
def archVmemMap (s : Vmem) (v : UInt32) (p : UInt64) (f : UInt32) (a b : UInt64) :
    Option (ℤ × Vmem) := do
  let flags := flagsToX86 f
  let (p, s) ← s.choosePage p a
  -- Complete the mapping.
  let complete (s : Vmem) : Option (ℤ × Vmem) :=
    (s.store (ptabSlot v) (p.toUInt32 ||| flags)).map fun s ↦ (0, s)
  let entry := (← s.load (pdirSlot v)) &&& ~~~0xFFF
  if entry = 0 then
    -- No page table yet - allocate one.
    let (ptabPhys, s) := s.takePage b
    if ptabPhys = 0 then some (-1, s)
    else do
      let s ← s.store (pdirSlot v) (ptabPhys.toUInt32 ||| 0x01 ||| 0x02)
      let s ← s.memset (ptabFromVaddr v)
      complete s
  else complete s

def archVmemIsmapped (s : Vmem) (v : UInt32) : Option Bool := do
  let entry := (← s.load (pdirSlot v)) &&& ~~~0xFFF
  if entry ≠ 0 then do
    let e ← s.load (ptabSlot v)
    some (e &&& 0x01 ≠ 0)
  else some false

def archVmemUnmap (s : Vmem) (v : UInt32) : Option Vmem := do
  if (← s.archVmemIsmapped v) then do
    let e ← s.load (ptabSlot v)
    s.store (ptabSlot v) (e &&& ~~~0x01)
  else some s

def archVmemModify (s : Vmem) (v nf : UInt32) : Option (ℤ × Vmem) := do
  if (← s.archVmemIsmapped v) then do
    let e ← s.load (ptabSlot v)
    let s ← s.store (ptabSlot v) (e &&& ~~~0xFFF)
    let e ← s.load (ptabSlot v)
    let s ← s.store (ptabSlot v) (e ||| flagsToX86 nf)
    some (0, s)
  else some (-1, s)

def archVmemV2p (s : Vmem) (v : UInt32) : Option UInt64 := do
  let e ← s.load (ptabSlot v)
  if e &&& 0x01 ≠ 0 then some ((e.toUInt64 &&& ~~~0xFFF) ||| (v &&& 0xFFF).toUInt64)
  else some 0

/-- A call of one of the operations, with what `pmem_alloc` returns during it. -/
inductive Op where
  | map (v : UInt32) (p : UInt64) (f : UInt32) (a b : UInt64)
  | modify (v nf : UInt32)
  | unmap (v : UInt32)

/-- The value a call returns, 0 for `arch_vmem_unmap`, and the tables after it. -/
def call (s : Vmem) : Op → Option (ℤ × Vmem)
  | .map v p f a b => s.archVmemMap v p f a b
  | .modify v nf => s.archVmemModify v nf
  | .unmap v => (s.archVmemUnmap v).map fun s ↦ (0, s)

def step (s : Vmem) (op : Op) : Option Vmem := (s.call op).map Prod.snd

def IsFrame (p : UInt64) : Prop := p = (frameOf p.toUInt32).toUInt64

instance IsFrame.decidable (p : UInt64) : Decidable (IsFrame p) :=
  inferInstanceAs (Decidable (p = (frameOf p.toUInt32).toUInt64))

/-- A frame that is neither the directory nor a table. -/
structure Unused (s : Vmem) (p : UInt64) : Prop where
  isFrame : IsFrame p
  notDir : p.toUInt32 ≠ frameOf s.mmu.cr3
  notTable : ∀ d, p.toUInt32 ≠ frameOf (s.mmu.dir d)

/-- What the operations may rely on.  The address is below the window.  A page is given by an
address below 4 GB, or else one is to be allocated, and then there is one.  A frame that
`pmem_alloc` returns for a page table is not in use. -/
def Allowed (s : Vmem) : Op → Prop
  | .map v p _ a b =>
    v < 0xFFC00000 ∧ (p < 0x100000000 ∨ p = ~~~0) ∧
      (p = ~~~0 → s.gPrimedpage = 0 → a ≠ 0 ∧ IsFrame a) ∧ (b ≠ 0 → s.Unused b)
  | .modify v _ => v < 0xFFC00000
  | .unmap v => v < 0xFFC00000

end Vmem
end ForgeOS
