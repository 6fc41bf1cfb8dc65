import ForgeOS.Lib.ArmMmu

/-!
# Virtual memory on ARMv7

`mmu.c` keeps the page directory and the page tables of the kernel at fixed physical addresses.
`arch_vmem_init` makes them, with the MMU off: the kernel's megabytes and the four of the page
tables are sections, and every other word of the directory refers to a page table, which can then be
read at `PAGETABS_VIRT + d * 0x400`.

With the MMU on the words of physical memory are accessed by way of the translation, field by field.
A fault or a panic has no result.  What `pmem_alloc` returns is an argument of the calls.
-/

namespace ForgeOS

open ArmMmu

def vmemReadwrite : UInt32 := 0x01
def vmemUsermode : UInt32 := 0x02
def vmemGlobal : UInt32 := 0x100
def vmemDevice : UInt32 := 0x200
def vmemExec : UInt32 := 0x400

namespace ArmVmem

/-- The fields of `struct first_level`, those of `section` with their name in front. -/
def FirstLevel.type : BitField := ⟨0, 2, by decide⟩
def FirstLevel.domain : BitField := ⟨5, 4, by decide⟩
def FirstLevel.sectionB : BitField := ⟨2, 1, by decide⟩
def FirstLevel.sectionC : BitField := ⟨3, 1, by decide⟩
def FirstLevel.sectionAp1 : BitField := ⟨10, 2, by decide⟩
def FirstLevel.sectionTex : BitField := ⟨12, 3, by decide⟩
def FirstLevel.sectionAp2 : BitField := ⟨15, 1, by decide⟩
def FirstLevel.sectionS : BitField := ⟨16, 1, by decide⟩

/-- The fields of `struct second_level`, for a small page. -/
def SecondLevel.type : BitField := ⟨0, 2, by decide⟩
def SecondLevel.b : BitField := ⟨2, 1, by decide⟩
def SecondLevel.c : BitField := ⟨3, 1, by decide⟩
def SecondLevel.ap1 : BitField := ⟨4, 2, by decide⟩
def SecondLevel.tex : BitField := ⟨6, 3, by decide⟩
def SecondLevel.ap2 : BitField := ⟨9, 1, by decide⟩
def SecondLevel.s : BitField := ⟨10, 1, by decide⟩
def SecondLevel.nG : BitField := ⟨11, 1, by decide⟩

def firstlevelPagetab : ℕ := 1
def firstlevelSection : ℕ := 2
def seclevelFault : ℕ := 0
def seclevelSmall : ℕ := 2
def seclevelSmallnx : ℕ := 3
def domainKernel : ℕ := 1
def ap1Kernel : ℕ := 3
def ap1User : ℕ := 2
def ap2Readwrite : ℕ := 0
def ap2Readonly : ℕ := 1
/-- `TEX_CACHEABLE | CACHE_WTHRU`. -/
def texCacheable : ℕ := 4 ||| 2
/-- `CACHE_WBACKWALLOC >> 1`. -/
def cacheC : ℕ := 1 >>> 1
/-- `CACHE_WBACKWALLOC & 0x1`. -/
def cacheB : ℕ := 1 &&& 1

def ap1Flags (f : UInt32) : ℕ := if f &&& vmemUsermode ≠ 0 then ap1User else ap1Kernel

def ap2Flags (f : UInt32) : ℕ := if f &&& vmemReadwrite ≠ 0 then ap2Readwrite else ap2Readonly

/-- What `arch_vmem_map` assigns to the word of a page, one assignment after another. -/
def assignments (paddr f : UInt32) : List (UInt32 → UInt32) :=
  [fun _ ↦ paddr,
    (SecondLevel.type.set · (if f &&& vmemExec ≠ 0 then seclevelSmall else seclevelSmallnx)),
    (SecondLevel.ap1.set · (ap1Flags f)),
    (SecondLevel.ap2.set · (ap2Flags f))] ++
  (if f &&& vmemGlobal = 0 then [(SecondLevel.nG.set · 1)] else []) ++
  (if f &&& vmemDevice ≠ 0 then
    if f &&& vmemGlobal ≠ 0 then [(SecondLevel.s.set · 1), (SecondLevel.b.set · 1)]
    else [(SecondLevel.tex.set · 2)]
  else []) ++
  [(SecondLevel.tex.set · texCacheable),
    (SecondLevel.c.set · cacheC),
    (SecondLevel.b.set · cacheB)]

def assignAll (gs : List (UInt32 → UInt32)) (w : UInt32) : UInt32 := gs.foldl (fun w g ↦ g w) w

/-- The word that `arch_vmem_map` writes for a page.  It does not depend on what was there. -/
def smallPage (paddr f : UInt32) : UInt32 := assignAll (assignments paddr f) 0

/-- The word of the directory for a page table at `paddr`. -/
def pageTable (paddr : UInt32) : UInt32 :=
  FirstLevel.domain.set (FirstLevel.type.set paddr firstlevelPagetab) domainKernel

/-- The word of the directory for a section at `paddr`. -/
def kernelSection (paddr : UInt32) : UInt32 :=
  assignAll [(FirstLevel.type.set · firstlevelSection),
    (FirstLevel.domain.set · domainKernel),
    (FirstLevel.sectionAp1.set · ap1Kernel),
    (FirstLevel.sectionAp2.set · ap2Readwrite),
    (FirstLevel.sectionS.set · 1),
    (FirstLevel.sectionTex.set · texCacheable),
    (FirstLevel.sectionC.set · cacheC),
    (FirstLevel.sectionB.set · cacheB)] paddr

/-- The word of a page table for a page of the directory, at `paddr`. -/
def directoryPage (paddr : UInt32) : UInt32 :=
  assignAll [(SecondLevel.type.set · seclevelSmallnx),
    (SecondLevel.ap1.set · ap1Kernel),
    (SecondLevel.ap2.set · ap2Readwrite),
    (SecondLevel.s.set · 1),
    (SecondLevel.tex.set · texCacheable),
    (SecondLevel.c.set · cacheC),
    (SecondLevel.b.set · cacheB)] paddr

def pagedirVirt : ℕ := 0xFFFB0000
def pagetabsVirt : ℕ := 0xFF000000
def userPagetabsVirt : ℕ := 0x3FE00000
def pagedirPhys : ℕ := 0x8FAFC000
def pagetabsPhys : ℕ := 0x8FB00000
def ramStart : ℕ := 0x80000000
def ramFinish : ℕ := 0xA0000000

def dirWord (d : ℕ) : ℕ := pagedirPhys + 4 * d

/-- Where word `t` of the page table for word `d` of the directory is. -/
def tabWord (d t : ℕ) : ℕ := pagetabsPhys + 0x400 * d + 4 * t

end ArmVmem

/-- Physical memory, and the page that was set aside with `arch_vmem_prime`. -/
structure ArmVmem where
  mem : ℕ → UInt32
  gPrimedpage : UInt64

namespace ArmVmem

def zeroTables (mem : ℕ → UInt32) (a : ℕ) : UInt32 :=
  if pagedirPhys ≤ a ∧ a < pagedirPhys + 0x4000 ∨ pagetabsPhys ≤ a ∧ a < pagetabsPhys + 0x400000 then 0
  else mem a

/-- The directory is mapped at `PAGEDIR_VIRT`: the last word of the directory gets its page table,
and four words of that refer to the pages of the directory. -/
def mapDirectory (mem : ℕ → UInt32) : ℕ → UInt32 :=
  (List.range 4).foldl (fun mem i ↦
      Function.update mem (tabWord 0xFFF (index₂ (pagedirVirt + i * 0x1000)))
        (directoryPage (pagedirPhys + i * 0x1000).toUInt32))
    (Function.update mem (dirWord 0xFFF) (pageTable (pagetabsPhys + (0x400000 - 0x400)).toUInt32))

/-- The kernel, which ends at `kernelEnd`, is mapped where it is, by sections. -/
def mapKernel (kernelEnd : ℕ) (mem : ℕ → UInt32) : ℕ → UInt32 :=
  (List.range ((kernelEnd - ramStart + 0xFFFFF) / 0x100000)).foldl (fun mem k ↦
      Function.update mem (dirWord (index₁ (ramStart + k * 0x100000)))
        (kernelSection (ramStart + k * 0x100000).toUInt32)) mem

/-- The `k`th megabyte of page tables is mapped at `PAGETABS_VIRT`, and 1024 words of the directory
get their tables there, if they are not in use. -/
def mapTables (mem : ℕ → UInt32) (k : ℕ) : ℕ → UInt32 :=
  (List.range 1024).foldl (fun mem i ↦
      if mem (dirWord (k * 1024 + i)) = 0 then
        Function.update mem (dirWord (k * 1024 + i))
          (pageTable (pagetabsPhys + k * 0x100000 + i * 0x400).toUInt32)
      else mem)
    (Function.update mem (dirWord (index₁ (pagetabsVirt + k * 0x100000)))
      (kernelSection (pagetabsPhys + k * 0x100000).toUInt32))

/-- `arch_vmem_init`, up to where it enables the MMU. -/
def archVmemInit (kernelEnd : ℕ) (s : ArmVmem) : ArmVmem :=
  let mem := mapKernel kernelEnd (mapDirectory (zeroTables s.mem))
  { s with mem := (List.range 4).foldl mapTables mem }

/-- The translation that `arch_vmem_init` sets up: `TTBR0` is 0, `TTBR1` is `PAGEDIR_PHYS`, and
`TTBCR` is 2. -/
def translate (s : ArmVmem) (v : ℕ) : Option ℕ := ArmMmu.translate 2 0 pagedirPhys s.mem v

def load (s : ArmVmem) (v : ℕ) : Option UInt32 := (s.translate v).map s.mem

def modify (s : ArmVmem) (v : ℕ) (g : UInt32 → UInt32) : Option ArmVmem :=
  (s.translate v).map fun a ↦ { s with mem := Function.update s.mem a (g (s.mem a)) }

/-- The virtual address of the directory's word for `v`. -/
def pdirEntry (v : UInt32) : ℕ := pagedirVirt + 4 * index₁ v.toNat

/-- The virtual address of the page table's word for `v`. -/
def ptabEntry (v : UInt32) : ℕ :=
  (if v < 0x40000000 then userPagetabsVirt else pagetabsVirt) + index₁ v.toNat * 0x400 +
    4 * index₂ v.toNat

def archVmemPrime (s : ArmVmem) (p : UInt64) : ArmVmem := { s with gPrimedpage := p }

/-- The page that `arch_vmem_map` maps, where `a` is what `pmem_alloc` returns. -/
def choosePage (s : ArmVmem) (p a : UInt64) : Option (UInt64 × ArmVmem) :=
  if p = ~~~0 then
    if a ≠ 0 then some (a, s)
    else if s.gPrimedpage ≠ 0 then some (s.gPrimedpage, { s with gPrimedpage := 0 })
    else none
  else some (p &&& ~~~0xFFF, s)

def archVmemMap (s : ArmVmem) (v : UInt32) (p : UInt64) (f : UInt32) (a : UInt64) :
    Option (ℤ × ArmVmem) := do
  let (p, s) ← s.choosePage p a
  let pdir ← s.load (pdirEntry v)
  if FirstLevel.type.get pdir = 0 then none
  else
    let ptab ← s.load (ptabEntry v)
    if SecondLevel.type.get ptab ≠ 0 then some (-1, s)
    else
      let s ← (assignments (p &&& 0xFFFFFFFF).toUInt32 f).foldlM (fun s g ↦ s.modify (ptabEntry v) g) s
      some (0, s)

def archVmemUnmap (s : ArmVmem) (v : UInt32) : Option ArmVmem := do
  let pdir ← s.load (pdirEntry v)
  if FirstLevel.type.get pdir = 0 then some s
  else
    let ptab ← s.load (ptabEntry v)
    if SecondLevel.type.get ptab ≠ 0 then s.modify (ptabEntry v) (SecondLevel.type.set · seclevelFault)
    else some s

end ArmVmem
end ForgeOS
