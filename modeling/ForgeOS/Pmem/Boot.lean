import ForgeOS.Lib.Fuel
import Mathlib.Logic.Function.Iterate

/-!
# The physical pages at boot

`mach_phys_init` of the PC gives every page of a free range that is not below the end of the kernel
to `pmem_dealloc`, and keeps the pages below 1 MB for the firmware.

The allocator of pages keeps them in a stack whose nodes it gets from `malloc`, and the heap of
`malloc` grows by pages that it gets from the allocator.  So a call of `pmem_dealloc` may take pages
off the stack before it pushes its own.  When the heap grows depends on everything that has been
allocated so far; here a list says it call by call, and the results hold for every list.

The main results are `machPhysInit_booted`, which says what `mach_phys_init` does to the state, and
`machPhysInit_admitted`, which says which pages the allocator then has.
-/

namespace ForgeOS

open Function List Option UInt64

/-- What the allocators of physical pages keep: `page_stack`, `freeKiB`, `totalKiB` and
`firmware_stack`.  A stack that has not been created is `none`.  The heap has taken `heapPages` so
far, and is going to take as many pages as the next of `demands` says when it is used. -/
structure PhysMem where
  pageStack : Option (List UInt64)
  freeKiB : UInt64
  totalKiB : UInt64
  firmwareStack : Option (List UInt64)
  heapPages : List UInt64
  demands : List ℕ
  deriving DecidableEq

namespace PhysMem

/-! ## The allocator -/

/-- Nothing has been given to the allocator yet. -/
def booting (demands : List ℕ) : PhysMem := ⟨none, 0, 0, none, [], demands⟩

def empty : PhysMem := booting []

def freePages (s : PhysMem) : List UInt64 := s.pageStack.getD []

/-- The pages that have been put into the allocator: the heap has them, or they are still there. -/
def admitted (s : PhysMem) : List UInt64 := s.heapPages ++ s.freePages

/-- `stack_pop`, which follows `s->head` before it knows whether there is a node. -/
def stackPop : List UInt64 → Option (UInt64 × List UInt64)
  | [] => none
  | p :: ps => some (p, ps)

def pmemAlloc (s : PhysMem) : Option (UInt64 × PhysMem) :=
  match s.pageStack with
  | none => some (0, s)
  | some ps =>
    (stackPop ps).map fun (p, ps) ↦
      (p, { s with pageStack := some ps, freeKiB := s.freeKiB - 0x1000 / 1024 })

/-- `dlmalloc_sbrk` maps `k` new pages, which `arch_vmem_map` gets from `pmem_alloc`.  It gets no
further if there is no page: the source panics, or follows a null pointer in `stack_pop`. -/
def grow : ℕ → PhysMem → PhysMem
  | 0, s => s
  | k + 1, s =>
    match s.pmemAlloc with
    | some (p, t) => if p = 0 then s else grow k { t with heapPages := p :: t.heapPages }
    | none => s

/-- `malloc_nolock`, and whatever else is allocated in the same call. -/
def mallocNolock (s : PhysMem) : PhysMem :=
  grow (s.demands.headD 0) { s with demands := s.demands.tail }

/-- `stack_push(page_stack, page)`, and what the counter then says. -/
def pushPage (s : PhysMem) (p : UInt64) : PhysMem :=
  { s with pageStack := some (p :: s.freePages), freeKiB := s.freeKiB + 0x1000 / 1024 }

def pmemDealloc (s : PhysMem) (p : UInt64) : PhysMem := s.mallocNolock.pushPage p

/-- `pmem_dealloc_special(PMEM_SPECIAL_FIRMWARE, p)`. -/
def pmemDeallocFirmware (s : PhysMem) (p : UInt64) : PhysMem :=
  match s.firmwareStack with
  | none => s
  | some ps => { s.mallocNolock with firmwareStack := some (p :: ps) }

/-- `pmem_alloc_special(PMEM_SPECIAL_FIRMWARE)`. -/
def pmemAllocFirmware (s : PhysMem) : Option (UInt64 × PhysMem) :=
  match s.firmwareStack with
  | none => some (0, s)
  | some ps => (stackPop ps).map fun (p, ps) ↦ (p, { s with firmwareStack := some ps })

/-- What a page is for: `PMEM_SPECIAL_STANDARD`, `PMEM_SPECIAL_FIRMWARE`, and numbers that are
neither. -/
inductive Special where
  | standard | firmware | unknown
  deriving DecidableEq

def pmemAllocSpecial (s : PhysMem) : Special → Option (UInt64 × PhysMem)
  | .standard => s.pmemAlloc
  | .firmware => s.pmemAllocFirmware
  | .unknown => some (0, s)

def pmemDeallocSpecial (s : PhysMem) (how : Special) (p : UInt64) : PhysMem :=
  match how with
  | .standard => s.pmemDealloc p
  | .firmware => s.pmemDeallocFirmware p
  | .unknown => s

/-! ## `mach_phys_init` -/

inductive MemoryType where
  | free | allocated | reclaimable | reserved | unusable
  deriving DecidableEq

/-- A tag of the list: `kboot_tag_memory_t`, or one of another type. -/
inductive Tag where
  | memory (start stop : UInt64) (type : MemoryType)
  | other
  deriving DecidableEq

def Tag.free : Tag → Option (UInt64 × UInt64)
  | .memory start stop .free => some (start, stop)
  | _ => none

/-- The loops over the pages of a range: `for(; base < stop; base += PAGE_SIZE)`. -/
def forPages {σ : Type} (body : σ → UInt64 → σ) : ℕ → UInt64 → UInt64 → σ → Option σ
  | 0, _, _, _ => none
  | fuel + 1, base, stop, s =>
    if base < stop then forPages body fuel (base + 0x1000) stop (body s base) else some s

/-- A page is given to `pmem_dealloc` and counted. -/
def freePage (ns : UInt32 × PhysMem) (base : UInt64) : UInt32 × PhysMem :=
  (ns.1 + 1, ns.2.pmemDealloc base)

/-- A page is kept for the firmware, if it is not the one of the text screen. -/
def firmwarePage (s : PhysMem) (base : UInt64) : PhysMem :=
  if base = 0xB8000 then s else s.pmemDeallocSpecial .firmware base

/-- What `mach_phys_init` does with a tag when it looks for memory. -/
def freeTag (fuel : ℕ) (kernelEnd : UInt64) (ns : UInt32 × PhysMem) (tag : Tag) :
    Option (UInt32 × PhysMem) :=
  match tag.free with
  | some (start, stop) =>
    if stop > kernelEnd then
      forPages freePage fuel (if start < kernelEnd then kernelEnd else start) stop ns
    else some ns
  | none => some ns

/-- What `mach_phys_init` does with a tag when it looks for memory below 1 MB. -/
def firmwareTag (fuel : ℕ) (s : PhysMem) (tag : Tag) : Option PhysMem :=
  match tag.free with
  | some (start, stop) =>
    -- The source adds a page to `base` here if that is 0, and then sets it to the start of the range.
    if stop ≤ 0x100000 then forPages firmwarePage fuel start stop s else some s
  | none => some s

/-- `mach_phys_init` of the PC, where `kernelEnd` is the physical address at which the kernel ends.
It panics if there is no tag for memory. -/
def machPhysInit (fuel : ℕ) (kernelEnd : UInt64) (tags : List Tag) (s : PhysMem) : Option PhysMem :=
  if ∀ tag ∈ tags, tag = .other then none
  else do
    let (n, s) ← tags.foldlM (freeTag fuel kernelEnd) (0, s)
    let s := { s with totalKiB := (n * 0x1000 / 1024).toUInt64 }
    -- `create_stack` allocates, too.
    let s := { s.mallocNolock with firmwareStack := some [] }
    tags.foldlM (firmwareTag fuel) s

/-- `log2phys`, of the address at which the kernel ends. -/
def log2phys (x : UInt32) : UInt64 := (x - 0xC0000000 + 0x400000).toUInt64

/-! ## The pages of a range -/

def Aligned (p : UInt64) : Prop := p.toNat % 0x1000 = 0

instance Aligned.decidable (p : UInt64) : Decidable (Aligned p) :=
  inferInstanceAs (Decidable (_ = _))

def pagesFrom (base : UInt64) : ℕ → List UInt64
  | 0 => []
  | k + 1 => base :: pagesFrom (base + 0x1000) k

def pages (base stop : UInt64) : List UInt64 := pagesFrom base ((stop.toNat - base.toNat) / 0x1000)

variable {base stop p : UInt64}

theorem pages_of_not_lt (h : ¬ base < stop) : pages base stop = [] := by
  rw [lt_iff_toNat_lt] at h
  rw [pages, Nat.sub_eq_zero_of_le (by omega)]
  rfl

theorem toNat_add_page (hlt : base < stop) (hbase : Aligned base) (hstop : Aligned stop) :
    (base + 0x1000).toNat = base.toNat + 0x1000 ∧ base.toNat + 0x1000 ≤ stop.toNat := by
  have hb := stop.toNat_lt
  simp only [Aligned, lt_iff_toNat_lt, UInt64.toNat_add, toNat_ofNat] at *
  omega

theorem aligned_add_page (hlt : base < stop) (hbase : Aligned base) (hstop : Aligned stop) :
    Aligned (base + 0x1000) := by
  rw [Aligned, (toNat_add_page hlt hbase hstop).1, Nat.add_mod_right]
  exact hbase

theorem pages_of_lt (hlt : base < stop) (hbase : Aligned base) (hstop : Aligned stop) :
    pages base stop = base :: pages (base + 0x1000) stop := by
  obtain ⟨hadd, hle⟩ := toNat_add_page hlt hbase hstop
  have hcount : (stop.toNat - base.toNat) / 0x1000 =
      (stop.toNat - (base + 0x1000).toNat) / 0x1000 + 1 := by
    omega
  rw [pages, hcount]
  rfl

theorem pages_induction {motive : UInt64 → Prop} (hstop : Aligned stop)
    (done : ∀ base, ¬ base < stop → motive base)
    (turn : ∀ base, base < stop → Aligned base → motive (base + 0x1000) → motive base)
    (base : UInt64) (hbase : Aligned base) : motive base := by
  obtain ⟨k, hk⟩ : ∃ k, stop.toNat ≤ base.toNat + k * 0x1000 := ⟨stop.toNat, by omega⟩
  induction k generalizing base with
  | zero =>
    refine done base ?_
    rw [lt_iff_toNat_lt]
    omega
  | succ k ih =>
    by_cases hlt : base < stop
    · obtain ⟨hadd, hle⟩ := toNat_add_page hlt hbase hstop
      exact turn base hlt hbase (ih _ (aligned_add_page hlt hbase hstop) (by omega))
    · exact done base hlt

theorem mem_pages (hbase : Aligned base) (hstop : Aligned stop) :
    p ∈ pages base stop ↔ base ≤ p ∧ p < stop ∧ Aligned p := by
  refine pages_induction (motive := fun base ↦ p ∈ pages base stop ↔ base ≤ p ∧ p < stop ∧
    Aligned p)
    hstop (fun base h ↦ ?_) (fun base hlt hbase ih ↦ ?_) base hbase
  · rw [pages_of_not_lt h]
    simp only [not_mem_nil, false_iff, not_and]
    exact fun hle hlt ↦ absurd (UInt64.lt_of_le_of_lt hle hlt) h
  · obtain ⟨hadd, hle⟩ := toNat_add_page hlt hbase hstop
    rw [pages_of_lt hlt hbase hstop, mem_cons, ih]
    simp only [Aligned, lt_iff_toNat_lt, le_iff_toNat_le, ← UInt64.toNat_inj,
      hadd] at *
    omega

variable {σ : Type} {body : σ → UInt64 → σ}

theorem forPages_returns (hbase : Aligned base) (hstop : Aligned stop) (s : σ) :
    Returns (fun fuel ↦ forPages body fuel base stop s) ((pages base stop).foldl body s) := by
  refine pages_induction
    (motive := fun base ↦ ∀ s, Returns (fun fuel ↦ forPages body fuel base stop s)
      ((pages base stop).foldl body s))
    hstop (fun base h s ↦ ?_) (fun base hlt hbase ih s ↦ ?_) base hbase s
  · rw [pages_of_not_lt h]
    exact (Returns.of_eq rfl).turn fun _ ↦ if_neg h
  · rw [pages_of_lt hlt hbase hstop]
    exact (ih _).turn fun _ ↦ if_pos hlt

/-! ## What is passed to `pmem_dealloc` -/

def Tag.Aligned : Tag → Prop
  | .memory start stop _ => PhysMem.Aligned start ∧ PhysMem.Aligned stop
  | .other => True

instance Tag.Aligned.decidable : ∀ tag : Tag, Decidable tag.Aligned
  | .memory _ _ _ => inferInstanceAs (Decidable (_ ∧ _))
  | .other => inferInstanceAs (Decidable True)

def Tag.Gives (kernelEnd : UInt64) (tag : Tag) (p : UInt64) : Prop :=
  ∃ start stop, tag.free = some (start, stop) ∧ start ≤ p ∧ kernelEnd ≤ p ∧ p < stop ∧
    PhysMem.Aligned p

def Tag.given (kernelEnd : UInt64) (tag : Tag) : List UInt64 :=
  match tag.free with
  | some (start, stop) => pages (if start < kernelEnd then kernelEnd else start) stop
  | none => []

def Tag.kept (tag : Tag) : List UInt64 :=
  match tag.free with
  | some (start, stop) =>
    if stop ≤ 0x100000 then (pages start stop).filter (· ≠ 0xB8000) else []
  | none => []

variable {kernelEnd : UInt64} {tag : Tag} {tags : List Tag}

theorem Tag.Aligned.of_free {start : UInt64} (h : tag.Aligned)
    (hfree : tag.free = some (start, stop)) : PhysMem.Aligned start ∧ PhysMem.Aligned stop := by
  cases tag with
  | other => cases hfree
  | memory a b type =>
    cases type <;> cases hfree
    exact h

theorem Aligned.clip {start : UInt64} (hstart : Aligned start) (hend : Aligned kernelEnd) :
    Aligned (if start < kernelEnd then kernelEnd else start) := by
  split
  · exact hend
  · exact hstart

theorem Tag.mem_given (hend : PhysMem.Aligned kernelEnd) (htag : tag.Aligned) :
    p ∈ tag.given kernelEnd ↔ tag.Gives kernelEnd p := by
  cases hfree : tag.free with
  | none => simp [Tag.given, Tag.Gives, hfree]
  | some range =>
    obtain ⟨start, stop⟩ := range
    obtain ⟨hstart, hstop⟩ := htag.of_free hfree
    have hgives : tag.Gives kernelEnd p ↔
        start ≤ p ∧ kernelEnd ≤ p ∧ p < stop ∧ PhysMem.Aligned p := by
      simp [Tag.Gives, hfree]
    simp only [Tag.given, hfree, hgives, mem_pages (hstart.clip hend) hstop]
    split
    all_goals
      simp only [PhysMem.Aligned, lt_iff_toNat_lt, le_iff_toNat_le] at *
      omega

theorem freeTag_returns (hend : Aligned kernelEnd) (htag : tag.Aligned) (ns : UInt32 × PhysMem) :
    Returns (fun fuel ↦ freeTag fuel kernelEnd ns tag)
      ((tag.given kernelEnd).foldl freePage ns) := by
  cases hfree : tag.free with
  | none =>
    simp only [freeTag, Tag.given, hfree]
    exact Returns.of_eq rfl
  | some range =>
    obtain ⟨start, stop⟩ := range
    obtain ⟨hstart, hstop⟩ := htag.of_free hfree
    simp only [freeTag, Tag.given, hfree]
    split
    next => exact forPages_returns (hstart.clip hend) hstop ns
    next hle =>
      -- There is nothing above the end of the kernel.
      rw [pages_of_not_lt]
      · exact Returns.of_eq rfl
      · split
        · exact hle
        · simp only [lt_iff_toNat_lt, gt_iff_lt] at *
          omega

theorem foldl_firmwarePage (l : List UInt64) (s : PhysMem) :
    l.foldl firmwarePage s = (l.filter (· ≠ 0xB8000)).foldl pmemDeallocFirmware s := by
  induction l generalizing s with
  | nil => rfl
  | cons p l ih =>
    rw [foldl_cons, ih, firmwarePage]
    by_cases hp : p = 0xB8000
    · simp [hp]
    · simp [hp, pmemDeallocSpecial]

theorem firmwareTag_returns (htag : tag.Aligned) (s : PhysMem) :
    Returns (fun fuel ↦ firmwareTag fuel s tag) (tag.kept.foldl pmemDeallocFirmware s) := by
  cases hfree : tag.free with
  | none =>
    simp only [firmwareTag, Tag.kept, hfree]
    exact Returns.of_eq rfl
  | some range =>
    obtain ⟨start, stop⟩ := range
    obtain ⟨hstart, hstop⟩ := htag.of_free hfree
    simp only [firmwareTag, Tag.kept, hfree]
    split
    · rw [← foldl_firmwarePage]
      exact forPages_returns hstart hstop s
    · exact Returns.of_eq rfl

theorem foldlM_returns {visit : ℕ → σ → Tag → Option σ} {pages : Tag → List UInt64}
    (hvisit : ∀ tag ∈ tags, ∀ s, Returns (fun fuel ↦ visit fuel s tag) ((pages tag).foldl body s))
    (s : σ) :
    Returns (fun fuel ↦ tags.foldlM (visit fuel) s) ((tags.flatMap pages).foldl body s) := by
  induction tags generalizing s with
  | nil => exact Returns.of_eq rfl
  | cons tag tags ih =>
    rw [flatMap_cons, foldl_append]
    exact (hvisit tag mem_cons_self s).bind
      (ih (fun t ht ↦ hvisit t (mem_cons_of_mem _ ht)) _)

theorem scan_returns (hend : Aligned kernelEnd) (htags : ∀ tag ∈ tags, tag.Aligned)
    (ns : UInt32 × PhysMem) :
    Returns (fun fuel ↦ tags.foldlM (freeTag fuel kernelEnd) ns)
      ((tags.flatMap (Tag.given kernelEnd)).foldl freePage ns) :=
  foldlM_returns (fun tag htag ns ↦ freeTag_returns hend (htags tag htag) ns) ns

/-- The state between the two loops of `mach_phys_init`. -/
def scanned (ns : UInt32 × PhysMem) : PhysMem :=
  { mallocNolock { ns.2 with totalKiB := (ns.1 * 0x1000 / 1024).toUInt64 } with
    firmwareStack := some [] }

theorem machPhysInit_returns (hend : Aligned kernelEnd) (htags : ∀ tag ∈ tags, tag.Aligned)
    (hmemory : ∃ tag ∈ tags, tag ≠ .other) (s : PhysMem) :
    Returns (fun fuel ↦ machPhysInit fuel kernelEnd tags s)
      ((tags.flatMap Tag.kept).foldl pmemDeallocFirmware
        (scanned ((tags.flatMap (Tag.given kernelEnd)).foldl freePage (0, s)))) := by
  have hfound : ¬ ∀ tag ∈ tags, tag = .other := by
    push Not
    exact hmemory
  simp only [machPhysInit, if_neg hfound]
  exact (scan_returns hend htags (0, s)).bind (g := fun ns fuel ↦
    tags.foldlM (firmwareTag fuel) (scanned ns))
    (foldlM_returns (fun tag htag s ↦ firmwareTag_returns (htags tag htag) s) _)

theorem foldl_freePage (l : List UInt64) (ns : UInt32 × PhysMem) :
    l.foldl freePage ns = (ns.1 + l.length.toUInt32, l.foldl pmemDealloc ns.2) := by
  induction l generalizing ns with
  | nil => simp
  | cons p l ih =>
    rw [foldl_cons, ih, freePage, foldl_cons, length_cons, Nat.toUInt32_eq,
      Nat.toUInt32_eq, UInt32.ofNat_add, UInt32.add_assoc, UInt32.add_comm 1]
    rfl

/-! ## What the allocator has afterwards -/

/-- From `s` to `t` the pages `ps` have been put into the allocator, and the heap may have taken
some. -/
structure Admits (ps : List UInt64) (s t : PhysMem) : Prop where
  admitted : t.admitted.Perm (ps ++ s.admitted)
  freeKiB : ∃ taken, t.heapPages = taken ++ s.heapPages ∧
    t.freeKiB + ofNat (4 * taken.length) = s.freeKiB + ofNat (4 * ps.length)

section Accounting

variable {s t u : PhysMem} {ps qs : List UInt64}

theorem Admits.refl (s : PhysMem) : Admits [] s s := ⟨.refl _, [], rfl, rfl⟩

theorem Admits.trans (h : Admits ps s t) (h' : Admits qs t u) : Admits (ps ++ qs) s u := by
  obtain ⟨taken, htaken, hfree⟩ := h.freeKiB
  obtain ⟨taken', htaken', hfree'⟩ := h'.freeKiB
  refine ⟨?_, taken' ++ taken, by rw [htaken', htaken, append_assoc], ?_⟩
  · refine (h'.admitted.trans (h.admitted.append_left qs)).trans ?_
    rw [← append_assoc]
    exact perm_append_comm.append_right _
  · simp only [length_append, Nat.mul_add, ofNat_add]
    grind

theorem admits_pushPage (s : PhysMem) (p : UInt64) : Admits [p] s (s.pushPage p) :=
  ⟨perm_middle, [], rfl, add_zero _⟩

theorem pmemAlloc_eq_some (h : s.pmemAlloc = some (p, t)) (hp : p ≠ 0) :
    ∃ ps, s.pageStack = some (p :: ps) ∧
      t = { s with pageStack := some ps, freeKiB := s.freeKiB - 0x1000 / 1024 } := by
  rw [pmemAlloc] at h
  split at h
  next => exact absurd (Prod.mk.inj (some.inj h)).1.symm hp
  next ps hs =>
    cases ps with
    | nil => cases h
    | cons q ps =>
      obtain ⟨rfl, rfl⟩ := Prod.mk.inj (some.inj h)
      exact ⟨ps, hs, rfl⟩

theorem admits_taken (h : s.pmemAlloc = some (p, t)) (hp : p ≠ 0) :
    Admits [] s { t with heapPages := p :: t.heapPages } := by
  obtain ⟨ps, hs, rfl⟩ := pmemAlloc_eq_some h hp
  refine ⟨?_, [p], rfl, (sub_add_cancel s.freeKiB 4).trans (add_zero _).symm⟩
  simp only [PhysMem.admitted, freePages, hs, getD_some]
  exact perm_middle.symm

/-- The heap grows by pages of the allocator, and nothing else changes. -/
theorem grow_spec (k : ℕ) (s : PhysMem) : Admits [] s (grow k s) ∧
    (grow k s).totalKiB = s.totalKiB ∧ (grow k s).firmwareStack = s.firmwareStack := by
  induction k generalizing s with
  | zero => exact ⟨.refl s, rfl, rfl⟩
  | succ k ih =>
    rw [grow]
    split
    next p t hp =>
      split
      next => exact ⟨.refl s, rfl, rfl⟩
      next hne =>
        obtain ⟨hadmits, htotal, hfirmware⟩ := ih { t with heapPages := p :: t.heapPages }
        refine ⟨(admits_taken hp hne).trans hadmits, htotal.trans ?_, hfirmware.trans ?_⟩
        all_goals
          obtain ⟨ps, hs, rfl⟩ := pmemAlloc_eq_some hp hne
          rfl
    next => exact ⟨.refl s, rfl, rfl⟩

theorem admits_mallocNolock (s : PhysMem) : Admits [] s s.mallocNolock := by
  obtain ⟨hadmitted, hfree⟩ := (grow_spec (s.demands.headD 0) { s with demands := s.demands.tail }).1
  exact ⟨hadmitted, hfree⟩

@[simp] theorem totalKiB_mallocNolock (s : PhysMem) : s.mallocNolock.totalKiB = s.totalKiB :=
  (grow_spec _ _).2.1

theorem Admits.foldl_pmemDealloc (l : List UInt64) (s : PhysMem) :
    Admits l s (l.foldl pmemDealloc s) := by
  induction l generalizing s with
  | nil => exact .refl s
  | cons p l ih =>
    exact ((admits_mallocNolock s).trans (admits_pushPage s.mallocNolock p)).trans (ih _)

theorem foldl_pmemDeallocFirmware (l : List UInt64) (hs : s.firmwareStack = some ps) :
    Admits [] s (l.foldl pmemDeallocFirmware s) ∧
      (l.foldl pmemDeallocFirmware s).totalKiB = s.totalKiB ∧
      (l.foldl pmemDeallocFirmware s).firmwareStack = some (l.reverse ++ ps) := by
  induction l generalizing s ps with
  | nil => exact ⟨.refl s, rfl, hs⟩
  | cons p l ih =>
    have hpush : s.pmemDeallocFirmware p =
        { s.mallocNolock with firmwareStack := some (p :: ps) } := by
      rw [pmemDeallocFirmware, hs]
    obtain ⟨hadmits, htotal, hfirmware⟩ := ih (s := s.pmemDeallocFirmware p) (by rw [hpush])
    obtain ⟨hadmitted, hfree⟩ := admits_mallocNolock s
    rw [foldl_cons, reverse_cons, append_assoc]
    refine ⟨?_, htotal.trans ?_, hfirmware⟩
    · have hfirst : Admits [] s (s.pmemDeallocFirmware p) := by
        rw [hpush]
        exact ⟨hadmitted, hfree⟩
      exact hfirst.trans hadmits
    · rw [hpush]
      exact totalKiB_mallocNolock s

/-- What `mach_phys_init` leaves, if it has passed `calls` to `pmem_dealloc` and `low` to
`pmem_dealloc_special`. -/
structure Booted (calls low : List UInt64) (s t : PhysMem) : Prop where
  admits : Admits calls s t
  totalKiB : t.totalKiB = ((0 + calls.length.toUInt32) * 0x1000 / 1024).toUInt64
  firmwareStack : t.firmwareStack = some low.reverse

theorem admits_scanned (n : UInt32) (h : Admits ps s t) : Admits ps s (scanned (n, t)) := by
  have htotal : Admits ps s { t with totalKiB := (n * 0x1000 / 1024).toUInt64 } :=
    ⟨h.admitted, h.freeKiB⟩
  have hcreate := htotal.trans (admits_mallocNolock _)
  rw [append_nil] at hcreate
  exact ⟨hcreate.admitted, hcreate.freeKiB⟩

theorem machPhysInit_booted (hend : Aligned kernelEnd) (htags : ∀ tag ∈ tags, tag.Aligned)
    (hmemory : ∃ tag ∈ tags, tag ≠ .other) (s : PhysMem) :
    ∃ t, Returns (fun fuel ↦ machPhysInit fuel kernelEnd tags s) t ∧
      Booted (tags.flatMap (Tag.given kernelEnd)) (tags.flatMap Tag.kept) s t := by
  refine ⟨_, machPhysInit_returns hend htags hmemory s, ?_⟩
  rw [foldl_freePage]
  generalize tags.flatMap (Tag.given kernelEnd) = calls
  have hcalls := admits_scanned (0 + calls.length.toUInt32) (Admits.foldl_pmemDealloc calls s)
  obtain ⟨hlow, htotal, hfirmware⟩ := foldl_pmemDeallocFirmware (tags.flatMap Tag.kept)
    (s := scanned (0 + calls.length.toUInt32, calls.foldl pmemDealloc s)) rfl
  have hadmits := hcalls.trans hlow
  rw [append_nil] at hadmits hfirmware
  exact ⟨hadmits, htotal.trans (totalKiB_mallocNolock _), hfirmware⟩

/-- **The pages of the free ranges that are not below the end of the kernel** are put into the
allocator, whenever the heap grows. -/
theorem machPhysInit_admitted (hend : Aligned kernelEnd) (htags : ∀ tag ∈ tags, tag.Aligned)
    (hmemory : ∃ tag ∈ tags, tag ≠ .other) (demands : List ℕ) :
    ∃ s, Returns (fun fuel ↦ machPhysInit fuel kernelEnd tags (booting demands)) s ∧
      ∀ p, p ∈ s.admitted ↔ ∃ tag ∈ tags, tag.Gives kernelEnd p := by
  obtain ⟨s, hret, hs⟩ := machPhysInit_booted hend htags hmemory (booting demands)
  refine ⟨s, hret, fun p ↦ ?_⟩
  rw [hs.admits.admitted.mem_iff, mem_append, mem_flatMap]
  refine (or_iff_left not_mem_nil).trans (exists_congr fun tag ↦ and_congr_right fun htag ↦ ?_)
  exact Tag.mem_given hend (htags tag htag)

end Accounting

/-! ## What `pmem_alloc` returns afterwards -/

def nthAlloc : PhysMem → ℕ → Option UInt64
  | s, 0 => s.pmemAlloc.map Prod.fst
  | s, i + 1 => s.pmemAlloc.bind fun (_, s) ↦ s.nthAlloc i

/-- `pmem_alloc` has returned the page to the heap, or returns it to one of the next callers. -/
def Obtained (s : PhysMem) (p : UInt64) : Prop :=
  p ∈ s.heapPages ∨ ∃ i < s.freePages.length, s.nthAlloc i = some p

attribute [local simp] freePages

theorem nthAlloc_eq {s : PhysMem} {i : ℕ} (hi : i < s.freePages.length) :
    s.nthAlloc i = s.freePages[i]? := by
  induction i generalizing s with
  | zero =>
    cases hs : s.pageStack with
    | none => simp [hs] at hi
    | some ps =>
      cases ps with
      | nil => simp [hs] at hi
      | cons p ps => simp [nthAlloc, pmemAlloc, stackPop, hs]
  | succ i ih =>
    cases hs : s.pageStack with
    | none => simp [hs] at hi
    | some ps =>
      cases ps with
      | nil => simp [hs] at hi
      | cons p ps =>
        simp only [freePages, hs, getD_some, length_cons] at hi
        simp only [nthAlloc, pmemAlloc, stackPop, hs, map_some, bind_some]
        rw [ih (by simpa using hi)]
        simp [hs]

theorem obtained_iff {s : PhysMem} : s.Obtained p ↔ p ∈ s.admitted := by
  rw [admitted, mem_append, mem_iff_getElem? (l := s.freePages)]
  refine or_congr_right ⟨?_, ?_⟩
  · rintro ⟨i, hi, hp⟩
    exact ⟨i, (nthAlloc_eq hi).symm.trans hp⟩
  · rintro ⟨i, hp⟩
    obtain ⟨hi, -⟩ := List.getElem?_eq_some_iff.mp hp
    exact ⟨i, hi, (nthAlloc_eq hi).trans hp⟩

end PhysMem
end ForgeOS
