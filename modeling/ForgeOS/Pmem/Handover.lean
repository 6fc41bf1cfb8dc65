import Mathlib.Data.List.Nodup
import ForgeOS.Pmem.Boot

/-!
# What `mach_phys_init` hands over

The allocators get every page of a free range that is not below the end of the kernel, once.
`freeKiB` has 64 bits; `totalKiB` is computed from a product with 32 bits.

The main results are `handsOver`, `totalKiB_eq_iff` and `firmwareLaw_iff`.
-/

namespace ForgeOS.PhysMem

open List Option

def Tag.Covers : Tag → UInt64 → Prop
  | .memory start stop _, x => start ≤ x ∧ x < stop
  | .other, _ => False

def Tag.Disjoint (t u : Tag) : Prop := ∀ x, t.Covers x → ¬ u.Covers x

/-- The memory ranges begin and end with pages, and no two of them have an address in common. -/
structure MemoryMap where
  tags : List Tag
  aligned : ∀ tag ∈ tags, tag.Aligned
  disjoint : tags.Pairwise Tag.Disjoint

variable {base stop kernelEnd p : UInt64} {tag : Tag}

theorem Tag.covers_of_free {start x : UInt64} (hfree : tag.free = some (start, stop))
    (hstart : start ≤ x) (hstop : x < stop) : tag.Covers x := by
  cases tag with
  | other => cases hfree
  | memory a b type =>
    cases type <;> cases hfree
    exact ⟨hstart, hstop⟩

theorem nodup_pages (hbase : Aligned base) (hstop : Aligned stop) : (pages base stop).Nodup := by
  refine pages_induction (motive := fun base ↦ (pages base stop).Nodup) hstop
    (fun base h ↦ ?_) (fun base hlt hbase ih ↦ ?_) base hbase
  · rw [pages_of_not_lt h]
    exact nodup_nil
  · rw [pages_of_lt hlt hbase hstop]
    refine nodup_cons.mpr ⟨fun hmem ↦ ?_, ih⟩
    have hle := ((mem_pages (aligned_add_page hlt hbase hstop) hstop).mp hmem).1
    have hadd := (toNat_add_page hlt hbase hstop).1
    rw [UInt64.le_iff_toNat_le] at hle
    omega

theorem MemoryMap.nodup_flatMap (m : MemoryMap) {f : Tag → List UInt64}
    (hnodup : ∀ tag ∈ m.tags, (f tag).Nodup)
    (hcovers : ∀ tag ∈ m.tags, ∀ p ∈ f tag, tag.Covers p) : (m.tags.flatMap f).Nodup := by
  rw [List.nodup_flatMap]
  refine ⟨hnodup, m.disjoint.imp_of_mem fun ht hu hdisj p hp hp' ↦ ?_⟩
  exact hdisj p (hcovers _ ht p hp) (hcovers _ hu p hp')

def MemoryMap.given (m : MemoryMap) (kernelEnd : UInt64) : List UInt64 :=
  m.tags.flatMap (Tag.given kernelEnd)

def MemoryMap.kept (m : MemoryMap) : List UInt64 := m.tags.flatMap Tag.kept

theorem totalKiB_eq (n : ℕ) :
    (((0 : UInt32) + n.toUInt32) * 0x1000 / 1024).toUInt64.toNat = 4 * (n % 2 ^ 20) := by
  rw [UInt32.toNat_toUInt64, UInt32.toNat_div, UInt32.toNat_mul, UInt32.toNat_add]
  simp only [Nat.toUInt32_eq, UInt32.toNat_ofNat', UInt32.toNat_ofNat, Nat.reduceMod, Nat.reducePow]
  omega

theorem MemoryMap.machPhysInit_booted (m : MemoryMap) (hend : Aligned kernelEnd)
    (hmemory : ∃ tag ∈ m.tags, tag ≠ .other) (s : PhysMem) :
    ∃ t, Returns (fun fuel ↦ machPhysInit fuel kernelEnd m.tags s) t ∧
      Booted (m.given kernelEnd) m.kept s t :=
  PhysMem.machPhysInit_booted hend m.aligned hmemory s

theorem Booted.toNat_totalKiB {calls low : List UInt64} {s t : PhysMem} (h : Booted calls low s t) :
    t.totalKiB.toNat = 4 * (calls.length % 2 ^ 20) := by
  rw [h.totalKiB, totalKiB_eq]

theorem MemoryMap.mem_given (m : MemoryMap) (hend : Aligned kernelEnd) :
    p ∈ m.given kernelEnd ↔ ∃ tag ∈ m.tags, tag.Gives kernelEnd p := by
  rw [MemoryMap.given, mem_flatMap]
  exact exists_congr fun tag ↦ and_congr_right fun htag ↦ Tag.mem_given hend (m.aligned tag htag)

def smallMap : MemoryMap where
  tags := [.memory 0 0x2000 .free, .memory 0x500000 0x501000 .free]
  aligned := by decide
  disjoint := by
    refine List.pairwise_pair.mpr fun x hx hx' ↦ ?_
    exact absurd (UInt64.lt_of_le_of_lt hx'.1 hx.2) (by decide)

def Tag.bytes (kernelEnd : UInt64) (tag : Tag) : ℕ :=
  match tag.free with
  | some (start, stop) => stop.toNat - max start.toNat kernelEnd.toNat
  | none => 0

def MemoryMap.bytes (m : MemoryMap) (kernelEnd : UInt64) : ℕ :=
  (m.tags.map (Tag.bytes kernelEnd)).sum

theorem length_pagesFrom (base : UInt64) (k : ℕ) : (pagesFrom base k).length = k := by
  induction k generalizing base with
  | zero => rfl
  | succ k ih => rw [pagesFrom, length_cons, ih]

theorem Tag.bytes_eq (hend : PhysMem.Aligned kernelEnd) (htag : tag.Aligned) :
    tag.bytes kernelEnd = 0x1000 * (tag.given kernelEnd).length := by
  cases hfree : tag.free with
  | none => simp [Tag.bytes, Tag.given, hfree]
  | some range =>
    obtain ⟨start, stop⟩ := range
    obtain ⟨hstart, hstop⟩ := htag.of_free hfree
    simp only [Tag.bytes, Tag.given, hfree, pages, length_pagesFrom]
    split
    all_goals
      simp only [PhysMem.Aligned, UInt64.lt_iff_toNat_lt] at *
      omega

theorem MemoryMap.bytes_eq (m : MemoryMap) (hend : Aligned kernelEnd) :
    m.bytes kernelEnd = 0x1000 * (m.given kernelEnd).length := by
  have hsum : ∀ tags : List Tag, (∀ tag ∈ tags, tag.Aligned) →
      (tags.map (Tag.bytes kernelEnd)).sum =
        0x1000 * (tags.flatMap (Tag.given kernelEnd)).length := by
    intro tags htags
    induction tags with
    | nil => rfl
    | cons tag tags ih =>
      rw [map_cons, sum_cons, flatMap_cons, length_append, Nat.mul_add,
        Tag.bytes_eq hend (htags tag mem_cons_self),
        ih fun t ht ↦ htags t (mem_cons_of_mem _ ht)]
  exact hsum m.tags m.aligned

/-- **`pmem_size` says how much memory was handed over**, exactly if that is less than 4 GB.  What
the calls have added to `pmem_freek` is 4 KiB each; what the heap has taken meanwhile, `taken`, is
missing there. -/
theorem totalKiB_eq_iff (m : MemoryMap) (hend : Aligned kernelEnd)
    (hmemory : ∃ tag ∈ m.tags, tag ≠ .other) (s : PhysMem) :
    ∃ (calls taken : List UInt64) (t : PhysMem),
      Returns (fun fuel ↦ machPhysInit fuel kernelEnd m.tags s) t ∧
      Returns (fun fuel ↦ m.tags.foldlM (freeTag fuel kernelEnd) (0, s))
        (calls.foldl freePage (0, s)) ∧
      t.admitted.Perm (calls ++ s.admitted) ∧ t.heapPages = taken ++ s.heapPages ∧
      t.freeKiB + UInt64.ofNat (4 * taken.length) = s.freeKiB + UInt64.ofNat (4 * calls.length) ∧
      ((t.totalKiB.toNat = 4 * calls.length ∧
          t.freeKiB + UInt64.ofNat (4 * taken.length) = s.freeKiB + t.totalKiB) ↔
        m.bytes kernelEnd < 0x100000000) := by
  obtain ⟨t, hret, ht⟩ := m.machPhysInit_booted hend hmemory s
  obtain ⟨taken, htaken, hfree⟩ := ht.admits.freeKiB
  refine ⟨m.given kernelEnd, taken, t, hret, scan_returns hend m.aligned _, ht.admits.admitted,
    htaken, hfree, ?_⟩
  rw [m.bytes_eq hend]
  constructor
  · rintro ⟨hsize, -⟩
    rw [ht.toNat_totalKiB] at hsize
    omega
  · intro hlt
    have hsize : t.totalKiB.toNat = 4 * (m.given kernelEnd).length := by
      rw [ht.toNat_totalKiB, Nat.mod_eq_of_lt (by omega)]
    refine ⟨hsize, hfree.trans ?_⟩
    rw [← hsize, UInt64.ofNat_toNat]

/-- A heap that takes a page with every 128th call, in which it hands out 32 bytes. -/
def steadily : PhysMem := booting (List.replicate 8192 (List.replicate 127 0 ++ [1])).flatten

def fourGigabytes : MemoryMap where
  tags := [.memory 0x1000000 0x101000000 .free]
  aligned := by decide
  disjoint := List.pairwise_singleton _ _

def oneGigabyte : MemoryMap where
  tags := [.other, .memory 0x0 0xA0000 .free, .memory 0x100000 0x40000000 .free]
  aligned := by decide
  disjoint := by
    refine List.pairwise_cons.mpr ⟨fun _ _ _ h ↦ h.elim, ?_⟩
    refine List.pairwise_pair.mpr fun x hx hx' ↦ ?_
    exact absurd (UInt64.lt_of_le_of_lt hx'.1 hx.2) (by decide)

theorem totalKiB_oneGigabyte :
    ∃ (calls taken : List UInt64) (t : PhysMem),
      Returns (fun fuel ↦ machPhysInit fuel 0x500000 oneGigabyte.tags steadily) t ∧
      t.admitted.Perm (calls ++ []) ∧ t.heapPages = taken ++ [] ∧
      t.totalKiB.toNat = 4 * calls.length ∧
      t.freeKiB + UInt64.ofNat (4 * taken.length) = 0 + t.totalKiB := by
  obtain ⟨calls, taken, t, hret, -, hadmitted, htaken, -, hiff⟩ :=
    @totalKiB_eq_iff 0x500000 oneGigabyte (by decide) (by decide) steadily
  obtain ⟨hsize, hfree⟩ := hiff.mpr (by decide)
  exact ⟨calls, taken, t, hret, hadmitted, htaken, hsize, hfree⟩

/-- **No memory at all**: a million pages are handed over, and `pmem_size` says 0. -/
theorem totalKiB_fourGigabytes :
    ∃ t, Returns (fun fuel ↦ machPhysInit fuel 0x500000 fourGigabytes.tags steadily) t ∧
      t.admitted.length = 0x100000 ∧
      t.freeKiB + UInt64.ofNat (4 * t.heapPages.length) = 0x400000 ∧ t.totalKiB = 0 := by
  have hend : Aligned 0x500000 := by decide
  have hlen : (fourGigabytes.given 0x500000).length = 0x100000 := by
    have hbytes := fourGigabytes.bytes_eq hend
    have hsum : fourGigabytes.bytes 0x500000 = 0x100000000 := by decide
    omega
  obtain ⟨t, hret, ht⟩ := fourGigabytes.machPhysInit_booted hend (by decide) steadily
  obtain ⟨taken, htaken, hfree⟩ := ht.admits.freeKiB
  refine ⟨t, hret, ?_, ?_, ?_⟩
  · rw [ht.admits.admitted.length_eq, length_append, hlen]
    rfl
  · rw [htaken, show taken ++ steadily.heapPages = taken from append_nil _, hfree, hlen]
    rfl
  · rw [← UInt64.toNat_inj, ht.toNat_totalKiB, hlen]
    rfl

def Tag.Low (tag : Tag) (p : UInt64) : Prop :=
  ∃ start stop, tag.free = some (start, stop) ∧ stop ≤ 0x100000 ∧ start ≤ p ∧ p < stop ∧
    PhysMem.Aligned p

def firmwarePages (s : PhysMem) : List UInt64 := s.firmwareStack.getD []

/-- A call of `pmem_alloc_special` or `pmem_dealloc_special`, with `PMEM_SPECIAL_FIRMWARE`. -/
inductive FirmwareCall where
  | alloc
  | dealloc (p : UInt64)

def firmwareStep (s : PhysMem) : FirmwareCall → Option PhysMem
  | .alloc => (s.pmemAllocSpecial .firmware).map Prod.snd
  | .dealloc p => some (s.pmemDeallocSpecial .firmware p)

/-- Whatever calls are made, if they do not give page 0 to the allocator, `pmem_alloc_special`
returns 0 only when there is no page. -/
def ZeroMeansNone (s : PhysMem) : Prop :=
  ∀ calls t t', .dealloc 0 ∉ calls → Run.exec firmwareStep s calls = some t →
    t.pmemAllocSpecial .firmware = some (0, t') → t.firmwarePages = []

/-- The firmware gets the pages below 1 MB, without page 0 and the page of the text screen. -/
structure FirmwareLaw (m : MemoryMap) (s : PhysMem) : Prop where
  nodup : s.firmwarePages.Nodup
  pages : ∀ p, p ∈ s.firmwarePages ↔ (∃ tag ∈ m.tags, tag.Low p) ∧ p ≠ 0 ∧ p ≠ 0xB8000
  zero : s.ZeroMeansNone

theorem Tag.mem_kept (htag : tag.Aligned) : p ∈ tag.kept ↔ tag.Low p ∧ p ≠ 0xB8000 := by
  cases hfree : tag.free with
  | none => simp [Tag.kept, Tag.Low, hfree]
  | some range =>
    obtain ⟨start, stop⟩ := range
    obtain ⟨hstart, hstop⟩ := htag.of_free hfree
    have hlow : tag.Low p ↔ stop ≤ 0x100000 ∧ start ≤ p ∧ p < stop ∧ PhysMem.Aligned p := by
      simp [Tag.Low, hfree]
    simp only [Tag.kept, hfree, hlow]
    split
    next hle => simp [mem_pages hstart hstop, hle]
    next hle => simp [hle]

theorem Tag.nodup_kept (htag : tag.Aligned) : tag.kept.Nodup := by
  cases hfree : tag.free with
  | none => simp [Tag.kept, hfree]
  | some range =>
    obtain ⟨hstart, hstop⟩ := htag.of_free hfree
    simp only [Tag.kept, hfree]
    split
    · exact (nodup_pages hstart hstop).filter _
    · exact nodup_nil

theorem MemoryMap.mem_kept (m : MemoryMap) :
    p ∈ m.kept ↔ (∃ tag ∈ m.tags, tag.Low p) ∧ p ≠ 0xB8000 := by
  rw [MemoryMap.kept, mem_flatMap, exists_and_right.symm]
  refine exists_congr fun tag ↦ ?_
  rw [and_assoc]
  exact and_congr_right fun htag ↦ Tag.mem_kept (m.aligned tag htag)

theorem MemoryMap.nodup_kept (m : MemoryMap) : m.kept.Nodup := by
  refine m.nodup_flatMap (fun tag htag ↦ Tag.nodup_kept (m.aligned tag htag)) ?_
  intro tag htag p hp
  obtain ⟨⟨start, stop, hfree, -, hstart, hstop, -⟩, -⟩ :=
    (Tag.mem_kept (m.aligned tag htag)).mp hp
  exact Tag.covers_of_free hfree hstart hstop

theorem zero_notMem_firmwareStep {s t : PhysMem} {call : FirmwareCall} (hs : 0 ∉ s.firmwarePages)
    (hcall : call ≠ .dealloc 0) (ht : firmwareStep s call = some t) : 0 ∉ t.firmwarePages := by
  cases hstack : s.firmwareStack with
  | none =>
    cases call with
    | alloc =>
      simp only [firmwareStep, pmemAllocSpecial, pmemAllocFirmware, hstack] at ht
      cases ht
      exact hs
    | dealloc p =>
      simp only [firmwareStep, pmemDeallocSpecial, pmemDeallocFirmware, hstack] at ht
      cases ht
      exact hs
  | some ps =>
    simp only [firmwarePages, hstack, getD_some] at hs
    cases call with
    | alloc =>
      cases ps with
      | nil => simp [firmwareStep, pmemAllocSpecial, pmemAllocFirmware, hstack, stackPop] at ht
      | cons p ps =>
        simp only [firmwareStep, pmemAllocSpecial, pmemAllocFirmware, hstack, stackPop] at ht
        cases ht
        exact fun h ↦ hs (mem_cons_of_mem _ h)
    | dealloc p =>
      simp only [firmwareStep, pmemDeallocSpecial, pmemDeallocFirmware, hstack] at ht
      cases ht
      refine fun h ↦ hs ((mem_cons.mp h).resolve_left ?_)
      rintro rfl
      exact hcall rfl

theorem mem_of_pmemAllocSpecial {s t : PhysMem} (ht : s.pmemAllocSpecial .firmware = some (p, t)) :
    p ∈ s.firmwarePages ∨ s.firmwarePages = [] := by
  cases hstack : s.firmwareStack with
  | none => exact .inr (by simp [firmwarePages, hstack])
  | some ps =>
    cases ps with
    | nil => exact .inr (by simp [firmwarePages, hstack])
    | cons q ps =>
      simp only [pmemAllocSpecial, pmemAllocFirmware, hstack, stackPop] at ht
      cases ht
      exact .inl (by simp [firmwarePages, hstack])

theorem zeroMeansNone_of_notMem {s : PhysMem} (hs : 0 ∉ s.firmwarePages) : s.ZeroMeansNone := by
  intro calls t t' hcalls hexec halloc
  have ht : 0 ∉ t.firmwarePages := by
    clear halloc
    induction calls generalizing s with
    | nil =>
      cases hexec
      exact hs
    | cons call calls ih =>
      have hcall : call ≠ .dealloc 0 := fun h ↦ hcalls (h ▸ mem_cons_self)
      obtain ⟨r, hr, hexec⟩ := Run.exec_cons_eq_some.mp hexec
      exact ih (zero_notMem_firmwareStep hs hcall hr)
        (fun h ↦ hcalls (mem_cons_of_mem _ h)) hexec
  exact (mem_of_pmemAllocSpecial halloc).resolve_left ht

/-- **The firmware gets the pages it should get**, exactly if no free range that ends at or below 1
MB begins with page 0. -/
theorem firmwareLaw_iff (m : MemoryMap) (hend : Aligned kernelEnd)
    (hmemory : ∃ tag ∈ m.tags, tag ≠ .other) (s : PhysMem) :
    ∃ t, Returns (fun fuel ↦ machPhysInit fuel kernelEnd m.tags s) t ∧
      (FirmwareLaw m t ↔
        ∀ tag ∈ m.tags, ∀ stop, tag.free = some (0, stop) → 0 < stop → 0x100000 < stop) := by
  obtain ⟨t, hret, ht⟩ := m.machPhysInit_booted hend hmemory s
  have hpages : t.firmwarePages = m.kept.reverse := by
    rw [firmwarePages, ht.firmwareStack, getD_some]
  have hmem : ∀ p, p ∈ t.firmwarePages ↔ (∃ tag ∈ m.tags, tag.Low p) ∧ p ≠ 0xB8000 := fun p ↦ by
    rw [hpages, mem_reverse, m.mem_kept]
  refine ⟨t, hret, fun h tag htag stop hfree hpos ↦ ?_, fun h ↦ ?_⟩
  · by_contra hle
    have hzero : 0 ∈ t.firmwarePages := by
      refine (hmem 0).mpr
        ⟨⟨tag, htag, 0, stop, hfree, ?_, UInt64.zero_le, hpos, by decide⟩, by decide⟩
      exact UInt64.not_lt.mp hle
    exact ((h.pages 0).mp hzero).2.1 rfl
  · have hzero : 0 ∉ t.firmwarePages := by
      rintro hzero
      obtain ⟨⟨tag, htag, start, stop, hfree, hle, hstart, hstop, -⟩, -⟩ := (hmem 0).mp hzero
      obtain rfl := UInt64.le_zero_iff.mp hstart
      exact absurd (h tag htag stop hfree hstop) (UInt64.not_lt.mpr hle)
    refine ⟨?_, fun p ↦ ?_, zeroMeansNone_of_notMem hzero⟩
    · rw [hpages]
      exact nodup_reverse.mpr m.nodup_kept
    · rw [hmem]
      refine and_congr_right fun hlow ↦ (and_iff_right_of_imp fun hne ↦ ?_).symm
      rintro rfl
      exact hzero ((hmem 0).mpr ⟨hlow, hne⟩)

def lowMap : MemoryMap where
  tags := [.memory 0x1000 0xC0000 .free]
  aligned := by decide
  disjoint := List.pairwise_singleton _ _

theorem firmwareLaw_lowMap : ∃ t,
    Returns (fun fuel ↦ machPhysInit fuel 0x500000 lowMap.tags empty) t ∧ FirmwareLaw lowMap t := by
  obtain ⟨t, hret, hiff⟩ := @firmwareLaw_iff 0x500000 lowMap (by decide) (by decide) empty
  refine ⟨t, hret, hiff.mpr fun tag htag stop hfree _ ↦ ?_⟩
  obtain rfl := mem_singleton.mp htag
  exact absurd (Prod.mk.inj (some.inj hfree)).1 (by decide)

/-- **The page that looks like a failure**: the second allocation of the firmware returns page 0. -/
theorem not_firmwareLaw_smallMap :
    ∃ t, machPhysInit 3 0x500000 smallMap.tags empty = some t ∧ t.firmwarePages = [0x1000, 0] ∧
      (∃ t₁ t₂, t.pmemAllocSpecial .firmware = some (0x1000, t₁) ∧ t₁.firmwarePages = [0] ∧
        t₁.pmemAllocSpecial .firmware = some (0, t₂)) ∧ ¬ FirmwareLaw smallMap t := by
  refine ⟨_, rfl, rfl, ⟨_, _, rfl, rfl, rfl⟩, fun h ↦ ?_⟩
  exact ((h.pages 0).mp (mem_cons_of_mem _ mem_cons_self)).2.1 rfl

end ForgeOS.PhysMem
