import ForgeOS.Pmem.Boot

/-!
# The physical pages at boot, on the OMAP3

`mach_phys_init` frees the pages of the RAM and leaves out those between the first page of the
kernel and its end.  The page directory and the page tables, which `arch_vmem_init` has put into use
by then, are not left out.

The main result is `never_free`: whatever the size of the kernel, a page that is in use is freed.
-/

namespace ForgeOS.PhysMem.Omap3

open List

def ramStart : UInt64 := 0x80000000

def ramFinish : UInt64 := 0xA0000000

def pagedirPhys : UInt64 := 0x8FAFC000

def pagetabsPhys : UInt64 := 0x8FB00000

/-- The kernel, between the symbols `init` and `end`: it lies in the RAM and has whole pages. -/
structure Image where
  init : UInt64
  stop : UInt64
  ramStart_le : ramStart ≤ init
  init_le : init ≤ stop
  le_ramFinish : stop ≤ ramFinish
  alignedInit : Aligned init
  alignedStop : Aligned stop

def visitPage (kernel : Image) (ns : UInt32 × PhysMem) (base : UInt64) : UInt32 × PhysMem :=
  if base < kernel.stop ∧ base > kernel.init then ns else freePage ns base

def machPhysInit (fuel : ℕ) (kernel : Image) (s : PhysMem) : Option PhysMem :=
  (forPages (visitPage kernel) fuel ramStart ramFinish (0, s)).map fun (n, s) ↦
    { s with totalKiB := (n * 0x1000 / 1024).toUInt64 }

/-- The page at `p` has an address in common with `[start, stop)`. -/
def Overlaps (p start stop : UInt64) : Prop :=
  ∃ x : UInt64, p ≤ x ∧ x.toNat < p.toNat + 0x1000 ∧ start ≤ x ∧ x < stop

/-- The page is not in use: not by the kernel, nor for the directory of 16 KB or the tables of
4 MB. -/
def Free (kernel : Image) (p : UInt64) : Prop :=
  ¬ Overlaps p kernel.init kernel.stop ∧ ¬ Overlaps p pagedirPhys (pagedirPhys + 0x4000) ∧
    ¬ Overlaps p pagetabsPhys (pagetabsPhys + 0x400000)

variable {kernel : Image} {p start stop : UInt64}

theorem overlaps_iff (hp : Aligned p) (hstart : Aligned start) (hstop : Aligned stop) :
    Overlaps p start stop ↔ start ≤ p ∧ p < stop := by
  constructor
  · rintro ⟨x, hpx, hx, hstartx, hxstop⟩
    simp only [Aligned, UInt64.lt_iff_toNat_lt, UInt64.le_iff_toNat_le] at *
    omega
  · rintro ⟨hle, hlt⟩
    exact ⟨p, UInt64.le_refl p, by omega, hle, hlt⟩

def freed (kernel : Image) : List UInt64 :=
  (pages ramStart ramFinish).filter fun p ↦ ¬ (p < kernel.stop ∧ p > kernel.init)

theorem foldl_visitPage (l : List UInt64) (ns : UInt32 × PhysMem) :
    l.foldl (visitPage kernel) ns =
      (l.filter fun p ↦ ¬ (p < kernel.stop ∧ p > kernel.init)).foldl freePage ns := by
  induction l generalizing ns with
  | nil => rfl
  | cons p l ih =>
    rw [foldl_cons, ih, visitPage]
    by_cases hp : p < kernel.stop ∧ p > kernel.init
    · rw [if_pos hp, filter_cons_of_neg (by simpa using hp)]
    · rw [if_neg hp, filter_cons, if_pos (decide_eq_true hp), foldl_cons]

theorem mem_freed : p ∈ freed kernel ↔
    ramStart ≤ p ∧ p < ramFinish ∧ Aligned p ∧ ¬ (kernel.init < p ∧ p < kernel.stop) := by
  rw [freed, mem_filter, mem_pages (by decide) (by decide), decide_eq_true_iff, and_assoc,
    and_assoc, and_comm (a := p < kernel.stop)]

theorem machPhysInit_returns (kernel : Image) (s : PhysMem) :
    ∃ t, Returns (fun fuel ↦ machPhysInit fuel kernel s) t ∧
      t.admitted.Perm (freed kernel ++ s.admitted) := by
  have hloop : Returns (fun fuel ↦ forPages (visitPage kernel) fuel ramStart ramFinish (0, s))
      ((freed kernel).foldl freePage (0, s)) := by
    rw [freed, ← foldl_visitPage]
    exact forPages_returns (by decide) (by decide) (0, s)
  refine ⟨_, hloop.map rfl, ?_⟩
  rw [foldl_freePage]
  exact (Admits.foldl_pmemDealloc (freed kernel) s).admitted

/-- The first page of the kernel is freed, because `base > kernel_start` is false for it. -/
theorem init_mem_freed (h : kernel.init < kernel.stop) : kernel.init ∈ freed kernel := by
  refine mem_freed.mpr ⟨kernel.ramStart_le, UInt64.lt_of_lt_of_le h kernel.le_ramFinish,
    kernel.alignedInit, fun hin ↦ ?_⟩
  exact absurd hin.1 (UInt64.lt_irrefl _)

theorem pagedir_mem_freed (h : ¬ kernel.init < kernel.stop) : pagedirPhys ∈ freed kernel := by
  refine mem_freed.mpr ⟨by decide, by decide, by decide, fun hin ↦ ?_⟩
  exact absurd (UInt64.lt_trans hin.1 hin.2) h

theorem exists_not_free (kernel : Image) : ∃ p ∈ freed kernel, ¬ Free kernel p := by
  by_cases hne : kernel.init < kernel.stop
  · refine ⟨kernel.init, init_mem_freed hne, fun hfree ↦ hfree.1 ?_⟩
    exact (overlaps_iff kernel.alignedInit kernel.alignedInit kernel.alignedStop).mpr
      ⟨UInt64.le_refl _, hne⟩
  · -- There is no kernel, and nothing is left out.
    refine ⟨pagedirPhys, pagedir_mem_freed hne, fun hfree ↦ hfree.2.1 ?_⟩
    exact (overlaps_iff (by decide) (by decide) (by decide)).mpr (by decide)

/-- **The OMAP3 always frees a page that is in use**, whatever kernel there is. -/
theorem never_free (kernel : Image) (s : PhysMem) :
    ∃ (calls : List UInt64) (t : PhysMem), Returns (fun fuel ↦ machPhysInit fuel kernel s) t ∧
      t.admitted.Perm (calls ++ s.admitted) ∧
      (∀ p, p ∈ calls ↔ ramStart ≤ p ∧ p < ramFinish ∧ Aligned p ∧
        ¬ (kernel.init < p ∧ p < kernel.stop)) ∧
      ∃ p ∈ calls, ¬ Free kernel p := by
  obtain ⟨t, hret, hpages⟩ := machPhysInit_returns kernel s
  exact ⟨freed kernel, t, hret, hpages, fun p ↦ mem_freed, exists_not_free kernel⟩

def smallKernel : Image where
  init := 0x80008000
  stop := 0x80108000
  ramStart_le := by decide
  init_le := by decide
  le_ramFinish := by decide
  alignedInit := by decide
  alignedStop := by decide

/-- **The first page of the kernel and the page directory are freed.** -/
theorem not_free_smallKernel :
    ∃ t, Returns (fun fuel ↦ machPhysInit fuel smallKernel empty) t ∧
      0x80008000 ∈ t.admitted ∧ Overlaps 0x80008000 smallKernel.init smallKernel.stop ∧
      0x8FAFC000 ∈ t.admitted ∧ Overlaps 0x8FAFC000 pagedirPhys (pagedirPhys + 0x4000) := by
  obtain ⟨t, hret, hpages⟩ := machPhysInit_returns smallKernel empty
  have hfreed : ∀ p, p ∈ freed smallKernel → p ∈ t.admitted := fun p hp ↦
    hpages.mem_iff.mpr (mem_append_left _ hp)
  refine ⟨t, hret, hfreed _ (mem_freed.mpr (by decide)), ?_,
    hfreed _ (mem_freed.mpr (by decide)), ?_⟩
  · exact (overlaps_iff (by decide) (by decide) (by decide)).mpr (by decide)
  · exact (overlaps_iff (by decide) (by decide) (by decide)).mpr (by decide)

end ForgeOS.PhysMem.Omap3
