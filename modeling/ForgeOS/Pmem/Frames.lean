import ForgeOS.Pmem.Boot
import ForgeOS.Vmem.Refine

/-!
# Pages above 4 GB

The addresses in the memory map have 64 bits, and an entry of a page table has 32: `arch_vmem_map`
keeps the low half of the address.

The main result is `mappedFaithfully_iff`.
-/

namespace ForgeOS.PhysMem

open Paging Mmu List Option Vmem

/-- When `arch_vmem_map` maps the page `p`, in whatever state the page tables are in and at whatever
address, the entry may refer to the frame `e`. -/
def Installs (p : UInt64) (e : UInt32) : Prop :=
  ∃ (vm vm' : Vmem) (v f : UInt32) (a b : UInt64), vm.WF ∧ v < 0xFFC00000 ∧ (b ≠ 0 → vm.Unused b) ∧
    vm.archVmemMap v p f a b = some (0, vm') ∧ frameOf (vm'.mmu.pte (dirIndex v) (tabIndex v)) = e

def MappedFaithfully (s : PhysMem) : Prop :=
  (∀ p e, s.Obtained p → Installs p e → e.toUInt64 = p) ∧
    ∀ p q e, s.Obtained p → s.Obtained q → Installs p e → Installs q e → p = q

variable {p q : UInt64} {e : UInt32}

theorem Aligned.ne_not_zero (h : Aligned p) : p ≠ ~~~0 := by
  rintro rfl
  exact absurd h (by decide)

theorem installs_iff (hp : p ≠ ~~~0) : Installs p e ↔ e = frameOf p.toUInt32 := by
  have hentry : ∀ {vm vm' : Vmem} {v f : UInt32} {a b : UInt64}, vm.WF → v < 0xFFC00000 →
      (b ≠ 0 → vm.Unused b) → vm.archVmemMap v p f a b = some (0, vm') →
      frameOf (vm'.mmu.pte (dirIndex v) (tabIndex v)) = frameOf p.toUInt32 := by
    intro vm vm' v f a b hwf hv hb hmap
    obtain ⟨s', hmap', -, hspace⟩ :=
      archVmemMap_spec hwf (f := f) (a := a) hv (fun h ↦ absurd h hp) hb
    rw [hmap] at hmap'
    obtain ⟨hzero, rfl⟩ := Prod.mk.inj (some.inj hmap')
    have hframe := Space.frame_call_map hp hzero.symm
    rw [← hspace] at hframe
    obtain ⟨-, hpte⟩ := ite_none_right_eq_some.mp hframe
    exact some.inj hpte
  constructor
  · rintro ⟨vm, vm', v, f, a, b, hwf, hv, hb, hmap, rfl⟩
    exact hentry hwf hv hb hmap
  · rintro rfl
    have hv : (0x400000 : UInt32) < 0xFFC00000 := by decide
    obtain ⟨vm', hmap, -⟩ := archVmemMap_spec wf_blank (f := 0) (a := 0) hv
      (fun h ↦ absurd h hp) (fun _ ↦ unused_blank)
    rw [Space.call_map_eq_zero _ (by decide)] at hmap
    exact ⟨blank, vm', _, _, _, _, wf_blank, hv, fun _ ↦ unused_blank, hmap,
      hentry wf_blank hv (fun _ ↦ unused_blank) hmap⟩

theorem isFrame_iff (hp : Aligned p) : IsFrame p ↔ p.toNat < 2 ^ 32 := by
  have hlow : p.toUInt32 &&& 0xFFF = 0 := by
    refine UInt32.toNat_inj.mp ?_
    have hmask : (0xFFF : UInt32).toNat = 2 ^ 12 - 1 := rfl
    rw [UInt32.toNat_and, hmask, Nat.and_two_pow_sub_one_eq_mod, UInt64.toNat_toUInt32]
    rw [Aligned] at hp
    show _ = 0
    omega
  rw [IsFrame, frameOf_of_and_eq_zero hlow, ← UInt64.toNat_inj, UInt32.toNat_toUInt64,
    UInt64.toNat_toUInt32]
  omega

theorem aligned_log2phys {x : UInt32} (hx : x.toNat % 0x1000 = 0) : Aligned (log2phys x) := by
  rw [Aligned, log2phys, UInt32.toNat_toUInt64, UInt32.toNat_add, UInt32.toNat_sub]
  simp only [UInt32.toNat_ofNat, Nat.reduceMod, Nat.reducePow]
  omega

theorem last_page {start stop kernelEnd : UInt64} (hstart : Aligned start) (hstop : Aligned stop)
    (hend : Aligned kernelEnd) (hlt : start < stop) (hlt' : kernelEnd < stop) :
    start ≤ stop - 0x1000 ∧ kernelEnd ≤ stop - 0x1000 ∧ stop - 0x1000 < stop ∧
      Aligned (stop - 0x1000) ∧ stop.toNat = (stop - 0x1000).toNat + 0x1000 := by
  have hb := stop.toNat_lt
  simp only [Aligned, UInt64.lt_iff_toNat_lt, UInt64.le_iff_toNat_le, UInt64.toNat_sub,
    UInt64.toNat_ofNat, Nat.reduceMod, Nat.reducePow] at *
  omega

/-- **Every page can be mapped, and no two pages get the same frame**, exactly if the free ranges
end below 4 GB. -/
theorem mappedFaithfully_iff {kernelTop : UInt32} (htop : kernelTop.toNat % 0x1000 = 0)
    {tags : List Tag} (htags : ∀ tag ∈ tags, tag.Aligned) (hmemory : ∃ tag ∈ tags, tag ≠ .other)
    (demands : List ℕ) :
    ∃ s, Returns (fun fuel ↦ machPhysInit fuel (log2phys kernelTop) tags (booting demands)) s ∧
      (s.MappedFaithfully ↔ ∀ tag ∈ tags, ∀ start stop, tag.free = some (start, stop) →
        start < stop → log2phys kernelTop < stop → stop ≤ 0x100000000) := by
  have hend := aligned_log2phys htop
  obtain ⟨s, hret, hmem⟩ := machPhysInit_admitted hend htags hmemory demands
  refine ⟨s, hret, fun h tag htag start stop hfree hstart hstop ↦ ?_, fun h ↦ ?_⟩
  · -- The last page of the range is mapped faithfully.
    obtain ⟨hstartA, hstopA⟩ := (htags tag htag).of_free hfree
    obtain ⟨hfirst, hkernel, hlt, haligned, hlast⟩ :=
      last_page hstartA hstopA hend hstart hstop
    have hobtained : s.Obtained (stop - 0x1000) :=
      obtained_iff.mpr ((hmem _).mpr ⟨tag, htag, start, stop, hfree, hfirst, hkernel, hlt, haligned⟩)
    have hframe := h.1 _ _ hobtained ((installs_iff haligned.ne_not_zero).mpr rfl)
    have hlow := (isFrame_iff haligned).mp hframe.symm
    have htotal : stop.toNat % 0x1000 = 0 := hstopA
    rw [UInt64.le_iff_toNat_le]
    show stop.toNat ≤ 2 ^ 32
    omega
  · have hfaithful : ∀ p e, s.Obtained p → Installs p e → e.toUInt64 = p := by
      intro p e hp he
      obtain ⟨tag, htag, start, stop, hfree, hstart, hkernel, hstop, haligned⟩ :=
        (hmem p).mp (obtained_iff.mp hp)
      have hle := h tag htag start stop hfree (UInt64.lt_of_le_of_lt hstart hstop)
        (UInt64.lt_of_le_of_lt hkernel hstop)
      rw [(installs_iff haligned.ne_not_zero).mp he]
      refine ((isFrame_iff haligned).mpr ?_).symm
      exact UInt64.lt_iff_toNat_lt.mp (UInt64.lt_of_lt_of_le hstop hle)
    exact ⟨hfaithful, fun p q e hp hq hpe hqe ↦ (hfaithful p e hp hpe).symm.trans (hfaithful q e hq hqe)⟩

def twoPages : List Tag :=
  [.memory 0x1000000 0x1001000 .free, .other, .memory 0x101000000 0x101001000 .free]

theorem mappedFaithfully_onePage :
    ∃ s, Returns (fun fuel ↦ machPhysInit fuel (log2phys 0xC0100000) (twoPages.take 2) empty) s ∧
      s.MappedFaithfully := by
  obtain ⟨s, hret, hiff⟩ :=
    @mappedFaithfully_iff 0xC0100000 (by decide) (twoPages.take 2) (by decide) (by decide) []
  refine ⟨s, hret, hiff.mpr fun tag htag start stop hfree _ _ ↦ ?_⟩
  rcases mem_cons.mp htag with rfl | htag
  · obtain ⟨rfl, rfl⟩ := Prod.mk.inj (some.inj hfree)
    decide
  · obtain rfl := mem_singleton.mp htag
    cases hfree

/-- **Two pages, one frame**: both entries refer to the page below 4 GB. -/
theorem not_mappedFaithfully_twoPages : ∃ s,
    machPhysInit 2 (log2phys 0xC0100000) twoPages empty = some s ∧ s.nthAlloc 0 = some 0x101000000 ∧
      s.nthAlloc 1 = some 0x1000000 ∧ Installs 0x101000000 0x1000000 ∧ Installs 0x1000000 0x1000000 ∧
      ¬ s.MappedFaithfully := by
  have hhigh : Installs 0x101000000 0x1000000 := (installs_iff (by decide)).mpr (by decide)
  have hlow : Installs 0x1000000 0x1000000 := (installs_iff (by decide)).mpr (by decide)
  refine ⟨_, rfl, rfl, rfl, hhigh, hlow, fun h ↦ ?_⟩
  exact absurd (h.1 0x101000000 0x1000000 (.inr ⟨0, by decide, rfl⟩) hhigh) (by decide)

end ForgeOS.PhysMem
