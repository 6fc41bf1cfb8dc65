import ForgeOS.Vmem.Refine

/-!
# Two ways to look up an address

`arch_vmem_ismapped` reads the entry of the directory first, and the page table only if the entry
names one.  `arch_vmem_v2p` goes straight to the page table.

The main result is `agree_iff`.
-/

namespace ForgeOS.Vmem

open Paging Mmu Option

variable {s : Vmem} {v : UInt32}

def dirEntry (s : Vmem) (v : UInt32) : UInt32 := s.mmu.dir (dirIndex v)

def tabEntry (s : Vmem) (v : UInt32) : UInt32 := s.mmu.pte (dirIndex v) (tabIndex v)

def Mapped (s : Vmem) (v : UInt32) : Prop := Present (s.dirEntry v) ∧ Present (s.tabEntry v)

instance Mapped.decidable (s : Vmem) (v : UInt32) : Decidable (s.Mapped v) :=
  inferInstanceAs (Decidable (_ ∧ _))

def physical (s : Vmem) (v : UInt32) : UInt64 :=
  (frameOf (s.tabEntry v)).toUInt64 ||| (v &&& 0xFFF).toUInt64

/-- **The two functions agree**, with each other and with the tables, and return. -/
structure Agree (s : Vmem) (v : UInt32) : Prop where
  ismapped : s.archVmemIsmapped v = some (decide (s.Mapped v))
  v2p : s.archVmemV2p v = some (if s.Mapped v then s.physical v else 0)

theorem load_ptabSlot_eq (h : s.mmu.Recursive) (v : UInt32) : s.load (ptabSlot v) =
    if Present (s.dirEntry v) then some (s.tabEntry v) else none := by
  rw [load, ptabSlot_eq, load_window_eq h, dirEntry, tabEntry]

theorem archVmemV2p_eq (h : s.mmu.Recursive) (v : UInt32) :
    s.archVmemV2p v = if Present (s.dirEntry v) then
      some (if Present (s.tabEntry v) then s.physical v else 0) else none := by
  rw [archVmemV2p, load_ptabSlot_eq h]
  split
  · rw [bind_eq_bind, bind_some, toUInt64_and_mask, physical]
    exact (apply_ite some _ _ _).symm
  · rw [bind_eq_bind, bind_none]

theorem archVmemIsmapped_eq (h : s.mmu.Recursive) (v : UInt32) :
    s.archVmemIsmapped v = if frameOf (s.dirEntry v) = 0 then some false
      else if Present (s.dirEntry v) then some (decide (Present (s.tabEntry v))) else none := by
  have hdir : s.load (pdirSlot v) = some (s.dirEntry v) := by
    rw [load, pdirSlot_eq, load_window_dir h, dirEntry]
  have hmask : s.dirEntry v &&& ~~~0xFFF = frameOf (s.dirEntry v) := rfl
  simp only [Vmem.archVmemIsmapped, hdir, load_ptabSlot_eq h, bind_eq_bind, bind_some,
    hmask]
  by_cases hzero : frameOf (s.dirEntry v) = 0
  · rw [if_neg (not_not.mpr hzero), if_pos hzero]
  · rw [if_pos hzero, if_neg hzero]
    split
    · rw [bind_some]
      rfl
    · rw [bind_none]

theorem Agree.present (hagree : Agree s v) (h : s.mmu.Recursive) : Present (s.dirEntry v) := by
  have hv2p := hagree.v2p
  rw [archVmemV2p_eq h] at hv2p
  by_contra hnot
  rw [if_neg hnot] at hv2p
  cases hv2p

theorem Agree.of_present (h : s.mmu.Recursive) (hdir : Present (s.dirEntry v))
    (hzero : frameOf (s.dirEntry v) = 0 → ¬ Present (s.tabEntry v)) : Agree s v := by
  have htab : s.Mapped v ↔ Present (s.tabEntry v) := and_iff_right hdir
  refine ⟨?_, ?_⟩
  · rw [archVmemIsmapped_eq h]
    by_cases h0 : frameOf (s.dirEntry v) = 0
    · rw [if_pos h0, decide_eq_false (mt htab.mp (hzero h0))]
    · rw [if_neg h0, if_pos hdir, decide_eq_decide.mpr htab]
  · rw [archVmemV2p_eq h, if_pos hdir]
    simp only [htab]

/-- **`arch_vmem_v2p` and `arch_vmem_ismapped` agree exactly where there is a page table**, which
must not have a page if it is at physical address 0. -/
theorem agree_iff (h : s.mmu.Recursive) (v : UInt32) :
    Agree s v ↔ Present (s.dirEntry v) ∧ (frameOf (s.dirEntry v) = 0 → ¬ Present (s.tabEntry v)) := by
  constructor
  · intro hagree
    have hdir := hagree.present h
    refine ⟨hdir, fun hzero htab ↦ ?_⟩
    have hmapped := hagree.ismapped
    rw [archVmemIsmapped_eq h, if_pos hzero,
      decide_eq_true (show s.Mapped v from ⟨hdir, htab⟩)] at hmapped
    cases hmapped
  · rintro ⟨hdir, hzero⟩
    exact .of_present h hdir hzero

theorem WF.present_dirEntry_iff (h : WF s) (v : UInt32) :
    Present (s.dirEntry v) ↔ frameOf (s.dirEntry v) ≠ 0 := by
  rcases h.entry (dirIndex v) with ⟨hzero, hnot⟩ | ⟨hne, htable⟩
  · exact iff_of_false hnot (not_not.mpr hzero)
  · exact iff_of_true htable.present hne

theorem WF.mapped_iff (h : WF s) (v : UInt32) : s.Mapped v ↔ (s.lookup (page v)).isSome := by
  rw [lookup_isSome, Mapped, h.present_dirEntry_iff]
  rfl

theorem agree_populated : Present (populated.dirEntry 0xE0001234) ∧ Agree populated 0xE0001234 := by
  have hdir : populated.dirEntry 0xE0001234 = 0x2003 := by
    rw [dirEntry, dir_populated]
    decide
  have hpresent : Present (populated.dirEntry 0xE0001234) := by
    rw [hdir]
    decide
  refine ⟨hpresent, (agree_iff wf_populated.recursive _).mpr ⟨hpresent, fun hzero ↦ ?_⟩⟩
  rw [hdir] at hzero
  exact absurd hzero (by decide)

/-- **Where nothing has been mapped, `arch_vmem_v2p` is a page fault.** -/
theorem not_agree_blank :
    WF blank ∧ blank.archVmemIsmapped 0x400000 = some false ∧ blank.archVmemV2p 0x400000 = none ∧
      ¬ Agree blank 0x400000 := by
  have hdir : blank.dirEntry 0x400000 = 0 := by
    rw [dirEntry, dir_blank]
    decide
  have hnone : blank.archVmemV2p 0x400000 = none := by
    rw [archVmemV2p_eq wf_blank.recursive, hdir, if_neg not_present_zero]
  refine ⟨wf_blank, ?_, hnone, fun hagree ↦ ?_⟩
  · rw [archVmemIsmapped_eq wf_blank.recursive, hdir, if_pos (by decide)]
  · rw [hagree.v2p] at hnone
    cases hnone

end ForgeOS.Vmem
