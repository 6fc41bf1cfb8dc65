import ForgeOS.Arm.Descriptor
import ForgeOS.Lib.Fuel

/-!
# The tables that `arch_vmem_init` makes

Every word of the page directory is in use (`slot`), and nothing writes to it later.  That is enough
for the window of the page tables to work.
-/

namespace ForgeOS.ArmVmem

open ArmMmu BitField Function List Option

theorem decode_pageTable {n : ℕ} (hn : n < 2 ^ 32) (hbase : n % 0x400 = 0) :
    decode₁ (pageTable n.toUInt32) = .table n := by
  have htype : Level1.type.get (pageTable n.toUInt32) = 1 := by
    rw [pageTable, get_set_of_apart _ _ (by decide)]
    exact get_set FirstLevel.type _ _
  have hget : Level1.tableBase.get (pageTable n.toUInt32) * 2 ^ 10 = n := by
    rw [pageTable, get_set_of_apart _ _ (by decide), get_set_of_apart _ _ (by decide), BitField.get,
      Nat.toUInt32_eq, UInt32.toNat_ofNat']
    simp only [Level1.tableBase]
    omega
  rw [decode₁, htype]
  simp only [hget]

theorem decode_kernelSection {n : ℕ} (hn : n < 2 ^ 32) (hbase : n % 2 ^ 20 = 0) :
    decode₁ (kernelSection n.toUInt32) = .megabyte n := by
  have htype : Level1.type.get (kernelSection n.toUInt32) = 2 := by
    simp (disch := decide) only [kernelSection, assignAll, foldl_cons, foldl_nil,
      get_set_of_apart]
    exact get_set FirstLevel.type _ _
  obtain ⟨hsuper, hget⟩ : Level1.isSuper.get (kernelSection n.toUInt32) = 0 ∧
      Level1.sectionBase.get (kernelSection n.toUInt32) * 2 ^ 20 = n := by
    simp (disch := decide) only [kernelSection, assignAll, foldl_cons, foldl_nil,
      get_set_of_apart]
    simp only [BitField.get, Nat.toUInt32_eq, UInt32.toNat_ofNat', Level1.isSuper,
      Level1.sectionBase]
    omega
  rw [decode₁, htype]
  simp only [hsuper, if_true, hget]

theorem decode_directoryPage {n : ℕ} (hn : n < 2 ^ 32) (hbase : n % 0x1000 = 0) :
    ∃ page, decode₂ (directoryPage n.toUInt32) = .small page ∧ page.base = n := by
  have htype : Level2.type.get (directoryPage n.toUInt32) = 3 := by
    simp (disch := decide) only [directoryPage, assignAll, foldl_cons, foldl_nil,
      get_set_of_apart]
    exact get_set SecondLevel.type _ _
  have hget : Level2.smallBase.get (directoryPage n.toUInt32) * 2 ^ 12 = n := by
    simp (disch := decide) only [directoryPage, assignAll, foldl_cons, foldl_nil,
      get_set_of_apart]
    rw [BitField.get, Nat.toUInt32_eq, UInt32.toNat_ofNat']
    simp only [Level2.smallBase]
    omega
  rw [decode₂, htype]
  exact ⟨_, rfl, hget⟩

def sections (kernelEnd : ℕ) : ℕ := (kernelEnd - ramStart + 0xFFFFF) / 0x100000

def slot (kernelEnd d : ℕ) : First :=
  if index₁ ramStart ≤ d ∧ d < index₁ ramStart + sections kernelEnd then .megabyte (d * 2 ^ 20)
  else if index₁ pagetabsVirt ≤ d ∧ d < index₁ pagetabsVirt + 4 then
    .megabyte (pagetabsPhys + (d - index₁ pagetabsVirt) * 2 ^ 20)
  else .table (tabWord d 0)

variable {kernelEnd : ℕ} {mem : ℕ → UInt32} {d t : ℕ}

theorem slot_ne_fault (kernelEnd d : ℕ) : slot kernelEnd d ≠ .fault := by
  rw [slot]
  split
  · nofun
  · split <;> nofun

structure Built (kernelEnd : ℕ) (mem : ℕ → UInt32) (done : ℕ → Prop) : Prop where
  dir : ∀ d < 4096, done d → decode₁ (mem (dirWord d)) = slot kernelEnd d
  rest : ∀ d < 4096, ¬ done d → mem (dirWord d) = 0
  window : ∀ i < 4, mem (tabWord 0xFFF (0xB0 + i)) = directoryPage (pagedirPhys + i * 0x1000).toUInt32
  tabs : ∀ d < 4096, ∀ t < 256, ¬ (d = 0xFFF ∧ 0xB0 ≤ t ∧ t < 0xB4) → mem (tabWord d t) = 0

variable {done done' : ℕ → Prop}

theorem Built.write (h : Built kernelEnd mem done) (hd : d < 4096)
    {w : UInt32} (hw : decode₁ w = slot kernelEnd d) (hdone : ∀ e, done' e ↔ done e ∨ e = d) :
    Built kernelEnd (Function.update mem (dirWord d) w) done' := by
  have htab : ∀ e < 4096, ∀ t < 256, tabWord e t ≠ dirWord d := by
    intro e he t ht
    simp only [tabWord, dirWord, pagetabsPhys, pagedirPhys]
    omega
  have hdir : ∀ e, e ≠ d → dirWord e ≠ dirWord d := by
    intro e he
    simp only [dirWord]
    omega
  refine ⟨fun e he hde ↦ ?_, fun e he hde ↦ ?_, fun i hi ↦ ?_, fun e he t ht hne ↦ ?_⟩
  · by_cases hed : e = d
    · rw [hed, update_self, hw]
    · rw [update_of_ne (hdir e hed)]
      exact h.dir e he (((hdone e).mp hde).resolve_right hed)
  · have hne := not_or.mp (mt (hdone e).mpr hde)
    rw [update_of_ne (hdir e hne.2)]
    exact h.rest e he hne.1
  · rw [update_of_ne (htab _ (by omega) _ (by omega))]
    exact h.window i hi
  · rw [update_of_ne (htab e he t ht)]
    exact h.tabs e he t ht hne

theorem Built.congr (h : Built kernelEnd mem done)
    (hdone : ∀ d < 4096, done d ↔ done' d) : Built kernelEnd mem done' where
  dir d hd hdd := h.dir d hd ((hdone d hd).mpr hdd)
  rest d hd hdd := h.rest d hd (mt (hdone d hd).mp hdd)
  window := h.window
  tabs := h.tabs

theorem Built.eq_zero_iff {done : ℕ → Prop} (h : Built kernelEnd mem done) (hd : d < 4096) :
    mem (dirWord d) = 0 ↔ ¬ done d := by
  refine ⟨fun hzero hdone ↦ ?_, h.rest d hd⟩
  have hslot := h.dir d hd hdone
  rw [hzero] at hslot
  exact slot_ne_fault kernelEnd d (hslot.symm.trans rfl)

theorem sections_le (hend : kernelEnd ≤ ramFinish) : sections kernelEnd ≤ 512 := by
  simp only [sections, ramStart, ramFinish] at *
  omega

theorem index_ramStart : index₁ ramStart = 0x800 := rfl

theorem index_pagetabsVirt : index₁ pagetabsVirt = 0xFF0 := rfl

theorem slot_kernel {k : ℕ} (hk : k < sections kernelEnd) :
    slot kernelEnd (0x800 + k) = .megabyte (ramStart + k * 0x100000) := by
  rw [slot, if_pos (by rw [index_ramStart]; omega)]
  congr 1
  rw [ramStart]
  omega

theorem slot_tables (hend : kernelEnd ≤ ramFinish) {k : ℕ} (hk : k < 4) :
    slot kernelEnd (0xFF0 + k) = .megabyte (pagetabsPhys + k * 0x100000) := by
  have hle := sections_le hend
  rw [slot, index_ramStart, index_pagetabsVirt, if_neg (by omega), if_pos (by omega),
    Nat.add_sub_cancel_left]
  rfl

theorem slot_table (hkernel : ¬ (0x800 ≤ d ∧ d < 0x800 + sections kernelEnd))
    (htables : ¬ (0xFF0 ≤ d ∧ d < 0xFF4)) : slot kernelEnd d = .table (tabWord d 0) := by
  rw [slot, index_ramStart, index_pagetabsVirt, if_neg hkernel, if_neg htables]

theorem tabWord_inj {e u : ℕ} (ht : t < 256) (hu : u < 256) (h : tabWord d t = tabWord e u) :
    d = e ∧ t = u := by
  simp only [tabWord] at h
  omega

theorem mapDirectory_eq (mem : ℕ → UInt32) :
    (∀ i < 4, mapDirectory mem (tabWord 0xFFF (0xB0 + i)) =
        directoryPage (pagedirPhys + i * 0x1000).toUInt32) ∧
      mapDirectory mem (dirWord 0xFFF) = pageTable (tabWord 0xFFF 0).toUInt32 ∧
      ∀ a, a ≠ dirWord 0xFFF → (∀ i < 4, a ≠ tabWord 0xFFF (0xB0 + i)) →
        mapDirectory mem a = mem a := by
  have hindex : ∀ i < 4, index₂ (pagedirVirt + i * 0x1000) = 0xB0 + i := by
    intro i hi
    simp only [index₂, pagedirVirt]
    omega
  -- After `k` turns the first `k` words are there, and everything else is as before the loop.
  have hloop := foldl_range_induction (motive := fun k mem' ↦
      (∀ i < k, mem' (tabWord 0xFFF (0xB0 + i)) =
        directoryPage (pagedirPhys + i * 0x1000).toUInt32) ∧
      ∀ a, (∀ i < 4, a ≠ tabWord 0xFFF (0xB0 + i)) → mem' a = update mem (dirWord 0xFFF)
        (pageTable (pagetabsPhys + (0x400000 - 0x400)).toUInt32) a)
    (fun mem i ↦ update mem (tabWord 0xFFF (index₂ (pagedirVirt + i * 0x1000)))
      (directoryPage (pagedirPhys + i * 0x1000).toUInt32))
    4 ⟨fun i hi ↦ absurd hi (by omega), fun a _ ↦ rfl⟩ ?_
  · obtain ⟨hwindow, hrest⟩ := hloop
    refine ⟨hwindow, ?_, fun a hdir hwin ↦ ?_⟩
    · refine (hrest _ fun i hi ↦ ?_).trans (update_self ..)
      simp only [dirWord, tabWord, pagedirPhys, pagetabsPhys]
      omega
    · exact (hrest a hwin).trans (update_of_ne hdir _ _)
  · rintro k mem' hk ⟨hwindow, hrest⟩
    rw [hindex k hk]
    refine ⟨fun i hi ↦ ?_, fun a ha ↦ ?_⟩
    · by_cases hik : i = k
      · rw [hik, update_self]
      · rw [update_of_ne fun heq ↦ hik ?_]
        · exact hwindow i (by omega)
        · have := tabWord_inj (by omega) (by omega) heq
          omega
    · rw [update_of_ne (ha k hk)]
      exact hrest a ha

theorem built_mapDirectory (hend : kernelEnd ≤ ramFinish) (mem : ℕ → UInt32) :
    Built kernelEnd (mapDirectory (zeroTables mem)) fun d ↦ d = 0xFFF := by
  have hle := sections_le hend
  obtain ⟨hwindow, hlast, hrest⟩ := mapDirectory_eq (zeroTables mem)
  refine ⟨?_, fun d hd hne ↦ ?_, hwindow, fun d hd t ht hne ↦ ?_⟩
  · rintro d hd rfl
    rw [hlast, slot_table (by omega) (by omega), decode_pageTable (by decide) (by decide)]
  · rw [hrest, zeroTables, if_pos]
    all_goals simp only [dirWord, tabWord, pagedirPhys, pagetabsPhys]
    all_goals omega
  · rw [hrest, zeroTables, if_pos]
    · simp only [tabWord, pagedirPhys, pagetabsPhys]
      omega
    · simp only [dirWord, tabWord, pagedirPhys, pagetabsPhys]
      omega
    · intro i hi heq
      have := tabWord_inj ht (by omega) heq
      omega

theorem Built.mapKernel (hend : kernelEnd ≤ ramFinish) (h : Built kernelEnd mem fun d ↦ d = 0xFFF) :
    Built kernelEnd (mapKernel kernelEnd mem)
      fun d ↦ d = 0xFFF ∨ 0x800 ≤ d ∧ d < 0x800 + sections kernelEnd := by
  have hle := sections_le hend
  refine foldl_range_induction (motive := fun k mem ↦
    Built kernelEnd mem fun d ↦ d = 0xFFF ∨ 0x800 ≤ d ∧ d < 0x800 + k) _ (sections kernelEnd) ?_ ?_
  · exact h.congr fun d _ ↦ by omega
  · intro k mem hk h
    have hindex : index₁ (ramStart + k * 0x100000) = 0x800 + k := by
      simp only [index₁, ramStart]
      omega
    rw [hindex]
    refine h.write (by omega) ?_ fun e ↦ by omega
    rw [slot_kernel hk, decode_kernelSection]
    all_goals
      simp only [ramStart]
      omega

def DoneBefore (kernelEnd k d : ℕ) : Prop :=
  d = 0xFFF ∨ (0x800 ≤ d ∧ d < 0x800 + sections kernelEnd) ∨ (0xFF0 ≤ d ∧ d < 0xFF0 + k) ∨ d < k * 1024

theorem Built.mapTables (hend : kernelEnd ≤ ramFinish) {k : ℕ} (hk : k < 4)
    (h : Built kernelEnd mem (DoneBefore kernelEnd k)) :
    Built kernelEnd (mapTables mem k) (DoneBefore kernelEnd (k + 1)) := by
  have hle := sections_le hend
  have hindex : index₁ (pagetabsVirt + k * 0x100000) = 0xFF0 + k := by
    simp only [index₁, pagetabsVirt]
    omega
  have hsection : decode₁ (kernelSection (pagetabsPhys + k * 0x100000).toUInt32) =
      slot kernelEnd (0xFF0 + k) := by
    rw [slot_tables hend hk, decode_kernelSection]
    all_goals
      simp only [pagetabsPhys]
      omega
  rw [ArmVmem.mapTables, hindex]
  have hloop := foldl_range_induction (motive := fun i mem ↦ Built kernelEnd mem fun e ↦
      DoneBefore kernelEnd k e ∨ e = 0xFF0 + k ∨ k * 1024 ≤ e ∧ e < k * 1024 + i)
    (fun mem i ↦
      if mem (dirWord (k * 1024 + i)) = 0 then
        update mem (dirWord (k * 1024 + i))
          (pageTable (pagetabsPhys + k * 0x100000 + i * 0x400).toUInt32)
      else mem) 1024 (h.write (by omega) hsection fun e ↦ by rw [DoneBefore]; omega) ?_
  · refine hloop.congr fun e _ ↦ ?_
    simp only [DoneBefore]
    omega
  · intro i mem hi h
    have hword : pagetabsPhys + k * 0x100000 + i * 0x400 = tabWord (k * 1024 + i) 0 := by
      simp only [tabWord]
      omega
    split
    next hzero =>
      -- The word is not done, so it is not one of a section.
      have hnot := (h.eq_zero_iff (by omega)).mp hzero
      simp only [DoneBefore] at hnot
      refine h.write (by omega) ?_ fun e ↦ by rw [DoneBefore]; omega
      rw [slot_table (by omega) (by omega), hword, decode_pageTable]
      all_goals
        simp only [tabWord, pagetabsPhys]
        omega
    next hne =>
      have hdone := not_not.mp (mt (h.eq_zero_iff (by omega)).mpr hne)
      refine h.congr fun e _ ↦ ?_
      by_cases he : e = k * 1024 + i
      · subst he
        exact iff_of_true hdone (.inr (.inr (by omega)))
      · rw [DoneBefore]
        omega

theorem Built.mapAllTables (hend : kernelEnd ≤ ramFinish)
    (h : Built kernelEnd mem (DoneBefore kernelEnd 0)) :
    Built kernelEnd ((List.range 4).foldl ArmVmem.mapTables mem) fun _ ↦ True := by
  have hloop : Built kernelEnd ((range 4).foldl ArmVmem.mapTables mem)
      (DoneBefore kernelEnd 4) :=
    foldl_range_induction (motive := fun k mem ↦ Built kernelEnd mem (DoneBefore kernelEnd k)) _ 4 h
      fun k mem hk h ↦ h.mapTables hend hk
  refine hloop.congr fun e he ↦ iff_of_true ?_ trivial
  rw [DoneBefore]
  omega

theorem built_archVmemInit (hend : kernelEnd ≤ ramFinish) (s : ArmVmem) :
    Built kernelEnd (archVmemInit kernelEnd s).mem fun _ ↦ True := by
  have hfirst : Built kernelEnd (ArmVmem.mapKernel kernelEnd (mapDirectory (zeroTables s.mem)))
      (DoneBefore kernelEnd 0) := by
    have hkernel := (built_mapDirectory hend s.mem).mapKernel hend
    refine hkernel.congr fun e _ ↦ ?_
    rw [DoneBefore]
    omega
  simp only [archVmemInit]
  exact hfirst.mapAllTables hend

def Intact (kernelEnd : ℕ) (s : ArmVmem) : Prop :=
  ∀ d < 4096, decode₁ (s.mem (dirWord d)) = slot kernelEnd d

structure Inv (kernelEnd : ℕ) (s : ArmVmem) : Prop where
  intact : Intact kernelEnd s
  window : ∀ i < 4,
    s.mem (tabWord 0xFFF (0xB0 + i)) = directoryPage (pagedirPhys + i * 0x1000).toUInt32 ∨
      SecondLevel.type.get (s.mem (tabWord 0xFFF (0xB0 + i))) = 0

theorem inv_archVmemInit (hend : kernelEnd ≤ ramFinish) (s : ArmVmem) :
    Inv kernelEnd (archVmemInit kernelEnd s) := by
  have hbuilt := built_archVmemInit hend s
  exact ⟨fun d hd ↦ hbuilt.dir d hd trivial, fun i hi ↦ .inl (hbuilt.window i hi)⟩

variable {s : ArmVmem} {v : ℕ}

theorem translate_eq_walk (hv : 0x40000000 ≤ v) : s.translate v = walk s.mem pagedirPhys v := by
  have hhigh : v / 2 ^ (32 - 2) ≠ 0 := by omega
  rw [translate, ArmMmu.translate, if_neg hhigh]

theorem Intact.translate_megabyte (h : Intact kernelEnd s) (hv : 0x40000000 ≤ v) (hlt : v < 2 ^ 32)
    {base : ℕ} (hslot : slot kernelEnd (index₁ v) = .megabyte base) :
    s.translate v = some (base + v % 2 ^ 20) := by
  have hindex : index₁ v < 4096 := by
    simp only [index₁]
    omega
  rw [translate_eq_walk hv]
  exact walk_of_megabyte ((h _ hindex).trans hslot)

theorem Intact.translate_table (h : Intact kernelEnd s) (hv : 0x40000000 ≤ v) (hlt : v < 2 ^ 32)
    (hslot : slot kernelEnd (index₁ v) = .table (tabWord (index₁ v) 0)) :
    s.translate v = match decode₂ (s.mem (tabWord (index₁ v) (index₂ v))) with
      | .fault => none
      | .large base => some (base + v % 2 ^ 16)
      | .small page => some (page.base + v % 2 ^ 12) := by
  have hindex : index₁ v < 4096 := by
    simp only [index₁]
    omega
  rw [translate_eq_walk hv]
  exact walk_of_table ((h _ hindex).trans hslot)

theorem Intact.translate_window (hend : kernelEnd ≤ ramFinish) (h : Intact kernelEnd s)
    (hd : d < 4096) (ht : t < 256) :
    s.translate (pagetabsVirt + d * 0x400 + 4 * t) = some (tabWord d t) := by
  have hindex : index₁ (pagetabsVirt + d * 0x400 + 4 * t) = 0xFF0 + d / 1024 := by
    simp only [index₁, pagetabsVirt]
    omega
  rw [h.translate_megabyte (by simp only [pagetabsVirt]; omega) (by simp only [pagetabsVirt]; omega)
    (by rw [hindex]; exact slot_tables hend (by omega))]
  congr 1
  simp only [pagetabsVirt, tabWord]
  omega

theorem Intact.translate_pagedirVirt (hend : kernelEnd ≤ ramFinish) (h : Intact kernelEnd s)
    (hd : d < 4096) : s.translate (pagedirVirt + 4 * d) =
      match decode₂ (s.mem (tabWord 0xFFF (0xB0 + d / 1024))) with
      | .fault => none
      | .large base => some (base + (pagedirVirt + 4 * d) % 2 ^ 16)
      | .small page => some (page.base + (pagedirVirt + 4 * d) % 2 ^ 12) := by
  have hle := sections_le hend
  have hindex1 : index₁ (pagedirVirt + 4 * d) = 0xFFF := by
    simp only [index₁, pagedirVirt]
    omega
  have hindex2 : index₂ (pagedirVirt + 4 * d) = 0xB0 + d / 1024 := by
    simp only [index₂, pagedirVirt]
    omega
  rw [h.translate_table (by simp only [pagedirVirt]; omega) (by simp only [pagedirVirt]; omega)
    (by rw [hindex1]; exact slot_table (by omega) (by omega)), hindex1, hindex2]

theorem Intact.load_pagedirVirt (hend : kernelEnd ≤ ramFinish) (h : Intact kernelEnd s)
    (hd : d < 4096) (hpage : s.mem (tabWord 0xFFF (0xB0 + d / 1024)) =
      directoryPage (pagedirPhys + d / 1024 * 0x1000).toUInt32) :
    s.load (pagedirVirt + 4 * d) = some (s.mem (dirWord d)) := by
  obtain ⟨page, hdecode, hbase⟩ := @decode_directoryPage (pagedirPhys + d / 1024 * 0x1000)
    (by simp only [pagedirPhys]; omega) (by simp only [pagedirPhys]; omega)
  rw [load, h.translate_pagedirVirt hend hd, hpage, hdecode]
  simp only [hbase, map_some]
  congr 2
  simp only [dirWord, pagedirPhys, pagedirVirt]
  omega

theorem Inv.load_pagedirVirt (hend : kernelEnd ≤ ramFinish) (h : Inv kernelEnd s) (hd : d < 4096) :
    s.load (pagedirVirt + 4 * d) = some (s.mem (dirWord d)) ∨
      s.load (pagedirVirt + 4 * d) = none := by
  rcases h.window (d / 1024) (by omega) with hpage | hfault
  · exact .inl (h.intact.load_pagedirVirt hend hd hpage)
  · refine .inr ?_
    rw [load, h.intact.translate_pagedirVirt hend hd, decode₂_eq_fault_iff.mpr hfault]
    rfl

end ForgeOS.ArmVmem
