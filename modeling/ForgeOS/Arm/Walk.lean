import ForgeOS.Arm.Tables

/-!
# What ARMv7 does with the kernel's mappings

Where the directory refers to a page table, a mapping is what the processor finds.

The main result is `walk_of_guarded`.
-/

namespace ForgeOS.ArmVmem

open ArmMmu BitField Function List Option SecondLevel

def entryOf (v : UInt32) : ℕ := tabWord (index₁ v.toNat) (index₂ v.toNat)

def setEntry (s : ArmVmem) (v w : UInt32) : ArmVmem :=
  { s with mem := Function.update s.mem (entryOf v) w }

variable {kernelEnd : ℕ} {s s' : ArmVmem} {v w f : UInt32} {p a : UInt64}

@[simp] theorem mem_setEntry_self : (s.setEntry v w).mem (entryOf v) = w := update_self ..

theorem mem_setEntry_of_ne {x : ℕ} (hx : x ≠ entryOf v) : (s.setEntry v w).mem x = s.mem x :=
  update_of_ne hx ..

@[simp] theorem setEntry_self : s.setEntry v (s.mem (entryOf v)) = s := by
  rw [setEntry, update_eq_self]

@[simp] theorem setEntry_setEntry {w' : UInt32} :
    (s.setEntry v w).setEntry v w' = s.setEntry v w' := by
  simp only [setEntry, update_idem]

theorem index₁_lt (v : UInt32) : index₁ v.toNat < 4096 := by
  have hv := v.toNat_lt
  simp only [index₁]
  omega

theorem index₂_lt (v : ℕ) : index₂ v < 256 := by
  simp only [index₂]
  omega

theorem entryOf_ne_dirWord {d : ℕ} (hd : d < 4096) : dirWord d ≠ entryOf v := by
  simp only [entryOf, dirWord, tabWord, pagedirPhys, pagetabsPhys]
  omega

theorem Intact.setEntry (h : Intact kernelEnd s) (v w : UInt32) :
    Intact kernelEnd (s.setEntry v w) := by
  intro d hd
  rw [mem_setEntry_of_ne (entryOf_ne_dirWord hd)]
  exact h d hd

theorem Intact.translate_ptabEntry (hend : kernelEnd ≤ ramFinish) (h : Intact kernelEnd s)
    (hv : 0x40000000 ≤ v) : s.translate (ptabEntry v) = some (entryOf v) := by
  rw [ptabEntry, if_neg (UInt32.not_lt.mpr hv)]
  exact h.translate_window hend (index₁_lt v) (index₂_lt _)

theorem Intact.modify_ptabEntry (hend : kernelEnd ≤ ramFinish) (h : Intact kernelEnd s)
    (hv : 0x40000000 ≤ v) (g : UInt32 → UInt32) :
    s.modify (ptabEntry v) g = some (s.setEntry v (g (s.mem (entryOf v)))) := by
  rw [modify, h.translate_ptabEntry hend hv]
  rfl

theorem Intact.foldlM_modify (hend : kernelEnd ≤ ramFinish) (h : Intact kernelEnd s)
    (hv : 0x40000000 ≤ v) (gs : List (UInt32 → UInt32)) :
    gs.foldlM (fun s g ↦ s.modify (ptabEntry v) g) s =
      some (s.setEntry v (assignAll gs (s.mem (entryOf v)))) := by
  induction gs generalizing s with
  | nil => exact congrArg some setEntry_self.symm
  | cons g gs ih =>
    rw [foldlM_cons, h.modify_ptabEntry hend hv, bind_eq_bind, bind_some,
      ih (h.setEntry v _), mem_setEntry_self, setEntry_setEntry]
    rfl

theorem mem_choosePage {c : UInt64 × ArmVmem} (h : s.choosePage p a = some c) :
    c.2.mem = s.mem := by
  rw [choosePage] at h
  split at h
  · split at h
    · cases h
      rfl
    · split at h
      · cases h
        rfl
      · cases h
  · cases h
    rfl

theorem Inv.type_ne_zero (hend : kernelEnd ≤ ramFinish) (h : Inv kernelEnd s)
    (hw : s.load (pdirEntry v) = some w) : FirstLevel.type.get w ≠ 0 := by
  have hslot := h.intact _ (index₁_lt v)
  rcases h.load_pagedirVirt hend (index₁_lt v) with hload | hload
  · obtain rfl : w = s.mem (dirWord (index₁ v.toNat)) := some.inj (hw.symm.trans hload)
    intro hzero
    exact slot_ne_fault kernelEnd _ (hslot.symm.trans (decode₁_of_type_eq_zero hzero))
  · exact absurd (hw.symm.trans hload) nofun

theorem assignAll_assignments (paddr f w : UInt32) :
    assignAll (assignments paddr f) w = smallPage paddr f := rfl

theorem Inv.archVmemMap_eq (hend : kernelEnd ≤ ramFinish) (h : Inv kernelEnd s)
    (hv : 0x40000000 ≤ v) : s.archVmemMap v p f a = (s.choosePage p a).bind fun c ↦
      (s.load (pdirEntry v)).bind fun _ ↦
        if type.get (s.mem (entryOf v)) ≠ 0 then some (-1, c.2)
        else some (0, c.2.setEntry v (smallPage (c.1 &&& 0xFFFFFFFF).toUInt32 f)) := by
  rw [archVmemMap, bind_eq_bind]
  refine bind_congr fun c hc ↦ ?_
  obtain ⟨page, s₁⟩ := c
  -- The page that was chosen makes no difference to the memory.
  have hmem : s₁.mem = s.mem := mem_choosePage hc
  have hintact : Intact kernelEnd s₁ := by
    intro d hd
    rw [hmem]
    exact h.intact d hd
  have hload : s₁.load (pdirEntry v) = s.load (pdirEntry v) := by
    rw [load, load, translate, translate, hmem]
  simp only [hload, bind_eq_bind]
  refine bind_congr fun w hw ↦ ?_
  rw [if_neg (h.type_ne_zero hend hw), load, hintact.translate_ptabEntry hend hv, map_some,
    bind_some, hmem, hintact.foldlM_modify hend hv, assignAll_assignments, bind_some]

theorem Inv.archVmemUnmap_eq (hend : kernelEnd ≤ ramFinish) (h : Inv kernelEnd s)
    (hv : 0x40000000 ≤ v) : s.archVmemUnmap v = (s.load (pdirEntry v)).bind fun _ ↦
      if type.get (s.mem (entryOf v)) ≠ 0 then
        some (s.setEntry v (type.set (s.mem (entryOf v)) 0))
      else some s := by
  rw [archVmemUnmap, bind_eq_bind]
  refine bind_congr fun w hw ↦ ?_
  rw [if_neg (h.type_ne_zero hend hw), load, h.intact.translate_ptabEntry hend hv, map_some,
    bind_some, h.intact.modify_ptabEntry hend hv]
  rfl

inductive Call where
  | map (v : UInt32) (p : UInt64) (f : UInt32) (a : UInt64)
  | unmap (v : UInt32)
  | prime (p : UInt64)

def step (s : ArmVmem) : Call → Option ArmVmem
  | .map v p f a => (s.archVmemMap v p f a).map Prod.snd
  | .unmap v => s.archVmemUnmap v
  | .prime p => some (s.archVmemPrime p)

/-- The address is one of the kernel's, or there is no window of the user's page tables. -/
def KernelOnly (s : ArmVmem) (v : UInt32) : Prop :=
  0x40000000 ≤ v ∨ s.translate (ptabEntry v) = none

/-- The calls are for the kernel's part of the address space, and nothing is mapped over the window
of the directory. -/
def StepOk (s : ArmVmem) : Call → Prop
  | .map v _ _ _ => s.KernelOnly v ∧ ¬ (pagedirVirt ≤ v.toNat ∧ v.toNat < pagedirVirt + 0x4000)
  | .unmap v => s.KernelOnly v
  | .prime _ => True

def InSection (kernelEnd : ℕ) (v : UInt32) : Prop :=
  (ramStart ≤ v.toNat ∧ v.toNat < ramStart + sections kernelEnd * 0x100000) ∨
    (pagetabsVirt ≤ v.toNat ∧ v.toNat < pagetabsVirt + 0x400000)

theorem Inv.setEntry (h : Inv kernelEnd s)
    (hw : (∀ i < 4, entryOf v ≠ tabWord 0xFFF (0xB0 + i)) ∨ type.get w = 0) :
    Inv kernelEnd (s.setEntry v w) := by
  refine ⟨h.intact.setEntry v w, fun i hi ↦ ?_⟩
  by_cases heq : tabWord 0xFFF (0xB0 + i) = entryOf v
  · rw [heq, mem_setEntry_self]
    exact .inr (hw.resolve_left fun hne ↦ hne i hi heq.symm)
  · rw [mem_setEntry_of_ne heq]
    exact h.window i hi

theorem Inv.of_mem (h : Inv kernelEnd s) (hmem : s'.mem = s.mem) : Inv kernelEnd s' := by
  refine ⟨fun d hd ↦ ?_, fun i hi ↦ ?_⟩
  · rw [hmem]
    exact h.intact d hd
  · rw [hmem]
    exact h.window i hi

theorem entryOf_ne_window (hv : ¬ (pagedirVirt ≤ v.toNat ∧ v.toNat < pagedirVirt + 0x4000)) {i : ℕ}
    (hi : i < 4) : entryOf v ≠ tabWord 0xFFF (0xB0 + i) := by
  intro heq
  have hindex := tabWord_inj (index₂_lt _) (by omega) heq
  simp only [index₁, index₂, pagedirVirt] at hindex hv
  omega

theorem Inv.of_kernelOnly (hend : kernelEnd ≤ ramFinish) (h : Inv kernelEnd s)
    (hv : s.KernelOnly v) :
    0x40000000 ≤ v ∨ (∀ p f a, s.archVmemMap v p f a = none) ∧ s.archVmemUnmap v = none := by
  refine hv.imp_right fun hnone ↦ ⟨fun p f a ↦ ?_, ?_⟩
  · rw [archVmemMap, bind_eq_bind, bind_eq_none_iff]
    rintro ⟨page, s₁⟩ hpage
    have hmem : s₁.mem = s.mem := mem_choosePage hpage
    have hnone1 : s₁.load (ptabEntry v) = none := by
      rw [load, translate, hmem, ← translate, hnone, map_none]
    simp only [bind_eq_bind, hnone1, bind_none, ite_self, bind_fun_none]
  · rw [archVmemUnmap, bind_eq_bind, bind_eq_none_iff]
    intro w hw
    rw [if_neg (h.type_ne_zero hend hw), load, hnone]
    rfl

theorem Inv.step (hend : kernelEnd ≤ ramFinish) (h : Inv kernelEnd s) {c : Call} (hc : s.StepOk c)
    (hs : s.step c = some s') : Inv kernelEnd s' := by
  cases c with
  | prime p =>
    cases hs
    exact h.of_mem rfl
  | map v p f a =>
    obtain ⟨hv, hwindow⟩ := hc
    obtain ⟨r, hr, rfl⟩ := map_eq_some_iff.mp hs
    rcases h.of_kernelOnly hend hv with hv | ⟨hnone, -⟩
    · rw [h.archVmemMap_eq hend hv] at hr
      obtain ⟨⟨page, s₁⟩, hpage, hr⟩ := bind_eq_some_iff.mp hr
      obtain ⟨-, -, hr⟩ := bind_eq_some_iff.mp hr
      have hs1 := h.of_mem (mem_choosePage hpage)
      split at hr
      · cases hr
        exact hs1
      · cases hr
        exact hs1.setEntry (.inl fun i hi ↦ entryOf_ne_window hwindow hi)
    · exact absurd ((hnone p f a).symm.trans hr) nofun
  | unmap v =>
    rcases h.of_kernelOnly hend hc with hv | ⟨-, hnone⟩
    · rw [ArmVmem.step, h.archVmemUnmap_eq hend hv] at hs
      obtain ⟨-, -, hs⟩ := bind_eq_some_iff.mp hs
      split at hs
      · cases hs
        exact h.setEntry (.inr (get_set _ _ _))
      · cases hs
        exact h
    · exact absurd (hnone.symm.trans hs) nofun

theorem slot_of_not_inSection (hend : kernelEnd ≤ ramFinish) (hv : ¬ InSection kernelEnd v) :
    slot kernelEnd (index₁ v.toNat) = .table (tabWord (index₁ v.toNat) 0) := by
  have hle := sections_le hend
  simp only [InSection, ramStart, pagetabsVirt] at hv
  refine slot_table ?_ ?_
  all_goals
    simp only [index₁]
    omega

theorem toNat_le_of_le {v : UInt32} (hv : 0x40000000 ≤ v) : 0x40000000 ≤ v.toNat :=
  UInt32.le_iff_toNat_le.mp hv

theorem Inv.translate_of_map (hend : kernelEnd ≤ ramFinish) (h : Inv kernelEnd s)
    (hv : 0x40000000 ≤ v) (hout : ¬ InSection kernelEnd v) {page : UInt64} {s₁ : ArmVmem}
    (hpage : s.choosePage p a = some (page, s₁)) (hlt : page.toNat < 2 ^ 32)
    (hmap : s.archVmemMap v p f a = some (0, s')) :
    s'.translate v.toNat = some (page.toNat / 0x1000 * 0x1000 + v.toNat % 0x1000) := by
  rw [h.archVmemMap_eq hend hv, hpage, bind_some] at hmap
  obtain ⟨-, -, hmap⟩ := bind_eq_some_iff.mp hmap
  split at hmap
  · cases hmap
  · cases hmap
    have hintact := (h.of_mem (mem_choosePage hpage)).intact.setEntry v
      (smallPage (page &&& 0xFFFFFFFF).toUInt32 f)
    rw [hintact.translate_table (toNat_le_of_le hv) v.toNat_lt (slot_of_not_inSection hend hout)]
    rw [← entryOf, mem_setEntry_self, decode_smallPage]
    show some ((described _ f).base + _) = _
    rw [base_described, Nat.mod_eq_of_lt hlt]
    rfl

theorem Inv.translate_of_unmap (hend : kernelEnd ≤ ramFinish) (h : Inv kernelEnd s)
    (hv : 0x40000000 ≤ v) (hout : ¬ InSection kernelEnd v) (hunmap : s.archVmemUnmap v = some s') :
    s'.translate v.toNat = none := by
  have hfault : Intact kernelEnd s' ∧ type.get (s'.mem (entryOf v)) = 0 := by
    rw [h.archVmemUnmap_eq hend hv] at hunmap
    obtain ⟨-, -, hunmap⟩ := bind_eq_some_iff.mp hunmap
    split at hunmap
    next =>
      cases hunmap
      rw [mem_setEntry_self]
      exact ⟨h.intact.setEntry v _, get_set _ _ _⟩
    next hzero =>
      cases hunmap
      exact ⟨h.intact, not_not.mp hzero⟩
  rw [hfault.1.translate_table (toNat_le_of_le hv) v.toNat_lt (slot_of_not_inSection hend hout),
    ← entryOf, decode₂_eq_fault_iff.mpr hfault.2]

theorem Inv.archVmemMap_of_fresh (hend : kernelEnd ≤ ramFinish) (h : Inv kernelEnd s)
    (hv : 0x40000000 ≤ v) (hw : s.load (pdirEntry v) = some w) (hp : p ≠ ~~~0)
    (hfresh : s.mem (entryOf v) = 0) : s.archVmemMap v p f a =
      some (0, s.setEntry v (smallPage (p &&& ~~~0xFFF &&& 0xFFFFFFFF).toUInt32 f)) := by
  have hzero : type.get 0 = 0 := by decide
  rw [h.archVmemMap_eq hend hv, choosePage, if_neg hp, bind_some, hw, bind_some,
    hfresh, hzero]
  rfl

/-- **The kernel and the processor see the same mappings**, of every address above 1 GB that is not
in a section, in every run of calls for the kernel's addresses that map nothing over the window of
the directory. -/
theorem walk_of_guarded (hend : kernelEnd ≤ ramFinish) (s₀ : ArmVmem) {calls : List Call}
    (hok : Run.Guarded step StepOk (archVmemInit kernelEnd s₀) calls)
    (hs : Run.exec step (archVmemInit kernelEnd s₀) calls = some s) (hv : 0x40000000 ≤ v)
    (hout : ¬ InSection kernelEnd v) :
    (∀ p f a page s₁ s', s.choosePage p a = some (page, s₁) → page.toNat < 2 ^ 32 →
      s.archVmemMap v p f a = some (0, s') →
        s'.translate v.toNat = some (page.toNat / 0x1000 * 0x1000 + v.toNat % 0x1000)) ∧
      ∀ s', s.archVmemUnmap v = some s' → s'.translate v.toNat = none := by
  have hinv : Inv kernelEnd s := Run.inv_of_guarded (fun _ _ _ h hc hs ↦ h.step hend hc hs)
    (inv_archVmemInit hend s₀) hok hs
  exact ⟨fun p f a page s₁ s' hpage hlt hmap ↦ hinv.translate_of_map hend hv hout hpage hlt hmap,
    fun s' hunmap ↦ hinv.translate_of_unmap hend hv hout hunmap⟩

def booted : ArmVmem := archVmemInit 0x80100000 ⟨fun _ ↦ 0, 0⟩

theorem inv_booted : Inv 0x80100000 booted := inv_archVmemInit (by decide) _

theorem load_booted (v : UInt32) : ∃ w, booted.load (pdirEntry v) = some w :=
  ⟨_, inv_booted.intact.load_pagedirVirt (by decide) (index₁_lt v)
    ((built_archVmemInit (by decide) _).window _ (by have := index₁_lt v; omega))⟩

theorem mem_booted (hv : ¬ (pagedirVirt ≤ v.toNat ∧ v.toNat < pagedirVirt + 0x4000)) :
    booted.mem (entryOf v) = 0 := by
  refine (built_archVmemInit (by decide) _).tabs _ (index₁_lt v) _ (index₂_lt _) fun hwindow ↦ ?_
  simp only [index₁, index₂, pagedirVirt] at hwindow hv
  omega

theorem walk_of_guarded_booted :
    ∃ s', booted.archVmemMap 0x60000000 0x90000000 0x101 0 = some (0, s') ∧
      s'.translate 0x60000000 = some 0x90000000 := by
  obtain ⟨w, hw⟩ := load_booted 0x60000000
  have hmap := @Inv.archVmemMap_of_fresh 0x80100000 booted 0x60000000 w 0x101 0x90000000 0
    (by decide) inv_booted (by decide) hw (by decide) (mem_booted (by decide))
  refine ⟨_, hmap, ?_⟩
  have hout : ¬ InSection 0x80100000 0x60000000 := by
    unfold InSection
    decide
  exact (@walk_of_guarded 0x80100000 booted 0x60000000 (by decide) ⟨fun _ ↦ 0, 0⟩ [] trivial
    (Run.exec_nil _) (by decide) hout).1 _ _ _ _ _ _ rfl (by decide) hmap

/-- **A page of the kernel's megabyte**: `arch_vmem_map` and `arch_vmem_unmap` report success, and
the processor goes on using the section. -/
theorem not_walk_kernel :
    (∃ s', booted.archVmemMap 0x80001000 0x90000000 0x101 0 = some (0, s') ∧
      s'.translate 0x80001000 = some 0x80001000) ∧
    ∃ s', booted.archVmemUnmap 0x80001000 = some s' ∧
      s'.translate 0x80001000 = some 0x80001000 := by
  have hslot : slot 0x80100000 (index₁ 0x80001000) = .megabyte 0x80000000 :=
    @slot_kernel 0x80100000 0 (by decide)
  have hfresh : booted.mem (entryOf 0x80001000) = 0 := mem_booted (by decide)
  obtain ⟨w, hw⟩ := load_booted 0x80001000
  refine ⟨⟨_, @Inv.archVmemMap_of_fresh 0x80100000 booted 0x80001000 w 0x101 0x90000000 0
    (by decide) inv_booted (by decide) hw (by decide) hfresh, ?_⟩, booted, ?_, ?_⟩
  · exact (inv_booted.intact.setEntry _ _).translate_megabyte (by decide) (by decide) hslot
  · have hzero : type.get 0 = 0 := by decide
    rw [inv_booted.archVmemUnmap_eq (by decide) (by decide), hw, bind_some, hfresh, hzero]
    rfl
  · exact inv_booted.intact.translate_megabyte (by decide) (by decide) hslot

end ForgeOS.ArmVmem
