import ForgeOS.Arm.Walk
import ForgeOS.Vmem.Refine

/-!
# When mapping a new page fails

`arch_vmem_map(v, ~0, f)` may fail after it has taken the page: on x86 there may be no memory for a
page table, and on ARMv7 the address may be mapped already.

The main result is `keepsPages_iff`.
-/

namespace ForgeOS

open Function List Option ArmVmem

def allocFrom : List UInt64 → UInt64 × List UInt64
  | [] => (0, [])
  | p :: free => (p, free)

def available (primed : UInt64) (free : List UInt64) : List UInt64 :=
  if primed = 0 then free else primed :: free

namespace Vmem

/-- A page is taken: the one set aside if there is one, else one from the allocator. -/
def takePageFrom (s : Vmem) (free : List UInt64) : UInt64 × Vmem × List UInt64 :=
  if s.gPrimedpage = 0 then ((allocFrom free).1, s, (allocFrom free).2)
  else (s.gPrimedpage, { s with gPrimedpage := 0 }, free)

/-- `arch_vmem_map(v, ~0, f)`, with the allocator. -/
def archVmemMapNew (s : Vmem) (free : List UInt64) (v f : UInt32) :
    Option (ℤ × Vmem × List UInt64) :=
  let flags := flagsToX86 f
  let (p, s, free) := s.takePageFrom free
  -- panic("Out of memory.")
  if p = 0 then none
  else do
    let complete (s : Vmem) (free : List UInt64) : Option (ℤ × Vmem × List UInt64) :=
      (s.store (ptabSlot v) (p.toUInt32 ||| flags)).map fun s ↦ (0, s, free)
    let entry := (← s.load (pdirSlot v)) &&& ~~~0xFFF
    if entry = 0 then
      let (ptabPhys, s, free) := s.takePageFrom free
      if ptabPhys = 0 then some (-1, s, free)
      else do
        let s ← s.store (pdirSlot v) (ptabPhys.toUInt32 ||| 0x01 ||| 0x02)
        let s ← s.memset (ptabFromVaddr v)
        complete s free
    else complete s free

variable {s : Vmem} {free : List UInt64} {v f : UInt32}

theorem takePageFrom_spec (hfree : 0 ∉ free) :
    ∃ p s' free', s.takePageFrom free = (p, s', free') ∧ s'.mmu = s.mmu ∧ 0 ∉ free' ∧
      (p = 0 ∧ available s.gPrimedpage free = [] ∧ available s'.gPrimedpage free' = [] ∨
        p ≠ 0 ∧ available s.gPrimedpage free = p :: available s'.gPrimedpage free') := by
  by_cases hprimed : s.gPrimedpage = 0
  · refine ⟨_, _, _, if_pos hprimed, rfl, ?_⟩
    cases free with
    | nil => exact ⟨hfree, .inl ⟨rfl, if_pos hprimed, if_pos hprimed⟩⟩
    | cons q free =>
      refine ⟨fun h ↦ hfree (mem_cons_of_mem _ h), .inr ⟨?_, ?_⟩⟩
      · rintro rfl
        exact hfree mem_cons_self
      · rw [available, available, if_pos hprimed, if_pos hprimed]
        rfl
  · refine ⟨_, _, _, if_neg hprimed, rfl, hfree, .inr ⟨hprimed, ?_⟩⟩
    rw [available, available, if_neg hprimed, if_pos rfl]

theorem takePage_allocFrom (s : Vmem) (free : List UInt64) :
    s.takePage (allocFrom free).1 = ((s.takePageFrom free).1, (s.takePageFrom free).2.1) := by
  rw [takePage, takePageFrom]
  split <;> rfl

theorem archVmemMapNew_eq (s : Vmem) (free : List UInt64) (v f : UInt32) :
    (s.archVmemMapNew free v f).map (fun r ↦ (r.1, r.2.1)) =
      s.archVmemMap v (~~~0) f (allocFrom free).1 (allocFrom (s.takePageFrom free).2.2).1 := by
  rw [archVmemMapNew, archVmemMap, choosePage, if_pos rfl, takePage_allocFrom]
  obtain ⟨p, s1, free1⟩ := s.takePageFrom free
  dsimp only
  by_cases hp : p = 0
  · simp [hp]
  · simp only [if_neg hp, bind_eq_bind, bind_some, map_bind]
    refine bind_congr fun entry _ ↦ ?_
    dsimp only [comp_apply]
    by_cases hentry : entry &&& ~~~0xFFF = 0
    · rw [if_pos hentry, if_pos hentry, takePage_allocFrom]
      obtain ⟨t, s2, free2⟩ := s1.takePageFrom free1
      dsimp only
      by_cases ht : t = 0
      · rw [if_pos ht, if_pos ht, map_some]
      · simp only [if_neg ht, Option.map_bind, Function.comp_def, Option.map_map]
    · rw [if_neg hentry, if_neg hentry, Option.map_map]
      rfl

/-- A call that returns -1 leaves the page tables as they were, and the pages too. -/
def KeepsPages (s : Vmem) (free : List UInt64) (v f : UInt32) : Prop :=
  ∀ s' free', s.archVmemMapNew free v f = some (-1, s', free') →
    s'.mmu = s.mmu ∧ (available s'.gPrimedpage free').Perm (available s.gPrimedpage free)

/-- There is no page table for the address, and one page that can be had. -/
def LastPage (s : Vmem) (free : List UInt64) (v : UInt32) : Prop :=
  (∃ entry, s.load (pdirSlot v) = some entry ∧ entry &&& ~~~0xFFF = 0) ∧
    (available s.gPrimedpage free).length = 1

theorem archVmemMapNew_eq_neg_one_iff {p : UInt64} {s1 s' : Vmem} {free1 free' : List UInt64}
    (htake : s.takePageFrom free = (p, s1, free1)) (hp : p ≠ 0) (hmmu : s1.mmu = s.mmu) :
    s.archVmemMapNew free v f = some (-1, s', free') ↔
      (∃ entry, s.load (pdirSlot v) = some entry ∧ entry &&& ~~~0xFFF = 0) ∧
        s1.takePageFrom free1 = (0, s', free') := by
  have hload : s1.load (pdirSlot v) = s.load (pdirSlot v) := by rw [load, load, hmmu]
  -- A mapping that is completed returns 0.
  have hcomplete : ∀ (m : Option Vmem) (free : List UInt64),
      (m.map fun s ↦ ((0 : ℤ), s, free)) ≠ some (-1, s', free') := by
    intro m free h
    obtain ⟨s0, -, hs0⟩ := map_eq_some_iff.mp h
    exact absurd (congrArg Prod.fst hs0) (by simp)
  simp only [archVmemMapNew, htake, if_neg hp, bind_eq_bind, hload]
  cases hentry : s.load (pdirSlot v) with
  | none => simp
  | some entry =>
    simp only [bind_some, some.injEq, exists_eq_left']
    by_cases hzero : entry &&& ~~~0xFFF = 0
    · rw [if_pos hzero, and_iff_right hzero]
      obtain ⟨t, s2, free2⟩ := s1.takePageFrom free1
      dsimp only
      by_cases ht : t = 0
      · rw [if_pos ht, ht]
        simp
      · rw [if_neg ht]
        refine iff_of_false (fun h ↦ ?_) fun h ↦ ht (congrArg Prod.fst h)
        obtain ⟨s3, -, h⟩ := bind_eq_some_iff.mp h
        obtain ⟨s4, -, h⟩ := bind_eq_some_iff.mp h
        exact hcomplete _ _ h
    · rw [if_neg hzero]
      exact iff_of_false (hcomplete _ _) fun h ↦ hzero h.1

theorem keepsPages_iff_not_lastPage (hfree : 0 ∉ free) :
    s.KeepsPages free v f ↔ ¬ s.LastPage free v := by
  obtain ⟨p, s1, free1, htake, hmmu, hfree1, hpages⟩ := takePageFrom_spec (s := s) hfree
  rcases hpages with ⟨hp, hnone, -⟩ | ⟨hp, hsome⟩
  · -- There is no page, and the call panics.
    have hpanic : s.archVmemMapNew free v f = none := by
      rw [archVmemMapNew, htake]
      exact if_pos hp
    refine iff_of_true (fun s' free' hcall ↦ absurd (hpanic.symm.trans hcall) nofun) fun hlast ↦ ?_
    rw [LastPage, hnone] at hlast
    exact absurd hlast.2 (by decide)
  · -- One page is taken, and the second one may not be there.
    obtain ⟨t, s2, free2, htake2, -, -, hpages2⟩ := takePageFrom_spec (s := s1) hfree1
    rw [LastPage, hsome, length_cons, Nat.add_eq_right, length_eq_zero_iff]
    rcases hpages2 with ⟨ht, hnone, hnone'⟩ | ⟨ht, hsome2⟩
    · rw [ht] at htake2
      refine ⟨fun hkeeps hlast ↦ ?_, fun hlast s' free' hcall ↦ ?_⟩
      · have hperm := (hkeeps s2 free2
          ((archVmemMapNew_eq_neg_one_iff htake hp hmmu).mpr ⟨hlast.1, htake2⟩)).2
        rw [hnone', hsome] at hperm
        exact absurd hperm.length_eq (by simp)
      · exact absurd ⟨((archVmemMapNew_eq_neg_one_iff htake hp hmmu).mp hcall).1, hnone⟩ hlast
    · refine iff_of_true (fun s' free' hcall ↦ ?_) fun hlast ↦ ?_
      · have hzero := ((archVmemMapNew_eq_neg_one_iff htake hp hmmu).mp hcall).2
        rw [htake2] at hzero
        exact absurd (congrArg Prod.fst hzero) ht
      · rw [hsome2] at hlast
        exact absurd hlast.2 (cons_ne_nil _ _)

end Vmem

namespace ArmVmem

/-- A page is taken: one from the allocator if there is one, else the one set aside. -/
def takePageFrom (s : ArmVmem) (free : List UInt64) : UInt64 × ArmVmem × List UInt64 :=
  if (allocFrom free).1 = 0 then (s.gPrimedpage, { s with gPrimedpage := 0 }, (allocFrom free).2)
  else ((allocFrom free).1, s, (allocFrom free).2)

def archVmemMapNew (s : ArmVmem) (free : List UInt64) (v f : UInt32) :
    Option (ℤ × ArmVmem × List UInt64) :=
  let (p, s, free) := s.takePageFrom free
  -- panic("Out of memory.")
  if p = 0 then none
  else do
    let pdir ← s.load (pdirEntry v)
    if FirstLevel.type.get pdir = 0 then none
    else
      let ptab ← s.load (ptabEntry v)
      if SecondLevel.type.get ptab ≠ 0 then some (-1, s, free)
      else
        let s ← (assignments (p &&& 0xFFFFFFFF).toUInt32 f).foldlM
          (fun s g ↦ s.modify (ptabEntry v) g) s
        some (0, s, free)

variable {s : ArmVmem} {free : List UInt64} {v f : UInt32}

theorem takePageFrom_spec (hfree : 0 ∉ free) :
    ∃ p s' free', s.takePageFrom free = (p, s', free') ∧ s'.mem = s.mem ∧
      (p = 0 ∧ available s.gPrimedpage free = [] ∨
        p ≠ 0 ∧ (available s.gPrimedpage free).Perm (p :: available s'.gPrimedpage free')) := by
  cases free with
  | nil =>
    refine ⟨_, _, _, if_pos rfl, rfl, ?_⟩
    by_cases hprimed : s.gPrimedpage = 0
    · exact .inl ⟨hprimed, if_pos hprimed⟩
    · refine .inr ⟨hprimed, ?_⟩
      rw [available, available, if_neg hprimed, if_pos rfl]
      exact List.Perm.refl _
  | cons q free =>
    have hq : q ≠ 0 := by
      rintro rfl
      exact hfree mem_cons_self
    refine ⟨_, _, _, if_neg hq, rfl, .inr ⟨hq, ?_⟩⟩
    show (available s.gPrimedpage (q :: free)).Perm (q :: available s.gPrimedpage free)
    rw [available, available]
    split
    · exact List.Perm.refl _
    · exact List.Perm.swap _ _ _

theorem archVmemMapNew_eq (s : ArmVmem) (free : List UInt64) (v f : UInt32) :
    (s.archVmemMapNew free v f).map (fun r ↦ (r.1, r.2.1)) =
      s.archVmemMap v (~~~0) f (allocFrom free).1 := by
  have hchoose : s.choosePage (~~~0) (allocFrom free).1 =
      if (s.takePageFrom free).1 = 0 then none
      else some ((s.takePageFrom free).1, (s.takePageFrom free).2.1) := by
    rw [choosePage, if_pos rfl, takePageFrom]
    by_cases halloc : (allocFrom free).1 = 0 <;> simp [halloc]
  rw [archVmemMapNew, archVmemMap, hchoose]
  obtain ⟨p, s1, free1⟩ := s.takePageFrom free
  dsimp only
  by_cases hp : p = 0
  · simp [hp]
  · simp only [if_neg hp, bind_eq_bind, bind_some, map_bind]
    refine bind_congr fun pdir _ ↦ ?_
    dsimp only [comp_apply]
    by_cases hpdir : FirstLevel.type.get pdir = 0
    · rw [if_pos hpdir, if_pos hpdir, map_none]
    · rw [if_neg hpdir, if_neg hpdir, map_bind]
      refine bind_congr fun ptab _ ↦ ?_
      dsimp only [comp_apply]
      split
      · rfl
      · rw [map_bind]
        rfl

def KeepsPages (s : ArmVmem) (free : List UInt64) (v f : UInt32) : Prop :=
  ∀ s' free', s.archVmemMapNew free v f = some (-1, s', free') →
    s'.mem = s.mem ∧ (available s'.gPrimedpage free').Perm (available s.gPrimedpage free)

/-- The address is mapped, as the call sees it, and there is a page that can be had. -/
def MappedTwice (s : ArmVmem) (free : List UInt64) (v : UInt32) : Prop :=
  (∃ pdir ptab, s.load (pdirEntry v) = some pdir ∧ FirstLevel.type.get pdir ≠ 0 ∧
    s.load (ptabEntry v) = some ptab ∧ SecondLevel.type.get ptab ≠ 0) ∧
    available s.gPrimedpage free ≠ []

theorem archVmemMapNew_eq_neg_one_iff {p : UInt64} {s1 s' : ArmVmem} {free1 free' : List UInt64}
    (htake : s.takePageFrom free = (p, s1, free1)) (hp : p ≠ 0) (hmem : s1.mem = s.mem) :
    s.archVmemMapNew free v f = some (-1, s', free') ↔
      (∃ pdir ptab, s.load (pdirEntry v) = some pdir ∧ FirstLevel.type.get pdir ≠ 0 ∧
        s.load (ptabEntry v) = some ptab ∧ SecondLevel.type.get ptab ≠ 0) ∧
        (s1, free1) = (s', free') := by
  have hload : ∀ a, s1.load a = s.load a := by
    intro a
    rw [load, load, translate, translate, hmem]
  simp only [archVmemMapNew, htake, if_neg hp, bind_eq_bind, hload]
  cases hpdir : s.load (pdirEntry v) with
  | none => simp
  | some pdir =>
    simp only [bind_some, some.injEq, exists_and_left, exists_eq_left']
    by_cases htype : FirstLevel.type.get pdir = 0
    · simp [htype]
    · rw [if_neg htype, and_iff_right htype]
      cases hptab : s.load (ptabEntry v) with
      | none => simp
      | some ptab =>
        simp only [bind_some, some.injEq, exists_eq_left']
        split
        next hmapped => simp [hmapped]
        next hmapped =>
          refine iff_of_false (fun h ↦ ?_) fun h ↦ hmapped h.1
          obtain ⟨s2, -, hs2⟩ := bind_eq_some_iff.mp h
          exact absurd (congrArg Prod.fst (some.inj hs2)) (by simp)

theorem keepsPages_iff_not_mappedTwice (hfree : 0 ∉ free) :
    s.KeepsPages free v f ↔ ¬ s.MappedTwice free v := by
  obtain ⟨p, s1, free1, htake, hmem, hpages⟩ := takePageFrom_spec (s := s) hfree
  rcases hpages with ⟨hp, hnone⟩ | ⟨hp, hperm⟩
  · have hpanic : s.archVmemMapNew free v f = none := by
      rw [archVmemMapNew, htake]
      exact if_pos hp
    exact iff_of_true (fun s' free' hcall ↦ absurd (hpanic.symm.trans hcall) nofun)
      fun hmapped ↦ hmapped.2 hnone
  · have hne : available s.gPrimedpage free ≠ [] := by
      intro hnil
      rw [hnil] at hperm
      exact absurd hperm.length_eq (by simp)
    rw [MappedTwice, and_iff_left hne]
    refine ⟨fun hkeeps hmapped ↦ ?_, fun hmapped s' free' hcall ↦ ?_⟩
    · have hsame := (hkeeps s1 free1
        ((archVmemMapNew_eq_neg_one_iff htake hp hmem).mpr ⟨hmapped, rfl⟩)).2
      have hlen := (hsame.trans hperm).length_eq
      rw [length_cons] at hlen
      omega
    · exact absurd ((archVmemMapNew_eq_neg_one_iff htake hp hmem).mp hcall).1 hmapped

end ArmVmem

/-- **A map that fails loses a page**: on x86 if there is no page table for the address and only one
page to be had, on ARMv7 if the address is mapped and there is a page. -/
theorem keepsPages_iff {free : List UInt64} (hfree : 0 ∉ free) (v f : UInt32) :
    (∀ s : Vmem, s.KeepsPages free v f ↔ ¬ s.LastPage free v) ∧
      ∀ s : ArmVmem, s.KeepsPages free v f ↔ ¬ s.MappedTwice free v :=
  ⟨fun _ ↦ Vmem.keepsPages_iff_not_lastPage hfree,
    fun _ ↦ keepsPages_iff_not_mappedTwice hfree⟩

theorem keepsPages_enough : Vmem.blank.KeepsPages [0x400000, 0x401000] 0xD0000000 0x101 ∧
    booted.KeepsPages [] 0x60000000 0x101 := by
  refine ⟨((keepsPages_iff (by decide) _ _).1 _).mpr fun hlast ↦ ?_,
    ((keepsPages_iff (by decide) _ _).2 _).mpr fun hmapped ↦ hmapped.2 rfl⟩
  exact absurd hlast.2 (by decide)

/-- **The last page is lost**, on x86 without a page table for the heap, and on ARMv7 when a page is
mapped once more. -/
theorem not_keepsPages_lastPage :
    (∃ s', Vmem.blank.archVmemMapNew [0x400000] 0xD0000000 0x101 = some (-1, s', []) ∧
      available s'.gPrimedpage [] = [] ∧ available Vmem.blank.gPrimedpage [0x400000] = [0x400000]) ∧
    booted.archVmemMapNew [0x90000000] 0xFFFB0000 0x101 =
      some (-1, booted, []) := by
  refine ⟨⟨Vmem.blank, ?_, rfl, rfl⟩, ?_⟩
  · refine (Vmem.archVmemMapNew_eq_neg_one_iff rfl (by decide) rfl).mpr ⟨⟨0, ?_, by decide⟩, rfl⟩
    rw [Vmem.wf_blank.load_pdirSlot, Vmem.dir_blank]
    rfl
  · obtain ⟨pdir, hpdir⟩ := load_booted 0xFFFB0000
    have hload : booted.load (ptabEntry 0xFFFB0000) =
        some (directoryPage 0x8FAFC000) := by
      rw [load, inv_booted.intact.translate_ptabEntry (by decide) (by decide)]
      have hbuilt := @ArmVmem.built_archVmemInit 0x80100000 (by decide) ⟨fun _ ↦ 0, 0⟩
      exact congrArg some (hbuilt.window 0 (by decide))
    have htype : SecondLevel.type.get (directoryPage 0x8FAFC000) ≠ 0 := by decide
    exact (archVmemMapNew_eq_neg_one_iff rfl (by decide) rfl).mpr
      ⟨⟨pdir, _, hpdir, inv_booted.type_ne_zero (by decide) hpdir, hload, htype⟩, rfl⟩

end ForgeOS
