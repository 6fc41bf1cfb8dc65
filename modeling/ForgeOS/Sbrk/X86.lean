import ForgeOS.Sbrk.Calls
import ForgeOS.Vmem.Refine

/-!
# The heap on x86

The functions of `vmem.h` on x86 meet the contract that `sbrk.c` relies on for all addresses below
the window of the page tables.
-/

namespace ForgeOS.Sbrk

open Paging Vmem Option Space

/-- What `sbrk.c` has on x86, with `first_page` and `prime_page` at these addresses. -/
def x86 (firstPage primePage : UInt64) : Port Vmem where
  heapBase := 0xD0000000
  firstPage := firstPage
  primePage := primePage
  vmemPrime := archVmemPrime
  vmemMap m v p f alloc := m.archVmemMap v p f alloc.1 alloc.2
  vmemUnmap := archVmemUnmap
  vmemIsmapped := archVmemIsmapped
  vmemV2p := archVmemV2p

def x86Frame (m : Vmem) (pg : ℕ) : Option UInt64 :=
  (m.lookup (page (UInt32.ofNat (pg * 0x1000)))).map UInt32.toUInt64

def X86Good (m : Vmem) (alloc : UInt64 × UInt64) : Prop :=
  (alloc.1 ≠ 0 → IsFrame alloc.1) ∧ (alloc.2 ≠ 0 → m.Unused alloc.2)

structure X86Fresh (firstPage primePage : UInt64) (m : Vmem) : Prop where
  wf : WF m
  first : IsFrame firstPage
  prime : primePage ≠ 0
  unused : m.Unused primePage

variable {m m' : Vmem} {v : UInt32} {pg : ℕ} {alloc : UInt64 × UInt64}

theorem page_number (hpg : pg * 0x1000 < 2 ^ 32) :
    page (UInt32.ofNat (pg * 0x1000)) = page v ↔ pg = v.toNat / 0x1000 := by
  have h := page_ofNat_eq_iff hpg v.toNat_lt
  rw [UInt32.ofNat_toNat] at h
  rw [h]
  omega

theorem x86Frame_self (m : Vmem) (v : UInt32) :
    x86Frame m (v.toNat / 0x1000) = (m.lookup (page v)).map UInt32.toUInt64 := by
  have hlt := v.toNat_lt
  rw [x86Frame, (page_number (v := v) (by omega)).mpr rfl]

theorem page_ne_windowPage (hpg : pg * 0x1000 < 0xFFC00000) (v : UInt32) :
    page (UInt32.ofNat (pg * 0x1000)) ≠ windowPage v := by
  intro h
  have hdir : dirIndex (UInt32.ofNat (pg * 0x1000)) = 1023 := congrArg Prod.fst h
  refine dirIndex_ne ?_ hdir
  rw [UInt32.lt_iff_toNat_lt, toNat_ofNat (by omega)]
  exact hpg

theorem x86_map_spec (hwf : WF m) (hv : v < 0xFFC00000) (hgood : X86Good m alloc)
    (hpage : m.gPrimedpage ≠ 0 ∨ alloc.1 ≠ 0) :
    ∃ m', m.archVmemMap v (~~~0) heapFlags alloc.1 alloc.2 =
        some ((m.space.call (.map v (~~~0) heapFlags alloc.1 alloc.2)).1, m') ∧ WF m' ∧
      m'.space = (m.space.call (.map v (~~~0) heapFlags alloc.1 alloc.2)).2 := by
  refine archVmemMap_spec hwf hv (fun _ hzero ↦ ?_) hgood.2
  have hne := hpage.resolve_left (not_not.mpr hzero)
  exact ⟨hne, hgood.1 hne⟩

theorem x86_map_panic (h : ¬ (m.gPrimedpage ≠ 0 ∨ alloc.1 ≠ 0)) :
    m.archVmemMap v (~~~0) heapFlags alloc.1 alloc.2 = none := by
  rw [not_or, not_not, not_not] at h
  have hchoose : m.choosePage (~~~0) alloc.1 = none := by
    rw [choosePage, if_pos rfl, takePage, if_pos h.1, h.2]
    rfl
  rw [archVmemMap, hchoose]
  rfl

theorem call_map_of_spare {space : Space} {p a b : UInt64} {f : UInt32} (hp : p ≠ ~~~0)
    (hspare : space.spare ≠ 0) : (space.call (.map v p f a b)).1 = 0 := by
  simp only [Space.call, Space.choose, if_neg hp, Space.take, if_neg hspare]
  split <;> rfl

variable {firstPage primePage : UInt64}

theorem x86_mapFirst (hfresh : X86Fresh firstPage primePage m) (hgood : X86Good m alloc) :
    ∃ m', (m.archVmemPrime primePage).archVmemMap 0xD0000000 firstPage heapFlags alloc.1 alloc.2 =
        some (0, m') ∧ WF m' ∧ (∀ pg, (m.lookup pg).isSome → (m'.lookup pg).isSome) ∧
      ∀ pg, pg * 0x1000 < 0xFFC00000 → x86Frame m' pg =
        if pg = (0xD0000000 : UInt32).toNat / 0x1000 then some firstPage else x86Frame m pg := by
  obtain ⟨hwf, hfirst, hprime, hunused⟩ := hfresh
  have hunused' : ∀ {p}, m.Unused p → (m.archVmemPrime primePage).Unused p :=
    fun h ↦ ⟨h.isFrame, h.notDir, h.notTable⟩
  have hwf' : WF (m.archVmemPrime primePage) :=
    ⟨hwf.recursive, hwf.cr3_ne, hwf.entry, hwf.inj, fun _ ↦ hunused' hunused⟩
  have hne : firstPage ≠ ~~~0 := by
    rintro rfl
    exact absurd hfirst (by decide)
  have hzero := @call_map_of_spare 0xD0000000 (m.archVmemPrime primePage).space firstPage alloc.1
    alloc.2 heapFlags hne hprime
  obtain ⟨m', hmap, hwf₁, hspace⟩ := archVmemMap_spec (v := 0xD0000000) (f := heapFlags)
    (a := alloc.1) hwf' (by decide) (fun h ↦ absurd h hne) (fun h ↦ hunused' (hgood.2 h))
  rw [hzero] at hmap
  have hframe : m'.lookup = _ := congrArg frame hspace
  refine ⟨m', hmap, hwf₁, fun pg hmapped ↦ ?_, fun pg hpg ↦ ?_⟩
  · rw [hframe]
    exact isSome_step_map hmapped
  split
  · next hself =>
    rw [hself, x86Frame_self, hframe, frame_call_map hne hzero]
    exact congrArg some hfirst.symm
  · next hself =>
    rw [x86Frame, hframe, frame_call_map_of_not _ (page_ne_windowPage hpg _)]
    · rfl
    · rw [ne_eq, page_number (hpg.trans (by decide))]
      exact hself

/-- **The x86 port meets the contract**, below the window of the page tables. -/
def x86Contract (firstPage primePage : UInt64) : Contract (x86 firstPage primePage) where
  limit := 0xFFC00000
  limit_le := by decide
  heapBase_pos := by
    show 0 < (0xD0000000 : UInt32).toNat
    decide
  heapBase_lt := by
    show (0xD0000000 : UInt32).toNat < 0xFFC00000
    decide
  heapBase_aligned := by
    show (0xD0000000 : UInt32).toNat % 0x1000 = 0
    decide
  Fresh := X86Fresh firstPage primePage
  Ok := WF
  frame := x86Frame
  Good := X86Good
  mapFirst m alloc hfresh hgood := by
    obtain ⟨m', hmap, hwf, -, hframe⟩ := x86_mapFirst hfresh hgood
    exact ⟨m', hmap, hwf, hframe⟩
  ismapped := by
    intro m v hwf _ _
    show m.archVmemIsmapped v = _
    rw [hwf.archVmemIsmapped, x86Frame_self, Option.isSome_map]
  v2p := by
    intro m v f hwf _ _ hf
    rw [x86Frame_self] at hf
    obtain ⟨f', hf', rfl⟩ := Option.map_eq_some_iff.mp hf
    refine ⟨_, hwf.archVmemV2p hf', fun haligned ↦ ?_⟩
    have hoffset : v &&& 0xFFF = 0 := by
      rw [← UInt32.toNat_inj, UInt32.toNat_and]
      exact (Nat.and_two_pow_sub_one_eq_mod v.toNat 12).trans haligned
    rw [hoffset]
    exact UInt64.or_zero
  unmap := by
    intro m v hwf _ hlt
    have hv : v < 0xFFC00000 := UInt32.lt_iff_toNat_lt.mpr hlt
    obtain ⟨m', hunmap, hwf', hspace⟩ := archVmemUnmap_spec hwf hv
    refine ⟨m', hunmap, hwf', fun pg hpg ↦ ?_⟩
    have hframe : m'.lookup = Function.update m.lookup (page v) none := congrArg frame hspace
    rw [x86Frame, hframe, Function.update_apply]
    simp only [page_number (hpg.trans (by decide))]
    split <;> rfl
  map := by
    intro m v alloc r m' hwf _ hlt hgood _ hmap
    have hv : v < 0xFFC00000 := UInt32.lt_iff_toNat_lt.mpr hlt
    have hmap : m.archVmemMap v (~~~0) heapFlags alloc.1 alloc.2 = some (r, m') := hmap
    by_cases hpage : m.gPrimedpage ≠ 0 ∨ alloc.1 ≠ 0
    · obtain ⟨m₁, hm₁, hwf₁, hspace⟩ := x86_map_spec hwf hv hgood hpage
      obtain rfl : m₁ = m' := congrArg Prod.snd (Option.some.inj (hm₁.symm.trans hmap))
      refine ⟨hwf₁, fun pg hpg hne ↦ ?_⟩
      have hframe : m₁.lookup = _ := congrArg frame hspace
      rw [x86Frame, hframe, frame_call_map_of_not _ (page_ne_windowPage hpg v)]
      · rfl
      · rw [ne_eq, page_number (hpg.trans (by decide))]
        exact hne
    · rw [x86_map_panic hpage] at hmap
      cases hmap
  map_isSome := by
    intro m v alloc hwf _ hlt hgood _ hne
    have hv : v < 0xFFC00000 := UInt32.lt_iff_toNat_lt.mpr hlt
    obtain ⟨m', hm', -⟩ := x86_map_spec hwf hv hgood (.inr hne)
    exact ⟨_, m', hm'⟩
  map_memory := by
    intro m v alloc hwf _ hlt hgood _ hne hne'
    have hv : v < 0xFFC00000 := UInt32.lt_iff_toNat_lt.mpr hlt
    obtain ⟨m', hm', -, hspace⟩ := x86_map_spec hwf hv hgood (.inr hne)
    obtain ⟨hret, hself⟩ := call_map_of_memory (m := m.space) (.inr hne')
    rw [hret] at hm'
    refine ⟨m', hm', ?_⟩
    have hframe : m'.lookup = _ := congrArg frame hspace
    rw [x86Frame_self, Option.isSome_map, hframe]
    exact hself

def noMemory : ℕ → UInt64 × UInt64 := fun _ ↦ (0, 0)

theorem good_noMemory (m : Vmem) (i : ℕ) : X86Good m (noMemory i) :=
  ⟨fun h ↦ absurd rfl h, fun h ↦ absurd rfl h⟩

theorem supplied_noMemory (s : Sbrk Vmem) (incr : Int32) :
    (x86Contract firstPage primePage).Supplied s ⟨incr, noMemory⟩ :=
  ⟨fun _ ↦ good_noMemory _ 0,
    fun _ _ _ ↦ (Run.guarded_true _ _).mono fun m iv _ ↦ good_noMemory m (iv.1 + 1)⟩

theorem fresh_blank : X86Fresh 0x400000 0x2000 blank :=
  ⟨wf_blank, by decide, by decide, unused_blank⟩

theorem x86Frame_blank (hpg : pg * 0x1000 < 0xFFC00000) : x86Frame blank pg = none := by
  have hdir : blank.mmu.dir (dirIndex (UInt32.ofNat (pg * 0x1000))) = 0 := by
    rw [dir_blank, if_neg (dirIndex_ne _)]
    rw [UInt32.lt_iff_toNat_lt, toNat_ofNat (by omega)]
    exact hpg
  rw [x86Frame, lookup, if_neg, map_none]
  rintro ⟨hne, -⟩
  exact hne (congrArg frameOf hdir)

theorem start_blank : ∃ m, start (x86 0x400000 0x2000) ⟨blank, 0⟩ (0, 0) = some ⟨m, 0xD0000000⟩ ∧
    ∀ v : UInt32, v.toNat / 0x1000 * 0x1000 < 0xFFC00000 →
      m.archVmemIsmapped v = some (decide (v.toNat / 0x1000 = 0xD0000)) := by
  obtain ⟨m, hmap, hwf, -, hframe⟩ := x86_mapFirst fresh_blank (good_noMemory _ 0)
  refine ⟨m, ?_, fun v hv ↦ ?_⟩
  · rw [start, if_pos rfl]
    exact bind_eq_some_iff.mpr ⟨_, hmap, rfl⟩
  · have hfirst : (0xD0000000 : UInt32).toNat / 0x1000 = 0xD0000 := by decide
    rw [hwf.archVmemIsmapped, ← isSome_map, ← x86Frame_self, hframe _ hv,
      x86Frame_blank hv, hfirst]
    split
    · next h => rw [decide_eq_true h]; rfl
    · next h => rw [decide_eq_false h]; rfl

end ForgeOS.Sbrk
