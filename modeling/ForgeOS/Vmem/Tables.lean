import ForgeOS.Vmem.Model

/-!
# What the tables say, and what one write changes

`WF` is what `vmem.c` relies on, and `lookup` the map from pages to frames that the tables stand
for.
-/

namespace ForgeOS.Vmem

open Paging Mmu Function Option

variable {s : Vmem} {v x : UInt32} {d t : Fin 1024}

theorem pdirOffset_eq (v : UInt32) : pdirOffset v = UInt32.ofNat (dirIndex v) := by
  have hv := v.toNat_lt
  rw [← UInt32.toNat_inj, pdirOffset, UInt32.toNat_and, UInt32.toNat_shiftRight]
  show v.toNat >>> 22 &&& 2 ^ 10 - 1 = v.toNat / 2 ^ 22 % 2 ^ 32
  rw [Nat.and_two_pow_sub_one_eq_mod, Nat.shiftRight_eq_div_pow]
  omega

theorem ptabOffset_eq (v : UInt32) : ptabOffset v = UInt32.ofNat (tabIndex v) := by
  rw [← UInt32.toNat_inj, ptabOffset, UInt32.toNat_and, UInt32.toNat_shiftRight]
  show v.toNat >>> 12 &&& 2 ^ 10 - 1 = v.toNat / 2 ^ 12 % 1024 % 2 ^ 32
  rw [Nat.and_two_pow_sub_one_eq_mod, Nat.shiftRight_eq_div_pow]
  omega

theorem ptabFromVaddr_add (v : UInt32) (i : Fin 1024) :
    ptabFromVaddr v + 4 * UInt32.ofNat i = window (dirIndex v) i := by
  rw [ptabFromVaddr, pdirOffset_eq]
  rfl

theorem ptabSlot_eq (v : UInt32) : ptabSlot v = window (dirIndex v) (tabIndex v) := by
  rw [ptabSlot, ptabOffset_eq, ptabFromVaddr_add]

theorem pdirSlot_eq (v : UInt32) : pdirSlot v = window 1023 (dirIndex v) := by
  rw [pdirSlot, pdirOffset_eq]
  rfl

theorem dirIndex_ne (hv : v < 0xFFC00000) : dirIndex v ≠ 1023 := by
  intro h
  have hdiv : v.toNat / 2 ^ 22 = 1023 := congrArg Fin.val h
  have hlt : v.toNat < 0xFFC00000 := UInt32.lt_iff_toNat_lt.1 hv
  omega

variable {a b : UInt32}

theorem present_or_left (h : Present a) : Present (a ||| b) := by
  intro hzero
  rw [UInt32.and_or_distrib_right, UInt32.or_eq_zero_iff] at hzero
  exact h hzero.1

theorem present_or_right (h : Present b) : Present (a ||| b) := by
  rw [UInt32.or_comm]
  exact present_or_left h

theorem flagsToX86_eq (f : UInt32) : ∃ g ∈ [0, 2, 4, 6, 0x100, 0x102, 0x104, (0x106 : UInt32)],
    flagsToX86 f = g ||| 1 := by
  unfold flagsToX86
  split <;> split <;> split <;> decide

theorem present_flagsToX86 (f : UInt32) : Present (flagsToX86 f) := by
  obtain ⟨g, -, hg⟩ := flagsToX86_eq f
  rw [hg]
  exact present_or_right (by decide)

theorem frameOf_flagsToX86 (f : UInt32) : frameOf (flagsToX86 f) = 0 := by
  obtain ⟨g, hmem, hg⟩ := flagsToX86_eq f
  rw [hg]
  simp only [List.mem_cons, List.not_mem_nil, or_false] at hmem
  rcases hmem with rfl | rfl | rfl | rfl | rfl | rfl | rfl | rfl <;> decide

theorem frameOf_and (hb : 0xFFFFF000 &&& b = 0) : frameOf a &&& b = 0 := by
  rw [frameOf, UInt32.and_assoc, hb, UInt32.and_zero]

theorem toUInt64_and_mask (e : UInt32) : e.toUInt64 &&& ~~~0xFFF = (frameOf e).toUInt64 := by
  have hlow : e.toUInt64 = e.toUInt64 &&& 0xFFFFFFFF := by
    rw [← UInt64.toNat_inj, UInt64.toNat_and]
    show e.toNat = e.toNat &&& 2 ^ 32 - 1
    rw [Nat.and_two_pow_sub_one_eq_mod, Nat.mod_eq_of_lt e.toNat_lt]
  rw [frameOf, UInt32.toUInt64_and, hlow, UInt64.and_assoc, UInt64.and_assoc]
  rfl

theorem isTable_new (a : UInt32) : IsTable (frameOf a ||| 0x01 ||| 0x02) := by
  refine ⟨present_or_left (present_or_right (by decide)), ?_, ?_⟩
  · intro hzero
    rw [UInt32.and_or_distrib_right, UInt32.or_eq_zero_iff] at hzero
    exact absurd hzero.2 (by decide)
  · rw [Large, UInt32.and_or_distrib_right, UInt32.and_or_distrib_right, frameOf_and (by decide),
      not_not]
    decide

theorem not_present_zero : ¬ Present 0 := by decide

theorem not_present_and (hb : b &&& 1 = 0) : ¬ Present (a &&& b) := by
  rw [Present, UInt32.and_assoc, hb, UInt32.and_zero, not_not]

/-- **What the functions of `vmem.c` rely on.** -/
structure WF (s : Vmem) : Prop where
  recursive : s.mmu.Recursive
  cr3_ne : frameOf s.mmu.cr3 ≠ 0
  /-- An entry of the directory is empty or names a page table. -/
  entry : ∀ d, frameOf (s.mmu.dir d) = 0 ∧ ¬ Present (s.mmu.dir d) ∨
    frameOf (s.mmu.dir d) ≠ 0 ∧ IsTable (s.mmu.dir d)
  /-- No two entries name the same one. -/
  inj : ∀ d d', frameOf (s.mmu.dir d) ≠ 0 → frameOf (s.mmu.dir d) = frameOf (s.mmu.dir d') → d = d'
  primed : s.gPrimedpage ≠ 0 → s.Unused s.gPrimedpage

theorem WF.isTable (h : WF s) (hd : frameOf (s.mmu.dir d) ≠ 0) : IsTable (s.mmu.dir d) :=
  ((h.entry d).resolve_left fun hand ↦ hd hand.1).2

theorem WF.frame_ne (h : WF s) (hd : d ≠ 1023) : frameOf (s.mmu.dir d) ≠ frameOf s.mmu.cr3 := by
  intro heq
  refine hd (h.inj d 1023 ?_ (heq.trans h.recursive.self.symm))
  rw [heq]
  exact h.cr3_ne

theorem WF.load_pdirSlot (h : WF s) (v : UInt32) :
    s.load (pdirSlot v) = some (s.mmu.dir (dirIndex v)) := by
  rw [load, pdirSlot_eq, load_window_dir h.recursive]

theorem WF.load_ptabSlot (h : WF s) (hd : frameOf (s.mmu.dir (dirIndex v)) ≠ 0) :
    s.load (ptabSlot v) = some (s.mmu.pte (dirIndex v) (tabIndex v)) := by
  rw [load, ptabSlot_eq, load_window h.recursive (h.isTable hd)]

abbrev Page := Fin 1024 × Fin 1024

def page (v : UInt32) : Page := (dirIndex v, tabIndex v)

def windowPage (v : UInt32) : Page := (1023, dirIndex v)

def lookup (s : Vmem) (pg : Page) : Option UInt32 :=
  if frameOf (s.mmu.dir pg.1) ≠ 0 ∧ Present (s.mmu.pte pg.1 pg.2) then
    some (frameOf (s.mmu.pte pg.1 pg.2))
  else none

theorem lookup_isSome {pg : Page} :
    (s.lookup pg).isSome ↔ frameOf (s.mmu.dir pg.1) ≠ 0 ∧ Present (s.mmu.pte pg.1 pg.2) := by
  rw [lookup]
  split <;> simp [*]

theorem WF.lookup_windowPage (h : WF s) (v : UInt32) :
    s.lookup (windowPage v) =
      if frameOf (s.mmu.dir (dirIndex v)) = 0 then none
      else some (frameOf (s.mmu.dir (dirIndex v))) := by
  have hself : frameOf (s.mmu.dir 1023) ≠ 0 := by
    rw [h.recursive.self]
    exact h.cr3_ne
  rw [lookup, windowPage, h.recursive.pte_last]
  rcases h.entry (dirIndex v) with ⟨hzero, hnot⟩ | ⟨hne, htab⟩
  · rw [if_neg fun hand ↦ hnot hand.2, if_pos hzero]
  · rw [if_pos ⟨hself, htab.present⟩, if_neg hne]

theorem WF.archVmemIsmapped (h : WF s) (v : UInt32) :
    s.archVmemIsmapped v = some (s.lookup (page v)).isSome := by
  have hdir : s.mmu.dir (dirIndex v) &&& ~~~0xFFF = frameOf (s.mmu.dir (dirIndex v)) := rfl
  simp only [Vmem.archVmemIsmapped, h.load_pdirSlot, bind_eq_bind, bind_some, hdir]
  by_cases hd : frameOf (s.mmu.dir (dirIndex v)) = 0
  · rw [if_neg (not_not.2 hd), lookup, page, if_neg fun hand ↦ hand.1 hd]
    rfl
  · rw [if_pos hd, h.load_ptabSlot hd, bind_some, lookup, page]
    by_cases hp : Present (s.mmu.pte (dirIndex v) (tabIndex v))
    · rw [if_pos ⟨hd, hp⟩]
      exact congrArg some (decide_eq_true hp)
    · rw [if_neg fun hand ↦ hp hand.2]
      exact congrArg some (decide_eq_false hp)

theorem WF.archVmemV2p (h : WF s) {f : UInt32} (hf : s.lookup (page v) = some f) :
    s.archVmemV2p v = some (f.toUInt64 ||| (v &&& 0xFFF).toUInt64) := by
  have hsome := lookup_isSome.1 (isSome_of_eq_some hf)
  rw [lookup, if_pos hsome, some.injEq] at hf
  simp only [Vmem.archVmemV2p, h.load_ptabSlot hsome.1, bind_eq_bind, bind_some]
  have hp : s.mmu.pte (dirIndex v) (tabIndex v) &&& 1 ≠ 0 := hsome.2
  rw [if_pos hp, ← hf, toUInt64_and_mask]
  rfl

def withMmu (s : Vmem) (m : Mmu) : Vmem := { s with mmu := m }

theorem Unused.congr {s' : Vmem} {p : UInt64} (h : s.Unused p) (hcr3 : s'.mmu.cr3 = s.mmu.cr3)
    (hdir : s'.mmu.dir = s.mmu.dir) : s'.Unused p :=
  ⟨h.isFrame, hcr3 ▸ h.notDir, fun d ↦ hdir ▸ h.notTable d⟩

theorem WF.congr (h : WF s) {m : Mmu} (hcr3 : m.cr3 = s.mmu.cr3) (hdir : m.dir = s.mmu.dir) :
    WF (s.withMmu m) where
  recursive := h.recursive.congr hcr3 hdir
  cr3_ne := by
    show frameOf m.cr3 ≠ 0
    rw [hcr3]
    exact h.cr3_ne
  entry := by
    show ∀ d, frameOf (m.dir d) = 0 ∧ ¬ Present (m.dir d) ∨ frameOf (m.dir d) ≠ 0 ∧
      IsTable (m.dir d)
    rw [hdir]
    exact h.entry
  inj := by
    show ∀ d d', frameOf (m.dir d) ≠ 0 → frameOf (m.dir d) = frameOf (m.dir d') → d = d'
    rw [hdir]
    exact h.inj
  primed hne := (h.primed hne).congr hcr3 hdir

def setPte (s : Vmem) (v x : UInt32) : Vmem :=
  s.withMmu (s.mmu.set (frameOf (s.mmu.dir (dirIndex v))) (tabIndex v) x)

theorem WF.store_ptabSlot (h : WF s) (hd : frameOf (s.mmu.dir (dirIndex v)) ≠ 0) :
    s.store (ptabSlot v) x = some (s.setPte v x) := by
  rw [store, ptabSlot_eq, store_window h.recursive (h.isTable hd)]
  rfl

section SetPte

variable (h : WF s) (hv : v < 0xFFC00000) (hd : frameOf (s.mmu.dir (dirIndex v)) ≠ 0)

include h hv

theorem dir_setPte : (s.setPte v x).mmu.dir = s.mmu.dir :=
  dir_set (h.frame_ne (dirIndex_ne hv)) _

theorem wf_setPte : WF (s.setPte v x) := h.congr rfl (dir_setPte h hv)

include hd

theorem pte_setPte (d t : Fin 1024) :
    (s.setPte v x).mmu.pte d t = if (d, t) = page v then x else s.mmu.pte d t := by
  rw [pte, dir_setPte h hv]
  show (s.mmu.set _ _ x).mem _ t = _
  rw [mem_set, pte]
  by_cases heq : (d, t) = page v
  · rw [if_pos heq, if_pos]
    rw [page, Prod.mk.injEq] at heq
    rw [heq.1, heq.2]
    exact ⟨rfl, rfl⟩
  · rw [if_neg heq, if_neg]
    rintro ⟨hframe, rfl⟩
    exact heq (Prod.ext (h.inj _ _ hd hframe.symm).symm rfl)

theorem lookup_setPte :
    (s.setPte v x).lookup =
      Function.update s.lookup (page v) (if Present x then some (frameOf x) else none) := by
  funext pg
  rw [lookup, dir_setPte h hv, pte_setPte h hv hd, update_apply, lookup]
  by_cases heq : pg = page v
  · have hpg : (pg.1, pg.2) = page v := heq
    rw [if_pos hpg, if_pos heq, heq]
    by_cases hx : Present x
    · rw [if_pos ⟨hd, hx⟩, if_pos hx]
    · rw [if_neg fun hand ↦ hx hand.2, if_neg hx]
  · have hpg : ¬ (pg.1, pg.2) = page v := heq
    rw [if_neg hpg, if_neg heq]

end SetPte

structure Clears (f : UInt32) (p : Set (Fin 1024)) (m m' : Mmu) : Prop where
  cr3 : m'.cr3 = m.cr3
  dir : m'.dir = m.dir
  mem : ∀ g ≠ f, m'.mem g = m.mem g
  clear : ∀ i, i ∈ p ∨ ¬ Present (m.mem f i) → ¬ Present (m'.mem f i)

theorem Clears.trans {f : UInt32} {p q : Set (Fin 1024)} {m m' m'' : Mmu} (h : Clears f p m m')
    (h' : Clears f q m' m'') : Clears f (p ∪ q) m m'' where
  cr3 := h'.cr3.trans h.cr3
  dir := h'.dir.trans h.dir
  mem g hg := (h'.mem g hg).trans (h.mem g hg)
  clear i hi := by
    rcases hi with (hp | hq) | hnot
    · exact h'.clear i (.inr (h.clear i (.inl hp)))
    · exact h'.clear i (.inl hq)
    · exact h'.clear i (.inr (h.clear i (.inr hnot)))

theorem clears_set {f x : UInt32} {m : Mmu} (hf : f ≠ frameOf m.cr3) (hx : ¬ Present x)
    (j : Fin 1024) : Clears f {j} m (m.set f j x) where
  cr3 := rfl
  dir := dir_set hf j
  mem g hg := funext fun i ↦ if_neg fun hand ↦ hg hand.1
  clear i hi := by
    rw [mem_set]
    by_cases hij : i = j
    · rw [if_pos ⟨rfl, hij⟩]
      exact hx
    · rw [if_neg fun hand ↦ hij hand.2]
      exact hi.resolve_left hij

section Clear

variable (hrec : s.mmu.Recursive) (htab : IsTable (s.mmu.dir (dirIndex v)))
  (hne : frameOf (s.mmu.dir (dirIndex v)) ≠ frameOf s.mmu.cr3)

include hrec htab hne

theorem clearWord_clears (j : Fin 1024) :
    ∃ m, clearWord (ptabFromVaddr v) s j = some (s.withMmu m) ∧
      Clears (frameOf (s.mmu.dir (dirIndex v))) {j} s.mmu m := by
  have hload : s.load (ptabFromVaddr v + 4 * UInt32.ofNat j) = some (s.mmu.pte (dirIndex v) j) := by
    rw [load, ptabFromVaddr_add, load_window hrec htab]
  have hstore : ∀ x, s.store (ptabFromVaddr v + 4 * UInt32.ofNat j) x =
      some (s.withMmu (s.mmu.set (frameOf (s.mmu.dir (dirIndex v))) j x)) := by
    intro x
    rw [store, ptabFromVaddr_add, store_window hrec htab]
    rfl
  simp only [clearWord, hload, hstore, bind_eq_bind, bind_some]
  split
  · exact ⟨_, rfl, clears_set hne (not_present_and (by decide)) j⟩
  · exact ⟨_, rfl, clears_set hne not_present_zero j⟩

theorem clearWords_clears (l : List (Fin 1024)) :
    ∃ m, l.foldlM (clearWord (ptabFromVaddr v)) s = some (s.withMmu m) ∧
      Clears (frameOf (s.mmu.dir (dirIndex v))) {i | i ∈ l} s.mmu m := by
  induction l generalizing s with
  | nil =>
    refine ⟨s.mmu, rfl, rfl, rfl, fun _ _ ↦ rfl, fun i hi ↦ hi.resolve_left ?_⟩
    exact List.not_mem_nil
  | cons j l ih =>
    obtain ⟨m, hword, hm⟩ := clearWord_clears hrec htab hne j
    have hdir : (s.withMmu m).mmu.dir = s.mmu.dir := hm.dir
    obtain ⟨m', hwords, hm'⟩ := ih (s := s.withMmu m) (hrec.congr hm.cr3 hm.dir) (hdir ▸ htab)
      (by rw [hdir]; exact hm.cr3 ▸ hne)
    rw [hdir] at hm'
    refine ⟨m', ?_, ?_⟩
    · rw [List.foldlM_cons, hword]
      exact hwords
    · have hset : {i | i ∈ j :: l} = {j} ∪ {i | i ∈ l} := by
        ext i
        simp
      rw [hset]
      exact hm.trans hm'

theorem memset_clears :
    ∃ m, s.memset (ptabFromVaddr v) = some (s.withMmu m) ∧
      Clears (frameOf (s.mmu.dir (dirIndex v))) Set.univ s.mmu m := by
  obtain ⟨m, hm, hclear⟩ := clearWords_clears hrec htab hne (List.finRange 1024)
  have huniv : {i | i ∈ List.finRange 1024} = Set.univ := by
    ext i
    simp
  exact ⟨m, hm, huniv ▸ hclear⟩

end Clear

def setDir (s : Vmem) (v x : UInt32) :
    Vmem := s.withMmu (s.mmu.set (frameOf s.mmu.cr3) (dirIndex v) x)

theorem WF.store_pdirSlot (h : WF s) : s.store (pdirSlot v) x = some (s.setDir v x) := by
  rw [store, pdirSlot_eq, store_window_dir h.recursive]
  rfl

theorem dir_setDir (v x : UInt32) (d : Fin 1024) :
    (s.setDir v x).mmu.dir d = if d = dirIndex v then x else s.mmu.dir d :=
  dir_set_dir ..

theorem lookup_setDir {f : UInt32} (h : WF s) (hx : IsTable x) (hf : frameOf x = f) {pg : Page}
    (hpg : pg.1 ≠ dirIndex v) :
    (s.setDir v x).lookup pg = Function.update s.lookup (windowPage v) (some f) pg := by
  have hdir : (s.setDir v x).mmu.dir pg.1 = s.mmu.dir pg.1 := by
    rw [dir_setDir, if_neg hpg]
  have hmem : (s.setDir v x).mmu.pte pg.1 pg.2 =
      if frameOf (s.mmu.dir pg.1) = frameOf s.mmu.cr3 ∧ pg.2 = dirIndex v then x
      else s.mmu.pte pg.1 pg.2 := by
    rw [pte, hdir]
    exact mem_set ..
  rw [lookup, hdir, update_apply]
  by_cases hwin : pg = windowPage v
  · have hlast : frameOf (s.mmu.dir pg.1) = frameOf s.mmu.cr3 := by
      rw [hwin]
      exact h.recursive.self
    have hsnd : pg.2 = dirIndex v := congrArg Prod.snd hwin
    rw [if_pos ⟨hlast, hsnd⟩] at hmem
    rw [hmem, if_pos hwin, hlast, if_pos ⟨h.cr3_ne, hx.present⟩, hf]
  · have hnot : ¬ (frameOf (s.mmu.dir pg.1) = frameOf s.mmu.cr3 ∧ pg.2 = dirIndex v) := by
      rintro ⟨hlast, hsnd⟩
      refine hwin (Prod.ext (h.inj _ _ ?_ (hlast.trans h.recursive.self.symm)) hsnd)
      rw [hlast]
      exact h.cr3_ne
    rw [if_neg hnot] at hmem
    rw [hmem, if_neg hwin, lookup]

section AddTable

variable {f : UInt32} (h : WF s) (hv : v < 0xFFC00000) (hd : frameOf (s.mmu.dir (dirIndex v)) = 0)
  (hx : IsTable x) (hf : frameOf x = f) (hf0 : f ≠ 0) (hnotDir : f ≠ frameOf s.mmu.cr3)
  (hnotTable : ∀ d, f ≠ frameOf (s.mmu.dir d)) (hprimed : s.gPrimedpage = 0)

include h hv hx hf hf0 hnotTable hprimed

theorem wf_setDir : WF (s.setDir v x) where
  recursive := by
    have hlast : (s.setDir v x).mmu.dir 1023 = s.mmu.dir 1023 := by
      rw [dir_setDir, if_neg (dirIndex_ne hv).symm]
    refine ⟨?_, ?_⟩
    · rw [hlast]
      exact h.recursive.table
    · rw [hlast]
      exact h.recursive.self
  cr3_ne := h.cr3_ne
  entry d := by
    rw [dir_setDir]
    split
    · exact .inr ⟨hf.symm ▸ hf0, hx⟩
    · exact h.entry d
  inj d d' := by
    rw [dir_setDir, dir_setDir]
    split
    next hdv =>
      split
      next hdv' => exact fun _ _ ↦ hdv.trans hdv'.symm
      next => exact fun _ heq ↦ absurd (hf.symm.trans heq) (hnotTable d')
    next =>
      split
      next => exact fun _ heq ↦ absurd (hf.symm.trans heq.symm) (hnotTable d)
      next => exact h.inj d d'
  primed hne := absurd hprimed hne

include hd hnotDir

theorem addTable :
    ∃ s', (s.setDir v x).memset (ptabFromVaddr v) = some s' ∧ WF s' ∧
      frameOf (s'.mmu.dir (dirIndex v)) ≠ 0 ∧ s'.gPrimedpage = s.gPrimedpage ∧
      s'.lookup = Function.update s.lookup (windowPage v) (some f) := by
  have hwf := wf_setDir h hv hx hf hf0 hnotTable hprimed
  have hself : (s.setDir v x).mmu.dir (dirIndex v) = x := by
    rw [dir_setDir, if_pos rfl]
  obtain ⟨m, hm, hclear⟩ := memset_clears (s := s.setDir v x) (v := v)
    hwf.recursive (by rwa [hself])
    (by rw [hself, hf]; exact hnotDir)
  rw [hself, hf] at hclear
  refine ⟨(s.setDir v x).withMmu m, hm, hwf.congr hclear.cr3 hclear.dir, ?_, rfl, ?_⟩
  · show frameOf (m.dir (dirIndex v)) ≠ 0
    rw [hclear.dir, hself, hf]
    exact hf0
  funext pg
  by_cases hpg : pg.1 = dirIndex v
  · -- The new table is empty, and there was none before.
    have hpte : ¬ Present (m.pte pg.1 pg.2) := by
      rw [pte, hclear.dir, hpg, hself, hf]
      exact hclear.clear pg.2 (.inl trivial)
    have hwin : pg ≠ windowPage v := by
      intro heq
      exact dirIndex_ne hv (hpg.symm.trans (congrArg Prod.fst heq))
    rw [update_of_ne hwin, lookup, lookup, if_neg fun hand ↦ hpte hand.2, if_neg]
    rw [hpg]
    exact fun hand ↦ hand.1 hd
  · have hne : frameOf ((s.setDir v x).mmu.dir pg.1) ≠ f := by
      rw [dir_setDir, if_neg hpg]
      exact (hnotTable pg.1).symm
    rw [← lookup_setDir h hx hf hpg, lookup, lookup]
    show (if frameOf (m.dir pg.1) ≠ 0 ∧ Present (m.mem (frameOf (m.dir pg.1)) pg.2) then
      some (frameOf (m.mem (frameOf (m.dir pg.1)) pg.2)) else none) = _
    rw [hclear.dir, hclear.mem _ hne]
    rfl

end AddTable

end ForgeOS.Vmem
