import ForgeOS.Vmem.Tables

/-!
# The page tables as a map from pages to frames

The reference is a partial map from pages to frames, together with the page that has been put aside
(`Space`).

The main result is `agrees_of_allowed`.
-/

namespace ForgeOS.Vmem

open Paging Mmu Function Option

/-- The reference: the frame of each page, and the page that has been put aside. -/
structure Space where
  frame : Page → Option UInt32
  spare : UInt64

namespace Space

def take (m : Space) (alloc : UInt64) : UInt64 × Space :=
  if m.spare = 0 then (alloc, m) else (m.spare, { m with spare := 0 })

def choose (m : Space) (p alloc : UInt64) : UInt32 × Space :=
  if p = ~~~0 then ((m.take alloc).1.toUInt32, (m.take alloc).2) else (frameOf p.toUInt32, m)

def set (m : Space) (pg : Page) (f : Option UInt32) : Space :=
  { m with frame := Function.update m.frame pg f }

def call (m : Space) : Op → ℤ × Space
  | .map v p _ a b =>
    let (f, m) := m.choose p a
    if (m.frame (windowPage v)).isSome then (0, m.set (page v) (some f))
    else
      let (t, m) := m.take b
      if t = 0 then (-1, m)
      else (0, (m.set (windowPage v) (some t.toUInt32)).set (page v) (some f))
  | .modify v _ => (if (m.frame (page v)).isSome then 0 else -1, m)
  | .unmap v => (0, m.set (page v) none)

def step (m : Space) (op : Op) : Space := (m.call op).2

variable {m : Space} {pg : Page} {v f : UInt32} {p a b : UInt64}

theorem frame_set (pg : Page) (f : Option UInt32) :
    (m.set pg f).frame = Function.update m.frame pg f := rfl

theorem isSome_set (h : (m.frame pg).isSome) (pg' : Page) (f : UInt32) :
    ((m.set pg' (some f)).frame pg).isSome := by
  rw [frame_set, update_apply]
  split
  · rfl
  · exact h

theorem frame_choose : (m.choose p a).2.frame = m.frame := by
  rw [choose, take]
  split
  · split <;> rfl
  · rfl

theorem frame_take : (m.take b).2.frame = m.frame := by
  rw [take]
  split <;> rfl

theorem isSome_step_map (h : (m.frame pg).isSome) :
    ((m.step (.map v p f a b)).frame pg).isSome := by
  have h1 : ((m.choose p a).2.frame pg).isSome := by rwa [frame_choose]
  have h2 : (((m.choose p a).2.take b).2.frame pg).isSome := by rwa [frame_take]
  rw [step, call]
  dsimp only
  split
  · exact isSome_set h1 _ _
  · split
    · exact h2
    · exact isSome_set (isSome_set h2 _ _) _ _

theorem take_ne_zero (m : Space) (hb : b ≠ 0) : (m.take b).1 ≠ 0 := by
  rw [take]
  split
  · exact hb
  · assumption

theorem isSome_step_map_self (hb : b ≠ 0) : ((m.step (.map v p f a b)).frame (page v)).isSome := by
  have htake := take_ne_zero (m.choose p a).2 hb
  have hself : ∀ (m : Space) f, ((m.set (page v) (some f)).frame (page v)).isSome := by
    intro m f
    rw [frame_set, update_self]
    rfl
  simp only [step, call, if_neg htake]
  split <;> exact hself _ _

theorem call_map_eq_zero (m : Space) (hb : b ≠ 0) : (m.call (.map v p f a b)).1 = 0 := by
  simp only [call, if_neg (take_ne_zero (m.choose p a).2 hb)]
  split <;> rfl

theorem frame_call_map_of_not (hself : pg ≠ page v) (hwindow : pg ≠ windowPage v) :
    (m.call (.map v p f a b)).2.frame pg = m.frame pg := by
  have hchoose : (m.choose p a).2.frame pg = m.frame pg := by rw [frame_choose]
  rw [call]
  dsimp only
  split
  · rw [frame_set, update_of_ne hself, hchoose]
  split
  · rw [frame_take, hchoose]
  · rw [frame_set, update_of_ne hself, frame_set, update_of_ne hwindow,
      frame_take, hchoose]

theorem call_map_of_memory (h : (m.frame (windowPage v)).isSome ∨ b ≠ 0) :
    (m.call (.map v p f a b)).1 = 0 ∧ ((m.call (.map v p f a b)).2.frame (page v)).isSome := by
  rcases h with htable | hb
  · have htable' : ((m.choose p a).2.frame (windowPage v)).isSome := by rwa [frame_choose]
    simp only [call, if_pos htable', frame_set, update_self, isSome_some, and_self]
  · exact ⟨call_map_eq_zero m hb, isSome_step_map_self hb⟩

theorem frame_call_map (hp : p ≠ ~~~0) (hcall : (m.call (.map v p f a b)).1 = 0) :
    (m.call (.map v p f a b)).2.frame (page v) = some (frameOf p.toUInt32) := by
  simp only [call, choose, if_neg hp] at hcall ⊢
  split at hcall
  · next h => rw [if_pos h, frame_set, update_self]
  · next h =>
    split at hcall
    · cases hcall
    · next ht => rw [if_neg h, if_neg ht, frame_set, update_self]

end Space

def space (s : Vmem) : Space := ⟨s.lookup, s.gPrimedpage⟩

/-- `arch_vmem_ismapped` and `arch_vmem_v2p` give the answers of the reference at every address. -/
def Agrees (s : Vmem) (m : Space) : Prop :=
  ∀ u, s.archVmemIsmapped u = some (m.frame (page u)).isSome ∧
    ∀ f ∈ m.frame (page u), s.archVmemV2p u = some (f.toUInt64 ||| (u &&& 0xFFF).toUInt64)

variable {s : Vmem} {v x : UInt32}

theorem page_eq_iff (v w : UInt32) : page v = page w ↔ v.toNat / 0x1000 = w.toNat / 0x1000 := by
  have hv := v.toNat_lt
  have hw := w.toNat_lt
  simp only [page, Prod.mk.injEq, dirIndex, tabIndex, Fin.mk.injEq]
  omega

theorem page_ofNat_eq_iff {a b : ℕ} (ha : a < 2 ^ 32) (hb : b < 2 ^ 32) :
    page (UInt32.ofNat a) = page (UInt32.ofNat b) ↔ a / 0x1000 = b / 0x1000 := by
  rw [page_eq_iff, UInt32.toNat_ofNat_of_lt' ha, UInt32.toNat_ofNat_of_lt' hb]

theorem WF.agrees (h : WF s) : Agrees s s.space :=
  fun u ↦ ⟨h.archVmemIsmapped u, fun _ hf ↦ h.archVmemV2p hf⟩

theorem IsFrame.frameOf_toUInt32 {p : UInt64} (h : IsFrame p) :
    frameOf p.toUInt32 = p.toUInt32 := by
  have hp := congrArg UInt64.toUInt32 h
  rw [UInt32.toUInt32_toUInt64] at hp
  exact hp.symm

theorem IsFrame.toUInt32_ne_zero {p : UInt64} (h : IsFrame p) (h0 : p ≠ 0) : p.toUInt32 ≠ 0 := by
  intro hzero
  rw [IsFrame, hzero] at h
  exact h0 h

theorem takePage_spec (h : WF s) (alloc : UInt64) :
    ∃ p s', s.takePage alloc = (p, s') ∧ s.space.take alloc = (p, s'.space) ∧ WF s' ∧
      s'.mmu = s.mmu ∧ s'.gPrimedpage = 0 ∧
      (p = alloc ∧ s.gPrimedpage = 0 ∨ p ≠ 0 ∧ s.Unused p) := by
  by_cases h0 : s.gPrimedpage = 0
  · refine ⟨alloc, s, if_pos h0, if_pos h0, h, rfl, h0, .inl ⟨rfl, h0⟩⟩
  · refine ⟨s.gPrimedpage, { s with gPrimedpage := 0 }, if_neg h0, if_neg h0, ?_, rfl, rfl,
      .inr ⟨h0, h.primed h0⟩⟩
    exact ⟨h.recursive, h.cr3_ne, h.entry, h.inj, fun hne ↦ absurd rfl hne⟩

theorem choosePage_spec (h : WF s) {p a : UInt64}
    (ha : p = ~~~0 → s.gPrimedpage = 0 → a ≠ 0 ∧ IsFrame a) :
    ∃ p' s', s.choosePage p a = some (p', s') ∧ s.space.choose p a = (p'.toUInt32, s'.space) ∧
    WF s' ∧
      s'.mmu = s.mmu ∧ frameOf p'.toUInt32 = p'.toUInt32 := by
  by_cases hp : p = ~~~0
  · obtain ⟨p', s', htake, htake', hwf, hmmu, -, hpage⟩ := takePage_spec h a
    have hp' : p' ≠ 0 ∧ IsFrame p' := by
      rcases hpage with ⟨rfl, h0⟩ | ⟨hne, hun⟩
      · exact ha hp h0
      · exact ⟨hne, hun.isFrame⟩
    refine ⟨p', s', ?_, ?_, hwf, hmmu, hp'.2.frameOf_toUInt32⟩
    · rw [choosePage, if_pos hp, htake]
      exact if_neg hp'.1
    · rw [Space.choose, if_pos hp, htake']
  · have hclear : (p &&& ~~~0xFFF).toUInt32 = frameOf p.toUInt32 := by
      rw [UInt64.toUInt32_and]
      rfl
    rw [choosePage, if_neg hp, Space.choose, if_neg hp]
    by_cases hlow : p &&& 0xFFF = 0
    · have hlow32 : p.toUInt32 &&& 0xFFF = 0 := by
        have h32 := congrArg UInt64.toUInt32 hlow
        rwa [UInt64.toUInt32_and] at h32
      refine ⟨p, s, if_neg (not_not.2 hlow), ?_, h, rfl, frameOf_of_and_eq_zero hlow32⟩
      rw [frameOf_of_and_eq_zero hlow32]
    · refine ⟨p &&& ~~~0xFFF, s, if_pos hlow, ?_, h, rfl, ?_⟩
      · rw [hclear]
      · rw [hclear, frameOf_frameOf]

theorem complete_spec (h : WF s) (hv : v < 0xFFC00000) (hd : frameOf (s.mmu.dir (dirIndex v)) ≠ 0)
    {p : UInt32} (hp : frameOf p = p) (f : UInt32) :
    ∃ s', s.store (ptabSlot v) (p ||| flagsToX86 f) = some s' ∧ WF s' ∧
      s'.space = s.space.set (page v) (some p) := by
  refine ⟨_, h.store_ptabSlot hd, wf_setPte h hv, ?_⟩
  rw [space, lookup_setPte h hv hd, if_pos (present_or_right (present_flagsToX86 f)),
    frameOf_or_flags (frameOf_flagsToX86 f), hp]
  rfl

theorem archVmemMap_spec (h : WF s) {p : UInt64} {f : UInt32} {a b : UInt64} (hv : v < 0xFFC00000)
    (ha : p = ~~~0 → s.gPrimedpage = 0 → a ≠ 0 ∧ IsFrame a) (hb : b ≠ 0 → s.Unused b) :
    ∃ s', s.archVmemMap v p f a b = some ((s.space.call (.map v p f a b)).1, s') ∧ WF s' ∧
      s'.space = (s.space.call (.map v p f a b)).2 := by
  obtain ⟨p', s1, hchoose, hchoose', hwf1, hmmu1, hp'⟩ := choosePage_spec h ha
  have hwin : (s1.space.frame (windowPage v)).isSome ↔ frameOf (s1.mmu.dir (dirIndex v)) ≠ 0 := by
    show (s1.lookup (windowPage v)).isSome ↔ _
    rw [hwf1.lookup_windowPage]
    by_cases h0 : frameOf (s1.mmu.dir (dirIndex v)) = 0
    · rw [if_pos h0]
      exact ⟨fun hsome ↦ absurd hsome (by decide), fun hne ↦ absurd h0 hne⟩
    · rw [if_neg h0]
      exact ⟨fun _ ↦ h0, fun _ ↦ rfl⟩
  have hdir : s1.mmu.dir (dirIndex v) &&& ~~~0xFFF = frameOf (s1.mmu.dir (dirIndex v)) := rfl
  simp only [archVmemMap, hchoose, bind_eq_bind, bind_some, hwf1.load_pdirSlot, hdir,
    Space.call, hchoose', hwin]
  by_cases hd : frameOf (s1.mmu.dir (dirIndex v)) = 0
  · rw [if_pos hd, if_neg (not_not.2 hd)]
    obtain ⟨t, s2, htake, htake', hwf2, hmmu2, hprimed2, ht⟩ := takePage_spec hwf1 b
    simp only [htake, htake']
    by_cases ht0 : t = 0
    · rw [if_pos ht0, if_pos ht0]
      exact ⟨s2, rfl, hwf2, rfl⟩
    · rw [if_neg ht0, if_neg ht0]
      have hun : s2.Unused t := by
        rcases ht with ⟨rfl, -⟩ | ⟨-, hun⟩
        · exact (hb ht0).congr (congrArg _ (hmmu2.trans hmmu1)) (congrArg _ (hmmu2.trans hmmu1))
        · exact hun.congr (congrArg _ hmmu2) (congrArg _ hmmu2)
      have hframe := hun.isFrame.frameOf_toUInt32
      have hx : IsTable (t.toUInt32 ||| 0x01 ||| 0x02) := hframe ▸ isTable_new t.toUInt32
      have hfx : frameOf (t.toUInt32 ||| 0x01 ||| 0x02) = t.toUInt32 := by
        rw [frameOf_or_flags (by decide), frameOf_or_flags (by decide), hframe]
      obtain ⟨s3, hmemset, hwf3, hd3, hprimed3, hlookup3⟩ := addTable hwf2 hv (hmmu2 ▸ hd) hx hfx
        (hun.isFrame.toUInt32_ne_zero ht0) hun.notDir hun.notTable hprimed2
      obtain ⟨s4, hstore, hwf4, hspace4⟩ := complete_spec hwf3 hv hd3 hp' f
      refine ⟨s4, ?_, hwf4, ?_⟩
      · rw [hwf2.store_pdirSlot, bind_some, hmemset, bind_some, hstore,
          map_some]
      · rw [hspace4, space, hlookup3, hprimed3]
        rfl
  · rw [if_neg hd, if_pos hd]
    obtain ⟨s2, hstore, hwf2, hspace2⟩ := complete_spec hwf1 hv hd hp' f
    refine ⟨s2, ?_, hwf2, hspace2⟩
    rw [hstore, map_some]

theorem archVmemModify_spec (h : WF s) {nf : UInt32} (hop : s.Allowed (.modify v nf)) :
    ∃ s', s.archVmemModify v nf = some ((s.space.call (.modify v nf)).1, s') ∧ WF s' ∧
      s'.space = (s.space.call (.modify v nf)).2 := by
  have hv : v < 0xFFC00000 := hop
  simp only [archVmemModify, h.archVmemIsmapped, bind_eq_bind, bind_some, Space.call]
  show ∃ s', (if (s.lookup (page v)).isSome then _ else _) =
    some (if (s.lookup (page v)).isSome then 0 else -1, s') ∧ _
  by_cases hsome : (s.lookup (page v)).isSome
  · rw [if_pos hsome, if_pos hsome]
    obtain ⟨hd, hp⟩ := lookup_isSome.1 hsome
    have hwf := wf_setPte (x := s.mmu.pte (dirIndex v) (tabIndex v) &&& ~~~0xFFF) h hv
    have hd' : frameOf ((s.setPte v (s.mmu.pte (dirIndex v) (tabIndex v) &&& ~~~0xFFF)).mmu.dir
        (dirIndex v)) ≠ 0 := by
      rw [dir_setPte h hv]
      exact hd
    obtain ⟨s', hstore, hwf', hspace⟩ := complete_spec hwf hv hd'
      (frameOf_frameOf (s.mmu.pte (dirIndex v) (tabIndex v))) nf
    refine ⟨s', ?_, hwf', ?_⟩
    · rw [h.load_ptabSlot hd, bind_some, h.store_ptabSlot hd, bind_some,
        hwf.load_ptabSlot hd', bind_some, pte_setPte h hv hd, ← page,
        if_pos rfl]
      exact congrArg (fun r ↦ r.bind fun s ↦ some ((0 : ℤ), s)) hstore
    · rw [hspace, space, space, Space.set, lookup_setPte h hv hd, update_idem]
      have hframe : s.lookup (page v) = some (frameOf (s.mmu.pte (dirIndex v) (tabIndex v))) :=
        if_pos ⟨hd, hp⟩
      rw [← hframe, update_eq_self]
      rfl
  · rw [if_neg hsome, if_neg hsome]
    exact ⟨s, rfl, h, rfl⟩

theorem archVmemUnmap_spec (h : WF s) (hop : s.Allowed (.unmap v)) :
    ∃ s', s.archVmemUnmap v = some s' ∧ WF s' ∧ s'.space = (s.space.call (.unmap v)).2 := by
  have hv : v < 0xFFC00000 := hop
  simp only [archVmemUnmap, h.archVmemIsmapped, bind_eq_bind, bind_some, Space.call]
  by_cases hsome : (s.lookup (page v)).isSome
  · have hd := (lookup_isSome.1 hsome).1
    refine ⟨s.setPte v (s.mmu.pte (dirIndex v) (tabIndex v) &&& ~~~0x01), ?_, wf_setPte h hv, ?_⟩
    · rw [if_pos hsome, h.load_ptabSlot hd, bind_some, h.store_ptabSlot hd]
    · rw [space, lookup_setPte h hv hd, if_neg (not_present_and (by decide))]
      rfl
  · refine ⟨s, if_neg hsome, h, ?_⟩
    have hnone : s.lookup (page v) = none := not_isSome_iff_eq_none.1 hsome
    show s.space = ⟨update s.lookup (page v) none, s.gPrimedpage⟩
    rw [← hnone, update_eq_self]
    rfl

theorem call_refines (h : WF s) {op : Op} (hop : s.Allowed op) :
    ∃ s', s.call op = some ((s.space.call op).1, s') ∧ WF s' ∧ s'.space = s.space.step op := by
  cases op with
  | map v p f a b => exact archVmemMap_spec h hop.1 hop.2.2.1 hop.2.2.2
  | modify v nf => exact archVmemModify_spec h hop
  | unmap v =>
    obtain ⟨s', hcall, hwf, hspace⟩ := archVmemUnmap_spec h hop
    exact ⟨s', by rw [call, hcall]; rfl, hwf, hspace⟩

theorem exec_refines (h : WF s) {ops : List Op} (hg : Run.Guarded step Allowed s ops) :
    ∃ s', Run.exec step s ops = some s' ∧ WF s' ∧ s'.space = ops.foldl Space.step s.space := by
  have hstep : ∀ (s : Vmem) op m, WF s ∧ s.space = m → s.Allowed op →
      ∃ s', s.step op = some s' ∧ WF s' ∧ s'.space = m.step op := by
    rintro s op m ⟨hwf, rfl⟩ hop
    obtain ⟨s', hcall, hwf', hspace⟩ := call_refines hwf hop
    exact ⟨s', by rw [step, hcall]; rfl, hwf', hspace⟩
  exact Run.foldl_of_guarded hstep ⟨h, rfl⟩ hg

/-- **The page tables are a map from pages to frames**, after every run of calls, and the next call
returns what it should. -/
theorem agrees_of_allowed (h : WF s) (ops : List Op) (hg : Run.Guarded step Allowed s ops) :
    ∃ s', Run.exec step s ops = some s' ∧ Agrees s' (ops.foldl Space.step s.space) ∧
      ∀ op, s'.Allowed op →
        (s'.call op).map Prod.fst = some ((ops.foldl Space.step s.space).call op).1 := by
  obtain ⟨s', hexec, hwf, hspace⟩ := exec_refines h hg
  refine ⟨s', hexec, hspace ▸ hwf.agrees, fun op hop ↦ ?_⟩
  obtain ⟨s'', hcall, -⟩ := call_refines hwf hop
  rw [hcall, ← hspace]
  rfl

def blank : Vmem where
  mmu := ⟨0x1000, fun f i ↦ if f = 0x1000 ∧ i = 1023 then 0x1003 else 0⟩
  gPrimedpage := 0

theorem dir_blank (d : Fin 1024) : blank.mmu.dir d = if d = 1023 then 0x1003 else 0 := by
  show (if frameOf 0x1000 = 0x1000 ∧ d = 1023 then 0x1003 else 0) = _
  simp [show frameOf 0x1000 = 0x1000 by decide]

theorem wf_blank : WF blank where
  recursive := ⟨⟨by decide, by decide, by decide⟩, by decide⟩
  cr3_ne := by decide
  entry d := by
    rw [dir_blank]
    split
    · exact .inr ⟨by decide, by decide, by decide, by decide⟩
    · exact .inl (by decide)
  inj d d' := by
    rw [dir_blank, dir_blank]
    split
    next hd =>
      split
      next hd' => exact fun _ _ ↦ hd.trans hd'.symm
      next => exact fun _ heq ↦ absurd heq (by decide)
    next => exact fun hne _ ↦ absurd (by decide) hne
  primed hne := absurd rfl hne

theorem unused_blank : blank.Unused 0x2000 where
  isFrame := by decide
  notDir := by decide
  notTable d := by
    rw [dir_blank]
    split <;> decide

def populated : Vmem where
  mmu := ⟨0x1000, fun f i ↦
    if f = 0x1000 then if i = 1023 then 0x1003 else if i = 896 then 0x2003 else 0
    else if f = 0x2000 then UInt32.ofNat (0x400003 + 0x1000 * i) else 0⟩
  gPrimedpage := 0

theorem dir_populated (d : Fin 1024) :
    populated.mmu.dir d = if d = 1023 then 0x1003 else if d = 896 then 0x2003 else 0 := by
  have hframe : frameOf populated.mmu.cr3 = 0x1000 := by decide
  show (if frameOf populated.mmu.cr3 = 0x1000 then
    if d = 1023 then 0x1003 else if d = 896 then 0x2003 else 0
    else if frameOf populated.mmu.cr3 = 0x2000 then UInt32.ofNat (0x400003 + 0x1000 * d) else 0) = _
  rw [if_pos hframe]

theorem wf_populated : WF populated where
  recursive := ⟨⟨by decide, by decide, by decide⟩, by decide⟩
  cr3_ne := by decide
  entry d := by
    rw [dir_populated]
    split
    · exact .inr ⟨by decide, by decide, by decide, by decide⟩
    split
    · exact .inr ⟨by decide, by decide, by decide, by decide⟩
    · exact .inl (by decide)
  inj d d' := by
    rw [dir_populated, dir_populated]
    split
    next hd =>
      split
      next hd' => exact fun _ _ ↦ hd.trans hd'.symm
      next => split <;> exact fun _ heq ↦ absurd heq (by decide)
    next =>
      split
      next hd =>
        split
        next => exact fun _ heq ↦ absurd heq (by decide)
        next =>
          split
          next hd' => exact fun _ _ ↦ hd.trans hd'.symm
          next => exact fun _ heq ↦ absurd heq (by decide)
      next => exact fun hne _ ↦ absurd (by decide) hne
  primed hne := absurd rfl hne

def tour : List Op :=
  [.map 0x400000 0x5123 1 0 0x2000, .map 0x401000 (~~~0) 1 0x6000 0, .modify 0x400000 0,
    .unmap 0x400000]

theorem agrees_tour : WF blank ∧ ∃ s', Run.exec step blank tour = some s' ∧
    s'.archVmemIsmapped 0x400000 = some false ∧ s'.archVmemV2p 0x401234 = some 0x6234 := by
  have hg : Run.Guarded step Allowed blank tour := by
    refine ⟨⟨by decide, by decide, by decide, fun _ ↦ unused_blank⟩, fun t _ ↦ ?_⟩
    refine ⟨⟨by decide, by decide, fun _ _ ↦ ⟨by decide, by decide⟩, fun h0 ↦ absurd rfl h0⟩,
      fun t _ ↦ ?_⟩
    have hlow : (0x400000 : UInt32) < 0xFFC00000 := by decide
    exact ⟨hlow, fun t _ ↦ ⟨hlow, fun t _ ↦ trivial⟩⟩
  obtain ⟨s', hexec, hagrees, -⟩ := agrees_of_allowed wf_blank tour hg
  refine ⟨wf_blank, s', hexec, ?_, ?_⟩
  · exact (hagrees 0x400000).1.trans (by decide)
  · exact (hagrees 0x401234).2 0x6000 (by decide)

/-- **A new page table changes another page**: it shows up in the window. -/
theorem not_frame_newTable : WF blank ∧ blank.Allowed (.map 0x400000 0x5000 1 0 0x2000) ∧
    page 0xFFC01000 ≠ page 0x400000 ∧ blank.archVmemIsmapped 0xFFC01000 = some false ∧
    ∃ s', blank.call (.map 0x400000 0x5000 1 0 0x2000) = some (0, s') ∧
      s'.archVmemIsmapped 0xFFC01000 = some true := by
  have hop : blank.Allowed (.map 0x400000 0x5000 1 0 0x2000) :=
    ⟨by decide, by decide, by decide, fun _ ↦ unused_blank⟩
  obtain ⟨s', hcall, hwf, hspace⟩ := call_refines wf_blank hop
  refine ⟨wf_blank, hop, by decide, ?_, s', hcall, ?_⟩
  · exact (wf_blank.archVmemIsmapped _).trans (by decide)
  · have hagrees := hwf.agrees
    rw [hspace] at hagrees
    exact (hagrees 0xFFC01000).1.trans (by decide)

end ForgeOS.Vmem
