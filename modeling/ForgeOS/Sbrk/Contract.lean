import ForgeOS.Lib.Paging
import ForgeOS.Sbrk.Model

/-!
# What `sbrk.c` relies on, and what its loops do

`Contract` is what `vmem.h` says of its functions, for the addresses from `HEAP_BASE` to some limit.
-/

namespace ForgeOS.Sbrk

open Paging List Option UInt32

/-- **What `vmem.h` says**, for the addresses from `HEAP_BASE` to a limit. -/
structure Contract {M : Type} (port : Port M) where
  limit : ℕ
  limit_le : limit + 0x1000 ≤ 2 ^ 32
  heapBase_pos : 0 < port.heapBase.toNat
  heapBase_lt : port.heapBase.toNat < limit
  heapBase_aligned : port.heapBase.toNat % 0x1000 = 0
  /-- The state before there is a heap. -/
  Fresh : M → Prop
  /-- The page tables are as the functions need them. -/
  Ok : M → Prop
  /-- The frame of a page, which is given by its number. -/
  frame : M → ℕ → Option UInt64
  /-- What `pmem_alloc` may return, for a page and for a page table. -/
  Good : M → UInt64 × UInt64 → Prop
  mapFirst : ∀ m alloc, Fresh m → Good m alloc →
    ∃ m', port.vmemMap (port.vmemPrime m port.primePage) port.heapBase port.firstPage heapFlags
        alloc = some (0, m') ∧ Ok m' ∧
      ∀ pg, pg * 0x1000 < limit → frame m' pg =
        if pg = port.heapBase.toNat / 0x1000 then some port.firstPage else frame m pg
  ismapped : ∀ m v, Ok m → port.heapBase ≤ v → v.toNat < limit →
    port.vmemIsmapped m v = some (frame m (v.toNat / 0x1000)).isSome
  v2p : ∀ m v f, Ok m → port.heapBase ≤ v → v.toNat < limit →
    frame m (v.toNat / 0x1000) = some f →
      ∃ p, port.vmemV2p m v = some p ∧ (v.toNat % 0x1000 = 0 → p = f)
  unmap : ∀ m v, Ok m → port.heapBase ≤ v → v.toNat < limit →
    ∃ m', port.vmemUnmap m v = some m' ∧ Ok m' ∧
      ∀ pg, pg * 0x1000 < limit →
        frame m' pg = if pg = v.toNat / 0x1000 then none else frame m pg
  map : ∀ m v alloc r m', Ok m → port.heapBase ≤ v → v.toNat < limit → Good m alloc →
    frame m (v.toNat / 0x1000) = none →
    port.vmemMap m v (~~~0) heapFlags alloc = some (r, m') →
      Ok m' ∧ ∀ pg, pg * 0x1000 < limit → pg ≠ v.toNat / 0x1000 → frame m' pg = frame m pg
  /-- There is a panic only for want of memory for the page. -/
  map_isSome : ∀ m v alloc, Ok m → port.heapBase ≤ v → v.toNat < limit → Good m alloc →
    frame m (v.toNat / 0x1000) = none → alloc.1 ≠ 0 →
      ∃ r m', port.vmemMap m v (~~~0) heapFlags alloc = some (r, m')
  map_memory : ∀ m v alloc, Ok m → port.heapBase ≤ v → v.toNat < limit → Good m alloc →
    frame m (v.toNat / 0x1000) = none → alloc.1 ≠ 0 → alloc.2 ≠ 0 →
      ∃ m', port.vmemMap m v (~~~0) heapFlags alloc = some (0, m') ∧
        (frame m' (v.toNat / 0x1000)).isSome

def upward (b i : ℕ) : ℕ × UInt32 := (i, ofNat (b + i * 0x1000))

def downward (b i : ℕ) : UInt32 := ofNat (b - i * 0x1000)

def turnsFor (b b' n : ℕ) : ℕ := if b / 0x1000 = b' / 0x1000 then 0 else (n + 0xFFF) / 0x1000

theorem pageAligned_eq_iff {x y : UInt32} :
    pageAligned x = pageAligned y ↔ x.toNat / 0x1000 = y.toNat / 0x1000 := by
  have hframe : ∀ z, pageAligned z = frameOf z := fun _ ↦ rfl
  rw [hframe, hframe, ← UInt32.toNat_inj, toNat_frameOf, toNat_frameOf]
  omega

theorem toNat_ofNat {a : ℕ} (ha : a < 2 ^ 32) : (ofNat a).toNat = a :=
  toNat_ofNat_of_lt' ha

variable {M : Type} {port : Port M} {incr : UInt32} {s : Sbrk M}

theorem grow_eq (alloc : ℕ → UInt64 × UInt64) (hb : s.base.toNat + incr.toNat + 0x1000 ≤ 2 ^ 32) :
    grow port s incr alloc = (Run.exec (growTurn port alloc) s.vmem
      ((List.range (turnsFor s.base.toNat (s.base.toNat + incr.toNat) incr.toNat)).map
        (upward s.base.toNat))).map fun vmem ↦ ⟨vmem, s.base + incr⟩ := by
  have hbase : (s.base + incr).toNat = s.base.toNat + incr.toNat := by
    rw [UInt32.toNat_add, Nat.mod_eq_of_lt (by omega)]
  simp only [grow, ne_eq, pageAligned_eq_iff, hbase, turnsFor]
  by_cases hpage : s.base.toNat / 0x1000 = (s.base.toNat + incr.toNat) / 0x1000
  · rw [if_neg (not_not.mpr hpage), if_pos hpage]
    rfl
  · rw [if_pos hpage, if_neg hpage]
    have haddr : ∀ i ≤ (incr.toNat + 0xFFF) / 0x1000,
        (upward s.base.toNat i).2.toNat = s.base.toNat + i * 0x1000 := by
      intro i hi
      exact toNat_ofNat (by omega)
    have hfirst : upward s.base.toNat 0 = (0, s.base) := by
      rw [upward, Nat.zero_mul, Nat.add_zero, UInt32.ofNat_toNat]
    rw [stride_eq_exec (upward s.base.toNat) (k := (incr.toNat + 0xFFF) / 0x1000) hfirst]
    · cases Run.exec (growTurn port alloc) s.vmem _ <;> rfl
    · simp only [turns]
      omega
    · intro i hi
      refine Prod.ext rfl (UInt32.toNat_inj.mp ?_)
      rw [UInt32.toNat_add, haddr i (by omega), haddr (i + 1) (by omega)]
      simp only [reduceToNat]
      omega
    · intro i hi
      rw [decide_eq_true_iff, lt_iff_toNat_lt, haddr i (by omega), hbase]
      omega
    · rw [decide_eq_true_iff, lt_iff_toNat_lt, haddr _ (by omega), hbase]
      omega

theorem grow_of_ismapped (alloc : ℕ → UInt64 × UInt64)
    (hb : s.base.toNat + incr.toNat + 0x1000 ≤ 2 ^ 32)
    (hmapped : ∀ i < turnsFor s.base.toNat (s.base.toNat + incr.toNat) incr.toNat,
      port.vmemIsmapped s.vmem (upward s.base.toNat i).2 = some true) :
    grow port s incr alloc = some ⟨s.vmem, s.base + incr⟩ := by
  obtain ⟨m, hexec, rfl⟩ : ∃ m, Run.exec (growTurn port alloc) s.vmem
      ((range (turnsFor s.base.toNat (s.base.toNat + incr.toNat) incr.toNat)).map
        (upward s.base.toNat)) = some m ∧ m = s.vmem := by
    refine Run.exec_range (motive := fun _ m ↦ m = s.vmem) rfl (fun i m hi hm _ ↦ ?_)
      (Run.guarded_true _ _)
    refine ⟨s.vmem, ?_, rfl⟩
    rw [hm, upward, growTurn]
    exact bind_eq_some_iff.mpr ⟨true, hmapped i hi, rfl⟩
  rw [grow_eq alloc hb, hexec, map_some]

theorem shrink_eq (hb : incr.toNat + 0x1000 ≤ s.base.toNat) :
    shrink port s incr = (Run.exec (shrinkTurn port) (s.vmem, [])
      ((List.range (turnsFor s.base.toNat (s.base.toNat - incr.toNat) incr.toNat)).map
        (downward s.base.toNat))).map fun r ↦ (⟨r.1, s.base - incr⟩, r.2) := by
  have hlt := s.base.toNat_lt
  have hbase : (s.base - incr).toNat = s.base.toNat - incr.toNat :=
    UInt32.toNat_sub_of_le _ _ (le_iff_toNat_le.mpr (by omega))
  simp only [shrink, ne_eq, pageAligned_eq_iff, hbase, turnsFor]
  by_cases hpage : s.base.toNat / 0x1000 = (s.base.toNat - incr.toNat) / 0x1000
  · rw [if_neg (not_not.mpr hpage), if_pos hpage]
    rfl
  · rw [if_pos hpage, if_neg hpage]
    have haddr : ∀ i, (downward s.base.toNat i).toNat = s.base.toNat - i * 0x1000 := by
      intro i
      exact toNat_ofNat (by omega)
    have hfirst : downward s.base.toNat 0 = s.base := by
      rw [downward, Nat.zero_mul, Nat.sub_zero, UInt32.ofNat_toNat]
    rw [stride_eq_exec (downward s.base.toNat) (k := (incr.toNat + 0xFFF) / 0x1000) hfirst]
    · cases Run.exec (shrinkTurn port) (s.vmem, []) _ <;> rfl
    · simp only [turns]
      have := incr.toNat_lt
      omega
    · intro i hi
      refine UInt32.toNat_inj.mp ?_
      rw [UInt32.toNat_sub_of_le, haddr, haddr]
      · simp only [reduceToNat]
        omega
      · rw [le_iff_toNat_le, haddr]
        simp only [reduceToNat]
        omega
    · intro i hi
      rw [decide_eq_true_iff, gt_iff_lt, lt_iff_toNat_lt, haddr, hbase]
      omega
    · rw [decide_eq_true_iff, gt_iff_lt, lt_iff_toNat_lt, haddr, hbase]
      omega

theorem toNat_upward {b i : ℕ} (h : b + i * 0x1000 < 2 ^ 32) :
    (upward b i).2.toNat = b + i * 0x1000 :=
  toNat_ofNat h

theorem toNat_downward {b i : ℕ} (h : b < 2 ^ 32) : (downward b i).toNat = b - i * 0x1000 :=
  toNat_ofNat (by omega)

namespace Contract

variable {c : Contract port} {m m' m₀ : M} {v : UInt32} {b i : ℕ}
  {alloc : ℕ → UInt64 × UInt64} {freed : List (UInt32 × UInt64)}

theorem growTurn_of_isSome (alloc : ℕ → UInt64 × UInt64) (i : ℕ) (hok : c.Ok m)
    (hv : port.heapBase ≤ v) (hlt : v.toNat < c.limit)
    (hmapped : (c.frame m (v.toNat / 0x1000)).isSome) : growTurn port alloc m (i, v) = some m := by
  simp only [growTurn, c.ismapped m v hok hv hlt, hmapped, bind_eq_bind, bind_some,
    if_true]

theorem growTurn_of_none (alloc : ℕ → UInt64 × UInt64) (i : ℕ) (hok : c.Ok m)
    (hv : port.heapBase ≤ v) (hlt : v.toNat < c.limit)
    (hnone : c.frame m (v.toNat / 0x1000) = none) :
    growTurn port alloc m (i, v) =
      (port.vmemMap m v (~~~0) heapFlags (alloc (i + 1))).map Prod.snd := by
  simp only [growTurn, c.ismapped m v hok hv hlt, hnone, isSome_none, bind_eq_bind,
    bind_some, Bool.false_eq_true, if_false]
  cases port.vmemMap m v (~~~0) heapFlags (alloc (i + 1)) <;> rfl

theorem growTurn_frame (hok : c.Ok m) (hv : port.heapBase ≤ v) (hlt : v.toNat < c.limit)
    (hgood : c.Good m (alloc (i + 1))) (hturn : growTurn port alloc m (i, v) = some m') :
    c.Ok m' ∧ ∀ pg, pg * 0x1000 < c.limit → (c.frame m pg).isSome ∨ pg ≠ v.toNat / 0x1000 →
      c.frame m' pg = c.frame m pg := by
  cases hframe : c.frame m (v.toNat / 0x1000) with
  | some f =>
    rw [growTurn_of_isSome alloc i hok hv hlt (by simp [hframe])] at hturn
    cases hturn
    exact ⟨hok, fun _ _ _ ↦ rfl⟩
  | none =>
    rw [growTurn_of_none alloc i hok hv hlt hframe] at hturn
    obtain ⟨⟨r, m1⟩, hmap, rfl⟩ := map_eq_some_iff.mp hturn
    obtain ⟨hok', hothers⟩ := c.map _ _ _ _ _ hok hv hlt hgood hframe hmap
    refine ⟨hok', fun pg hpg hkeep ↦ hothers pg hpg ?_⟩
    rintro rfl
    simp [hframe] at hkeep

theorem growTurn_of_memory (hok : c.Ok m) (hv : port.heapBase ≤ v) (hlt : v.toNat < c.limit)
    (hgood : c.Good m (alloc (i + 1))) (hmemory : (c.frame m (v.toNat / 0x1000)).isSome ∨
      (alloc (i + 1)).1 ≠ 0 ∧ (alloc (i + 1)).2 ≠ 0) :
    ∃ m', growTurn port alloc m (i, v) = some m' ∧ (c.frame m' (v.toNat / 0x1000)).isSome := by
  cases hframe : c.frame m (v.toNat / 0x1000) with
  | some f =>
    have hmapped : (c.frame m (v.toNat / 0x1000)).isSome := by simp [hframe]
    exact ⟨m, growTurn_of_isSome alloc i hok hv hlt hmapped, hmapped⟩
  | none =>
    obtain ⟨hne, hne'⟩ := hmemory.resolve_left (by simp [hframe])
    obtain ⟨m', hmap, hself⟩ := c.map_memory m v _ hok hv hlt hgood hframe hne hne'
    refine ⟨m', ?_, hself⟩
    rw [growTurn_of_none alloc i hok hv hlt hframe, hmap, map_some]

theorem growTurn_isSome (hok : c.Ok m) (hv : port.heapBase ≤ v) (hlt : v.toNat < c.limit)
    (hgood : c.Good m (alloc (i + 1))) (hpage : (alloc (i + 1)).1 ≠ 0) :
    ∃ m', growTurn port alloc m (i, v) = some m' := by
  cases hframe : c.frame m (v.toNat / 0x1000) with
  | some f => exact ⟨m, growTurn_of_isSome alloc i hok hv hlt (by simp [hframe])⟩
  | none =>
    obtain ⟨r, m', hmap⟩ := c.map_isSome m v _ hok hv hlt hgood hframe hpage
    exact ⟨m', by rw [growTurn_of_none alloc i hok hv hlt hframe, hmap, map_some]⟩

theorem upward_within (hb : port.heapBase.toNat ≤ b) (hi : b + i * 0x1000 < c.limit) :
    port.heapBase ≤ (upward b i).2 ∧ (upward b i).2.toNat < c.limit ∧
      (upward b i).2.toNat / 0x1000 = b / 0x1000 + i := by
  have hlimit := c.limit_le
  have haddr : (upward b i).2.toNat = b + i * 0x1000 := toNat_upward (by omega)
  exact ⟨le_iff_toNat_le.mpr (by omega), by omega, by omega⟩

/-- The map from pages to frames after `j` turns, from the page of `b` on.  A page that was mapped,
or that is not one of those visited, is as it was. -/
structure Grown (c : Contract port) (m₀ : M) (b j : ℕ) (m : M) : Prop where
  ok : c.Ok m
  keeps : ∀ pg, pg * 0x1000 < c.limit →
    (c.frame m₀ pg).isSome ∨ pg < b / 0x1000 ∨ b / 0x1000 + j ≤ pg → c.frame m pg = c.frame m₀ pg

theorem Grown.turn (h : Grown c m₀ b i m) (hb : port.heapBase.toNat ≤ b)
    (hi : b + i * 0x1000 < c.limit) (hgood : c.Good m (alloc (i + 1)))
    (hturn : growTurn port alloc m (upward b i) = some m') : Grown c m₀ b (i + 1) m' := by
  obtain ⟨hv, hlt, hpage⟩ := upward_within hb hi
  obtain ⟨hok, hothers⟩ := growTurn_frame h.ok hv hlt hgood hturn
  refine ⟨hok, fun pg hpg hkeep ↦ ?_⟩
  have hsame := h.keeps pg hpg (hkeep.imp_right fun hout ↦ by omega)
  rw [hothers pg hpg, hsame]
  rw [hsame, hpage]
  exact hkeep.imp_right fun hout ↦ by omega

theorem Grown.turn_of_memory (h : Grown c m₀ b i m)
    (hmaps : ∀ j < i, (c.frame m (b / 0x1000 + j)).isSome) (hb : port.heapBase.toNat ≤ b)
    (hi : b + i * 0x1000 < c.limit) (hgood : c.Good m (alloc (i + 1)))
    (hmemory : (c.frame m₀ (b / 0x1000 + i)).isSome ∨
      (alloc (i + 1)).1 ≠ 0 ∧ (alloc (i + 1)).2 ≠ 0) :
    ∃ m', growTurn port alloc m (upward b i) = some m' ∧ Grown c m₀ b (i + 1) m' ∧
      ∀ j < i + 1, (c.frame m' (b / 0x1000 + j)).isSome := by
  obtain ⟨hv, hlt, hpage⟩ := upward_within hb hi
  have hmemory' : (c.frame m ((upward b i).2.toNat / 0x1000)).isSome ∨
      (alloc (i + 1)).1 ≠ 0 ∧ (alloc (i + 1)).2 ≠ 0 := by
    refine hmemory.imp_left fun hmapped ↦ ?_
    rw [hpage, h.keeps _ (by omega) (.inl hmapped)]
    exact hmapped
  obtain ⟨m', hturn, hself⟩ := growTurn_of_memory h.ok hv hlt hgood hmemory'
  have hothers := (growTurn_frame h.ok hv hlt hgood hturn).2
  refine ⟨m', hturn, h.turn hb hi hgood hturn, fun j hj ↦ ?_⟩
  by_cases hij : j = i
  · rw [hij, ← hpage]
    exact hself
  · have hmapped := hmaps j (by omega)
    rw [hothers _ (by omega) (.inl hmapped)]
    exact hmapped

theorem shrinkTurn_of_none (hok : c.Ok m) (hv : port.heapBase ≤ v) (hlt : v.toNat < c.limit)
    (hnone : c.frame m (v.toNat / 0x1000) = none) :
    shrinkTurn port (m, freed) v = some (m, freed) := by
  simp only [shrinkTurn, c.ismapped m v hok hv hlt, hnone, isSome_none, bind_eq_bind,
    bind_some, Bool.false_eq_true, if_false]

theorem shrinkTurn_of_some (freed : List (UInt32 × UInt64)) {f : UInt64} (hok : c.Ok m)
    (hv : port.heapBase ≤ v) (hlt : v.toNat < c.limit)
    (hsome : c.frame m (v.toNat / 0x1000) = some f) :
    ∃ p m', shrinkTurn port (m, freed) v = some (m', freed ++ [(v, p)]) ∧ c.Ok m' ∧
      (∀ pg, pg * 0x1000 < c.limit →
        c.frame m' pg = if pg = v.toNat / 0x1000 then none else c.frame m pg) ∧
      (v.toNat % 0x1000 = 0 → p = f) := by
  obtain ⟨p, hp, hown⟩ := c.v2p m v f hok hv hlt hsome
  obtain ⟨m', hm', hok', hframe⟩ := c.unmap m v hok hv hlt
  refine ⟨p, m', ?_, hok', hframe, hown⟩
  simp only [shrinkTurn, c.ismapped m v hok hv hlt, hsome, isSome_some, bind_eq_bind,
    bind_some, if_true, hp, hm']

/-- The map from pages to frames, and what has been freed, after `j` turns, from the page of `b`
downwards.  The pages visited are not mapped any more, and the others are as they were.  Those that
were mapped have been written down, each with its own frame if `b` is at the start of a page. -/
structure Shrunk (c : Contract port) (m₀ : M) (b j : ℕ) (r : M × List (UInt32 × UInt64)) :
    Prop where
  ok : c.Ok r.1
  keeps : ∀ pg, pg * 0x1000 < c.limit → b / 0x1000 < pg ∨ pg + j ≤ b / 0x1000 →
    c.frame r.1 pg = c.frame m₀ pg
  unmaps : ∀ pg, pg * 0x1000 < c.limit → pg ≤ b / 0x1000 → b / 0x1000 < pg + j →
    c.frame r.1 pg = none
  visited : r.2.map Prod.fst =
    ((List.range j).filter fun i ↦ (c.frame m₀ (b / 0x1000 - i)).isSome).map (downward b)
  own : b % 0x1000 = 0 → ∀ e ∈ r.2, c.frame m₀ (e.1.toNat / 0x1000) = some e.2

theorem Shrunk.first (hok : c.Ok m₀) (b : ℕ) : Shrunk c m₀ b 0 (m₀, []) :=
  ⟨hok, fun _ _ _ ↦ rfl, fun _ _ hle hlt ↦ absurd hlt (by omega), rfl,
    fun _ _ he ↦ absurd he (by simp)⟩

theorem Shrunk.turn {r : M × List (UInt32 × UInt64)} (h : Shrunk c m₀ b i r) (hb : b < c.limit)
    (hi : port.heapBase.toNat + i * 0x1000 ≤ b) :
    ∃ r', shrinkTurn port r (downward b i) = some r' ∧ Shrunk c m₀ b (i + 1) r' := by
  obtain ⟨m, freed⟩ := r
  have hlimit := c.limit_le
  have haddr : (downward b i).toNat = b - i * 0x1000 := toNat_downward (by omega)
  have hpage : (downward b i).toNat / 0x1000 = b / 0x1000 - i := by omega
  have hmod : (downward b i).toNat % 0x1000 = b % 0x1000 := by omega
  have hv : port.heapBase ≤ downward b i := le_iff_toNat_le.mpr (by omega)
  have hlt : (downward b i).toNat < c.limit := by omega
  have hsame : c.frame m (b / 0x1000 - i) = c.frame m₀ (b / 0x1000 - i) :=
    h.keeps _ (by omega) (.inr (by omega))
  cases hframe : c.frame m ((downward b i).toNat / 0x1000) with
  | none =>
    refine ⟨_, shrinkTurn_of_none h.ok hv hlt hframe, h.ok, fun pg hpg hkeep ↦ ?_,
      fun pg hpg hle hgt ↦ ?_, ?_, h.own⟩
    · exact h.keeps pg hpg (by omega)
    · by_cases hnow : pg = b / 0x1000 - i
      · rw [hnow, ← hpage]
        exact hframe
      · exact h.unmaps pg hpg hle (by omega)
    · rw [hpage, hsame] at hframe
      rw [h.visited, range_succ, filter_append]
      simp [hframe]
  | some f =>
    obtain ⟨p, m', hturn, hok, hothers, hown⟩ := shrinkTurn_of_some freed h.ok hv hlt hframe
    rw [hpage] at hothers hframe
    refine ⟨_, hturn, hok, fun pg hpg hkeep ↦ ?_, fun pg hpg hle hgt ↦ ?_, ?_, fun haligned ↦ ?_⟩
    · show c.frame m' pg = _
      rw [hothers pg hpg, if_neg (by omega)]
      exact h.keeps pg hpg (by omega)
    · show c.frame m' pg = none
      rw [hothers pg hpg]
      split
      · rfl
      · exact h.unmaps pg hpg hle (by omega)
    · have hvisited := h.visited
      rw [hsame] at hframe
      rw [map_append, hvisited, range_succ, filter_append]
      simp [hframe]
    · rw [forall_mem_append]
      refine ⟨h.own haligned, fun e he ↦ ?_⟩
      obtain rfl := mem_singleton.mp he
      rw [hpage, ← hsame, hframe, hown (by omega)]

end Contract
end ForgeOS.Sbrk
