import ForgeOS.Cache.Model
import ForgeOS.Lib.Fuel

/-!
# A cache without a free buffer

When the pool is exhausted, `cache_startblock` goes on with the null pointer as with any other
address.

The main result is `refuses_iff`.
-/

namespace ForgeOS.Cache

open ForgeOS.Tree Option

variable {s : Cache} {offset b a : Ptr} {frames : ℕ → UInt64 × UInt64}

structure Exhausted (s : Cache) (offset : Ptr) : Prop where
  full : s.pool.book.allocCount = s.pool.book.bufferCount
  uncached : Returns (fun fuel ↦ search fuel s offset) notFoundPtr

def Refuses (s : Cache) (offset b a : Ptr) (frames : ℕ → UInt64 × UInt64) : Prop :=
  Returns (fun fuel ↦ s.cacheStartblock fuel offset b a frames) (0, s)

theorem useBlock_mem {s' : Cache} (h : s.useBlock b = some s') : s'.mem = s.mem := by
  obtain ⟨_, -, h⟩ := bind_eq_some_iff.mp h
  obtain ⟨_, -, h⟩ := bind_eq_some_iff.mp h
  obtain ⟨_, -, h⟩ := bind_eq_some_iff.mp h
  obtain ⟨_, -, h⟩ := bind_eq_some_iff.mp h
  cases h
  rfl

theorem Exhausted.start (h : Exhausted s offset) (b a : Ptr) (frames : ℕ → UInt64 × UInt64) :
    ∃ F, ∀ fuel ≥ F, ∀ r s', s.cacheStartblock fuel offset b a frames = some (r, s') →
      r = b ∧ b ≠ 0 ∧ accessible s.pool.vmem 0 = some () ∧ s'.mem = s.mem.fill 0 0x1000 0 := by
  obtain ⟨F, hF⟩ := h.uncached
  refine ⟨F, fun fuel hfuel r s' hr ↦ ?_⟩
  have hpool : s.pool.poolAlloc frames = some (0, s.pool) := if_pos h.full
  have hfound : search fuel s offset = some notFoundPtr := hF fuel hfuel
  simp only [cacheStartblock, hfound, bind_eq_bind, bind_some, if_true] at hr
  obtain ⟨s1, halloc, hr⟩ := bind_eq_some_iff.mp hr
  obtain ⟨s2, hinsert, hr⟩ := bind_eq_some_iff.mp hr
  obtain ⟨s3, huse, hr⟩ := bind_eq_some_iff.mp hr
  cases hr
  obtain ⟨blocks, hblocks, halloc⟩ := bind_eq_some_iff.mp halloc
  rw [hpool, bind_eq_bind, bind_some] at halloc
  obtain ⟨_, -, halloc⟩ := bind_eq_some_iff.mp halloc
  obtain ⟨_, haccess, halloc⟩ := bind_eq_some_iff.mp halloc
  obtain ⟨tree, -, rfl⟩ := map_eq_some_iff.mp hinsert
  cases halloc
  refine ⟨rfl, ?_, haccess, useBlock_mem huse⟩
  rintro rfl
  simp [Heap.alloc] at hblocks

/-- **An exhausted cache never refuses an offset.** -/
theorem refuses_iff (s : Cache) (offset b a : Ptr) (frames : ℕ → UInt64 × UInt64) :
    (Exhausted s offset → Refuses s offset b a frames) ↔ ¬ Exhausted s offset := by
  refine ⟨fun hrefuses h ↦ ?_, fun h h' ↦ absurd h' h⟩
  obtain ⟨F, hF⟩ := h.start b a frames
  obtain ⟨N, hN⟩ := hrefuses h
  obtain ⟨hzero, hne, -⟩ := hF (max F N) (le_max_left F N) 0 s (hN _ (le_max_right F N))
  exact hne hzero.symm

def onePage : Cache := createCache [] 0x1000 0 Vmem.populated fun _ ↦ 0

/-- **The second block of a cache of one page** makes `cache_startblock` write to address 0. -/
theorem not_refuses_onePage :
    ∃ s, Run.exec (step 8) onePage [.start 7 0x100 0x10 fun _ ↦ (0, 0)] = some s ∧
      Exhausted s 8 ∧ ¬ Refuses s 8 0x200 0x20 fun _ ↦ (0, 0) := by
  have hrun : ∀ k, (Run.exec (step 8) onePage [.start 7 0x100 0x10 fun _ ↦ (0, 0)]).map
      (fun s ↦ (s.pool.book.allocCount, s.pool.book.bufferCount, search (k + 8) s 8,
        (s.cacheStartblock (k + 8) 8 0x200 0x20 fun _ ↦ (0, 0)).isSome)) =
      some (1, 1, some notFoundPtr, false) := fun k ↦ rfl
  obtain ⟨s, hs, hfacts⟩ := map_eq_some_iff.mp (hrun 0)
  have hk : ∀ k, search (k + 8) s 8 = some notFoundPtr ∧
      (s.cacheStartblock (k + 8) 8 0x200 0x20 fun _ ↦ (0, 0)).isSome = false := fun k ↦ by
    have h := hrun k
    rw [hs, map_some, some.injEq] at h
    exact ⟨congrArg (·.2.2.1) h, congrArg (·.2.2.2) h⟩
  have hsize := (congrArg (·.1) hfacts).trans (congrArg (·.2.1) hfacts).symm
  refine ⟨s, hs, ⟨hsize, 8, fun k hk8 ↦ ?_⟩, ?_⟩
  · obtain ⟨j, rfl⟩ : ∃ j, k = j + 8 := ⟨k - 8, by omega⟩
    exact (hk j).1
  · rintro ⟨N, hN⟩
    have h := congrArg isSome (hN (N + 8) (by omega))
    exact Bool.false_ne_true ((hk N).2.symm.trans h)

end ForgeOS.Cache
