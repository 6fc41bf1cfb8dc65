import ForgeOS.Pool.Book

/-!
# The live buffers of a pool

The live buffers never overlap: the next one is taken from a bit that is clear, which there always
is in the word `alloc_count / 32`.

The main results are `separate_of_released` and `counts_iff_kept`.
-/

namespace ForgeOS.Pool

open List Option Nat Run
namespace Book

open Bits

/-- The live buffers are different ones, they do not overlap, and they are in the range of the
pool. -/
structure Separate (s : Book) : Prop where
  nodup : s.live.Nodup
  apart : s.live.Pairwise fun p q ↦ p + s.bufferSize ≤ q ∨ q + s.bufferSize ≤ p
  inside : ∀ p ∈ s.live, s.base ≤ p ∧ p + s.bufferSize ≤ s.base + s.bufferSize * s.bufferCount

def FindsBit (s : Book) : Prop :=
  s.allocCount ≠ s.bufferCount →
    ∃ w, s.bitmap[s.allocCount / 32]? = some w ∧ freeBit w < 32 ∧ ¬ IsSet w (freeBit w)

def Covers (s : Book) : Prop := s.bufferCount ≤ 32 * s.bitmap.length

/-- What holds of a pool between two calls, if only live buffers are released. -/
structure Sound (s : Book) : Prop extends Inv s where
  size : 0 < s.bufferSize
  fits : s.base + s.bufferSize * s.bufferCount ≤ wordSize
  covers : s.Covers
  owned : ∀ p ∈ s.live, ∃ i < s.bufferCount, p = s.base + i * s.bufferSize ∧ InMap s.bitmap i
  nodup : s.live.Nodup

variable {s s' : Book} {w : UInt32} {buffsz buffcnt addr i j : ℕ} {op : Op}

theorem covers_createPoolAt (hcnt : buffcnt ≤ 32 ∨ 32 ∣ buffcnt) :
    (createPoolAt buffsz buffcnt addr).Covers := by
  show buffcnt ≤ 32 * (replicate _ _).length
  rw [length_replicate]
  rcases hcnt with hle | ⟨k, rfl⟩
  · split <;> omega
  · rw [Nat.mul_div_cancel_left k (by decide)]
    split <;> omega

theorem Covers.word (h : s.Covers) (hi : i < s.bufferCount) : ∃ w, s.bitmap[i / 32]? = some w := by
  have hlt : i / 32 < s.bitmap.length := Nat.div_lt_of_lt_mul (lt_of_lt_of_le hi h)
  exact ⟨_, getElem?_eq_getElem hlt⟩

theorem Covers.allocWord (h : s.Covers) (hinv : Inv s) (hcount : s.allocCount ≠ s.bufferCount) :
    ∃ w, s.bitmap[s.allocCount / 32]? = some w :=
  h.word (lt_of_le_of_ne hinv.count hcount)

theorem bufferEnd_le (hi : i < s.bufferCount) :
    i * s.bufferSize + s.bufferSize ≤ s.bufferSize * s.bufferCount := by
  rw [← succ_mul, mul_comm]
  exact mul_le_mul_left _ hi

theorem Sound.bufferAddr (h : Sound s) (hi : i < s.bufferCount) :
    s.bufferAddr i = s.base + i * s.bufferSize := by
  have hend := bufferEnd_le hi
  have hsize := h.size
  have hfits := h.fits
  exact mod_eq_of_lt (by omega)

theorem sound_createPoolAt (hsize : 1 ≤ buffsz) (hcnt : buffcnt ≤ 32 ∨ 32 ∣ buffcnt)
    (hfits : addr + buffsz * buffcnt ≤ wordSize) : Sound (createPoolAt buffsz buffcnt addr) where
  toInv := inv_createPoolAt buffsz buffcnt addr
  size := hsize
  fits := hfits
  covers := covers_createPoolAt hcnt
  owned _ hp := absurd hp not_mem_nil
  nodup := nodup_nil

theorem Sound.separate (h : Sound s) : s.Separate := by
  refine ⟨h.nodup, ?_, fun p hp ↦ ?_⟩
  · refine List.Pairwise.imp_of_mem (fun {p q} hp hq hne ↦ ?_) h.nodup
    obtain ⟨i, hi, rfl, -⟩ := h.owned p hp
    obtain ⟨j, hj, rfl, -⟩ := h.owned q hq
    have hij : i ≠ j := fun hij ↦ hne (by rw [hij])
    rcases lt_or_gt_of_ne hij with hlt | hlt
    · have hmul := mul_le_mul_right s.bufferSize (succ_le_of_lt hlt)
      rw [succ_mul] at hmul
      exact .inl (by omega)
    · have hmul := mul_le_mul_right s.bufferSize (succ_le_of_lt hlt)
      rw [succ_mul] at hmul
      exact .inr (by omega)
  · obtain ⟨i, hi, rfl, -⟩ := h.owned p hp
    have hend := bufferEnd_le hi
    exact ⟨le_add_right _ _, by omega⟩

theorem Sound.findsBit (h : Sound s) : s.FindsBit := by
  intro hcount
  obtain ⟨w, hw⟩ := h.covers.allocWord h.toInv hcount
  obtain ⟨hbit, hclear, -⟩ := h.toInv.next_lt hcount hw
  rw [nextIdx, add_comm, inMap_word hbit] at hclear
  exact ⟨w, hw, hbit, fun hset ↦ hclear ⟨w, hw, hset⟩⟩

theorem Sound.index_inj (h : Sound s)
    (heq : s.base + i * s.bufferSize = s.base + j * s.bufferSize) : i = j :=
  eq_of_mul_eq_mul_right h.size (add_left_cancel heq)

theorem Sound.handOut (h : Sound s) (hcount : s.allocCount ≠ s.bufferCount)
    (hw : s.bitmap[s.allocCount / 32]? = some w) : Sound (s.handOut w) := by
  obtain ⟨hbit, hclear, -, hlt⟩ := h.toInv.next_lt hcount hw
  have haddr := h.bufferAddr hlt
  refine ⟨h.toInv.handOut hcount hw, h.size, h.fits, ?_, fun p hp ↦ ?_, ?_⟩
  · show s.bufferCount ≤ 32 * (s.bitmap.set _ _).length
    rw [length_set]
    exact h.covers
  · rcases mem_cons.mp hp with rfl | hp
    · exact ⟨_, hlt, haddr, (inMap_handOut hw hbit).mpr (.inr rfl)⟩
    · obtain ⟨i, hi, hpi, hmem⟩ := h.owned p hp
      exact ⟨i, hi, hpi, (inMap_handOut hw hbit).mpr (.inl hmem)⟩
  · refine nodup_cons.mpr ⟨fun hmem ↦ ?_, h.nodup⟩
    obtain ⟨i, -, hpi, hset⟩ := h.owned _ hmem
    rw [haddr] at hpi
    exact hclear (h.index_inj hpi ▸ hset)

theorem Sound.dealloc (h : Sound s) (hlive : addr ∈ s.live) :
    ∃ ret s', s.doPoolDealloc addr = some (ret, s') ∧ Sound s' := by
  obtain ⟨i, hi, rfl, hset⟩ := h.owned addr hlive
  have hidx : (s.base + i * s.bufferSize - s.base) / s.bufferSize = i := by
    rw [Nat.add_sub_cancel_left, Nat.mul_div_cancel _ h.size]
  obtain ⟨w, hw⟩ := h.covers.word hi
  have hcall : ∃ ret s', s.doPoolDealloc (s.base + i * s.bufferSize) = some (ret, s') := by
    simp only [doPoolDealloc, hidx, hw, if_neg h.size.ne', map_some]
    split
    · exact ⟨_, _, rfl⟩
    · exact ⟨_, _, rfl⟩
  obtain ⟨ret, s', hcall⟩ := hcall
  refine ⟨ret, s', hcall, ?_⟩
  have hinv := h.toInv.dealloc hcall
  rcases doPoolDealloc_cases hcall with rfl | ⟨-, w', hw', rfl⟩
  · exact ⟨hinv, h.size, h.fits, h.covers, fun p hp ↦ h.owned p (mem_of_mem_erase hp),
      h.nodup.erase _⟩
  · rw [hidx] at hinv hw' ⊢
    refine ⟨hinv, h.size, h.fits, ?_, fun p hp ↦ ?_, h.nodup.erase _⟩
    · show s.bufferCount ≤ 32 * (s.bitmap.set _ _).length
      rw [length_set]
      exact h.covers
    · obtain ⟨hne, hp⟩ := h.nodup.mem_erase_iff.mp hp
      obtain ⟨j, hj, rfl, hset'⟩ := h.owned p hp
      exact ⟨j, hj, rfl, (inMap_clear hw').mpr ⟨hset', fun hji ↦ hne (by rw [hji])⟩⟩

theorem Sound.step (h : Sound s) (hop : s.Allowed op) : ∃ s' ∈ s.step op, Sound s' := by
  cases op with
  | alloc =>
    by_cases hcount : s.allocCount = s.bufferCount
    · exact ⟨s, by rw [Book.step, poolAlloc, if_pos hcount]; rfl, h⟩
    · obtain ⟨w, hw⟩ := h.covers.allocWord h.toInv hcount
      exact ⟨s.handOut w, by rw [Book.step, poolAlloc, if_neg hcount, hw]; rfl, h.handOut hcount hw⟩
  | dealloc addr =>
    obtain ⟨ret, s', hcall, hs'⟩ := h.dealloc hop
    exact ⟨s', map_eq_some_iff.mpr ⟨_, hcall, rfl⟩, hs'⟩

/-- **Live buffers do not overlap** in a pool of at most 32 buffers, or of a multiple of 32, in
every run in which only live buffers are released. -/
theorem separate_of_released {buffsz buffcnt base : ℕ} (hsize : 1 ≤ buffsz)
    (hcnt : buffcnt ≤ 32 ∨ 32 ∣ buffcnt) (hfits : base + buffsz * buffcnt ≤ wordSize)
    {ops : List Op} (hops : Guarded step Allowed (createPoolAt buffsz buffcnt base) ops) :
    Always step (fun s ↦ s.Separate ∧ s.FindsBit) (createPoolAt buffsz buffcnt base) ops := by
  have hsound : Always step Sound (createPoolAt buffsz buffcnt base) ops :=
    always_of_guarded (fun s op hs hop ↦ hs.step hop) (sound_createPoolAt hsize hcnt hfits) hops
  exact hsound.mono fun s hs ↦ ⟨hs.separate, hs.findsBit⟩

def top : List Op := [.alloc, .alloc, .dealloc 0xFFFFE000, .alloc]

theorem separate_top :
    Always step (fun s ↦ s.Separate ∧ s.FindsBit) (createPoolAt 0x1000 2 0xFFFFE000) top :=
  separate_of_released (by decide) (.inl (by decide)) (by decide) (by decide)

/-- **Buffers of no size are not told apart.** -/
theorem not_separate_empty :
    ∃ s, Guarded step Allowed (createPoolAt 0 2 0xE0000000) [.alloc, .alloc] ∧
    exec step (createPoolAt 0 2 0xE0000000) [.alloc, .alloc] = some s ∧
      s.live = [0xE0000000, 0xE0000000] ∧ ¬ s.Separate := by
  have hend : (exec step (createPoolAt 0 2 0xE0000000) [.alloc, .alloc]).map Book.live =
      some [0xE0000000, 0xE0000000] := by decide
  obtain ⟨s, hs, hlive⟩ := map_eq_some_iff.mp hend
  refine ⟨s, by decide, hs, hlive, fun hsep ↦ ?_⟩
  have hnd := hsep.nodup
  rw [hlive] at hnd
  exact absurd hnd (by decide)

/-- `pool_alloc` succeeds if not all buffers are live, and `pool_count` is the number of live
buffers. -/
structure Counts (s : Book) : Prop where
  succeeds : s.live.length < s.bufferCount → ∃ a s', s.poolAlloc = some (a, s') ∧ a ≠ 0
  count : s.poolCount = s.live.length

structure Unreleased (s : Book) : Prop extends Inv s where
  covers : s.Covers
  full : ∀ i < s.allocCount, InMap s.bitmap i
  live : s.live.length = s.allocCount
  nonnull : ∀ i < s.bufferCount, s.bufferAddr i ≠ 0

theorem unreleased_createPoolAt (hcnt : buffcnt ≤ 32 ∨ 32 ∣ buffcnt)
    (hnull : ∀ i < buffcnt, (addr + i * buffsz) % wordSize ≠ 0) :
    Unreleased (createPoolAt buffsz buffcnt addr) where
  toInv := inv_createPoolAt buffsz buffcnt addr
  covers := covers_createPoolAt hcnt
  full i hi := absurd hi (not_lt_zero i)
  live := rfl
  nonnull := hnull

theorem Unreleased.counts (h : Unreleased s) : s.Counts where
  succeeds hlt := by
    have hcount : s.allocCount ≠ s.bufferCount := by
      rw [← h.live]
      exact hlt.ne
    obtain ⟨w, hw⟩ := h.covers.allocWord h.toInv hcount
    exact ⟨_, _, by rw [poolAlloc, if_neg hcount, hw]; rfl,
      h.nonnull _ (h.toInv.next_lt hcount hw).2.2.2⟩
  count := h.live.symm

theorem Unreleased.handOut (h : Unreleased s) (hcount : s.allocCount ≠ s.bufferCount)
    (hw : s.bitmap[s.allocCount / 32]? = some w) : Unreleased (s.handOut w) := by
  obtain ⟨hbit, hclear, hle, -⟩ := h.toInv.next_lt hcount hw
  have hnext : s.nextIdx w = s.allocCount :=
    le_antisymm hle (Nat.le_of_not_lt fun hlt ↦ hclear (h.full _ hlt))
  refine ⟨h.toInv.handOut hcount hw, ?_, fun i hi ↦ ?_, ?_, h.nonnull⟩
  · show s.bufferCount ≤ 32 * (s.bitmap.set _ _).length
    rw [length_set]
    exact h.covers
  · rw [inMap_handOut hw hbit, hnext]
    rcases Nat.lt_succ_iff_lt_or_eq.mp hi with hi | hi
    · exact .inl (h.full i hi)
    · exact .inr hi
  · exact congrArg (· + 1) h.live

theorem Unreleased.alloc (h : Unreleased s) : ∃ s' ∈ s.step .alloc, Unreleased s' := by
  by_cases hcount : s.allocCount = s.bufferCount
  · exact ⟨s, by rw [Book.step, poolAlloc, if_pos hcount]; rfl, h⟩
  · obtain ⟨w, hw⟩ := h.covers.allocWord h.toInv hcount
    exact ⟨s.handOut w, by rw [Book.step, poolAlloc, if_neg hcount, hw]; rfl, h.handOut hcount hw⟩

theorem Counts.not_dealloc (h : s.Counts) (hlive : addr ∈ s.live)
    (hs : s.step (.dealloc addr) = some s') : ¬ s'.Counts := by
  intro hs'
  obtain ⟨⟨ret, s1⟩, hcall, rfl⟩ := map_eq_some_iff.mp hs
  have hfixed : s1.poolCount = s.poolCount ∧ s1.live = s.live.erase addr := by
    rcases doPoolDealloc_cases hcall with rfl | ⟨-, w, -, rfl⟩
    · exact ⟨rfl, rfl⟩
    · exact ⟨rfl, rfl⟩
  have hbefore := h.count
  have hafter := hs'.count
  have hpos := length_pos_of_mem hlive
  simp only [hfixed.1, hfixed.2, length_erase_of_mem hlive] at hafter
  omega

/-- **The count is right as long as nothing is released**, and only so long. -/
theorem counts_iff_kept {buffsz buffcnt base : ℕ} (hcnt : buffcnt ≤ 32 ∨ 32 ∣ buffcnt)
    (hnull : ∀ i < buffcnt, (base + i * buffsz) % wordSize ≠ 0) {ops : List Op}
    (hops : Guarded step Allowed (createPoolAt buffsz buffcnt base) ops) :
    Always step Counts (createPoolAt buffsz buffcnt base) ops ↔
      Guarded step (fun _ op ↦ op = .alloc) (createPoolAt buffsz buffcnt base) ops := by
  constructor
  · refine guarded_of_always (fun s op s' hs hop hs' hcounts ↦ ?_) hops
    cases op with
    | alloc => rfl
    | dealloc addr => exact absurd hcounts (hs.not_dealloc hop hs')
  · intro hkept
    have hstart : Unreleased (createPoolAt buffsz buffcnt base) :=
        unreleased_createPoolAt hcnt hnull
    refine (always_of_guarded (fun s op hs hop ↦ ?_) hstart hkept).mono fun s hs ↦ hs.counts
    subst hop
    exact hs.alloc

theorem counts_iff_kept_two :
    Always step Counts (createPoolAt 0x1000 2 0xE0000000) [.alloc, .alloc] := by
  refine (counts_iff_kept (.inl (by decide)) (fun i hi ↦ ?_) (by decide)).mpr (by decide)
  have hlt : 0xE0000000 + i * 0x1000 < wordSize := by
    show _ < 4294967296
    omega
  rw [mod_eq_of_lt hlt]
  omega

/-- **A released buffer is not available again**: none is live, and `pool_alloc` fails. -/
theorem not_counts_released : ∃ s,
    Guarded step Allowed (createPoolAt 0x1000 1 0xE0000000) [.alloc, .dealloc 0xE0000000] ∧
      exec step (createPoolAt 0x1000 1 0xE0000000) [.alloc, .dealloc 0xE0000000] = some s ∧
      s.live = [] ∧ s.poolCount = 1 ∧ s.poolAlloc = some (0, s) ∧ ¬ s.Counts := by
  have hend : (exec step (createPoolAt 0x1000 1 0xE0000000) [.alloc, .dealloc 0xE0000000]).map
      (fun s ↦ (s.live, s.allocCount, s.bufferCount)) = some ([], 1, 1) := by decide
  obtain ⟨s, hs, hend⟩ := map_eq_some_iff.mp hend
  simp only [Prod.mk.injEq] at hend
  obtain ⟨hlive, halloc, hbuffers⟩ := hend
  refine ⟨s, by decide, hs, hlive, halloc, ?_, fun hcounts ↦ ?_⟩
  · rw [poolAlloc, if_pos (halloc.trans hbuffers.symm)]
  · have hcount := hcounts.count
    rw [hlive] at hcount
    exact absurd (halloc.symm.trans hcount) (by decide)

end Book
end ForgeOS.Pool
