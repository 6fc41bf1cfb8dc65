import ForgeOS.Pool.Mapped

/-!
# A pool anywhere in the address space, with the page tables

`Pool.Paged` is the bookkeeping of any pool (`Pool.Book`) next to the page tables.
-/

namespace ForgeOS.Pool

open List Option UInt32

structure Paged where
  book : Book
  vmem : Vmem

namespace Paged

def pages (s : Paged) : ℕ := (s.book.bufferSize + 0xFFF) / 0x1000

/-- Memory is mapped for the buffer at `addr`, unless its first page is. -/
def mapBuffer (vmem : Vmem) (addr n : ℕ) (frames : ℕ → UInt64 × UInt64) : Option Vmem := do
  let mapped ← vmem.archVmemIsmapped (ofNat addr)
  if mapped then some vmem else Run.exec Vmem.step vmem (maps addr n frames)

def poolAlloc (s : Paged) (frames : ℕ → UInt64 × UInt64) : Option (ℕ × Paged) :=
  if s.book.allocCount = s.book.bufferCount then some (0, s)
  else do
    let (addr, book) ← s.book.poolAlloc
    let vmem ← mapBuffer s.vmem addr s.pages frames
    some (addr, ⟨book, vmem⟩)

def poolDeallocAndFree (s : Paged) (addr : ℕ) : Option Paged := do
  let (ret, book) ← s.book.doPoolDealloc addr
  if ret ≥ 0 then do
    let vmem ← unmapLoop s.pages 0 addr s.vmem
    some ⟨book, vmem⟩
  else some ⟨book, s.vmem⟩

end Paged

def paged (s : Pool) : Paged := ⟨s.book, s.vmem⟩

variable {s s' : Pool} {frames : ℕ → UInt64 × UInt64}

theorem poolAlloc_paged (h : s.book.Inv) {a : ℕ} (hcall : s.poolAlloc frames = some (a, s')) :
    s.paged.poolAlloc frames = some (a, s'.paged) := by
  have hbook : s.paged.book.poolAlloc = some (a, s'.book) := book_poolAlloc h hcall
  rw [poolAlloc] at hcall
  split at hcall
  · next hcount =>
    cases hcall
    exact if_pos hcount
  · next hcount =>
    obtain ⟨w, hw, hcall⟩ := bind_eq_some_iff.mp hcall
    obtain ⟨mapped, hmapped, hcall⟩ := bind_eq_some_iff.mp hcall
    have hmap : Paged.mapBuffer s.vmem a s.pages frames = some s'.vmem := by
      dsimp only at hcall
      split at hcall
      · next hnot =>
        obtain ⟨vmem, hvmem, hcall⟩ := bind_eq_some_iff.mp hcall
        cases hcall
        simp only [Paged.mapBuffer, hmapped, bind_eq_bind, bind_some, if_neg hnot, hvmem]
      · next hyes =>
        cases hcall
        simp only [Paged.mapBuffer, hmapped, bind_eq_bind, bind_some,
          if_pos (not_not.mp hyes)]
    have hcount' : s.paged.book.allocCount ≠ s.paged.book.bufferCount := hcount
    rw [Paged.poolAlloc, if_neg hcount', hbook]
    refine bind_eq_some_iff.mpr ⟨_, rfl, bind_eq_some_iff.mpr ⟨s'.vmem, hmap, rfl⟩⟩

theorem poolDeallocAndFree_paged {addr : ℕ} (hcall : s.poolDeallocAndFree addr = some s') :
    s.paged.poolDeallocAndFree addr = some s'.paged := by
  obtain ⟨⟨ret, s1⟩, hdealloc, hcall⟩ := bind_eq_some_iff.mp hcall
  have hsame : s1.vmem = s.vmem ∧ s1.pages = s.pages := by
    simp only [doPoolDealloc] at hdealloc
    split at hdealloc
    · cases hdealloc
      exact ⟨rfl, rfl⟩
    split at hdealloc
    · cases hdealloc
    · obtain ⟨w, -, hdealloc⟩ := bind_eq_some_iff.mp hdealloc
      cases hdealloc
      exact ⟨rfl, rfl⟩
  refine bind_eq_some_iff.mpr ⟨_, book_doPoolDealloc hdealloc, ?_⟩
  dsimp only at hcall ⊢
  split at hcall
  · next hret =>
    obtain ⟨vmem, hvmem, hcall⟩ := bind_eq_some_iff.mp hcall
    cases hcall
    rw [hsame.1, hsame.2] at hvmem
    rw [if_pos hret]
    exact bind_eq_some_iff.mpr ⟨vmem, hvmem, rfl⟩
  · next hret =>
    cases hcall
    rw [if_neg hret]
    show some (⟨s'.book, s.vmem⟩ : Paged) = some ⟨s'.book, s'.vmem⟩
    rw [hsame.1]

namespace Paged

open Bits Vmem

theorem mapBuffer_one {vmem : Vmem} (hwf : Vmem.WF vmem) {addr : ℕ} (hlow : addr < 0xFFC00000)
    (hframes : vmem.archVmemIsmapped (ofNat addr) = some true ∨
      ((frames 0).1 ≠ 0 ∧ IsFrame (frames 0).1) ∧ (frames 0).2 ≠ 0 ∧ vmem.Unused (frames 0).2) :
    ∃ vmem', mapBuffer vmem addr 1 frames = some vmem' ∧ Vmem.WF vmem' ∧
      (vmem'.lookup (page (ofNat addr))).isSome ∧
      (∀ pg, (vmem.lookup pg).isSome → (vmem'.lookup pg).isSome) ∧
      (vmem.archVmemIsmapped (ofNat addr) = some true → vmem' = vmem) := by
  cases hmapped : (vmem.lookup (page (ofNat addr))).isSome with
  | true =>
    have hans : vmem.archVmemIsmapped (ofNat addr) = some true := by
      rw [hwf.archVmemIsmapped, hmapped]
    exact ⟨vmem, by rw [mapBuffer, hans]; rfl, hwf, hmapped, fun _ hpg ↦ hpg, fun _ ↦ rfl⟩
  | false =>
    have hans : vmem.archVmemIsmapped (ofNat addr) = some false := by
      rw [hwf.archVmemIsmapped, hmapped]
    obtain ⟨hpage, htable, hunused⟩ := hframes.resolve_left (by simp [hans])
    have hv : ofNat (addr + 0 * 0x1000) < 0xFFC00000 := by
      rw [lt_iff_toNat_lt, Nat.zero_mul, Nat.add_zero,
        toNat_ofNat_of_lt' (hlow.trans (by decide))]
      exact hlow
    have hg : Run.Guarded Vmem.step Vmem.Allowed vmem (maps addr 1 frames) :=
      ⟨⟨hv, .inr rfl, fun _ _ ↦ hpage, fun _ ↦ hunused⟩, fun _ _ ↦ trivial⟩
    obtain ⟨vmem', hexec, hwf', hspace⟩ := exec_refines hwf hg
    have hlookup : ∀ pg, vmem'.lookup pg = ((maps addr 1 frames).foldl Space.step vmem.space).frame pg :=
      fun pg ↦ hspace ▸ rfl
    refine ⟨vmem', by rw [mapBuffer, hans]; exact hexec, hwf', ?_, fun pg hpg ↦ ?_, fun hyes ↦ ?_⟩
    · rw [hlookup]
      refine isSome_maps (.inr ⟨0, Nat.one_pos, htable, ?_⟩)
      rw [Nat.zero_mul, Nat.add_zero]
    · rw [hlookup]
      exact isSome_maps (.inl hpg)
    · simp [hans] at hyes

variable {s : Paged} {base total n : ℕ}

structure Stocked (base total : ℕ) (s : Paged) (n : ℕ) : Prop where
  wf : Vmem.WF s.vmem
  inv : s.book.Inv
  full : ∀ i < s.book.allocCount, InMap s.book.bitmap i
  size : s.book.bufferSize = 0x1000
  base_eq : s.book.base = base
  total_eq : s.book.bufferCount = total
  count : s.book.allocCount = n
  low : base + n * 0x1000 ≤ 0xFFC00000 ∨ n = 0
  mapped : ∀ i < n, (s.vmem.lookup (page (ofNat (base + i * 0x1000)))).isSome

theorem stocked_createPoolAt {vmem : Vmem} (hwf : Vmem.WF vmem) (base total : ℕ) :
    Stocked base total ⟨.createPoolAt 0x1000 total base, vmem⟩ 0 where
  wf := hwf
  inv := Book.inv_createPoolAt 0x1000 total base
  full i hi := absurd hi (Nat.not_lt_zero i)
  size := rfl
  base_eq := rfl
  total_eq := rfl
  count := rfl
  low := .inr rfl
  mapped i hi := absurd hi (Nat.not_lt_zero i)

theorem Stocked.poolAlloc (h : Stocked base total s n) (hn : n ≠ total)
    (hword : n / 32 < s.book.bitmap.length) (hlow : base + (n + 1) * 0x1000 ≤ 0xFFC00000)
    (hframes : s.vmem.archVmemIsmapped (ofNat (base + n * 0x1000)) = some true ∨
      ((frames 0).1 ≠ 0 ∧ IsFrame (frames 0).1) ∧ (frames 0).2 ≠ 0 ∧ s.vmem.Unused (frames 0).2) :
    ∃ s', s.poolAlloc frames = some (base + n * 0x1000, s') ∧ Stocked base total s' (n + 1) ∧
      s'.book.bitmap.length = s.book.bitmap.length ∧
      (s.vmem.archVmemIsmapped (ofNat (base + n * 0x1000)) = some true → s'.vmem = s.vmem) := by
  have hcount := h.count
  have hsize := h.size
  have hbase := h.base_eq
  have htotal := h.total_eq
  have hne : s.book.allocCount ≠ s.book.bufferCount := by rwa [hcount, htotal]
  obtain ⟨w, hw⟩ : ∃ w, s.book.bitmap[s.book.allocCount / 32]? = some w := by
    rw [hcount]
    exact ⟨_, getElem?_eq_getElem hword⟩
  obtain ⟨hbit, hclear, hle, -⟩ := h.inv.next_lt hne hw
  have hnext : s.book.nextIdx w = n := by
    rw [← hcount]
    exact Nat.le_antisymm hle (Nat.le_of_not_lt fun hlt ↦ hclear (h.full _ hlt))
  have haddr : s.book.bufferAddr (s.book.nextIdx w) = base + n * 0x1000 := by
    rw [hnext, Book.bufferAddr, hbase, hsize]
    refine Nat.mod_eq_of_lt ?_
    show _ < 4294967296
    omega
  have hpages : s.pages = 1 := by rw [pages, hsize]
  obtain ⟨vmem', hmap, hwf', hnew, hkeep, hsame⟩ :=
    mapBuffer_one h.wf (show base + n * 0x1000 < 0xFFC00000 by omega) hframes
  refine ⟨⟨s.book.handOut w, vmem'⟩, ?_, ?_, length_set, hsame⟩
  · rw [Paged.poolAlloc, if_neg hne, Book.poolAlloc, if_neg hne, hw, map_some, haddr, hpages]
    simp only [bind_eq_bind, bind_some, hmap]
  · refine ⟨hwf', h.inv.handOut hne hw, fun i hi ↦ ?_, hsize, hbase, htotal, ?_, .inl hlow,
      fun i hi ↦ ?_⟩
    · rw [Book.inMap_handOut hw hbit, hnext]
      rcases Nat.lt_succ_iff_lt_or_eq.mp hi with hi | hi
      · exact .inl (h.full i hi)
      · exact .inr (hi.trans hcount)
    · exact congrArg (· + 1) hcount
    · rcases Nat.lt_succ_iff_lt_or_eq.mp hi with hi | rfl
      · exact hkeep _ (h.mapped i hi)
      · exact hnew

end Paged

end ForgeOS.Pool
