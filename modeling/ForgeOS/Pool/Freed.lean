import ForgeOS.Pool.Mapped

/-!
# What freeing a buffer frees

`pool_dealloc_and_free` adds the number of the turn to an address that has moved already, so it
comes to the pages 0, 0, 1, 3, 6, ... of the buffer, and the second time the answer 0 of
`arch_vmem_v2p` goes to `pmem_dealloc`.

The main result is `frees_iff`.
-/

namespace ForgeOS

open Function Option UInt32 Run

namespace Pool

open Bits Vmem

/-- The loop of `pool_dealloc_and_free`, with the calls of `pmem_dealloc`: each is given by the page
that the address is on, and the argument. -/
def freeLoop : ℕ → ℕ → ℕ → Vmem → Option (List (Page × UInt64) × Vmem)
  | 0, _, _, vmem => some ([], vmem)
  | k + 1, i, addr, vmem => do
    let phys ← vmem.archVmemV2p (ofNat addr)
    let vmem ← vmem.archVmemUnmap (ofNat addr)
    let (calls, vmem) ← freeLoop k (i + 1) (addr + i * 0x1000) vmem
    some ((page (ofNat addr), phys) :: calls, vmem)

/-- `pool_dealloc_and_free`, with the calls of `pmem_dealloc`. -/
def freed (s : Pool) (addr : ℕ) : Option (List (Page × UInt64) × Pool) := do
  let (ret, s) ← s.doPoolDealloc addr
  if ret ≥ 0 then do
    let (calls, vmem) ← freeLoop s.pages 0 addr s.vmem
    some (calls, { s with vmem := vmem })
  else some ([], s)

def pagesAt (s : Pool) (addr : ℕ) : List Page :=
  (List.range s.pages).map fun i ↦ page (ofNat (addr + i * 0x1000))

def mappings (s : Pool) (addr : ℕ) : List (Page × UInt64) :=
  (s.pagesAt addr).filterMap fun pg ↦ (s.vmem.lookup pg).map fun f ↦ (pg, f.toUInt64)

/-- **What freeing a buffer should do.**  The pages of the buffer are not mapped afterwards, and
`pmem_dealloc` has been called once for each page, with the frame that was mapped there, and for
nothing else. -/
def Frees (s : Pool) (addr : ℕ) : Prop :=
  ∃ calls s', s.freed addr = some (calls, s') ∧ (∀ pg ∈ s.pagesAt addr, s'.vmem.lookup pg = none) ∧
    calls.Perm (s.mappings addr)

def OnePage (s : Pool) (addr : ℕ) : Prop :=
  0 < s.bufferSize ∧ s.bufferSize ≤ 0x1000 ∧ addr % 0x1000 = 0 ∧ s.IsMapped addr

variable {s s' : Pool} {vmem : Vmem} {addr i k : ℕ}

variable {calls : List (Page × UInt64)}

theorem map_freeLoop (k i addr : ℕ) (vmem : Vmem) :
    (freeLoop k i addr vmem).map Prod.snd = unmapLoop k i addr vmem := by
  induction k generalizing i addr vmem with
  | zero => rfl
  | succ k ih =>
    rw [freeLoop, unmapLoop, bind_eq_bind, bind_eq_bind, map_bind]
    refine bind_congr fun phys _ ↦ ?_
    rw [comp_apply, bind_eq_bind, bind_eq_bind, map_bind]
    refine bind_congr fun vmem' _ ↦ ?_
    rw [comp_apply, ← ih]
    cases freeLoop k (i + 1) (addr + i * 0x1000) vmem' <;> rfl

/-- Apart from the calls, this is the function of the model. -/
theorem map_freed (s : Pool) (addr : ℕ) :
    (s.freed addr).map Prod.snd = s.poolDeallocAndFree addr := by
  rw [freed, poolDeallocAndFree, bind_eq_bind, bind_eq_bind, map_bind]
  refine bind_congr ?_
  rintro ⟨ret, s⟩ -
  simp only [comp_apply, ← map_freeLoop]
  split
  · cases freeLoop s.pages 0 addr s.vmem <;> rfl
  · rfl

theorem freeLoop_length {vmem' : Vmem}
    (hloop : freeLoop k i addr vmem = some (calls, vmem')) : calls.length = k := by
  induction k generalizing i addr vmem calls with
  | zero =>
    cases hloop
    rfl
  | succ k ih =>
    obtain ⟨a, -, hloop⟩ := bind_eq_some_iff.mp hloop
    obtain ⟨vmem1, -, hloop⟩ := bind_eq_some_iff.mp hloop
    obtain ⟨⟨rest, _⟩, hrest, heq⟩ := bind_eq_some_iff.mp hloop
    cases heq
    exact congrArg (· + 1) (ih hrest)

theorem freeLoop_twice {vmem' : Vmem} (hloop : freeLoop (k + 2) 0 addr vmem = some (calls, vmem')) :
    ∃ a b rest, calls = (page (ofNat addr), a) :: (page (ofNat addr), b) :: rest := by
  obtain ⟨a, -, hloop⟩ := bind_eq_some_iff.mp hloop
  obtain ⟨vmem1, -, hloop⟩ := bind_eq_some_iff.mp hloop
  obtain ⟨⟨calls1, _⟩, hloop1, heq⟩ := bind_eq_some_iff.mp hloop
  obtain ⟨b, -, hloop1⟩ := bind_eq_some_iff.mp hloop1
  obtain ⟨vmem2, -, hloop1⟩ := bind_eq_some_iff.mp hloop1
  obtain ⟨⟨rest, _⟩, -, heq1⟩ := bind_eq_some_iff.mp hloop1
  cases heq
  cases heq1
  rw [Nat.zero_mul, Nat.add_zero]
  exact ⟨a, b, rest, rfl⟩

theorem freeLoop_one (hwf : Vmem.WF vmem) (haddr : addr < 0xFFC00000) {f : UInt32}
    (hf : vmem.lookup (page (ofNat addr)) = some f) :
    ∃ vmem', vmem'.lookup (page (ofNat addr)) = none ∧ freeLoop 1 0 addr vmem =
      some ([(page (ofNat addr), f.toUInt64 ||| (ofNat addr &&& 0xFFF).toUInt64)],
        vmem') := by
  obtain ⟨vmem', hunmap, -, hspace⟩ := archVmemUnmap_spec hwf (allowed_unmap haddr)
  have hlookup : vmem'.lookup = vmem'.space.frame := rfl
  refine ⟨vmem', ?_, ?_⟩
  · rw [hlookup, hspace]
    exact update_self ..
  · simp only [freeLoop, hwf.archVmemV2p hf, hunmap, bind_eq_bind, bind_some]

theorem lookup_low {pg : Page} {f : UInt32} (hf : vmem.lookup pg = some f) : f &&& 0xFFF = 0 := by
  rw [lookup] at hf
  split at hf
  · cases hf
    exact frameOf_and (by decide)
  · cases hf

theorem or_offset_eq_iff {f v : UInt32} (hf : f &&& 0xFFF = 0) :
    f.toUInt64 ||| (v &&& 0xFFF).toUInt64 = f.toUInt64 ↔ v.toNat % 0x1000 = 0 := by
  have hoffset : (v &&& 0xFFF).toNat = v.toNat % 0x1000 := by
    rw [UInt32.toNat_and]
    exact Nat.and_two_pow_sub_one_eq_mod v.toNat 12
  rw [← toUInt64_or, toUInt64_inj, ← hoffset]
  refine ⟨fun heq ↦ ?_, fun hzero ↦ ?_⟩
  · have hlow : (f ||| v &&& 0xFFF) &&& 0xFFF = f &&& 0xFFF := by rw [heq]
    rw [and_or_distrib_right, hf, UInt32.zero_or, UInt32.and_assoc, UInt32.and_self] at hlow
    rw [hlow]
    rfl
  · rw [UInt32.toNat_inj.mp (hzero.trans UInt32.toNat_zero.symm), UInt32.or_zero]

namespace Book

def Numbered (s : Book) : Prop :=
  ∀ p ∈ s.live, ∃ i < s.bufferCount, p = s.bufferAddr i ∧ i / 32 < s.bitmap.length

variable {s s' : Book} {w : UInt32} {op : Op}

theorem Numbered.mono (h : s.Numbered) (hsame : SamePool s s') (hlive : ∀ p ∈ s'.live, p ∈ s.live) :
    s'.Numbered := by
  intro p hp
  obtain ⟨i, hi, hpi, hword⟩ := h p (hlive p hp)
  refine ⟨i, hsame.bufferCount ▸ hi, ?_, hsame.words ▸ hword⟩
  rw [hpi, bufferAddr, bufferAddr, hsame.base, hsame.bufferSize]

theorem Numbered.step (hinv : s.Inv) (h : s.Numbered) (hs : s.step op = some s') : s'.Numbered := by
  have hsame := samePool_step hs
  cases op with
  | alloc =>
    obtain ⟨⟨a, s1⟩, hcall, rfl⟩ := map_eq_some_iff.mp hs
    rcases poolAlloc_cases hcall with ⟨-, -, rfl⟩ | ⟨hcount, w, hw, -, rfl⟩
    · exact h
    intro p hp
    rcases List.mem_cons.mp hp with rfl | hp
    · obtain ⟨hbit, -, -, hlt⟩ := hinv.next_lt hcount hw
      have hword : s.nextIdx w / 32 = s.allocCount / 32 := by
        rw [nextIdx]
        omega
      refine ⟨s.nextIdx w, hlt, rfl, ?_⟩
      rw [hsame.words, hword]
      exact (List.getElem?_eq_some_iff.mp hw).1
    · have hold : { s.handOut w with live := s.live }.Numbered :=
        h.mono ⟨rfl, rfl, rfl, hsame.words⟩ fun p hp ↦ hp
      exact hold p hp
  | dealloc addr =>
    obtain ⟨⟨ret, s1⟩, hcall, rfl⟩ := map_eq_some_iff.mp hs
    refine h.mono hsame fun p hp ↦ ?_
    rcases doPoolDealloc_cases hcall with rfl | ⟨-, w, -, rfl⟩
    · exact List.mem_of_mem_erase hp
    · exact List.mem_of_mem_erase hp

theorem numbered_run (hinv : s.Inv) (h : s.Numbered) {ops : List Op}
    (hs : exec step s ops = some s') : s'.Numbered := by
  have hstep : ∀ (s : Book) op t, s.Inv ∧ s.Numbered → s.step op = some t → t.Inv ∧ t.Numbered :=
    fun s op t h ht ↦ ⟨h.1.step ht, h.2.step h.1 ht⟩
  exact (inv_of_exec hstep ⟨hinv, h⟩ hs).2

end Book

theorem live_run {buffsz buffcnt base : ℕ} {hfits : base + buffsz * buffcnt ≤ 0xFFC00000}
    {ops : List Op} (hexec : exec step (createPoolAt buffsz buffcnt base vmem hfits) ops = some s)
    (haddr : addr ∈ s.live) :
    ∃ i < s.bufferCount, addr = s.base + i * s.bufferSize ∧ i / 32 < s.bitmap.length := by
  have hinv := Book.inv_createPoolAt buffsz buffcnt base
  have hnew : (Book.createPoolAt buffsz buffcnt base).Numbered :=
    fun p hp ↦ absurd hp List.not_mem_nil
  have hbook := exec_book (s := createPoolAt buffsz buffcnt base vmem hfits) hinv hexec
  obtain ⟨i, hi, hpi, hword⟩ := Book.numbered_run hinv hnew hbook addr haddr
  exact ⟨i, hi, hpi.trans (bufferAddr_book hi), hword⟩

theorem Inv.step_of_pages (h : Inv s) (hpages : s.pages ≤ 1) {op : Op} (hallowed : s.Allowed op)
    (hstep : s.step op = some s') : Inv s' := by
  cases op with
  | alloc frames =>
    rcases h.alloc_cases hallowed hstep with rfl | ⟨hcount, w, vmem, hw, rfl, hwf, -⟩
    · exact h
    · exact h.handOut hcount hw hwf
  | dealloc addr =>
    obtain ⟨⟨ret, s1⟩, hcall, rfl⟩ := map_eq_some_iff.mp hstep
    exact (h.dealloc hcall).1
  | deallocAndFree addr =>
    obtain ⟨⟨ret, s1⟩, hcall, hloop⟩ := bind_eq_some_iff.mp hstep
    obtain ⟨hinv, -, -, hsize⟩ := h.dealloc hcall
    dsimp only at hloop
    split at hloop
    next =>
      obtain ⟨vmem, hunmap, heq⟩ := bind_eq_some_iff.mp hloop
      obtain rfl := some.inj heq
      refine (hinv.unmap hunmap fun j hj ↦ ?_).1
      have hpages1 : s1.pages = s.pages := by rw [pages, hsize, pages]
      obtain rfl : j = 0 := by omega
      have hpos : 0 < s.bufferSize := by
        rw [hpages1, pages] at hj
        omega
      exact h.live_lt hallowed hpos
    next =>
      obtain rfl := some.inj hloop
      exact hinv

theorem buffer_inside (hi : i < s.bufferCount) :
    ¬ (s.base + i * s.bufferSize < s.base ∨
      s.base + i * s.bufferSize > s.base + s.bufferSize * s.bufferCount) := by
  have hmul : i * s.bufferSize ≤ s.bufferSize * s.bufferCount := by
    rw [Nat.mul_comm]
    exact Nat.mul_le_mul_left _ hi.le
  omega

theorem freed_buffer (hsize : 0 < s.bufferSize) (hi : i < s.bufferCount)
    (hword : i / 32 < s.bitmap.length) :
    ∃ s1 : Pool, s.freed (s.base + i * s.bufferSize) =
      (freeLoop s.pages 0 (s.base + i * s.bufferSize) s.vmem).map fun r ↦
        (r.1, { s1 with vmem := r.2 }) := by
  have hidx : (s.base + i * s.bufferSize - s.base) / s.bufferSize = i := by
    rw [Nat.add_sub_cancel_left, Nat.mul_div_cancel _ hsize]
  have hcall : ∃ s1 : Pool, s.doPoolDealloc (s.base + i * s.bufferSize) = some (0, s1) ∧
      s1.vmem = s.vmem ∧ s1.pages = s.pages := by
    simp only [doPoolDealloc, hidx, List.getElem?_eq_getElem hword, if_neg hsize.ne',
      if_neg (buffer_inside hi)]
    exact ⟨_, rfl, rfl, rfl⟩
  obtain ⟨s1, hcall, hvmem, hpages⟩ := hcall
  refine ⟨s1, ?_⟩
  simp only [freed, hcall, hvmem, hpages, bind_eq_bind, bind_some, ge_iff_le, le_refl,
    if_true, map_eq_bind]
  rfl

theorem not_frees_of_empty (hsize : s.bufferSize = 0) (hi : i < s.bufferCount) :
    ¬ s.Frees (s.base + i * s.bufferSize) := by
  rintro ⟨calls, s', hcall, -⟩
  obtain ⟨r, hdealloc, -⟩ := bind_eq_some_iff.mp hcall
  simp only [doPoolDealloc, if_neg (buffer_inside hi), if_pos hsize] at hdealloc
  cases hdealloc

theorem nodup_pagesAt (hend : addr + s.pages * 0x1000 ≤ 2 ^ 32) : (s.pagesAt addr).Nodup := by
  refine List.Nodup.map_on (fun i hi j hj heq ↦ ?_) List.nodup_range
  rw [List.mem_range] at hi hj
  rw [page_ofNat_eq_iff (by omega) (by omega)] at heq
  omega

theorem nodup_mappings (hnd : (s.pagesAt addr).Nodup) : ((s.mappings addr).map Prod.fst).Nodup := by
  rw [mappings, List.map_filterMap]
  refine hnd.filterMap fun pg pg' x hx hx' ↦ ?_
  simp only [map_map, mem_def, map_eq_some_iff, comp_apply] at hx hx'
  obtain ⟨-, -, rfl⟩ := hx
  obtain ⟨-, -, heq⟩ := hx'
  exact heq.symm

theorem not_frees_of_pages (hpages : 2 ≤ s.pages) (hi : i < s.bufferCount)
    (hword : i / 32 < s.bitmap.length) : ¬ s.Frees (s.base + i * s.bufferSize) := by
  have hsize : 0x1000 < s.bufferSize := by
    rw [pages] at hpages
    omega
  obtain ⟨k, hk⟩ := Nat.exists_eq_add_of_le' hpages
  obtain ⟨s1, hfreed⟩ := freed_buffer (by omega) hi hword
  rintro ⟨calls, s', hcall, -, hperm⟩
  rw [hfreed, hk] at hcall
  obtain ⟨⟨calls, vmem'⟩, hloop, heq⟩ := map_eq_some_iff.mp hcall
  obtain ⟨a, b, rest, hcalls⟩ := freeLoop_twice hloop
  cases heq
  have hend : s.base + i * s.bufferSize + s.pages * 0x1000 ≤ 2 ^ 32 := by
    have hlast := addr_lt (k := s.bufferSize - 1) hi (by omega)
    rw [pages]
    omega
  have hnd := (hperm.map Prod.fst).nodup_iff.mpr (nodup_mappings (nodup_pagesAt hend))
  rw [hcalls] at hnd
  exact (List.nodup_cons.mp hnd).1 List.mem_cons_self

theorem frees_iff_of_pages (hwf : Vmem.WF s.vmem) (hpages : s.pages = 1) (hi : i < s.bufferCount)
    (hword : i / 32 < s.bitmap.length) :
    s.Frees (s.base + i * s.bufferSize) ↔
      (s.base + i * s.bufferSize) % 0x1000 = 0 ∧ s.IsMapped (s.base + i * s.bufferSize) := by
  have hsize : 0 < s.bufferSize := by
    rw [pages] at hpages
    omega
  obtain ⟨s1, hfreed⟩ := freed_buffer hsize hi hword
  have hlow := addr_lt hi hsize
  generalize s.base + i * s.bufferSize = addr at *
  have hpagesAt : s.pagesAt addr = [page (ofNat addr)] := by
    rw [pagesAt, hpages]
    rfl
  rw [isMapped_iff hwf, Frees, mappings, hpagesAt, hfreed, hpages]
  cases hf : s.vmem.lookup (page (ofNat addr)) with
  | none =>
    -- There is no frame, but there is a call.
    refine iff_of_false ?_ fun hand ↦ absurd hand.2 Bool.false_ne_true
    rintro ⟨calls, s', hcall, -, hperm⟩
    obtain ⟨⟨calls, vmem'⟩, hloop, heq⟩ := map_eq_some_iff.mp hcall
    cases heq
    have hlength := hperm.length_eq.symm.trans (freeLoop_length hloop)
    rw [List.filterMap_cons, hf] at hlength
    cases hlength
  | some f =>
    obtain ⟨vmem', hnone, hloop⟩ := freeLoop_one hwf hlow hf
    have hmod : (ofNat addr).toNat % 0x1000 = addr % 0x1000 := by
      rw [toNat_ofNat']
      omega
    rw [hloop, map_some, List.filterMap_cons, hf, map_some, List.filterMap_nil,
      ← hmod, ← or_offset_eq_iff (lookup_low hf)]
    refine ⟨?_, fun hand ↦ ?_⟩
    · rintro ⟨calls, s', hcall, -, hperm⟩
      cases hcall
      exact ⟨(Prod.mk.inj (List.singleton_perm_singleton.mp hperm)).2, rfl⟩
    · refine ⟨_, _, rfl, fun pg hpg ↦ ?_, ?_⟩
      · rw [List.mem_singleton.mp hpg]
        exact hnone
      · rw [hand.1]

section

variable {buffsz buffcnt base : ℕ} {hfits : base + buffsz * buffcnt ≤ 0xFFC00000} {ops : List Op}

theorem bufferSize_run
    (hexec : exec step (createPoolAt buffsz buffcnt base vmem hfits) ops = some s) :
    s.bufferSize = buffsz := by
  have hstep : ∀ (s : Pool) op t, s.book.Inv ∧ s.bufferSize = buffsz → s.step op = some t →
      t.book.Inv ∧ t.bufferSize = buffsz := by
    rintro s op t ⟨hinv, hsize⟩ ht
    have hbook := step_book hinv ht
    exact ⟨hinv.step hbook, (Book.samePool_step hbook).bufferSize.trans hsize⟩
  have hnew : (createPoolAt buffsz buffcnt base vmem hfits).book.Inv :=
    Book.inv_createPoolAt buffsz buffcnt base
  exact (inv_of_exec hstep ⟨hnew, rfl⟩ hexec).2

theorem inv_run_of_pages (hwf : Vmem.WF vmem) (hpages : s.pages = 1)
    (hg : Guarded step Allowed (createPoolAt buffsz buffcnt base vmem hfits) ops)
    (hexec : exec step (createPoolAt buffsz buffcnt base vmem hfits) ops = some s) : Inv s := by
  have hsize := bufferSize_run hexec
  have hstep : ∀ (s : Pool) op t, Inv s ∧ s.bufferSize = buffsz → s.Allowed op →
      s.step op = some t → Inv t ∧ t.bufferSize = buffsz := by
    rintro s1 op t ⟨hinv, hsize1⟩ hallowed ht
    have hpages1 : s1.pages = s.pages := by rw [pages, pages, hsize1, hsize]
    refine ⟨hinv.step_of_pages (hpages1.trans hpages).le hallowed ht, ?_⟩
    exact (Book.samePool_step (step_book hinv.book ht)).bufferSize.trans hsize1
  exact (inv_of_guarded hstep ⟨inv_createPoolAt hwf hfits, rfl⟩ hg hexec).1

/-- **When a buffer is freed as it should be**, for every live buffer in every state. -/
theorem frees_iff (hwf : Vmem.WF vmem)
    (hg : Guarded step Allowed (createPoolAt buffsz buffcnt base vmem hfits) ops)
    (hexec : exec step (createPoolAt buffsz buffcnt base vmem hfits) ops = some s)
    (haddr : addr ∈ s.live) :
    (s.freed addr).map Prod.snd = s.poolDeallocAndFree addr ∧ (s.Frees addr ↔ s.OnePage addr) := by
  refine ⟨map_freed s addr, ?_⟩
  obtain ⟨i, hi, rfl, hword⟩ := live_run hexec haddr
  rcases Nat.eq_zero_or_pos s.bufferSize with hzero | hpos
  · exact iff_of_false (not_frees_of_empty hzero hi) fun hone ↦ hone.1.ne' hzero
  rcases Nat.lt_or_ge 0x1000 s.bufferSize with hlarge | hsmall
  · have hpages : 2 ≤ s.pages := by
      rw [pages]
      omega
    exact iff_of_false (not_frees_of_pages hpages hi hword) fun hone ↦ hone.2.1.not_gt hlarge
  · have hpages : s.pages = 1 := by
      rw [pages]
      omega
    rw [frees_iff_of_pages (inv_run_of_pages hwf hpages hg hexec).wf hpages hi hword]
    exact ⟨fun hand ↦ ⟨hpos, hsmall, hand⟩, fun hone ↦ hone.2.2⟩

end

def shelf (buffsz : ℕ) (h : 0xE0000000 + buffsz * 4 ≤ 0xFFC00000) : Pool :=
  createPoolAt buffsz 4 0xE0000000 populated h

theorem poolAlloc_shelf (buffsz : ℕ) (h : 0xE0000000 + buffsz * 4 ≤ 0xFFC00000) :
    (shelf buffsz h).Allowed (.alloc frames) ∧ (shelf buffsz h).poolAlloc frames =
      some (0xE0000000, (shelf buffsz h).handOut 0 populated) := by
  have hfree : freeBit 0 + 0 / 32 * 32 = 0 := by decide
  have hnext : (shelf buffsz h).nextAddr 0 = 0xE0000000 := by
    show 0xE0000000 + (freeBit 0 + 0 / 32 * 32) * buffsz = _
    rw [hfree, Nat.zero_mul]
  have hmapped : (shelf buffsz h).IsMapped ((shelf buffsz h).nextAddr 0) := by
    rw [hnext]
    show populated.archVmemIsmapped (ofNat 0xE0000000) = some true
    decide
  have hword : (shelf buffsz h).bitmap[(shelf buffsz h).allocCount / 32]? = some 0 := by
    show (List.replicate 1 0)[0 / 32]? = some 0
    decide
  have hcount : (shelf buffsz h).allocCount ≠ (shelf buffsz h).bufferCount := by
    show 0 ≠ 4
    decide
  refine ⟨allowed_of_isMapped hword hmapped frames, ?_⟩
  rw [poolAlloc_of_isMapped hcount hword hmapped, hnext]
  rfl

theorem alloc_shelf (buffsz : ℕ) (h : 0xE0000000 + buffsz * 4 ≤ 0xFFC00000) :
    Guarded step Allowed (shelf buffsz h) [.alloc frames] ∧
      exec step (shelf buffsz h) [.alloc frames] =
        some ((shelf buffsz h).handOut 0 populated) := by
  obtain ⟨hallowed, hcall⟩ := poolAlloc_shelf buffsz h
  refine ⟨⟨hallowed, fun _ _ ↦ trivial⟩, exec_cons_eq_some.mpr ⟨_, ?_, rfl⟩⟩
  rw [step, hcall, map_some]

theorem frees_shelf :
    exec step (shelf 0x1000 (by decide)) [.alloc frames] =
        some ((shelf 0x1000 (by decide)).handOut 0 populated) ∧
      ((shelf 0x1000 (by decide)).handOut 0 populated).Frees 0xE0000000 := by
  obtain ⟨hg, hexec⟩ := alloc_shelf 0x1000 (by decide)
  refine ⟨hexec, (frees_iff wf_populated hg hexec ?_).2.mpr ?_⟩
  · decide
  · exact ⟨by decide, by decide, by decide, by decide⟩

/-- **A stack of four pages is not freed.**  The first page comes twice, 0 is passed to
`pmem_dealloc`, and the third page is left mapped. -/
theorem not_frees_stack :
    Guarded step Allowed (shelf 0x4000 (by decide)) [.alloc frames] ∧
      exec step (shelf 0x4000 (by decide)) [.alloc frames] =
        some ((shelf 0x4000 (by decide)).handOut 0 populated) ∧
      0xE0000000 ∈ ((shelf 0x4000 (by decide)).handOut 0 populated).live ∧
      (((shelf 0x4000 (by decide)).handOut 0 populated).freed 0xE0000000).map
        (fun r ↦ (r.1.map Prod.snd, r.2.vmem.lookup (page 0xE0002000))) =
          some ([0x400000, 0, 0x401000, 0x403000], some 0x402000) ∧
      ¬ ((shelf 0x4000 (by decide)).handOut 0 populated).Frees 0xE0000000 := by
  obtain ⟨hg, hexec⟩ := alloc_shelf 0x4000 (by decide)
  refine ⟨hg, hexec, by decide, by decide, ?_⟩
  exact not_frees_of_pages (i := 0) (by decide) (by decide) (by decide)

end Pool
end ForgeOS
