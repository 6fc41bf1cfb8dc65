import ForgeOS.Pool.Book
import ForgeOS.Vmem.Refine

/-!
# When the live buffers of a pool are mapped

`pool_alloc` maps memory for a buffer if its first page is not mapped, as many pages as a buffer at
a page boundary needs.

The main result is `mapped_of_stepOk`.
-/

namespace ForgeOS.Pool

open Bits Vmem Function List Option UInt32

def IsMapped (s : Pool) (addr : ℕ) : Prop := s.vmem.archVmemIsmapped (ofNat addr) = some true

instance IsMapped.decidable (s : Pool) (addr : ℕ) : Decidable (s.IsMapped addr) :=
  inferInstanceAs (Decidable (s.vmem.archVmemIsmapped (ofNat addr) = some true))

/-- **Every byte of every live buffer is mapped.** -/
def Mapped (s : Pool) : Prop := ∀ p ∈ s.live, ∀ k < s.bufferSize, s.IsMapped (p + k)

def hop : ℕ → ℕ
  | 0 => 0
  | i + 1 => hop i + i

/-- The condition on a call.

A buffer that is handed out and whose first page is mapped is mapped as a whole.  If its first page
is not mapped, the buffer does not reach past the pages that are mapped for it, or is mapped there,
and there is memory for the page tables.

The pages that are unmapped are below the window, and no other live buffer has a byte in them. -/
def StepOk (s : Pool) : Op → Prop
  | .alloc frames => s.allocCount ≠ s.bufferCount → ∀ w, s.bitmap[s.allocCount / 32]? = some w →
      (s.IsMapped (s.nextAddr w) → ∀ k < s.bufferSize, s.IsMapped (s.nextAddr w + k)) ∧
      (¬ s.IsMapped (s.nextAddr w) → (∀ i < s.pages, (frames i).2 ≠ 0) ∧
        ∀ k < s.bufferSize, s.nextAddr w % 0x1000 + k < s.pages * 0x1000 ∨
        s.IsMapped (s.nextAddr w + k))
  | .dealloc _ => True
  | .deallocAndFree addr => ∀ i < s.pages, addr + hop i * 0x1000 < 0xFFC00000 ∧
      ∀ p ∈ s.live.erase addr, ∀ k < s.bufferSize, (p + k) / 0x1000 ≠ (addr + hop i * 0x1000) / 0x1000

structure Inv (s : Pool) : Prop where
  wf : WF s.vmem
  count : s.allocCount ≤ s.bufferCount
  /-- The bits that are set are among the first `alloc_count`. -/
  bits : ∀ (word : ℕ) w, s.bitmap[word]? = some w → ∀ j < 32, IsSet w j →
  word * 32 + j < s.allocCount
  /-- A live buffer is one of the pool. -/
  live : ∀ p ∈ s.live, ∃ i < s.bufferCount, p = s.base + i * s.bufferSize

variable {s : Pool} {p addr k : ℕ}

theorem isMapped_iff (hwf : WF s.vmem) :
    s.IsMapped addr ↔ (s.vmem.lookup (page (ofNat addr))).isSome := by
  rw [IsMapped, hwf.archVmemIsmapped, some.injEq]

theorem addr_lt {i : ℕ} (hi : i < s.bufferCount) (hk : k < s.bufferSize) :
    s.base + i * s.bufferSize + k < 0xFFC00000 := by
  have hfits := s.fits
  have hmul : (i + 1) * s.bufferSize ≤ s.bufferCount * s.bufferSize := Nat.mul_le_mul_right _ hi
  rw [Nat.add_mul, Nat.one_mul] at hmul
  rw [Nat.mul_comm] at hfits
  omega

theorem Inv.live_lt (h : Inv s) (hp : p ∈ s.live) (hk : k < s.bufferSize) : p + k < 0xFFC00000 := by
  obtain ⟨i, hi, rfl⟩ := h.live p hp
  exact addr_lt hi hk

theorem Inv.book (h : Inv s) : s.book.Inv := ⟨h.count, forall_inMap.mpr h.bits⟩

section

variable {w : UInt32}

theorem Inv.next_lt (h : Inv s) (hcount : s.allocCount ≠ s.bufferCount)
    (hw : s.bitmap[s.allocCount / 32]? = some w) :
    freeBit w < 32 ∧ freeBit w + s.allocCount / 32 * 32 ≤ s.allocCount ∧
      freeBit w + s.allocCount / 32 * 32 < s.bufferCount := by
  obtain ⟨hbit, -, hle, hlt⟩ := h.book.next_lt hcount hw
  exact ⟨hbit, hle, hlt⟩

variable {frames : ℕ → UInt64 × UInt64}

theorem isSome_maps {m : Space} {addr n : ℕ} {pg : Page}
    (h : (m.frame pg).isSome ∨ ∃ i < n, (frames i).2 ≠ 0 ∧
      pg = page (ofNat (addr + i * 0x1000))) :
    (((maps addr n frames).foldl Space.step m).frame pg).isSome := by
  rw [maps]
  induction n with
  | zero => exact h.resolve_right fun ⟨i, hi, _⟩ ↦ absurd hi (Nat.not_lt_zero i)
  | succ n ih =>
    rw [range_succ, map_append, foldl_append]
    rcases h with hsome | ⟨i, hi, hframe, rfl⟩
    · exact Space.isSome_step_map (ih (.inl hsome))
    · rcases Nat.lt_succ_iff_lt_or_eq.1 hi with hlt | rfl
      · exact Space.isSome_step_map (ih (.inr ⟨i, hlt, hframe, rfl⟩))
      · exact Space.isSome_step_map_self hframe

/-! ## Allocation -/

def handOut (s : Pool) (w : UInt32) (vmem : Vmem) : Pool :=
  { s with
    bitmap := s.bitmap.set (s.allocCount / 32) (if freeBit w < 32 then w ||| mask (freeBit w) else w)
    vmem := vmem
    allocCount := s.allocCount + 1
    live := s.nextAddr w :: s.live }

theorem poolAlloc_of_isMapped (hcount : s.allocCount ≠ s.bufferCount)
    (hw : s.bitmap[s.allocCount / 32]? = some w) (hmap : s.IsMapped (s.nextAddr w))
    (frames : ℕ → UInt64 × UInt64) :
    s.poolAlloc frames = some (s.nextAddr w, s.handOut w s.vmem) := by
  have hans : s.vmem.archVmemIsmapped (ofNat (s.nextAddr w)) = some true := hmap
  simp only [poolAlloc, if_neg hcount, hw, hans, bind_eq_bind, bind_some]
  rfl

theorem poolAlloc_eq (h : Inv s) (hcount : s.allocCount ≠ s.bufferCount)
    (hw : s.bitmap[s.allocCount / 32]? = some w) (hop : s.Allowed (.alloc frames)) :
    ∃ vmem, s.poolAlloc frames = some (s.nextAddr w, s.handOut w vmem) ∧ WF vmem ∧
      (s.IsMapped (s.nextAddr w) → vmem.space = s.vmem.space) ∧
      (¬ s.IsMapped (s.nextAddr w) →
        vmem.space = (maps (s.nextAddr w) s.pages frames).foldl Space.step s.vmem.space) := by
  by_cases hmap : s.IsMapped (s.nextAddr w)
  · exact ⟨s.vmem, poolAlloc_of_isMapped hcount hw hmap frames, h.wf, fun _ ↦ rfl,
      fun hnot ↦ absurd hmap hnot⟩
  · have hans : s.vmem.archVmemIsmapped (ofNat (s.nextAddr w)) = some false := by
      rw [isMapped_iff h.wf] at hmap
      rw [h.wf.archVmemIsmapped, Bool.eq_false_of_not_eq_true hmap]
    obtain ⟨vmem, hexec, hwf, hspace⟩ := exec_refines h.wf (hop w hw hans)
    refine ⟨vmem, ?_, hwf, fun hyes ↦ absurd hyes hmap, fun _ ↦ hspace⟩
    simp only [poolAlloc, if_neg hcount, hw, bind_eq_bind, bind_some]
    rw [hans, bind_some, if_pos (by decide), hexec]
    rfl

theorem allowed_of_isMapped (hw : s.bitmap[s.allocCount / 32]? = some w)
    (hmap : s.IsMapped (s.nextAddr w)) (frames : ℕ → UInt64 × UInt64) :
    s.Allowed (.alloc frames) := by
  intro w' hw' hfalse
  obtain rfl := some.inj (hw.symm.trans hw')
  cases hfalse.symm.trans hmap

variable {vmem : Vmem}

theorem Inv.handOut (h : Inv s) (hcount : s.allocCount ≠ s.bufferCount)
    (hw : s.bitmap[s.allocCount / 32]? = some w) (hwf : WF vmem) : Inv (s.handOut w vmem) := by
  have hbook : (s.book.handOut w).Inv := h.book.handOut hcount hw
  refine ⟨hwf, hbook.count, forall_inMap.mp hbook.bits, fun p hp ↦ ?_⟩
  rcases mem_cons.1 hp with rfl | hmem
  · exact ⟨_, (h.next_lt hcount hw).2.2, rfl⟩
  · exact h.live p hmem

theorem mapped_handOut (h : Inv s) (hm : s.Mapped) (hcount : s.allocCount ≠ s.bufferCount)
    (hw : s.bitmap[s.allocCount / 32]? = some w) (hok : s.StepOk (.alloc frames))
    (hwf : WF vmem) (hyes : s.IsMapped (s.nextAddr w) → vmem.space = s.vmem.space)
    (hno : ¬ s.IsMapped (s.nextAddr w) →
      vmem.space = (maps (s.nextAddr w) s.pages frames).foldl Space.step s.vmem.space) :
    (s.handOut w vmem).Mapped := by
  have hlt := (h.next_lt hcount hw).2.2
  obtain ⟨hwhole, hpart⟩ := hok hcount w hw
  have hlookup : ∀ pg, vmem.lookup pg = vmem.space.frame pg := fun _ ↦ rfl
  have hkeep : ∀ a, s.IsMapped a → (s.handOut w vmem).IsMapped a := by
    intro a ha
    rw [isMapped_iff h.wf] at ha
    rw [isMapped_iff hwf]
    show (vmem.lookup _).isSome
    by_cases hmap : s.IsMapped (s.nextAddr w)
    · rw [hlookup, hyes hmap]
      exact ha
    · rw [hlookup, hno hmap]
      exact isSome_maps (.inl ha)
  intro p hp k hk
  rcases mem_cons.1 hp with rfl | hmem
  · by_cases hmap : s.IsMapped (s.nextAddr w)
    · exact hkeep _ (hwhole hmap k hk)
    · obtain ⟨hframes, hreach⟩ := hpart hmap
      rcases hreach k hk with hin | hold
      · have hend : s.nextAddr w + k < 0xFFC00000 := addr_lt hlt hk
        rw [isMapped_iff hwf]
        show (vmem.lookup _).isSome
        rw [hlookup, hno hmap]
        refine isSome_maps (.inr ⟨(s.nextAddr w % 0x1000 + k) / 0x1000, ?_, ?_, ?_⟩)
        · exact Nat.div_lt_of_lt_mul (by rwa [Nat.mul_comm] at hin)
        · exact hframes _ (Nat.div_lt_of_lt_mul (by rwa [Nat.mul_comm] at hin))
        · rw [page_ofNat_eq_iff (by omega) (by omega)]
          omega
      · exact hkeep _ hold
  · exact hkeep _ (hm p hmem k hk)

theorem allowed_unmap (haddr : addr < 0xFFC00000) : vmem.Allowed (.unmap (ofNat addr)) := by
  show ofNat addr < 0xFFC00000
  rw [lt_iff_toNat_lt, toNat_ofNat', Nat.mod_eq_of_lt (by omega)]
  exact haddr

/-! ## Release -/

theorem unmapLoop_spec {vmem vmem' : Vmem} {n i : ℕ} (hwf : WF vmem)
    (hlow : ∀ j, i ≤ j → j < i + n → addr + hop j * 0x1000 < 0xFFC00000)
    (hloop : unmapLoop n i (addr + hop i * 0x1000) vmem = some vmem') :
    WF vmem' ∧ ∀ pg, (∀ j, i ≤ j → j < i + n →
      pg ≠ page (ofNat (addr + hop j * 0x1000))) → vmem'.lookup pg = vmem.lookup pg := by
  induction n generalizing i vmem with
  | zero =>
    obtain rfl := some.inj hloop
    exact ⟨hwf, fun _ _ ↦ rfl⟩
  | succ n ih =>
    have hi := hlow i le_rfl (by omega)
    obtain ⟨vmem1, hunmap, hwf1, hspace⟩ := archVmemUnmap_spec hwf (allowed_unmap hi)
    simp only [unmapLoop, hunmap, bind_eq_bind, bind_some] at hloop
    obtain ⟨phys, -, hloop⟩ := bind_eq_some_iff.1 hloop
    have hnext : addr + hop i * 0x1000 + i * 0x1000 = addr + hop (i + 1) * 0x1000 := by
      rw [hop]
      omega
    rw [hnext] at hloop
    obtain ⟨hwf', hrest⟩ := ih hwf1 (fun j hij hj ↦ hlow j (by omega) (by omega)) hloop
    refine ⟨hwf', fun pg hpg ↦ ?_⟩
    have hlookup : vmem1.lookup = vmem1.space.frame := rfl
    rw [hrest pg fun j hij hj ↦ hpg j (by omega) (by omega), hlookup, hspace]
    exact update_of_ne (hpg i le_rfl (by omega)) _ _

variable {s' : Pool}

theorem Inv.dealloc (h : Inv s) {ret : ℤ} (hcall : s.doPoolDealloc addr = some (ret, s')) :
    Inv s' ∧ s'.vmem = s.vmem ∧ s'.live = s.live.erase addr ∧ s'.bufferSize = s.bufferSize := by
  have hlive : ∀ p ∈ s.live.erase addr, ∃ i < s.bufferCount, p = s.base + i * s.bufferSize :=
    fun p hp ↦ h.live p (mem_of_mem_erase hp)
  have hbook : s'.book.Inv := h.book.dealloc (book_doPoolDealloc hcall)
  simp only [doPoolDealloc] at hcall
  split at hcall
  next =>
    obtain ⟨-, rfl⟩ := Prod.mk.inj (some.inj hcall)
    exact ⟨⟨h.wf, h.count, h.bits, hlive⟩, rfl, rfl, rfl⟩
  split at hcall
  next => cases hcall
  obtain ⟨w, -, hcall⟩ := bind_eq_some_iff.1 hcall
  obtain ⟨-, rfl⟩ := Prod.mk.inj (some.inj hcall)
  exact ⟨⟨h.wf, h.count, forall_inMap.mp hbook.bits, hlive⟩, rfl, rfl, rfl⟩

theorem Inv.mapped_dealloc (h : Inv s) (hm : s.Mapped) {ret : ℤ}
    (hcall : s.doPoolDealloc addr = some (ret, s')) : s'.Mapped := by
  obtain ⟨-, hvmem, hlive, hsize⟩ := h.dealloc hcall
  intro p hp k hk
  rw [IsMapped, hvmem]
  rw [hlive] at hp
  exact hm p (mem_of_mem_erase hp) k (hsize ▸ hk)

theorem Inv.unmap (h : Inv s) (hunmap : unmapLoop s.pages 0 addr s.vmem = some vmem)
    (hlow : ∀ j < s.pages, addr + hop j * 0x1000 < 0xFFC00000) :
    Inv { s with vmem := vmem } ∧ ∀ pg, (∀ j < s.pages,
      pg ≠ page (ofNat (addr + hop j * 0x1000))) → vmem.lookup pg = s.vmem.lookup pg := by
  have hstart : unmapLoop s.pages 0 (addr + hop 0 * 0x1000) s.vmem = some vmem := by
    rw [hop, Nat.zero_mul, Nat.add_zero]
    exact hunmap
  obtain ⟨hwf, hkeep⟩ := unmapLoop_spec h.wf (fun j _ hj ↦ hlow j (by omega)) hstart
  exact ⟨⟨hwf, h.count, h.bits, h.live⟩, fun pg hpg ↦ hkeep pg fun j _ hj ↦ hpg j (by omega)⟩

theorem Inv.mapped_unmap (h : Inv s) (hm : s.Mapped)
    (hunmap : unmapLoop s.pages 0 addr s.vmem = some vmem)
    (hlow : ∀ j < s.pages, addr + hop j * 0x1000 < 0xFFC00000)
    (hapart : ∀ j < s.pages, ∀ p ∈ s.live, ∀ k < s.bufferSize,
      (p + k) / 0x1000 ≠ (addr + hop j * 0x1000) / 0x1000) :
    Inv { s with vmem := vmem } ∧ ({ s with vmem := vmem } : Pool).Mapped := by
  obtain ⟨hinv, hkeep⟩ := h.unmap hunmap hlow
  refine ⟨hinv, fun p hp k hk ↦ ?_⟩
  have hmap := (isMapped_iff h.wf).1 (hm p hp k hk)
  have hlt := h.live_lt hp hk
  refine (isMapped_iff hinv.wf).2 ?_
  show (vmem.lookup _).isSome
  rw [hkeep]
  · exact hmap
  · intro j hj heq
    have hj' := hlow j hj
    rw [page_ofNat_eq_iff (by omega) (by omega)] at heq
    exact hapart j hj p hp k hk heq

theorem Inv.alloc_cases (h : Inv s) (hallowed : s.Allowed (.alloc frames))
    (hstep : s.step (.alloc frames) = some s') :
    s' = s ∨ s.allocCount ≠ s.bufferCount ∧ ∃ w vmem, s.bitmap[s.allocCount / 32]? = some w ∧
      s' = s.handOut w vmem ∧ WF vmem ∧
      (s.IsMapped (s.nextAddr w) → vmem.space = s.vmem.space) ∧
      (¬ s.IsMapped (s.nextAddr w) →
        vmem.space = (maps (s.nextAddr w) s.pages frames).foldl Space.step s.vmem.space) := by
  by_cases hcount : s.allocCount = s.bufferCount
  · rw [Pool.step, poolAlloc, if_pos hcount] at hstep
    exact .inl (some.inj hstep).symm
  cases hw : s.bitmap[s.allocCount / 32]? with
  | none =>
    simp only [Pool.step, poolAlloc, if_neg hcount, hw, bind_eq_bind, bind_none,
      map_none] at hstep
    cases hstep
  | some w =>
    obtain ⟨vmem, hcall, hspace⟩ := poolAlloc_eq h hcount hw hallowed
    rw [Pool.step, hcall] at hstep
    exact .inr ⟨hcount, w, vmem, rfl, (some.inj hstep).symm, hspace⟩

theorem Inv.step (h : Inv s) (hm : s.Mapped) {op : Op} (hallowed : s.Allowed op)
    (hok : s.StepOk op) (hstep : s.step op = some s') : Inv s' ∧ s'.Mapped := by
  cases op with
  | alloc frames =>
    rcases h.alloc_cases hallowed hstep with rfl | ⟨hcount, w, vmem, hw, rfl, hwf, hyes, hno⟩
    · exact ⟨h, hm⟩
    · exact ⟨h.handOut hcount hw hwf, mapped_handOut h hm hcount hw hok hwf hyes hno⟩
  | dealloc addr =>
    obtain ⟨⟨ret, s1⟩, hcall, heq⟩ := map_eq_some_iff.1 hstep
    obtain rfl : s1 = s' := heq
    exact ⟨(h.dealloc hcall).1, h.mapped_dealloc hm hcall⟩
  | deallocAndFree addr =>
    obtain ⟨⟨ret, s1⟩, hcall, hloop⟩ := bind_eq_some_iff.1 hstep
    obtain ⟨hinv, -, hlive, hsize⟩ := h.dealloc hcall
    have hm1 := h.mapped_dealloc hm hcall
    dsimp only at hloop
    split at hloop
    next =>
      obtain ⟨vmem, hunmap, heq⟩ := bind_eq_some_iff.1 hloop
      obtain rfl := some.inj heq
      have hpages : s1.pages = s.pages := by rw [pages, hsize, pages]
      refine hinv.mapped_unmap hm1 hunmap (fun j hj ↦ (hok j (hpages ▸ hj)).1)
        fun j hj p hp k hk ↦ ?_
      exact (hok j (hpages ▸ hj)).2 p (hlive ▸ hp) k (hsize ▸ hk)
    next =>
      obtain rfl := some.inj hloop
      exact ⟨hinv, hm1⟩

theorem inv_createPoolAt {buffsz buffcnt addr : ℕ} (hwf : WF vmem)
    (hfits : addr + buffsz * buffcnt ≤ 0xFFC00000) :
    Inv (createPoolAt buffsz buffcnt addr vmem hfits) := by
  refine ⟨hwf, Nat.zero_le _, fun word w hw j _ hset ↦ ?_, fun p hp ↦ absurd hp not_mem_nil⟩
  obtain rfl := eq_of_mem_replicate (mem_of_getElem? hw)
  exact absurd hset (not_isSet_zero j)

/-- **The live buffers stay mapped** in every run whose calls all meet the condition. -/
theorem mapped_of_stepOk {buffsz buffcnt addr : ℕ} {vmem : Vmem} (hwf : WF vmem)
    (hfits : addr + buffsz * buffcnt ≤ 0xFFC00000) {ops : List Op} {s' : Pool}
    (hg : Run.Guarded step (fun s op ↦ s.Allowed op ∧ s.StepOk op)
      (createPoolAt buffsz buffcnt addr vmem hfits) ops)
    (hexec : Run.exec step (createPoolAt buffsz buffcnt addr vmem hfits) ops = some s') :
    s'.Mapped := by
  have hstep : ∀ (s : Pool) op t, Inv s ∧ s.Mapped → s.Allowed op ∧ s.StepOk op →
      s.step op = some t → Inv t ∧ t.Mapped :=
    fun s op t hs hop ht ↦ hs.1.step hs.2 hop.1 hop.2 ht
  have hnew : (createPoolAt buffsz buffcnt addr vmem hfits).Mapped :=
    fun p hp ↦ absurd hp not_mem_nil
  exact (Run.inv_of_guarded hstep ⟨inv_createPoolAt hwf hfits, hnew⟩ hg hexec).2

end

def frames : ℕ → UInt64 × UInt64
  | 0 => (0x6000, 0x2000)
  | _ => (0x7000, 0)

theorem first_blank {buffsz buffcnt : ℕ} {hfits : 0xE0000000 + buffsz * buffcnt ≤ 0xFFC00000}
    (hcnt : 2 ≤ buffcnt)
    (hallowed : (createPoolAt buffsz buffcnt 0xE0000000 blank hfits).Allowed (.alloc frames)) :
    ∃ s1 : Pool,
      (createPoolAt buffsz buffcnt 0xE0000000 blank hfits).step (.alloc frames) = some s1 ∧
      Inv s1 ∧ s1.live = [0xE0000000] ∧ s1.bufferSize = buffsz ∧
      s1.vmem.space =
        (maps 0xE0000000 ((buffsz + 0xFFF) / 0x1000) frames).foldl Space.step blank.space ∧
      s1.allocCount ≠ s1.bufferCount ∧ s1.bitmap[s1.allocCount / 32]? = some 1 ∧
      s1.nextAddr 1 = 0xE0000000 + buffsz := by
  have hfree : freeBit 0 + 0 / 32 * 32 = 0 ∧ freeBit 1 + (0 + 1) / 32 * 32 = 1 := by decide
  have hbitmap : ∃ ws, (createPoolAt buffsz buffcnt 0xE0000000 blank hfits).bitmap = 0 :: ws := by
    have hpos : (if buffcnt / 32 = 0 then 1 else buffcnt / 32) ≠ 0 := by
      split <;> omega
    obtain ⟨n, hn⟩ := Nat.exists_eq_add_one_of_ne_zero hpos
    exact ⟨_, (congrArg (replicate · 0) hn).trans replicate_succ⟩
  have hinv : Inv (createPoolAt buffsz buffcnt 0xE0000000 blank hfits) :=
    inv_createPoolAt wf_blank hfits
  have hnot : ¬ (blank.lookup (page (ofNat 0xE0000000))).isSome := by decide
  have hnext : (createPoolAt buffsz buffcnt 0xE0000000 blank hfits).nextAddr 0 = 0xE0000000 := by
    show 0xE0000000 + (freeBit 0 + 0 / 32 * 32) * buffsz = _
    rw [hfree.1, Nat.zero_mul]
  obtain ⟨ws, hws⟩ := hbitmap
  have hword : (createPoolAt buffsz buffcnt 0xE0000000 blank hfits).bitmap[0 / 32]? = some 0 := by
    rw [hws]
    rfl
  have hcount : 0 ≠ buffcnt := by omega
  obtain ⟨vmem1, hcall, hwf, -, hspace⟩ := poolAlloc_eq hinv hcount hword hallowed
  rw [hnext, isMapped_iff hinv.wf] at hspace
  refine ⟨_, ?_, hinv.handOut hcount hword hwf, ?_, rfl, hspace hnot, ?_, ?_, ?_⟩
  · rw [step, hcall]
    rfl
  · rw [handOut, hnext]
    rfl
  · show 0 + 1 ≠ buffcnt
    omega
  · have hbit : (if freeBit 0 < 32 then 0 ||| mask (freeBit 0) else 0 : UInt32) = 1 := by decide
    have hset : (createPoolAt buffsz buffcnt 0xE0000000 blank hfits).bitmap.set (0 / 32)
        (if freeBit 0 < 32 then 0 ||| mask (freeBit 0) else 0) = 1 :: ws := by
      rw [hws, hbit]
      rfl
    exact congrArg (·[(0 + 1) / 32]?) hset
  · show 0xE0000000 + (freeBit 1 + (0 + 1) / 32 * 32) * buffsz = _
    rw [hfree.2, Nat.one_mul]

theorem guarded_maps_one (addr : UInt32) (haddr : addr < 0xFFC00000) :
    Run.Guarded Vmem.step Vmem.Allowed blank [.map addr (~~~0) 0x01 0x6000 0x2000] :=
  ⟨⟨haddr, .inr rfl, fun _ _ ↦ ⟨by decide, by decide⟩, fun _ ↦ unused_blank⟩, fun _ _ ↦ trivial⟩

def halves : Pool := createPoolAt 0x800 4 0xE0000000 blank (by decide)

theorem mapped_halves : WF blank ∧
    ∃ s', Run.exec step halves [.alloc frames, .alloc frames] = some s' ∧
      s'.live = [0xE0000800, 0xE0000000] ∧ s'.Mapped := by
  have hallowed : halves.Allowed (.alloc frames) := by
    intro w hw _
    obtain rfl : 0 = w := some.inj hw
    exact guarded_maps_one _ (by decide)
  have hnot : ¬ halves.IsMapped 0xE0000000 := by
    rw [isMapped_iff wf_blank]
    decide
  obtain ⟨s1, hstep1, hinv1, hlive1, hsize1, hspace1, hcount1, hword1, hnext1⟩ :=
    first_blank (by decide) hallowed
  -- Both of the first two buffers are in the page that has been mapped.
  have hmap1 : ∀ k < 0x1000, s1.IsMapped (0xE0000000 + k) := by
    intro k hk
    rw [isMapped_iff hinv1.wf]
    show (s1.vmem.space.frame _).isSome
    rw [hspace1]
    refine isSome_maps (.inr ⟨0, by decide, by decide, ?_⟩)
    rw [page_ofNat_eq_iff (by omega) (by decide)]
    show _ = 0xE0000000 / 0x1000
    omega
  have hmapped : s1.IsMapped (s1.nextAddr 1) := by
    rw [hnext1]
    exact hmap1 0x800 (by decide)
  have hstep2 : step s1 (.alloc frames) = some (s1.handOut 1 s1.vmem) := by
    rw [step, poolAlloc_of_isMapped hcount1 hword1 hmapped]
    rfl
  have hexec : Run.exec step halves [.alloc frames, .alloc frames] =
      some (s1.handOut 1 s1.vmem) :=
    Run.exec_cons_eq_some.2 ⟨_, hstep1, Run.exec_cons_eq_some.2 ⟨_, hstep2, rfl⟩⟩
  refine ⟨wf_blank, _, hexec, ?_, mapped_of_stepOk wf_blank _ ?_ hexec⟩
  · show s1.nextAddr 1 :: s1.live = _
    rw [hnext1, hlive1]
  refine ⟨⟨hallowed, fun _ w hw ↦ ?_⟩, fun t ht ↦ ?_⟩
  · obtain rfl : 0 = w := some.inj hw
    refine ⟨fun hyes ↦ absurd hyes hnot, fun _ ↦ ⟨by decide, fun k hk ↦ .inl ?_⟩⟩
    have hsize : k < 0x800 := hk
    show 0 + k < 0x1000
    omega
  obtain rfl : s1 = t := some.inj (hstep1.symm.trans ht)
  refine ⟨⟨allowed_of_isMapped hword1 hmapped frames, fun _ w hw ↦ ?_⟩, fun _ _ ↦ trivial⟩
  obtain rfl : 1 = w := some.inj (hword1.symm.trans hw)
  refine ⟨fun _ k hk ↦ ?_, fun hno ↦ absurd hmapped hno⟩
  rw [hsize1] at hk
  rw [hnext1, Nat.add_assoc]
  exact hmap1 (0x800 + k) (by omega)

def straddling : Pool := createPoolAt 0x1800 2 0xE0000000 blank (by decide)

/-- **A live buffer is not mapped.**  Its first page has been mapped for the one before, so nothing
is mapped for it. -/
theorem not_mapped_straddling : WF blank ∧
    Run.Guarded step Allowed straddling [.alloc frames, .alloc frames] ∧
    ∃ s', Run.exec step straddling [.alloc frames, .alloc frames] = some s' ∧
      0xE0001800 ∈ s'.live ∧ 0x800 < s'.bufferSize ∧ ¬ s'.IsMapped (0xE0001800 + 0x800) := by
  have hallowed : straddling.Allowed (.alloc frames) := by
    intro w hw _
    obtain rfl : 0 = w := some.inj hw
    refine ⟨(guarded_maps_one 0xE0000000 (by decide)).1, fun t _ ↦ ⟨?_, fun _ _ ↦ trivial⟩⟩
    exact ⟨by decide, .inr rfl, fun _ _ ↦ ⟨by decide, by decide⟩, fun h0 ↦ absurd rfl h0⟩
  obtain ⟨s1, hstep1, hinv1, hlive1, hsize1, hspace1, hcount1, hword1, hnext1⟩ :=
    first_blank (by decide) hallowed
  have hlookup : ∀ pg, s1.vmem.lookup pg = s1.vmem.space.frame pg := fun _ ↦ rfl
  have hmapped : s1.IsMapped (s1.nextAddr 1) := by
    rw [hnext1, isMapped_iff hinv1.wf, hlookup, hspace1]
    decide
  have hstep2 : step s1 (.alloc frames) = some (s1.handOut 1 s1.vmem) := by
    rw [step, poolAlloc_of_isMapped hcount1 hword1 hmapped]
    rfl
  refine ⟨wf_blank, ⟨hallowed, fun t ht ↦ ?_⟩, _,
    Run.exec_cons_eq_some.2 ⟨_, hstep1, Run.exec_cons_eq_some.2 ⟨_, hstep2, rfl⟩⟩, ?_, ?_, ?_⟩
  · obtain rfl : s1 = t := some.inj (hstep1.symm.trans ht)
    exact ⟨allowed_of_isMapped hword1 hmapped frames, fun _ _ ↦ trivial⟩
  · show 0xE0001800 ∈ s1.nextAddr 1 :: s1.live
    rw [hnext1]
    exact mem_cons_self
  · show 0x800 < s1.bufferSize
    rw [hsize1]
    decide
  · show ¬ s1.IsMapped (0xE0001800 + 0x800)
    rw [isMapped_iff hinv1.wf, hlookup, hspace1]
    decide

end ForgeOS.Pool
