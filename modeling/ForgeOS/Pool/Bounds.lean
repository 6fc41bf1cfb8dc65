import ForgeOS.Pool.Book

/-!
# The bounds of a pool

`create_pool_at` allocates a bitmap of `buffcnt / 32` words, or of one if that is none, so the last
buffers may have no bit.

The main result is `inBounds_iff`.
-/

namespace ForgeOS.Pool
namespace Book

def words (buffcnt : ℕ) : ℕ := if buffcnt / 32 = 0 then 1 else buffcnt / 32

def Inside (s : Book) (addr : ℕ) : Prop :=
  s.base ≤ addr ∧ addr < s.base + s.bufferSize * s.bufferCount

instance (s : Book) (addr : ℕ) : Decidable (s.Inside addr) := inferInstanceAs (Decidable (_ ∧ _))

/-- **What a call should do.**  It returns, so that it touches no word outside the bitmap, and if it
is given an address outside the pool, it refuses it and leaves the bitmap alone. -/
def InBounds (s : Book) : Op → Prop
  | .alloc => s.poolAlloc.isSome
  | .dealloc addr => (s.doPoolDealloc addr).isSome ∧
      (¬ s.Inside addr →
        (s.doPoolDealloc addr).map (fun r ↦ (r.1, r.2.bitmap)) = some (-1, s.bitmap))

/-- The condition on a call.  A buffer that is handed out has a bit; and an address that is taken
for one in the pool is not the end of the pool, and its buffer has a bit. -/
def StepOk (s : Book) : Op → Prop
  | .alloc => s.allocCount ≠ s.bufferCount → s.allocCount < 32 * words s.bufferCount
  | .dealloc addr =>
    s.base ≤ addr → addr ≤ (s.base + s.bufferSize * s.bufferCount) % wordSize →
      addr ≠ s.base + s.bufferSize * s.bufferCount ∧
        (addr - s.base) / s.bufferSize < 32 * words s.bufferCount

instance StepOk.decidable (s : Book) : ∀ op, Decidable (s.StepOk op)
  | .alloc => inferInstanceAs (Decidable (_ → _))
  | .dealloc _ => inferInstanceAs (Decidable (_ → _ → _))

def Sized (s : Book) : Prop := s.bitmap.length = words s.bufferCount

variable {s s' : Book} {op : Op} {addr i : ℕ}

theorem sized_createPoolAt (buffsz buffcnt addr : ℕ) : (createPoolAt buffsz buffcnt addr).Sized :=
  List.length_replicate

theorem Sized.step (h : s.Sized) (hs : s.step op = some s') : s'.Sized := by
  have hsame := samePool_step hs
  rw [Sized, hsame.words, hsame.bufferCount]
  exact h

theorem Sized.isSome_word (h : s.Sized) (i : ℕ) :
    s.bitmap[i / 32]?.isSome ↔ i < 32 * words s.bufferCount := by
  rw [isSome_getElem?, h, Nat.div_lt_iff_lt_mul (by decide), Nat.mul_comm]

theorem Sized.alloc_iff (h : s.Sized) : s.InBounds .alloc ↔ s.StepOk .alloc := by
  show s.poolAlloc.isSome ↔ (_ → _)
  rw [poolAlloc, ← h.isSome_word]
  split
  next hcount => exact iff_of_true rfl fun hne ↦ absurd hcount hne
  next hcount => rw [Option.isSome_map, forall_prop_of_true hcount]

theorem Sized.dealloc_iff (h : s.Sized) :
    s.InBounds (.dealloc addr) ↔ s.StepOk (.dealloc addr) := by
  show (_ ∧ (_ → _)) ↔ (_ → _ → _ ∧ _)
  rw [doPoolDealloc, ← h.isSome_word]
  dsimp only
  split
  next hout =>
    refine iff_of_true ⟨rfl, fun _ ↦ rfl⟩ fun hlow hhigh ↦ ?_
    exact absurd hout (not_or.mpr ⟨Nat.not_lt.mpr hlow, Nat.not_lt.mpr hhigh⟩)
  next hin =>
    obtain ⟨hlow, hhigh⟩ := not_or.mp hin
    rw [Nat.not_lt] at hlow hhigh
    rw [forall_prop_of_true hlow, forall_prop_of_true hhigh]
    have hend : addr ≤ s.base + s.bufferSize * s.bufferCount := hhigh.trans (Nat.mod_le _ _)
    split
    next hsize =>
      -- The only address that gets here is that of the pool, which has no bytes.
      refine iff_of_false (fun hlaw ↦ absurd hlaw.1 Bool.false_ne_true) fun hok ↦ hok.1 ?_
      rw [hsize, Nat.zero_mul, Nat.add_zero] at hend ⊢
      exact hend.antisymm hlow
    next hsize =>
      have hinside : s.Inside addr ↔ addr ≠ s.base + s.bufferSize * s.bufferCount :=
        ⟨fun h ↦ h.2.ne, fun h ↦ ⟨hlow, hend.lt_of_ne h⟩⟩
      rw [← hinside]
      cases hw : s.bitmap[(addr - s.base) / s.bufferSize / 32]? with
      | none => exact iff_of_false (fun hlaw ↦ absurd hlaw.1 (by simp)) (by simp)
      | some w => simp

theorem Sized.inBounds_step (h : s.Sized) (op : Op) : s.InBounds op ↔ s.StepOk op := by
  cases op with
  | alloc => exact h.alloc_iff
  | dealloc addr => exact h.dealloc_iff

/-- **When a pool stays within its bounds**, along every run with any addresses. -/
theorem inBounds_iff (buffsz buffcnt base : ℕ) (ops : List Op) :
    Run.Guarded step InBounds (createPoolAt buffsz buffcnt base) ops ↔
      Run.Guarded step StepOk (createPoolAt buffsz buffcnt base) ops :=
  Run.guarded_congr (fun _ _ _ h _ hs ↦ h.step hs) (fun _ op h _ ↦ h.inBounds_step op)
    (sized_createPoolAt buffsz buffcnt base) (Run.guarded_true _ ops)

/-- **The address behind a pool is accepted**, and has its bit in a word that is not there. -/
theorem not_inBounds_end :
    (createPoolAt 0x1000 32 0xE0000000).doPoolDealloc 0xE0020000 = none ∧
      ¬ Run.Guarded step InBounds (createPoolAt 0x1000 32 0xE0000000) [.dealloc 0xE0020000] := by
  have hfault : (createPoolAt 0x1000 32 0xE0000000).doPoolDealloc 0xE0020000 = none := by decide
  refine ⟨hfault, fun hg ↦ ?_⟩
  have hlaw := hg.1.1
  rw [hfault] at hlaw
  exact Bool.false_ne_true hlaw

end Book
end ForgeOS.Pool
