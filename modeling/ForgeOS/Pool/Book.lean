import ForgeOS.Lib.Word
import ForgeOS.Pool.Model

/-!
# The bookkeeping of a pool

This file is `pool.c` without the page tables, for a pool anywhere in the address space.  Sums and
products are reduced where the code computes them.
-/

namespace ForgeOS

open Bits List Option Nat

structure Pool.Book where
  base : ℕ
  bitmap : List UInt32
  bufferSize : ℕ
  bufferCount : ℕ
  allocCount : ℕ
  live : List ℕ
  deriving DecidableEq

namespace Pool
namespace Book

def createPoolAt (buffsz buffcnt addr : ℕ) : Book where
  base := addr
  bitmap := List.replicate (if buffcnt / 32 = 0 then 1 else buffcnt / 32) 0
  bufferSize := buffsz
  bufferCount := buffcnt
  allocCount := 0
  live := []

def nextIdx (s : Book) (w : UInt32) : ℕ := freeBit w + s.allocCount / 32 * 32

def bufferAddr (s : Book) (i : ℕ) : ℕ := (s.base + i * s.bufferSize) % wordSize

def handOut (s : Book) (w : UInt32) : Book :=
  { s with
    bitmap := s.bitmap.set (s.allocCount / 32) (if freeBit w < 32 then w ||| mask (freeBit w) else w)
    allocCount := s.allocCount + 1
    live := s.bufferAddr (s.nextIdx w) :: s.live }

/-- `pool_alloc`: the address, or 0 if the pool is exhausted. -/
def poolAlloc (s : Book) : Option (ℕ × Book) :=
  if s.allocCount = s.bufferCount then some (0, s)
  else s.bitmap[s.allocCount / 32]?.map fun w ↦ (s.bufferAddr (s.nextIdx w), s.handOut w)

/-- `do_pool_dealloc`.  The buffer is no longer the caller's, whatever comes of it. -/
def doPoolDealloc (s : Book) (addr : ℕ) : Option (ℤ × Book) :=
  let s := { s with live := s.live.erase addr }
  if addr < s.base ∨ addr > (s.base + s.bufferSize * s.bufferCount) % wordSize then some (-1, s)
  else if s.bufferSize = 0 then none
  else
    let bufferIdx := (addr - s.base) / s.bufferSize
    s.bitmap[bufferIdx / 32]?.map fun w ↦
      (0, { s with bitmap := s.bitmap.set (bufferIdx / 32) (w &&& ~~~mask (bufferIdx % 32)) })

def poolDealloc (s : Book) (addr : ℕ) : Option Book := (s.doPoolDealloc addr).map Prod.snd

def poolCount (s : Book) : ℕ := s.allocCount

inductive Op where
  | alloc
  | dealloc (addr : ℕ)
  deriving DecidableEq

def step (s : Book) : Op → Option Book
  | .alloc => s.poolAlloc.map Prod.snd
  | .dealloc addr => s.poolDealloc addr

def Allowed (s : Book) : Op → Prop
  | .alloc => True
  | .dealloc addr => addr ∈ s.live

instance Allowed.decidable (s : Book) : ∀ op, Decidable (s.Allowed op)
  | .alloc => isTrue trivial
  | .dealloc addr => inferInstanceAs (Decidable (addr ∈ s.live))

end Book

theorem freeBit_le {w : UInt32} {j : ℕ} (hj : j < 32) (hw : ¬ IsSet w j) :
    freeBit w ≤ j ∧ ¬ IsSet w (freeBit w) := by
  rw [freeBit]
  cases hfind : (range 32).find? fun i ↦ ¬ IsSet w i with
  | none =>
    have hall := find?_range_eq_none.1 hfind j hj
    simp [hw] at hall
  | some i =>
    obtain ⟨hi, -, hlt⟩ := find?_range_eq_some.1 hfind
    refine ⟨Nat.le_of_not_lt fun hji ↦ ?_, by simpa using hi⟩
    simpa [hw] using hlt j hji

namespace Book

structure Inv (s : Book) : Prop where
  count : s.allocCount ≤ s.bufferCount
  bits : ∀ i, InMap s.bitmap i → i < s.allocCount

variable {s s' : Book} {w : UInt32} {addr i : ℕ} {op : Op}

theorem inv_createPoolAt (buffsz buffcnt addr : ℕ) : Inv (createPoolAt buffsz buffcnt addr) where
  count := zero_le _
  bits i hi := absurd hi (not_inMap_replicate _ i)

theorem Inv.next_lt (h : Inv s) (hcount : s.allocCount ≠ s.bufferCount)
    (hw : s.bitmap[s.allocCount / 32]? = some w) :
    freeBit w < 32 ∧ ¬ InMap s.bitmap (s.nextIdx w) ∧ s.nextIdx w ≤ s.allocCount ∧
      s.nextIdx w < s.bufferCount := by
  have hmod : s.allocCount % 32 < 32 := mod_lt _ (by decide)
  have hclear : ¬ IsSet w (s.allocCount % 32) := by
    intro hset
    exact absurd (h.bits s.allocCount ⟨w, hw, hset⟩) (lt_irrefl _)
  obtain ⟨hfree, hfree'⟩ := freeBit_le hmod hclear
  have hbit : freeBit w < 32 := by omega
  have hle := h.count
  refine ⟨hbit, fun hmem ↦ ?_, ?_, ?_⟩
  · rw [nextIdx, add_comm, inMap_word hbit, hw] at hmem
    obtain ⟨w', heq, hset⟩ := hmem
    cases heq
    exact hfree' hset
  · unfold nextIdx
    omega
  · unfold nextIdx
    omega

theorem inMap_handOut (hw : s.bitmap[s.allocCount / 32]? = some w) (hbit : freeBit w < 32) :
    InMap (s.handOut w).bitmap i ↔ InMap s.bitmap i ∨ i = s.nextIdx w := by
  rw [handOut, if_pos hbit, inMap_set_or hw hbit, nextIdx, add_comm]

theorem Inv.handOut (h : Inv s) (hcount : s.allocCount ≠ s.bufferCount)
    (hw : s.bitmap[s.allocCount / 32]? = some w) : Inv (s.handOut w) := by
  obtain ⟨hbit, -, hle, -⟩ := h.next_lt hcount hw
  refine ⟨lt_of_le_of_ne h.count hcount, fun i hi ↦ ?_⟩
  show i < s.allocCount + 1
  rcases (inMap_handOut hw hbit).mp hi with hi | rfl
  · exact lt_succ_of_lt (h.bits i hi)
  · exact lt_succ_of_le hle

theorem poolAlloc_cases {a : ℕ} (hcall : s.poolAlloc = some (a, s')) :
    (s.allocCount = s.bufferCount ∧ a = 0 ∧ s' = s) ∨
      s.allocCount ≠ s.bufferCount ∧ ∃ w, s.bitmap[s.allocCount / 32]? = some w ∧
        a = s.bufferAddr (s.nextIdx w) ∧ s' = s.handOut w := by
  rw [poolAlloc] at hcall
  split at hcall
  · next hcount =>
    cases hcall
    exact .inl ⟨hcount, rfl, rfl⟩
  · next hcount =>
    obtain ⟨w, hw, heq⟩ := map_eq_some_iff.mp hcall
    obtain ⟨rfl, rfl⟩ := Prod.mk.inj heq
    exact .inr ⟨hcount, w, hw, rfl, rfl⟩

theorem doPoolDealloc_cases {ret : ℤ} (hcall : s.doPoolDealloc addr = some (ret, s')) :
    s' = { s with live := s.live.erase addr } ∨
      0 < s.bufferSize ∧ ∃ w, s.bitmap[(addr - s.base) / s.bufferSize / 32]? = some w ∧
        s' = { s with
          live := s.live.erase addr
          bitmap := s.bitmap.set ((addr - s.base) / s.bufferSize / 32)
            (w &&& ~~~mask ((addr - s.base) / s.bufferSize % 32)) } := by
  simp only [doPoolDealloc] at hcall
  split at hcall
  · cases hcall
    exact .inl rfl
  split at hcall
  · cases hcall
  · next hsize =>
    obtain ⟨w, hw, heq⟩ := map_eq_some_iff.mp hcall
    obtain ⟨-, rfl⟩ := Prod.mk.inj heq
    exact .inr ⟨pos_of_ne_zero hsize, w, hw, rfl⟩

theorem inMap_clear (hw : s.bitmap[i / 32]? = some w) {j : ℕ} :
    InMap (s.bitmap.set (i / 32) (w &&& ~~~mask (i % 32))) j ↔ InMap s.bitmap j ∧ j ≠ i := by
  rw [inMap_set_and hw (mod_lt _ (by decide)), div_add_mod']

theorem Inv.dealloc (h : Inv s) {ret : ℤ} (hcall : s.doPoolDealloc addr = some (ret, s')) :
    Inv s' := by
  rcases doPoolDealloc_cases hcall with rfl | ⟨-, w, hw, rfl⟩
  · exact ⟨h.count, h.bits⟩
  · exact ⟨h.count, fun i hi ↦ h.bits i ((inMap_clear hw).mp hi).1⟩

structure SamePool (s s' : Book) : Prop where
  base : s'.base = s.base
  bufferSize : s'.bufferSize = s.bufferSize
  bufferCount : s'.bufferCount = s.bufferCount
  words : s'.bitmap.length = s.bitmap.length

theorem samePool_step (hs : s.step op = some s') : SamePool s s' := by
  cases op with
  | alloc =>
    obtain ⟨⟨a, s1⟩, hcall, rfl⟩ := map_eq_some_iff.mp hs
    rcases poolAlloc_cases hcall with ⟨-, -, rfl⟩ | ⟨-, w, -, -, rfl⟩
    · exact ⟨rfl, rfl, rfl, rfl⟩
    · exact ⟨rfl, rfl, rfl, length_set ..⟩
  | dealloc addr =>
    obtain ⟨⟨ret, s1⟩, hcall, rfl⟩ := map_eq_some_iff.mp hs
    rcases doPoolDealloc_cases hcall with rfl | ⟨-, w, -, rfl⟩
    · exact ⟨rfl, rfl, rfl, rfl⟩
    · exact ⟨rfl, rfl, rfl, length_set ..⟩

theorem Inv.step (h : Inv s) (hs : s.step op = some s') : Inv s' := by
  cases op with
  | alloc =>
    obtain ⟨⟨a, s1⟩, hcall, rfl⟩ := map_eq_some_iff.mp hs
    rcases poolAlloc_cases hcall with ⟨-, -, rfl⟩ | ⟨hcount, w, hw, -, rfl⟩
    · exact h
    · exact h.handOut hcount hw
  | dealloc addr =>
    obtain ⟨⟨ret, s1⟩, hcall, rfl⟩ := map_eq_some_iff.mp hs
    exact h.dealloc hcall

end Book

def book (s : Pool) : Book where
  base := s.base
  bitmap := s.bitmap
  bufferSize := s.bufferSize
  bufferCount := s.bufferCount
  allocCount := s.allocCount
  live := s.live

def Op.book : Op → Book.Op
  | .alloc _ => .alloc
  | .dealloc addr | .deallocAndFree addr => .dealloc addr

variable {s s' : Pool}

theorem bufferAddr_book {i : ℕ} (hi : i < s.bufferCount) :
    s.book.bufferAddr i = s.base + i * s.bufferSize := by
  have hfits := s.fits
  have hmul : i * s.bufferSize ≤ s.bufferSize * s.bufferCount := by
    rw [mul_comm]
    exact mul_le_mul_left _ hi.le
  refine mod_eq_of_lt ?_
  show s.base + i * s.bufferSize < 4294967296
  omega

theorem book_poolAlloc (h : s.book.Inv) {frames : ℕ → UInt64 × UInt64} {a : ℕ}
    (hcall : s.poolAlloc frames = some (a, s')) : s.book.poolAlloc = some (a, s'.book) := by
  rw [poolAlloc] at hcall
  split at hcall
  · next hcount =>
    cases hcall
    exact if_pos hcount
  · next hcount =>
    obtain ⟨w, hw, hcall⟩ := bind_eq_some_iff.mp hcall
    obtain ⟨mapped, -, hcall⟩ := bind_eq_some_iff.mp hcall
    have haddr := bufferAddr_book (h.next_lt hcount hw).2.2.2
    have hcall' : s.book.poolAlloc = some (s.nextAddr w, s.book.handOut w) := by
      have hcount' : s.book.allocCount ≠ s.book.bufferCount := hcount
      have hw' : s.book.bitmap[s.book.allocCount / 32]? = some w := hw
      rw [Book.poolAlloc, if_neg hcount', hw', map_some, haddr]
      rfl
    rw [hcall', Book.handOut, haddr]
    dsimp only at hcall
    split at hcall
    all_goals
      obtain ⟨vmem, -, hcall⟩ := bind_eq_some_iff.mp hcall
      cases hcall
      rfl

theorem book_doPoolDealloc {addr : ℕ} {ret : ℤ} (hcall : s.doPoolDealloc addr = some (ret, s')) :
    s.book.doPoolDealloc addr = some (ret, s'.book) := by
  have hend : (s.base + s.bufferSize * s.bufferCount) % wordSize =
      s.base + s.bufferSize * s.bufferCount :=
    mod_eq_of_lt (lt_of_le_of_lt s.fits (by decide))
  simp only [Book.doPoolDealloc, book, hend]
  simp only [doPoolDealloc] at hcall
  split at hcall
  · next hout =>
    cases hcall
    exact if_pos hout
  · next hin =>
    rw [if_neg hin]
    split at hcall
    · cases hcall
    · next hsize =>
      obtain ⟨w, hw, hcall⟩ := bind_eq_some_iff.mp hcall
      cases hcall
      refine (if_neg hsize).trans ?_
      exact congrArg (Option.map _) hw

theorem step_book (h : s.book.Inv) {op : Op} (hs : s.step op = some s') :
    s.book.step op.book = some s'.book := by
  cases op with
  | alloc frames =>
    obtain ⟨⟨a, s1⟩, hcall, rfl⟩ := map_eq_some_iff.mp hs
    exact map_eq_some_iff.mpr ⟨_, book_poolAlloc h hcall, rfl⟩
  | dealloc addr =>
    obtain ⟨⟨ret, s1⟩, hcall, rfl⟩ := map_eq_some_iff.mp hs
    exact map_eq_some_iff.mpr ⟨_, book_doPoolDealloc hcall, rfl⟩
  | deallocAndFree addr =>
    obtain ⟨⟨ret, s1⟩, hcall, hs⟩ := bind_eq_some_iff.mp hs
    have hbook : s1.book = s'.book := by
      dsimp only at hs
      split at hs
      · obtain ⟨vmem, -, hs⟩ := bind_eq_some_iff.mp hs
        cases hs
        rfl
      · cases hs
        rfl
    rw [← hbook]
    exact map_eq_some_iff.mpr ⟨_, book_doPoolDealloc hcall, rfl⟩

theorem exec_book (h : s.book.Inv) {ops : List Op} (hs : Run.exec step s ops = some s') :
    Run.exec Book.step s.book (ops.map Op.book) = some s'.book := by
  induction ops generalizing s with
  | nil =>
    cases hs
    rfl
  | cons op ops ih =>
    obtain ⟨t, ht, hs⟩ := Run.exec_cons_eq_some.mp hs
    have hbook := step_book h ht
    exact Run.exec_cons_eq_some.mpr ⟨t.book, hbook, ih (h.step hbook) hs⟩

end Pool
end ForgeOS
