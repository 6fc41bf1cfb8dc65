import Mathlib.Data.UInt
import Mathlib.Order.BourbakiWitt
import Mathlib.Order.CompletePartialOrder

/-!
# Byte memory

The memory of a 32-bit machine: a byte at every address, and words of four bytes, the lowest first.
Addresses wrap.
-/

def Memory : Type := UInt32 → UInt8

namespace Memory

open UInt32

variable {m m' : Memory} {a b x : UInt32} {n : ℕ} {S : Set UInt32}

def bytes (a : UInt32) (n : ℕ) : Set UInt32 := {b | (b - a).toNat < n}

theorem mem_bytes : b ∈ bytes a n ↔ (b - a).toNat < n := Iff.rfl

instance bytes.decidable (a : UInt32) (n : ℕ) (b : UInt32) : Decidable (b ∈ bytes a n) :=
  inferInstanceAs (Decidable ((b - a).toNat < n))

def load (m : Memory) (a : UInt32) : UInt32 :=
  .ofNat ((m a).toNat + 2 ^ 8 * (m (a + 1)).toNat + 2 ^ 16 * (m (a + 2)).toNat +
    2 ^ 24 * (m (a + 3)).toNat)

def store (m : Memory) (a x : UInt32) : Memory :=
  fun b ↦ if (b - a).toNat < 4 then .ofNat (x.toNat / 2 ^ (8 * (b - a).toNat)) else m b

def fill (m : Memory) (a : UInt32) (n : ℕ) (v : UInt8) : Memory :=
  fun b ↦ if (b - a).toNat < n then v else m b

def copy (m : Memory) (dst src : UInt32) (n : ℕ) : Memory :=
  fun b ↦ if (b - dst).toNat < n then m (src + (b - dst)) else m b

theorem store_eqOn (m : Memory) (a x : UInt32) : Set.EqOn (m.store a x) m (bytes a 4)ᶜ :=
  fun _ hb ↦ if_neg hb

theorem fill_eqOn (m : Memory) (a : UInt32) (n : ℕ) (v : UInt8) :
    Set.EqOn (m.fill a n v) m (bytes a n)ᶜ :=
  fun _ hb ↦ if_neg hb

theorem store_eqOn_of_disjoint (h : Disjoint (bytes a 4) S) : Set.EqOn (m.store a x) m S :=
  (store_eqOn m a x).mono h.subset_compl_left

theorem fill_eqOn_of_disjoint {v : UInt8} (h : Disjoint (bytes a n) S) :
    Set.EqOn (m.fill a n v) m S :=
  (fill_eqOn m a n v).mono h.subset_compl_left

theorem copy_eqOn_of_disjoint {src : UInt32} (h : Disjoint (bytes a n) S) :
    Set.EqOn (m.copy a src n) m S :=
  fun _ hb ↦ if_neg (h.subset_compl_left hb)

theorem load_congr (h : Set.EqOn m m' (bytes a 4)) : m.load a = m'.load a := by
  have hbyte : ∀ i : UInt32, i.toNat < 4 → m (a + i) = m' (a + i) := fun i hi ↦ by
    refine h ?_
    rwa [mem_bytes, add_comm, UInt32.add_sub_cancel]
  have hzero := hbyte 0 (by decide)
  rw [add_zero] at hzero
  rw [load, load, hzero, hbyte 1 (by decide), hbyte 2 (by decide), hbyte 3 (by decide)]

@[simp] theorem load_store_self (m : Memory) (a x : UInt32) : (m.store a x).load a = x := by
  have hbyte : ∀ i : UInt32, i.toNat < 4 →
      (m.store a x (a + i)).toNat = x.toNat / 2 ^ (8 * i.toNat) % 2 ^ 8 := fun i hi ↦ by
    have hsub : a + i - a = i := by rw [add_comm, UInt32.add_sub_cancel]
    rw [store, hsub, if_pos hi, UInt8.toNat_ofNat']
  have hzero := hbyte 0 (by decide)
  rw [add_zero] at hzero
  have hx := x.toNat_lt
  rw [load, hzero, hbyte 1 (by decide), hbyte 2 (by decide), hbyte 3 (by decide)]
  refine UInt32.toNat_inj.mp ?_
  simp only [UInt32.toNat_ofNat', UInt32.toNat_ofNat, Nat.reduceMod, Nat.reduceMul, Nat.reducePow]
  omega

theorem load_store_of_disjoint (h : Disjoint (bytes a 4) (bytes b 4)) :
    (m.store a x).load b = m.load b :=
  load_congr (store_eqOn_of_disjoint h)

theorem copy_apply {src i : UInt32} (hi : i.toNat < n) : m.copy a src n (a + i) = m (src + i) := by
  have hsub : a + i - a = i := by rw [add_comm, UInt32.add_sub_cancel]
  rw [copy, hsub, if_pos hi]

theorem load_copy {src i : UInt32} (hn : n ≤ 2 ^ 32) (hi : i.toNat + 4 ≤ n) :
    (m.copy a src n).load (a + i) = m.load (src + i) := by
  have hbyte : ∀ j : UInt32, j.toNat < 4 → m.copy a src n (a + i + j) = m (src + i + j) := by
    intro j hj
    have hlt : (i + j).toNat < n := by
      rw [UInt32.toNat_add]
      omega
    rw [add_assoc, copy_apply hlt, add_assoc]
  have hzero := hbyte 0 (by decide)
  rw [add_zero, add_zero] at hzero
  rw [load, load, hzero, hbyte 1 (by decide), hbyte 2 (by decide), hbyte 3 (by decide)]

theorem self_mem_bytes (hn : 0 < n) : a ∈ bytes a n := by
  rwa [mem_bytes, sub_self]

variable {k : ℕ}

theorem bytes_mono (h : n ≤ k) : bytes a n ⊆ bytes a k := fun _ hb ↦ lt_of_lt_of_le hb h

theorem word_subset_iff (hn : n < 2 ^ 32) : bytes a 4 ⊆ bytes b n ↔ (a - b).toNat + 4 ≤ n := by
  have ha := a.toNat_lt
  have hb := b.toNat_lt
  constructor
  · intro h
    have hbyte : ∀ i : UInt32, i.toNat < 4 → (a + i - b).toNat < n := fun i hi ↦ h (by
      rwa [mem_bytes, add_comm, UInt32.add_sub_cancel])
    have h0 := hbyte 0 (by decide)
    have h1 := hbyte 1 (by decide)
    have h2 := hbyte 2 (by decide)
    have h3 := hbyte 3 (by decide)
    simp only [UInt32.toNat_sub, UInt32.toNat_add, UInt32.toNat_ofNat] at *
    omega
  · intro h c hc
    have hc' := c.toNat_lt
    rw [mem_bytes] at hc ⊢
    simp only [UInt32.toNat_sub] at *
    omega

theorem bytes_add_subset {i : UInt32} (h : i.toNat + n ≤ k) : bytes (a + i) n ⊆ bytes a k := by
  intro c hc
  have ha := a.toNat_lt
  have hi := i.toNat_lt
  have hc' := c.toNat_lt
  rw [mem_bytes] at hc ⊢
  simp only [UInt32.toNat_sub, UInt32.toNat_add] at *
  omega

theorem disjoint_bytes (h : n ≤ (b - a).toNat) (hk : (b - a).toNat + k ≤ 2 ^ 32) :
    Disjoint (bytes a n) (bytes b k) := by
  refine Set.disjoint_left.mpr fun c hca hcb ↦ ?_
  have ha := a.toNat_lt
  have hb := b.toNat_lt
  have hc := c.toNat_lt
  rw [mem_bytes] at hca hcb
  simp only [UInt32.toNat_sub] at *
  omega

theorem disjoint_bytes_add {i j : UInt32} (h : i.toNat + n ≤ j.toNat)
    (hk : j.toNat + k ≤ 2 ^ 32) : Disjoint (bytes (a + i) n) (bytes (a + j) k) := by
  have hle : i ≤ j := le_iff_toNat_le.mpr (by omega)
  have hsub : a + j - (a + i) = j - i := by grind
  have hdist : (a + j - (a + i)).toNat = j.toNat - i.toNat := by
    rw [hsub, UInt32.toNat_sub_of_le _ _ hle]
  exact disjoint_bytes (by omega) (by omega)

theorem disjoint_words (d : UInt32) (h : b = a + d) (hd : 4 ≤ d.toNat)
    (hd' : d.toNat + 4 ≤ 2 ^ 32) : Disjoint (bytes a 4) (bytes b 4) := by
  have hsub : b - a = d := by rw [h, add_comm, UInt32.add_sub_cancel]
  exact disjoint_bytes (by rwa [hsub]) (by rwa [hsub])

theorem mem_bytes_succ (hn : n < 2 ^ 32) : b ∈ bytes a (n + 1) ↔ b = a ∨ b ∈ bytes (a + 1) n := by
  have ha := a.toNat_lt
  have hb := b.toNat_lt
  rw [mem_bytes, mem_bytes, ← UInt32.toNat_inj]
  simp only [UInt32.toNat_sub, UInt32.toNat_add, UInt32.toNat_ofNat]
  omega

/-- The number that `n` bytes from an address on stand for, the lowest first. -/
def number (m : Memory) (a : UInt32) : ℕ → ℕ
  | 0 => 0
  | n + 1 => (m a).toNat + 2 ^ 8 * number m (a + 1) n

theorem toNat_load (m : Memory) (a : UInt32) : (m.load a).toNat = m.number a 4 := by
  have h0 := (m a).toNat_lt
  have h1 := (m (a + 1)).toNat_lt
  have h2 := (m (a + 2)).toNat_lt
  have h3 := (m (a + 3)).toNat_lt
  have htwo : a + 1 + 1 = a + 2 := by rw [add_assoc]; rfl
  have hthree : a + 2 + 1 = a + 3 := by rw [add_assoc]; rfl
  simp only [load, number, htwo, hthree, UInt32.toNat_ofNat']
  omega

theorem number_eq_zero_iff (hn : n ≤ 2 ^ 32) : m.number a n = 0 ↔ ∀ b ∈ bytes a n, m b = 0 := by
  induction n generalizing a with
  | zero => exact ⟨fun _ b hb ↦ absurd hb (Nat.not_lt_zero _), fun _ ↦ rfl⟩
  | succ n ih =>
    have hbyte : m a = 0 ↔ (m a).toNat = 0 := by rw [← UInt8.toNat_inj, UInt8.toNat_zero]
    have hsplit : m.number a (n + 1) = 0 ↔ (m a).toNat = 0 ∧ m.number (a + 1) n = 0 := by
      rw [number]
      omega
    rw [hsplit, ← hbyte, ih (by omega)]
    constructor
    · rintro ⟨hfirst, hrest⟩ b hb
      rcases (mem_bytes_succ (by omega)).mp hb with rfl | hb
      · exact hfirst
      · exact hrest b hb
    · intro h
      exact ⟨h a (self_mem_bytes (Nat.succ_pos n)),
        fun b hb ↦ h b ((mem_bytes_succ (by omega)).mpr (.inr hb))⟩

end Memory
