import Mathlib.Data.UInt

/-!
# A word as a set of bits

Bit `i` of a 32-bit word is tested, set and cleared with the mask `1 << i`.  A list of words is a
set of numbers (`InMap`).
-/

theorem UInt32.and_or_distrib_right (a b c : UInt32) :
    (a ||| b) &&& c = (a &&& c) ||| (b &&& c) := by
  rw [← UInt32.toBitVec_inj]
  exact BitVec.and_or_distrib_right

theorem UInt32.and_or_distrib_left (a b c : UInt32) :
    a &&& (b ||| c) = (a &&& b) ||| (a &&& c) := by
  rw [← UInt32.toBitVec_inj]
  exact BitVec.and_or_distrib_left

namespace Bits

open Nat

def mask (i : ℕ) : UInt32 := 1 <<< UInt32.ofNat i

def IsSet (w : UInt32) (i : ℕ) : Prop := w &&& mask i ≠ 0

instance IsSet.decidable (w : UInt32) (i : ℕ) : Decidable (IsSet w i) :=
  inferInstanceAs (Decidable (w &&& mask i ≠ 0))

variable {w : UInt32} {i j : ℕ}

theorem toBitVec_mask (hi : i < 32) : (mask i).toBitVec = BitVec.twoPow 32 i := by
  have hmod : (BitVec.ofNat 32 i % 32).toNat = i := by
    rw [BitVec.toNat_umod, BitVec.toNat_ofNat, mod_eq_of_lt (a := i) (by omega)]
    exact mod_eq_of_lt hi
  rw [mask, UInt32.toBitVec_shiftLeft, UInt32.toBitVec_ofNat', BitVec.shiftLeft_eq', hmod,
    BitVec.twoPow_eq]
  rfl

theorem isSet_iff (hi : i < 32) : IsSet w i ↔ w.toBitVec.getLsbD i = true := by
  rw [IsSet, ne_eq, ← UInt32.toBitVec_inj, UInt32.toBitVec_and, toBitVec_mask hi, BitVec.and_twoPow]
  by_cases hw : w.toBitVec.getLsbD i = true
  · have hne : BitVec.twoPow 32 i ≠ 0#32 := by
      intro hzero
      have hbit := congrArg (fun x ↦ x.getLsbD i) hzero
      simp [hi] at hbit
    simp [hw, hne]
  · simp [hw]

theorem not_isSet_zero (i : ℕ) : ¬ IsSet 0 i := by
  rw [IsSet, UInt32.zero_and, not_not]

theorem and_ne_zero {v : UInt32} (hi : i < 32) (hv : IsSet v i) (hw : IsSet w i) : v &&& w ≠ 0 := by
  intro hzero
  have hbit : IsSet (v &&& w) i := by
    rw [isSet_iff hi] at hv hw ⊢
    rw [UInt32.toBitVec_and, BitVec.getLsbD_and, hv, hw, Bool.and_true]
  rw [hzero] at hbit
  exact not_isSet_zero i hbit

theorem isSet_or_mask (hi : i < 32) (hj : j < 32) : IsSet (w ||| mask i) j ↔ IsSet w j ∨ i = j := by
  rw [isSet_iff hj, isSet_iff hj, UInt32.toBitVec_or, toBitVec_mask hi, BitVec.getLsbD_or,
    BitVec.getLsbD_twoPow]
  simp [hi]

theorem isSet_and_not_mask (hi : i < 32) (hj : j < 32) :
    IsSet (w &&& ~~~mask i) j ↔ IsSet w j ∧ i ≠ j := by
  rw [isSet_iff hj, isSet_iff hj, UInt32.toBitVec_and, UInt32.toBitVec_not, toBitVec_mask hi,
    BitVec.getLsbD_and, BitVec.getLsbD_not, BitVec.getLsbD_twoPow]
  simp [hi, hj]

def InMap (ws : List UInt32) (i : ℕ) : Prop := ∃ w, ws[i / 32]? = some w ∧ IsSet w (i % 32)

variable {ws : List UInt32} {word : ℕ}

theorem inMap_word (hj : j < 32) :
    InMap ws (word * 32 + j) ↔ ∃ w, ws[word]? = some w ∧ IsSet w j := by
  rw [InMap, mul_comm, mul_add_div (by decide), mul_add_mod, div_eq_of_lt hj,
    mod_eq_of_lt hj, add_zero]

theorem forall_inMap {P : ℕ → Prop} : (∀ i, InMap ws i → P i) ↔
    ∀ (word : ℕ) w, ws[word]? = some w → ∀ j < 32, IsSet w j → P (word * 32 + j) := by
  refine ⟨fun h word w hw j hj hset ↦ h _ ((inMap_word hj).mpr ⟨w, hw, hset⟩), fun h i hi ↦ ?_⟩
  obtain ⟨w, hw, hset⟩ := hi
  have hP := h (i / 32) w hw (i % 32) (mod_lt _ (by decide)) hset
  rwa [div_add_mod'] at hP

theorem not_inMap_replicate (n i : ℕ) : ¬ InMap (List.replicate n 0) i := by
  rintro ⟨w, hw, hset⟩
  obtain rfl := List.eq_of_mem_replicate (List.mem_of_getElem? hw)
  exact not_isSet_zero _ hset

theorem inMap_set_or (hw : ws[word]? = some w) (hj : j < 32) :
    InMap (ws.set word (w ||| mask j)) i ↔ InMap ws i ∨ i = word * 32 + j := by
  have hlt := (List.getElem?_eq_some_iff.mp hw).1
  have hmod : i % 32 < 32 := mod_lt _ (by decide)
  by_cases hword : i / 32 = word
  · subst hword
    simp only [InMap, List.getElem?_set_self hlt, hw, Option.some.injEq, exists_eq_left',
      isSet_or_mask hj hmod]
    refine or_congr_right ?_
    omega
  · simp only [InMap, List.getElem?_set_ne (Ne.symm hword)]
    refine (or_iff_left ?_).symm
    omega

theorem inMap_set_and (hw : ws[word]? = some w) (hj : j < 32) :
    InMap (ws.set word (w &&& ~~~mask j)) i ↔ InMap ws i ∧ i ≠ word * 32 + j := by
  have hlt := (List.getElem?_eq_some_iff.mp hw).1
  have hmod : i % 32 < 32 := mod_lt _ (by decide)
  by_cases hword : i / 32 = word
  · subst hword
    simp only [InMap, List.getElem?_set_self hlt, hw, Option.some.injEq, exists_eq_left',
      isSet_and_not_mask hj hmod]
    refine and_congr_right fun _ ↦ ?_
    omega
  · simp only [InMap, List.getElem?_set_ne (Ne.symm hword)]
    refine (and_iff_left ?_).symm
    omega

variable {a b f m : UInt32}

theorem field_clear (h : m &&& f = f) : (a &&& m) &&& f = a &&& f := by
  rw [UInt32.and_assoc, h]

theorem field_set (h : b &&& f = 0) : (a ||| b) &&& f = a &&& f := by
  rw [UInt32.and_or_distrib_right, h, UInt32.or_zero]

theorem and_mask_shiftLeft (n j k : ℕ) : n &&& (2 ^ k - 1) <<< j = n / 2 ^ j % 2 ^ k * 2 ^ j := by
  have hshift : n / 2 ^ j % 2 ^ k * 2 ^ j = ((n >>> j) &&& (2 ^ k - 1)) <<< j := by
    rw [shiftLeft_eq, and_two_pow_sub_one_eq_mod, shiftRight_eq_div_pow]
  rw [hshift]
  refine eq_of_testBit_eq fun i ↦ ?_
  rw [testBit_and, testBit_shiftLeft, testBit_shiftLeft, testBit_and,
    testBit_shiftRight]
  by_cases hi : j ≤ i
  · rw [Nat.add_sub_cancel' hi]
    simp [hi]
  · simp [hi]

theorem toNat_lowByte (a : UInt32) : (a &&& 0xFF).toNat = a.toNat % 256 := by
  rw [UInt32.toNat_and]
  exact and_two_pow_sub_one_eq_mod a.toNat 8

theorem shiftLeft_lowByte {k : UInt32} (hk : 8 ≤ k.toNat) (hk' : k.toNat < 32) :
    (a <<< k) &&& 0xFF = 0 := by
  obtain ⟨j, hj⟩ : ∃ j, k.toNat = 8 + j := ⟨k.toNat - 8, by omega⟩
  rw [← UInt32.toNat_inj, toNat_lowByte, UInt32.toNat_shiftLeft, mod_eq_of_lt hk', hj,
    shiftLeft_eq, pow_add, mod_mod_of_dvd _ (by decide), mul_left_comm]
  exact mul_mod_right 256 _

end Bits
