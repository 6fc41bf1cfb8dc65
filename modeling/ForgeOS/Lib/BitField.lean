import Mathlib.Algebra.Order.Ring.Nat

/-!
# Fields of a word

A field is a number of adjacent bits of a 32-bit word, like a bit-field of a C structure.
-/

structure BitField where
  lo : ℕ
  width : ℕ
  fits : lo + width ≤ 32

namespace BitField

open Nat

def get (f : BitField) (w : UInt32) : ℕ := w.toNat / 2 ^ f.lo % 2 ^ f.width

/-- The word with `v` assigned to the field; bits of `v` that do not fit are lost. -/
def set (f : BitField) (w : UInt32) (v : ℕ) : UInt32 :=
  UInt32.ofNat (w.toNat / 2 ^ (f.lo + f.width) * 2 ^ (f.lo + f.width) +
    v % 2 ^ f.width * 2 ^ f.lo + w.toNat % 2 ^ f.lo)

def Apart (f g : BitField) : Prop := f.lo + f.width ≤ g.lo ∨ g.lo + g.width ≤ f.lo

def Within (f g : BitField) : Prop := g.lo ≤ f.lo ∧ f.lo + f.width ≤ g.lo + g.width

instance (f g : BitField) : Decidable (Apart f g) := inferInstanceAs (Decidable (_ ∨ _))

instance (f g : BitField) : Decidable (Within f g) := inferInstanceAs (Decidable (_ ∧ _))

variable (f g : BitField) (w : UInt32) (v : ℕ)

theorem assigned_lt : v % 2 ^ f.width * 2 ^ f.lo + w.toNat % 2 ^ f.lo < 2 ^ (f.lo + f.width) := by
  have hlow : w.toNat % 2 ^ f.lo < 2 ^ f.lo := mod_lt _ (Nat.two_pow_pos _)
  have hval : (v % 2 ^ f.width + 1) * 2 ^ f.lo ≤ 2 ^ (f.lo + f.width) := by
    rw [Nat.pow_add, Nat.mul_comm (2 ^ f.lo)]
    exact Nat.mul_le_mul_right _ (mod_lt _ (Nat.two_pow_pos _))
  rw [Nat.add_one_mul] at hval
  omega

theorem toNat_set : (f.set w v).toNat = w.toNat / 2 ^ (f.lo + f.width) * 2 ^ (f.lo + f.width) +
    v % 2 ^ f.width * 2 ^ f.lo + w.toNat % 2 ^ f.lo := by
  have hassigned := f.assigned_lt w v
  -- The bits above the field leave room for one more of them.
  have hhigh : (w.toNat / 2 ^ (f.lo + f.width) + 1) * 2 ^ (f.lo + f.width) ≤ 2 ^ 32 := by
    have hsplit : 2 ^ 32 = 2 ^ (32 - (f.lo + f.width)) * 2 ^ (f.lo + f.width) := by
      rw [← Nat.pow_add, Nat.sub_add_cancel f.fits]
    rw [hsplit]
    refine Nat.mul_le_mul_right _ (Nat.div_lt_of_lt_mul ?_)
    rw [Nat.mul_comm, ← hsplit]
    exact w.toNat_lt
  rw [set, UInt32.toNat_ofNat', mod_eq_of_lt]
  rw [Nat.add_one_mul] at hhigh
  omega

@[simp] theorem get_set : f.get (f.set w v) = v % 2 ^ f.width := by
  have hlow : w.toNat % 2 ^ f.lo < 2 ^ f.lo := mod_lt _ (Nat.two_pow_pos _)
  have hshape : w.toNat / 2 ^ (f.lo + f.width) * 2 ^ (f.lo + f.width) + v % 2 ^ f.width * 2 ^ f.lo =
      (w.toNat / 2 ^ (f.lo + f.width) * 2 ^ f.width + v % 2 ^ f.width) * 2 ^ f.lo := by
    rw [add_mul, mul_assoc, ← Nat.pow_add, add_comm f.width]
  rw [get, toNat_set, hshape, Nat.mul_comm _ (2 ^ f.lo), mul_add_div (Nat.two_pow_pos _),
    div_eq_of_lt hlow, add_zero, mul_add_mod_self_right, mod_mod]

variable {f g}

theorem get_eq_of_mod {x y : UInt32} {n : ℕ} (hn : f.lo + f.width ≤ n)
    (h : x.toNat % 2 ^ n = y.toNat % 2 ^ n) : f.get x = f.get y := by
  have hget : ∀ z : UInt32, f.get z = z.toNat % 2 ^ n / 2 ^ f.lo % 2 ^ f.width := by
    intro z
    rw [get, ← mod_mul_right_div_self, ← mod_mul_right_div_self, ← Nat.pow_add,
      mod_mod_of_dvd _ (pow_dvd_pow 2 hn)]
  rw [hget, hget, h]

theorem get_eq_of_div {x y : UInt32} {n : ℕ} (hn : n ≤ f.lo)
    (h : x.toNat / 2 ^ n = y.toNat / 2 ^ n) : f.get x = f.get y := by
  have hget : ∀ z : UInt32, f.get z = z.toNat / 2 ^ n / 2 ^ (f.lo - n) % 2 ^ f.width := by
    intro z
    rw [get, Nat.div_div_eq_div_mul, ← Nat.pow_add, Nat.add_sub_cancel' hn]
  rw [hget, hget, h]

theorem get_set_of_apart (h : Apart f g) : g.get (f.set w v) = g.get w := by
  rcases h with hbelow | habove
  · refine get_eq_of_div hbelow ?_
    rw [toNat_set, add_assoc, Nat.mul_comm, mul_add_div (Nat.two_pow_pos _),
      div_eq_of_lt (f.assigned_lt w v), add_zero]
  · refine get_eq_of_mod habove ?_
    rw [toNat_set, Nat.pow_add, Nat.mul_comm (2 ^ f.lo), ← mul_assoc, ← add_mul,
      mul_add_mod_self_right, mod_mod]

theorem get_of_within (h : Within f g) (w : UInt32) :
    f.get w = g.get w / 2 ^ (f.lo - g.lo) % 2 ^ f.width := by
  obtain ⟨hlo, hend⟩ := h
  have hsplit : 2 ^ g.width =
      2 ^ (f.lo - g.lo + f.width) * 2 ^ (g.lo + g.width - (f.lo + f.width)) := by
    rw [← Nat.pow_add]
    congr 1
    omega
  rw [get, get, ← mod_mul_right_div_self _ (2 ^ (f.lo - g.lo)), ← Nat.pow_add, hsplit,
    mod_mul_right_mod, Nat.pow_add, mod_mul_right_div_self, Nat.div_div_eq_div_mul,
    ← Nat.pow_add, Nat.add_sub_cancel' hlo]

end BitField
