import ForgeOS.Vsprintf.Format

/-!
# Decimal conversions

`%d`, `%ld` and `%lld` fetch their argument as an unsigned number, and `number` then takes the sign
from its 64 bits.

The main result is `writes_decimal_iff`.
-/

namespace ForgeOS.Vsprintf

open List

variable {strings : UInt32 → List Char} {args : ℕ → UInt32} {q : Char} {u : List Char}
  {d : Directive}

def written (strings : UInt32 → List Char) (args : ℕ → UInt32) (q : Char) (u : List Char) :
    Option (List Char) :=
  (vsprintf strings args q ('%' :: u ++ [nul])).map fun r ↦ r.2.text

theorem written_eq (h : parse u = some (d, [])) : written strings args q u =
    (directive strings args ⟨⟨[], 0, []⟩, q⟩ d).map fun s ↦ s.text := by
  have hreads : Reads [nul] ('%' :: u ++ [nul]) [.conv d] :=
    .conv (local_parse.append [nul] h) .nil
  rw [written, vsprintf_eq hreads]
  simp only [Run.exec, act, Option.bind_fun_some, Option.map_map]
  rfl

def decimal (x : ℤ) : List Char := (if x < 0 then ['-'] else []) ++ Nat.toDigits 10 x.natAbs

theorem decimal_inj {x y : ℤ} : decimal x = decimal y ↔ x = y := by
  refine ⟨fun h ↦ ?_, congrArg decimal⟩
  have hdash : ∀ {l : List Char} {n}, '-' :: l ≠ Nat.toDigits 10 n := fun {l n} h ↦
    absurd (Nat.isDigit_of_mem_toDigits (by decide) le_rfl (h ▸ mem_cons_self)) (by decide)
  have hnat : ∀ {m n}, Nat.toDigits 10 m = Nat.toDigits 10 n → m = n := fun {m n} h ↦ by
    rw [← @Nat.ofDigitChars_ten_toDigits m, h, Nat.ofDigitChars_ten_toDigits]
  unfold decimal at h
  split_ifs at h
  · have := hnat (append_cancel_left h)
    omega
  · exact absurd h hdash
  · exact absurd h.symm hdash
  · have := hnat h
    omega

theorem digitsOf_ten {small : Bool} (n : ℕ) : digitsOf small 10 n = Nat.toDigits 10 n := by
  have hupper : ∀ c ∈ Nat.toDigits 10 n, (if small then c else c.toUpper) = c := fun c hc ↦ by
    obtain ⟨k, hk, rfl⟩ := exists_of_mem_toDigits (by decide) hc
    cases small <;> interval_cases k <;> rfl
  rw [digitsOf, map_congr_left hupper, map_id']

theorem number_decimal (x : UInt64) :
    number x 10 unset unset { sign := true } = some (decimal x.toInt64.toInt) := by
  have hneg : negative x { sign := true } = decide (x.toInt64.toInt < 0) := by
    have hlt := x.toNat_lt
    rw [toInt_toInt64]
    split <;> simp [negative] <;> omega
  rw [number_eq (by decide), digitsOf_ten]
  simp [layout, bodyLength, signOf, specialOf, decimal, hneg, magnitude]

theorem written_integer {c : Char} (hc : c = 'd' ∨ c = 'i') {qualifier : Option Char} {ll : Bool}
    (h : parse u = some (⟨{}, .none, none, qualifier, ll, c⟩, [])) :
    written strings args q u = some (decimal
      (integer args qualifier (if ll then 'l' else q)).1.toInt64.toInt) := by
  rw [written_eq h]
  rcases hc with rfl | rfl <;>
    simp [directive, convert, convInteger, widthOf, precisionOf, Amount.words, number_decimal]

/-- **What the decimal conversions write.**  A `long` is fetched as a `long long` if `qualifier2`
happens to be `'l'`. -/
theorem writes_decimal_iff (strings : UInt32 → List Char) (args : ℕ → UInt32) (q c : Char)
    (hc : c = 'd' ∨ c = 'i') :
    (written strings args q [c] = some (decimal (args 0).toInt32.toInt) ↔
      0 ≤ (args 0).toInt32.toInt) ∧
    (written strings args q ['l', c] = some (decimal (args 0).toInt32.toInt) ↔
      if q = 'l' then args 1 = if (args 0).toInt32.toInt < 0 then 0xFFFFFFFF else 0
      else 0 ≤ (args 0).toInt32.toInt) ∧
    written strings args q ['l', 'l', c] =
      some (decimal (UInt64.ofNat ((args 0).toNat + 2 ^ 32 * (args 1).toNat)).toInt64.toInt) := by
  have hlt := (args 0).toNat_lt
  have hlt' := (args 1).toNat_lt
  have hint : (args 0).toInt32.toInt = if 2 * (args 0).toNat < 2 ^ 32 then ((args 0).toNat : ℤ)
      else ((args 0).toNat : ℤ) - 2 ^ 32 := BitVec.toInt_eq_toNat_cond (args 0).toBitVec
  have hword : (args 0).toUInt64.toInt64.toInt = (args 0).toNat := by
    rw [toInt_toInt64, UInt32.toNat_toUInt64, if_pos (by omega)]
  have hlong : (UInt64.ofNat ((args 0).toNat + 2 ^ 32 * (args 1).toNat)).toNat =
      (args 0).toNat + 2 ^ 32 * (args 1).toNat := by
    rw [UInt64.toNat_ofNat', Nat.mod_eq_of_lt (by omega)]
  have hparse : parse [c] = some (⟨{}, .none, none, none, false, c⟩, []) ∧
      parse ['l', c] = some (⟨{}, .none, none, some 'l', false, c⟩, []) ∧
      parse ['l', 'l', c] = some (⟨{}, .none, none, some 'l', true, c⟩, []) := by
    rcases hc with rfl | rfl <;> decide
  refine ⟨?_, ?_, ?_⟩
  · rw [written_integer hc hparse.1]
    simp only [integer, Option.some.injEq, decimal_inj]
    rw [if_neg (by simp), hword]
    omega
  · rw [written_integer hc hparse.2.1]
    simp only [integer, Option.some.injEq, decimal_inj, true_and, if_neg Bool.false_ne_true]
    split
    · rw [toInt_toInt64, hlong, ← UInt32.toNat_inj]
      split_ifs <;> simp <;> omega
    · rw [hword]
      omega
  · rw [written_integer hc hparse.2.2]
    simp only [integer, if_true, and_self]

theorem writes_decimal_iff_five : written (fun _ ↦ []) (fun _ ↦ 5) nul ['d'] = some (decimal 5) :=
  (writes_decimal_iff (fun _ ↦ []) (fun _ ↦ 5) nul 'd' (.inl rfl)).1.mpr (by decide)

/-- `-1` is written as if it were unsigned. -/
theorem written_minusOne : decimal (0xFFFFFFFF : UInt32).toInt32.toInt = "-1".toList ∧
    written (fun _ ↦ []) (fun _ ↦ 0xFFFFFFFF) nul ['d'] = some "4294967295".toList := by
  decide

end ForgeOS.Vsprintf
