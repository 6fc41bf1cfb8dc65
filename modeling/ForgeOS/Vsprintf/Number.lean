import Mathlib.Tactic.IntervalCases
import ForgeOS.Vsprintf.Model

/-!
# What `number` writes

`number` takes the sign, the `SPECIAL` characters and the digits off the width one after the other.
`number_eq` says where what is left of the width ends up.

The main result is `number_lays_out`.
-/

namespace ForgeOS.Vsprintf

open List Nat

variable {small : Bool} {base n room : ℕ} {tmp ds : List Char} {num : UInt64} {type : Flags}
  {size precision : ℕ}

def digitsOf (small : Bool) (base n : ℕ) : List Char :=
  (toDigits base n).map fun c ↦ if small then c else c.toUpper

def readBack (small : Bool) (base : ℕ) (ds : List Char) : ℕ :=
  ds.foldl (fun v c ↦ v * base + (digits small).idxOf c) 0

theorem exists_of_mem_toDigits (hbase : 1 < base) {c : Char} (h : c ∈ toDigits base n) :
    ∃ k < base, c = k.digitChar := by
  induction n using Nat.strong_induction_on with
  | _ n ih =>
    rw [toDigits_eq_if hbase] at h
    split at h
    next hlt => exact ⟨n, hlt, mem_singleton.mp h⟩
    next hle =>
      rcases mem_append.mp h with h | h
      · exact ih _ (div_lt_self (by omega) hbase) h
      · exact ⟨n % base, mod_lt _ (by omega), mem_singleton.mp h⟩

theorem digits_getElem? (hn : n < 16) :
    (digits small)[n]? = some (if small then n.digitChar else n.digitChar.toUpper) := by
  cases small <;> interval_cases n <;> rfl

theorem idxOf_digitChar (hn : n < 16) :
    (digits small).idxOf (if small then n.digitChar else n.digitChar.toUpper) = n := by
  cases small <;> interval_cases n <;> decide

theorem fillTmp_zero : fillTmp small base room 0 tmp = some tmp := by
  cases room <;> rfl

theorem fillTmp_eq (hbase : 1 < base) (hbase' : base ≤ 16) (hn : n ≠ 0) (hroom : n < base ^ room) :
    fillTmp small base room n tmp = some (digitsOf small base n ++ tmp) := by
  induction room generalizing n tmp with
  | zero =>
    rw [pow_zero] at hroom
    omega
  | succ room ih =>
    have hmod : n % base < 16 := lt_of_lt_of_le (mod_lt _ (by omega)) hbase'
    rw [fillTmp, if_neg hn, digits_getElem? hmod, Option.bind_eq_bind, Option.bind_some]
    rw [digitsOf, toDigits_eq_if hbase]
    by_cases hlt : n < base
    · rw [div_eq_of_lt hlt, fillTmp_zero, if_pos hlt, mod_eq_of_lt hlt]
      rfl
    · have hdiv : n / base ≠ 0 := (div_pos (by omega) (by omega)).ne'
      rw [ih hdiv (Nat.div_lt_of_lt_mul (by rwa [← pow_succ'])), if_neg hlt, map_append]
      simp [digitsOf]

theorem readBack_digitsOf (hbase : 1 < base) (hbase' : base ≤ 16) :
    readBack small base (digitsOf small base n) = n := by
  induction n using Nat.strong_induction_on with
  | _ n ih =>
    rw [digitsOf, toDigits_eq_if hbase]
    by_cases hlt : n < base
    · rw [if_pos hlt]
      simp [readBack, idxOf_digitChar (lt_of_lt_of_le hlt hbase')]
    · have hdiv := ih (n / base) (div_lt_self (by omega) hbase)
      have hmod : n % base < 16 := lt_of_lt_of_le (mod_lt _ (by omega)) hbase'
      rw [readBack, digitsOf] at hdiv
      rw [if_neg hlt, map_append, readBack, foldl_append, hdiv, map_singleton, foldl_cons,
        foldl_nil, idxOf_digitChar hmod]
      exact div_add_mod' n base

def magnitude (num : UInt64) (type : Flags) : ℕ :=
  if type.sign then num.toInt64.toInt.natAbs else num.toNat

def bodyLength (num : UInt64) (base precision : ℕ) (type : Flags) (ds : List Char) : ℕ :=
  (signOf num type).length + (specialOf base type).length + max precision ds.length

/-- The digits `ds` in a field.  The padding is spaces before, zeros inside, or spaces behind. -/
def layout (num : UInt64) (base size precision : ℕ) (type : Flags) (ds : List Char) : List Char :=
  let padding := size - bodyLength num base precision type ds
  replicate (if type.left ∨ type.zeropad then 0 else padding) ' ' ++ signOf num type ++
    specialOf base type ++ replicate (if type.zeropad ∧ ¬ type.left then padding else 0) '0' ++
    replicate (max precision ds.length - ds.length) '0' ++ ds ++
    replicate (if type.left then padding else 0) ' '

theorem length_layout : (layout num base size precision type ds).length =
    max size (bodyLength num base precision type ds) := by
  simp only [layout, length_append, length_replicate, bodyLength]
  cases type.left <;> cases type.zeropad <;> simp <;> omega

theorem toInt_toInt64 (x : UInt64) : x.toInt64.toInt =
    if 2 * x.toNat < 2 ^ 64 then (x.toNat : ℤ) else (x.toNat : ℤ) - 2 ^ 64 :=
  BitVec.toInt_eq_toNat_cond x.toBitVec

theorem toNat_magnitude : (if negative num type then -num else num).toNat = magnitude num type := by
  have hlt := num.toNat_lt
  unfold negative magnitude
  rw [toInt_toInt64]
  cases type.sign
  · simp
  by_cases hneg : 2 ^ 63 ≤ num.toNat
  · simp only [hneg, decide_true, Bool.and_self, if_true, UInt64.toNat_neg, UInt64.size]
    rw [if_neg (by omega)]
    omega
  · simp only [hneg, decide_false, Bool.and_false, if_true]
    rw [if_neg Bool.false_ne_true]
    omega

theorem length_specialOf : (specialOf base type).length =
    if type.special then (if base = 16 then 2 else if base = 8 then 1 else 0) else 0 := by
  have h33 : ((digits type.small)[33]?).toList.length = 1 := by cases type.small <;> rfl
  unfold specialOf
  by_cases h8 : base = 8
  · simp [h8, apply_ite length]
  · simp [h8, h33, apply_ite length]

theorem sizeBehind_sub {k : ℕ} (hk : 0 < k) {sign : List Char} (hsign : sign.length ≤ 1) :
    (if sizeBehind size base type sign > k then sizeBehind size base type sign - k else 0) =
      size - (sign.length + (specialOf base type).length + k) := by
  have hnil : sign ≠ [] ↔ sign.length = 1 := by
    rw [← length_pos_iff]
    omega
  rw [length_specialOf]
  simp only [sizeBehind, hnil]
  split_ifs <;> omega

theorem length_signOf_le : (signOf num type).length ≤ 1 := by
  unfold signOf
  split
  · rfl
  split
  · rfl
  split <;> simp

theorem tmpOf_eq (hbase : base = 8 ∨ base = 10 ∨ base = 16) :
    tmpOf small base num = some (digitsOf small base num.toNat) := by
  have hlt := num.toNat_lt
  unfold tmpOf
  split
  next hzero =>
    subst hzero
    rw [UInt64.toNat_zero, digitsOf, toDigits_zero]
    cases small <;> rfl
  next hne =>
    have hpow : 2 ^ 64 ≤ base ^ 36 := by rcases hbase with rfl | rfl | rfl <;> decide
    rw [fillTmp_eq (by omega) (by omega) (by simpa [← UInt64.toNat_inj] using hne) (by omega),
      append_nil]

theorem length_digitsOf_pos : 0 < (digitsOf small base n).length := by
  rw [digitsOf, length_map]
  exact length_toDigits_pos

theorem number_eq (hbase : base = 8 ∨ base = 10 ∨ base = 16) :
    number num base size precision type = some (layout num base (if size = unset then 0 else size)
      (if precision = unset then 0 else precision) type
      (digitsOf type.small base (magnitude num type))) := by
  have hmax : ∀ i p : ℕ, (if i > p then i else p) = max p i := fun i p ↦ by
    split <;> omega
  have hpos := fun p ↦ lt_of_lt_of_le (@length_digitsOf_pos type.small base (magnitude num type))
    (le_max_right p _)
  unfold number
  rw [if_neg (by omega)]
  simp only [tmpOf_eq hbase, toNat_magnitude, Option.map_some, hmax,
    sizeBehind_sub (hpos _) length_signOf_le]
  cases hleft : type.left <;> cases hzero : type.zeropad <;> simp [layout, bodyLength, hleft, hzero]

theorem number_isSome (hbase : base = 8 ∨ base = 10 ∨ base = 16) :
    (number num base size precision type).isSome := by
  rw [number_eq hbase]
  rfl

theorem signOf_eq (num : UInt64) (type : Flags) : signOf num type =
    if type.sign ∧ num.toInt64.toInt < 0 then ['-']
    else if type.plus then ['+'] else if type.space then [' '] else [] := by
  have hneg : negative num type = true ↔ type.sign = true ∧ num.toInt64.toInt < 0 := by
    have hlt := num.toNat_lt
    rw [negative, Bool.and_eq_true, decide_eq_true_iff, toInt_toInt64]
    refine and_congr_right fun _ ↦ ?_
    split <;> omega
  simp only [signOf, hneg]

theorem specialOf_eq (base : ℕ) (type : Flags) : specialOf base type =
    if type.special ∧ base = 8 then ['0']
    else if type.special ∧ base = 16 then ['0', if type.small then 'x' else 'X'] else [] := by
  rw [specialOf]
  cases type.special <;> cases type.small <;> simp [digits]

/-- **`number` lays out the digits of the number in its field**, behind the sign and the prefix, and
they fit into its buffer. -/
theorem number_lays_out (num : UInt64) (type : Flags) (hbase : base = 8 ∨ base = 10 ∨ base = 16)
    (hsize : size < 2 ^ 31) (hprecision : precision < 2 ^ 31) :
    let ds := digitsOf type.small base (magnitude num type)
    number num base size precision type = some (layout num base size precision type ds) ∧
      (signOf num type = if type.sign ∧ num.toInt64.toInt < 0 then ['-']
        else if type.plus then ['+'] else if type.space then [' '] else []) ∧
      (specialOf base type = if type.special ∧ base = 8 then ['0']
        else if type.special ∧ base = 16 then ['0', if type.small then 'x' else 'X'] else []) ∧
      readBack type.small base ds = magnitude num type ∧
      (layout num base size precision type ds).length =
        max size ((signOf num type).length + (specialOf base type).length +
          max precision ds.length) := by
  refine ⟨?_, signOf_eq num type, specialOf_eq base type, readBack_digitsOf (by omega) (by omega),
    length_layout⟩
  rw [number_eq hbase, if_neg, if_neg]
  all_goals
    unfold unset wordSize
    omega

theorem number_lays_out_minus : number (-42) 10 6 4 { sign := true } = some " -0042".toList := by
  have h := (@number_lays_out 10 6 4 (-42) { sign := true } (.inr (.inl rfl)) (by decide)
    (by decide)).1
  exact h.trans (by decide)

end ForgeOS.Vsprintf
