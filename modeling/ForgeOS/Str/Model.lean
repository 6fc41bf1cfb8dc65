import ForgeOS.Lib.Word

/-!
# Strings

A string is the list of its characters before the terminator, so a character is a `char` other than
0; `char` is signed.  Where a function reads the terminator, it reads `cur [] = 0`.  The bound of
`strncmp` is decremented after the first comparison and only then tested: with the bound 0 it wraps
around.

The main result is `compares_iff`.
-/

namespace ForgeOS

open List

abbrev CChar := { c : Int8 // c ≠ 0 }

/-- A null-terminated string, without its terminator. -/
abbrev CStr := List CChar

namespace Str

def ofChars (cs : List Char) : CStr :=
  cs.filterMap fun c ↦
    if h : Int8.ofNat c.toNat ≠ 0 then some ⟨Int8.ofNat c.toNat, h⟩ else none

def cur : CStr → Int8
  | [] => 0
  | c :: _ => c

/-- `strlen`, which asserts that the length is not negative as an `int`. -/
def strlen (s : CStr) : Option ℕ :=
  if s.length < 2 ^ 31 then some s.length else none

def strcmp (s1 s2 : CStr) : ℤ :=
  if cur s1 < cur s2 then -1
  else if cur s1 > cur s2 then 1
  else match s1, s2 with
    | _ :: s1, _ :: s2 => strcmp s1 s2
    | _, _ => 0

def strncmp (s1 s2 : CStr) (n : ℕ) : ℤ :=
  if cur s1 < cur s2 then -1
  else if cur s1 > cur s2 then 1
  else match s1, s2 with
    | _ :: s1, _ :: s2 => if wordDec n ≠ 0 then strncmp s1 s2 (wordDec n) else 0
    | _, _ => 0

def strncpy (s2 : CStr) (max : ℕ) : CStr := s2.take max

theorem cur_eq_iff {a b : Int8} : ¬ a < b ∧ ¬ a > b ↔ a = b := by
  constructor
  · rintro ⟨hab, hba⟩
    exact Int8.le_antisymm (Int8.not_lt.mp hba) (Int8.not_lt.mp hab)
  · rintro rfl
    exact ⟨Int8.lt_irrefl, Int8.lt_irrefl⟩

variable {a b : CChar} {s t : CStr} {n : ℕ}

theorem compare_eq_zero {x y : Int8} {r : ℤ} :
    (if x < y then -1 else if x > y then 1 else r) = 0 ↔ x = y ∧ r = 0 := by
  rw [← cur_eq_iff]
  split
  · simp [*]
  split
  · simp [*]
  · simp [*]

theorem strcmp_eq_zero : strcmp s t = 0 ↔ s = t := by
  induction s generalizing t with
  | nil =>
    cases t with
    | nil => simp [strcmp, cur, Int8.lt_irrefl]
    | cons b t => simpa [strcmp, compare_eq_zero, cur] using fun h ↦ b.2 h.symm
  | cons a s ih =>
    cases t with
    | nil => simpa [strcmp, compare_eq_zero, cur] using a.2
    | cons b t =>
      unfold strcmp
      rw [compare_eq_zero]
      simp only [cur, ih, cons.injEq, Subtype.ext_iff]

theorem strncmp_eq_strcmp (hn : 0 < n) (hword : n < wordSize) :
    strncmp s t n = strcmp (s.take n) (t.take n) := by
  obtain ⟨n, rfl⟩ : ∃ k, n = k + 1 := ⟨n - 1, by omega⟩
  induction s generalizing t n with
  | nil =>
    cases t with
    | nil => rfl
    | cons b t => rfl
  | cons a s ih =>
    cases t with
    | nil => rfl
    | cons b t =>
      rw [take_succ_cons, take_succ_cons, strncmp, strcmp]
      simp only [cur, wordDec_of_pos hn hword, Nat.add_sub_cancel]
      cases n with
      | zero => rfl
      | succ n =>
        rw [if_pos (Nat.succ_ne_zero n), ih n (by omega) (by omega)]
        rfl

theorem strncmp_eq_zero (hn : 0 < n) (hword : n < wordSize) :
    strncmp s t n = 0 ↔ s.take n = t.take n := by
  rw [strncmp_eq_strcmp hn hword, strcmp_eq_zero]

theorem strncmp_length_eq_zero (ht : t ≠ []) (hword : t.length < wordSize) :
    strncmp s t t.length = 0 ↔ t <+: s := by
  rw [strncmp_eq_zero (length_pos_iff.mpr ht) hword, take_length, prefix_iff_eq_take,
    eq_comm]

theorem strncmp_nil_ne_zero (hs : s ≠ []) (n : ℕ) : strncmp s [] n ≠ 0 := by
  cases s with
  | nil => exact absurd rfl hs
  | cons a s =>
    unfold strncmp
    rw [Ne, compare_eq_zero]
    rintro ⟨ha, -⟩
    exact a.2 ha

theorem strncmp_zero_eq_zero : strncmp s t 0 = 0 ↔ s.take wordSize = t.take wordSize := by
  have hdec : wordDec 0 = wordSize - 1 := rfl
  obtain ⟨k, hk⟩ : ∃ k, wordSize = k + 1 := ⟨wordSize - 1, rfl⟩
  rw [hk, Nat.add_sub_cancel] at hdec
  have hpos : 0 < k := Nat.pos_of_ne_zero fun h ↦ absurd hk (by rw [h]; decide)
  rw [hk]
  cases s with
  | nil =>
    cases t with
    | nil => simp [strncmp, cur, Int8.lt_irrefl]
    | cons b t => simpa [strncmp, compare_eq_zero, cur] using fun h ↦ b.2 h.symm
  | cons a s =>
    cases t with
    | nil => simpa [strncmp, compare_eq_zero, cur] using a.2
    | cons b t =>
      rw [strncmp, compare_eq_zero, hdec]
      simp only [if_pos hpos.ne', strncmp_eq_zero hpos (by omega : k < wordSize), cur,
        take_succ_cons, cons.injEq, Subtype.ext_iff]

theorem strcmp_antisymm (s t : CStr) : strcmp t s = -strcmp s t := by
  have hturn : ∀ (x y : Int8) (r q : ℤ), q = -r → (if y < x then -1 else if y > x then 1 else q) =
      -(if x < y then (-1 : ℤ) else if x > y then 1 else r) := by
    intro x y r q hq
    simp only [gt_iff_lt, Int8.lt_iff_toInt_lt]
    split_ifs <;> omega
  induction s generalizing t with
  | nil =>
    cases t with
    | nil => exact hturn _ _ _ _ rfl
    | cons b t => exact hturn _ _ _ _ rfl
  | cons a s ih =>
    cases t with
    | nil => exact hturn _ _ _ _ rfl
    | cons b t => exact hturn _ _ _ _ (ih t)

/-- What a program that compares strings relies on: `strncmp` with the bound `n` is `strcmp` on the
first `n` characters, and `strcmp` tells equal strings and swaps its sign with its arguments. -/
structure Compares (a b : CStr) (n : UInt32) : Prop where
  bounded : strncmp a b n.toNat = strcmp (a.take n.toNat) (b.take n.toNat)
  eq_zero : strcmp a b = 0 ↔ a = b
  antisymm : strcmp b a = -strcmp a b

/-- **A bound of 0 is no bound**: only the other ones, and strings that do not differ, are compared
as they should be. -/
theorem compares_iff (a b : CStr) (n : UInt32) :
    Compares a b n ↔ n ≠ 0 ∨ a.take wordSize = b.take wordSize := by
  by_cases hn : n = 0
  · subst hn
    have hzero : strcmp (a.take (0 : UInt32).toNat) (b.take (0 : UInt32).toNat) = 0 :=
      strcmp_eq_zero.mpr rfl
    rw [or_iff_right (not_not.mpr rfl), ← strncmp_zero_eq_zero]
    exact ⟨fun h ↦ h.bounded.trans hzero,
      fun h ↦ ⟨h.trans hzero.symm, strcmp_eq_zero, strcmp_antisymm a b⟩⟩
  · have hpos : 0 < n.toNat := Nat.pos_of_ne_zero fun h ↦ hn (UInt32.toNat_inj.mp h)
    exact ⟨fun _ ↦ .inl hn,
      fun _ ↦ ⟨strncmp_eq_strcmp hpos n.toNat_lt, strcmp_eq_zero, strcmp_antisymm a b⟩⟩

/-- **No characters of two strings differ**, but `strncmp` finds one. -/
theorem not_compares_zero : strncmp (ofChars ['a']) (ofChars ['b']) 0 = -1 ∧
    strcmp ((ofChars ['a']).take 0) ((ofChars ['b']).take 0) = 0 ∧
    ¬ Compares (ofChars ['a']) (ofChars ['b']) 0 :=
  ⟨by decide, by decide, fun h ↦ absurd h.bounded (by decide)⟩

end Str
end ForgeOS
