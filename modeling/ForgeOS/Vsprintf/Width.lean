import ForgeOS.Vsprintf.Compose
import ForgeOS.Vsprintf.Decimal

/-!
# Field widths

The width is kept as an `int` in which −1 stands for none, so it has to be below 2³² − 1.

The main result is `width_iff`.
-/

namespace ForgeOS.Vsprintf

open List Reader Option Nat

variable {strings : UInt32 → List Char} {args : ℕ → UInt32} {q c : Char} {fl u r t : List Char}
  {flags flags' : Flags} {d : Directive} {n w : ℕ} {width : Amount}

/-- The rest of a directive, from behind its flags and its width. -/
structure Tail (u : List Char) (d : Directive) : Prop where
  head : ∃ c ∈ u.head?, c ∉ "-+ #0*".toList ∧ c.isDigit = false
  parse : parse u = some (d, [])

theorem setFlag_eq_none : setFlag flags c = none ↔ c ∉ "-+ #0".toList := by
  unfold setFlag
  split <;> simp_all

theorem exec_addDigit (n : ℕ) : Run.exec addDigit 0 (toDigits 10 n) = some (n % wordSize) := by
  have hdigit : ∀ {i k}, k < 10 → addDigit i k.digitChar = some ((i * 10 + k) % wordSize) :=
    fun {i k} hk ↦ by
      interval_cases k <;> rfl
  induction n using Nat.strong_induction_on with
  | _ n ih =>
    rw [toDigits_eq_if (by decide)]
    split
    next hlt => simp [Run.exec, hdigit hlt]
    next hle =>
      rw [Run.exec_append, ih (n / 10) (by omega)]
      simp only [Run.exec, bind_some, hdigit (mod_lt n (by decide))]
      unfold wordSize
      congr 1
      omega

theorem head_toDigits (hn : n ≠ 0) : ∃ x xs, toDigits 10 n = x :: xs ∧ x.isDigit ∧ x ≠ '0' := by
  induction n using Nat.strong_induction_on with
  | _ n ih =>
    rw [toDigits_eq_if (by decide)]
    split
    next hlt => exact ⟨_, [], rfl, by interval_cases n <;> simp_all⟩
    next hle =>
      obtain ⟨x, xs, hx, h⟩ := ih (n / 10) (by omega) (by omega)
      exact ⟨x, xs ++ [(n % 10).digitChar], by rw [hx, cons_append], h⟩

theorem readAmount_digits (hc : c.isDigit = false) :
    readAmount (toDigits 10 n ++ c :: r) = some (.digits (n % wordSize), c :: r) := by
  obtain ⟨x, xs, hx⟩ := exists_cons_of_ne_nil (@Nat.toDigits_ne_nil n 10)
  have hdigit := isDigit_of_mem_toDigits (by decide) le_rfl (hx ▸ mem_cons_self)
  have hscan := @scan_append _ _ addDigit _ _ _ r c (exec_addDigit n) (by simp [addDigit, hc])
  rw [hx, cons_append] at hscan ⊢
  rw [readAmount, if_pos hdigit, skipAtoi, hscan]
  rfl

theorem parse_flags (hfl : Run.exec setFlag {} fl = some flags) (hc : c ∉ "-+ #0".toList) :
    parse (fl ++ c :: r) = (readAmount (c :: r)).bind fun x ↦ readRest flags x.1 x.2 := by
  rw [parse, readFlags, scan_append hfl (setFlag_eq_none.mpr hc)]
  rfl

theorem parse_none (hfl : Run.exec setFlag {} fl = some flags) (hc : c ∉ "-+ #0*".toList)
    (hdigit : c.isDigit = false) : parse (fl ++ c :: r) = readRest flags .none (c :: r) := by
  rw [parse_flags hfl (by simp_all), readAmount, if_neg (by simp [hdigit]), if_neg (by simp_all)]
  rfl

theorem parse_digits (hfl : Run.exec setFlag {} fl = some flags) (hw : w ≠ 0)
    (hdigit : c.isDigit = false) :
    parse (fl ++ toDigits 10 w ++ c :: r) = readRest flags (.digits (w % wordSize)) (c :: r) := by
  obtain ⟨x, xs, hx, hxdigit, hx0⟩ := head_toDigits hw
  have hamount := @readAmount_digits c r w hdigit
  rw [hx, cons_append] at hamount
  rw [append_assoc, hx, cons_append, parse_flags hfl, hamount]
  · rfl
  · intro hmem
    have hmem : x ∈ ['-', '+', ' ', '#', '0'] := hmem
    simp only [mem_cons, not_mem_nil, or_false] at hmem
    rcases hmem with rfl | rfl | rfl | rfl | rfl
    iterate 4 exact absurd hxdigit (by decide)
    exact hx0 rfl

theorem readRest_eq : readRest flags width u =
    (readRest {} .none u).map fun x ↦ ({ x.1 with flags := flags, width := width }, x.2) := by
  simp only [readRest, bind_eq_bind, map_bind, Function.comp_def, map_some]

theorem Tail.exists_cons (hu : Tail u d) : ∃ c r, u = c :: r ∧ c ∉ "-+ #0*".toList ∧
    c.isDigit = false ∧ Vsprintf.readRest {} .none (c :: r) = some (d, []) := by
  obtain ⟨c, hc, hmem, hdigit⟩ := hu.head
  cases u with
  | nil => cases hc
  | cons x r =>
    obtain rfl := some.inj hc
    exact ⟨x, r, rfl, hmem, hdigit, (@parse_none x [] r {} rfl hmem hdigit).symm.trans hu.parse⟩

theorem Tail.parse_none (hu : Tail u d) (hfl : Run.exec setFlag {} fl = some flags) :
    Vsprintf.parse (fl ++ u) = some ({ d with flags := flags, width := .none }, []) := by
  obtain ⟨c, r, rfl, hc, hdigit, hrest⟩ := hu.exists_cons
  rw [Vsprintf.parse_none hfl hc hdigit, readRest_eq, hrest]
  rfl

theorem Tail.parse_width (hu : Tail u d) (hfl : Run.exec setFlag {} fl = some flags) (w : ℕ) :
    ∃ width zeropad, Vsprintf.parse (fl ++ toDigits 10 w ++ u) = some ({ d with
      flags := { flags with zeropad := zeropad }, width := width }, []) ∧
      (w = 0 ∧ width = .none ∨ w ≠ 0 ∧ width = .digits (w % wordSize)) := by
  by_cases hw : w = 0
  · subst hw
    have hfl' : Run.exec setFlag {} (fl ++ ['0']) = some { flags with zeropad := true } := by
      rw [Run.exec_append, hfl]
      rfl
    exact ⟨_, true, hu.parse_none hfl', .inl ⟨rfl, rfl⟩⟩
  · refine ⟨.digits (w % wordSize), flags.zeropad, ?_, .inr ⟨hw, rfl⟩⟩
    obtain ⟨c, r, rfl, -, hdigit, hrest⟩ := hu.exists_cons
    rw [parse_digits hfl hw hdigit, readRest_eq, hrest]
    rfl

variable {pos fieldWidth precision : ℕ} {qualifier : Option Char}

def effective (fieldWidth : ℕ) : ℕ := if fieldWidth = unset then 0 else fieldWidth

theorem length_convInteger {base : ℕ} (hbase : base = 8 ∨ base = 10 ∨ base = 16) (flags : Flags) :
    ∃ k, ∀ fieldWidth zeropad, (convInteger args { flags with zeropad := zeropad } fieldWidth
      precision qualifier q base).map (·.text.length) = some (max (effective fieldWidth) k) := by
  refine ⟨bodyLength (integer args qualifier q).1 base (if precision = unset then 0 else precision)
    flags (digitsOf flags.small base (magnitude (integer args qualifier q).1 flags)),
    fun fieldWidth zeropad ↦ ?_⟩
  rw [convInteger, number_eq hbase, map_some, map_some, length_layout]
  rfl

theorem padPost_fst {len : ℕ} : (padPost len fieldWidth).1 = replicate (fieldWidth - len) ' ' := by
  induction fieldWidth with
  | zero => simp [padPost]
  | succ fieldWidth ih =>
    rw [padPost]
    split
    next hlt => rw [ih, Nat.sub_add_comm (by omega), replicate_succ]
    next hle => rw [Nat.sub_eq_zero_of_le (by omega), replicate_zero]

theorem padPost_snd {len : ℕ} :
    (padPost len fieldWidth).2 ≤ len ∨ (padPost len fieldWidth).2 = unset := by
  induction fieldWidth with
  | zero => exact .inr rfl
  | succ fieldWidth ih =>
    rw [padPost]
    split
    · exact ih
    · exact .inl (by omega)

/-- A string, cut off at the precision. -/
def cut (precision : ℕ) (s : List Char) : List Char :=
  s.take (if precision ≠ unset ∧ s.length > precision then precision else s.length)

theorem length_cut (s : List Char) : (cut precision s).length =
    if precision ≠ unset ∧ s.length > precision then precision else s.length := by
  refine length_take_of_le ?_
  split <;> omega

/-- A string has spaces on one side. -/
theorem convString_eq (flags : Flags) (fieldWidth : ℕ) (s : List Char) :
    convString flags fieldWidth precision s =
      (if flags.left then [] else replicate (effective fieldWidth - (cut precision s).length) ' ') ++
        cut precision s ++
        if flags.left then replicate (effective fieldWidth - (cut precision s).length) ' ' else [] := by
  unfold convString effective
  rw [length_cut]
  dsimp only
  rw [← show cut precision s = s.take _ from rfl]
  generalize (if precision ≠ unset ∧ s.length > precision then precision else s.length) = len
  have hsnd := @padPost_snd fieldWidth len
  by_cases hunset : fieldWidth = unset
  · simp [hunset]
  cases flags.left
  · have hafter : (if (padPost len fieldWidth).2 ≠ 0 ∧ (padPost len fieldWidth).2 ≠ unset then
        (padPost len (padPost len fieldWidth).2).1 else []) = [] := by
      split
      · rw [padPost_fst, Nat.sub_eq_zero_of_le (by omega), replicate_zero]
      · rfl
    rw [if_pos ⟨rfl, hunset⟩, if_neg hunset, hafter, padPost_fst]
    rfl
  · have hafter : (if fieldWidth ≠ 0 ∧ fieldWidth ≠ unset then (padPost len fieldWidth).1 else []) =
        replicate (fieldWidth - len) ' ' := by
      split
      · rw [padPost_fst]
      · next hzero =>
        obtain rfl : fieldWidth = 0 := by simp_all
        rw [Nat.zero_sub, replicate_zero]
    rw [if_neg (by simp), if_neg hunset, hafter]
    rfl

theorem length_convString (flags : Flags) (s : List Char) (fieldWidth : ℕ) (zeropad : Bool) :
    (convString { flags with zeropad := zeropad } fieldWidth precision s).length =
      max (effective fieldWidth) (cut precision s).length := by
  rw [convString_eq]
  cases flags.left <;> simp <;> omega

theorem length_convert (hc : c ∈ "sduxo".toList) (flags : Flags) : ∃ k, ∀ fieldWidth zeropad,
    (convert strings args pos { flags with zeropad := zeropad } fieldWidth precision qualifier q
      c).map (·.text.length) = some (max (effective fieldWidth) k) := by
  simp at hc
  rcases hc with rfl | rfl | rfl | rfl | rfl
  · exact ⟨_, fun fieldWidth zeropad ↦ congrArg some (length_convString flags _ fieldWidth zeropad)⟩
  · exact length_convInteger (by decide) { flags with sign := true }
  · exact length_convInteger (by decide) flags
  · exact length_convInteger (by decide) { flags with small := true }
  · exact length_convInteger (by decide) flags

theorem length_padPre : (padPre fieldWidth).length = wordDec fieldWidth := length_replicate

theorem length_convChar : (convChar flags fieldWidth c).length = if fieldWidth = unset then 1
    else if flags.left then 1 + wordDec fieldWidth else wordDec fieldWidth + wordSize := by
  have hzero : (0 : ℕ) ≠ unset := by
    unfold unset wordSize
    omega
  have hdec : 1 + wordDec 0 = wordSize := by
    unfold wordDec wordSize
    omega
  unfold convChar
  by_cases hunset : fieldWidth = unset
  · simp [hunset]
  cases flags.left
  · simp only [hunset, hzero, ne_eq, not_false_eq_true, and_self, if_true, if_false, length_append,
      length_padPre, length_singleton, Bool.false_eq_true, add_assoc, hdec]
  · simp only [hunset, ne_eq, not_false_eq_true, and_true, reduceCtorEq, if_true, if_false,
      nil_append, length_append, length_padPre, length_singleton]

theorem written_width (hwidth : width ≠ .star)
    (h : parse u = some ({ d with flags := flags, width := width }, [])) :
    written strings args q u =
      (convert strings (fun i ↦ args ((d.precision.getD .none).words + i)) 0 flags
        (widthOf args flags width).1 (precisionOf args d.precision) d.qualifier
        (if d.ll then 'l' else q) d.conv).map Output.text := by
  have hflags : (widthOf args flags width).2 = flags := by cases width <;> simp_all [widthOf]
  rw [written_eq h]
  simp only [directive, Amount.words, if_neg hwidth, zero_add, hflags, Option.map_map]
  rfl

theorem Tail.written_digits (hu : Tail u d) (hfl : Run.exec setFlag {} fl = some flags) (w : ℕ)
    (strings : UInt32 → List Char) (args : ℕ → UInt32) (q : Char) :
    ∃ fieldWidth zeropad, (w = 0 ∧ fieldWidth = unset ∨ w ≠ 0 ∧ fieldWidth = w % wordSize) ∧
      written strings args q (fl ++ toDigits 10 w ++ u) =
        (convert strings (fun i ↦ args ((d.precision.getD .none).words + i)) 0
          { flags with zeropad := zeropad } fieldWidth (precisionOf args d.precision) d.qualifier
          (if d.ll then 'l' else q) d.conv).map Output.text := by
  obtain ⟨width, zeropad, hparse, ⟨hw, rfl⟩ | ⟨hw, rfl⟩⟩ := hu.parse_width hfl w
  · exact ⟨unset, zeropad, .inl ⟨hw, rfl⟩, written_width (by simp) hparse⟩
  · exact ⟨_, zeropad, .inr ⟨hw, rfl⟩, written_width (by simp) hparse⟩

/-- **A width in digits is the width of the output**, except for characters and huge widths. -/
theorem width_iff (strings : UInt32 → List Char) (args : ℕ → UInt32) (q : Char) (w : ℕ)
    (hfl : Run.exec setFlag {} fl = some flags) (hu : Tail u d) (hconv : d.conv ∈ "csduxo".toList)
    (ht : written strings args q (fl ++ u) = some t) :
    (written strings args q (fl ++ toDigits 10 w ++ u)).map length = some (max w t.length) ↔
      if d.conv = 'c' then w = 0 ∨ flags.left ∧ (w < 2 ^ 32 - 1 ∨ w = 2 ^ 32)
      else w < 2 ^ 32 - 1 ∨ w ≤ t.length := by
  obtain ⟨fieldWidth, zeropad, hw, hdigits⟩ := hu.written_digits hfl w strings args q
  have hnone := @written_width strings args q _ flags d .none (by simp) (hu.parse_none hfl)
  rw [ht] at hnone
  rw [hdigits, Option.map_map]
  by_cases hc : d.conv = 'c'
  · rw [hc] at hnone ⊢
    obtain rfl : t = convChar flags unset _ := some.inj hnone
    simp only [convert, map_some, Function.comp_def, length_convChar, if_true,
      some.injEq]
    rcases hw with ⟨rfl, rfl⟩ | ⟨hw, rfl⟩
    · simp
    · unfold wordDec unset wordSize
      cases flags.left <;> simp <;> split <;> omega
  · rw [if_neg hc]
    have hmem : d.conv ∈ "sduxo".toList := by simp_all
    obtain ⟨k, hk⟩ := length_convert hmem flags
    have ht' : t.length = k := by
      have hlen := congrArg (Option.map length) hnone
      rw [Option.map_map] at hlen
      simpa [effective] using some.inj (hlen.trans (hk unset flags.zeropad))
    rw [show length ∘ Output.text = fun o ↦ o.text.length from rfl, hk, some.injEq, ht']
    rcases hw with ⟨rfl, rfl⟩ | ⟨hw, rfl⟩
    · simp [effective]
    · unfold effective unset wordSize
      split <;> omega

theorem width_iff_left : Run.exec setFlag {} ['-'] = some { left := true } ∧
    (written (fun _ ↦ []) (fun _ ↦ 65) nul "-3c".toList).map length = some 3 := by
  have h := (@width_iff ['-'] ['c'] ['A'] { left := true }
    ⟨{}, .none, none, none, false, 'c'⟩ (fun _ ↦ []) (fun _ ↦ 65) nul 3 rfl
    ⟨⟨'c', rfl, by decide, rfl⟩, by decide⟩ (by decide) (by decide)).mpr (by decide)
  exact ⟨rfl, h⟩

/-- `%3c` writes more than four billion spaces. -/
theorem written_char : (written (fun _ ↦ []) (fun _ ↦ 65) nul "3c".toList).map length =
    some (2 ^ 32 + 2) := by
  rw [written_eq (d := ⟨{}, .digits 3, none, none, false, 'c'⟩) (by decide)]
  simp only [directive, convert, map_some, nil_append, length_convChar]
  decide

end ForgeOS.Vsprintf
