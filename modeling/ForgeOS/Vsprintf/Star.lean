import ForgeOS.Vsprintf.Width

/-!
# Widths and precisions from the arguments

For a star the next argument is taken, but the pointer stays on the star.  So the star is taken for
the conversion, and `%*` and what stands behind it are written as they are.

The main result is `star_iff`: the output is that of the digits only for a string that is this very
text.
-/

namespace ForgeOS.Vsprintf

open List Reader Option

variable {strings : UInt32 → List Char} {args : ℕ → UInt32} {q c : Char} {fl u v r x : List Char}
  {flags : Flags} {d : Directive} {m w : ℕ} {width : Amount}

def widthText (w : ℕ) : List Char := if w = 0 then [] else Nat.toDigits 10 w

theorem parse_star (hfl : Run.exec setFlag {} fl = some flags) :
    parse (fl ++ '*' :: u) = some (⟨flags, .star, none, none, false, '*'⟩, u) := by
  rw [parse_flags hfl (by decide)]
  rfl

theorem parse_dot (hfl : Run.exec setFlag {} fl = some flags) (w : ℕ) :
    ∃ width, (w = 0 ∧ width = .none ∨ w ≠ 0 ∧ width = .digits (w % wordSize)) ∧
      ∀ r, parse (fl ++ widthText w ++ '.' :: r) = readRest flags width ('.' :: r) := by
  unfold widthText
  split
  next hw =>
    refine ⟨.none, .inl ⟨hw, rfl⟩, fun r ↦ ?_⟩
    rw [append_nil, parse_none hfl (by decide) (by decide)]
  next hw => exact ⟨_, .inr ⟨hw, rfl⟩, fun r ↦ parse_digits hfl hw (by decide)⟩

theorem Tail.readRest_precision (hu : Tail u d) (hdot : u.head? ≠ some '.') (m : ℕ) :
    readRest flags width ('.' :: Nat.toDigits 10 m ++ u) = some ({ d with
      flags := flags, width := width, precision := some (.digits (m % wordSize)) }, []) := by
  obtain ⟨c, r, rfl, -, hdigit, hrest⟩ := hu.exists_cons
  have hc : c ≠ '.' := fun h ↦ hdot (congrArg some h)
  have hmap : readRest flags width ('.' :: Nat.toDigits 10 m ++ c :: r) =
      (readRest {} .none (c :: r)).map fun x ↦ ({ x.1 with
        flags := flags, width := width, precision := some (.digits (m % wordSize)) }, x.2) := by
    simp only [readRest, readPrecision, cons_append, if_true, if_neg hc, readAmount_digits hdigit,
      map_some, bind_eq_bind, bind_some, map_bind, Function.comp_def]
  rw [hmap, hrest]
  rfl

def plain (strings : UInt32 → List Char) (args : ℕ → UInt32) (q : Char) (f : List Char) :
    Option (List Char) :=
  (vsprintf strings args q (f ++ [nul])).map fun r ↦ r.2.text

theorem Tail.nul_notMem (hu : Tail u d) : nul ∉ u := fun h ↦
  not_mem_nil (local_parse.stop_mem hu.parse h)

theorem written_star {d : Directive} (hu : nul ∉ u) (h : parse v = some (d, u))
    (hconv : d.conv = '*') (hll : d.ll = false)
    (hwords : d.width.words + (d.precision.getD .none).words = 1) :
    written strings args q v =
      (plain strings (fun i ↦ args (1 + i)) q u).map fun x ↦ '%' :: '*' :: x := by
  obtain ⟨ts, hts⟩ := exists_reads hu
  have hfirst : directive strings args ⟨⟨[], 0, []⟩, q⟩ d = some ⟨⟨['%', '*'], 1, []⟩, q⟩ := by
    simp only [directive, hconv, hll, hwords]
    rfl
  have hrest := @exec_append strings args ts ⟨⟨['%', '*'], 1, []⟩, q⟩ ⟨⟨[], 0, []⟩, q⟩
  have hreads : Reads [nul] ('%' :: v ++ [nul]) (.conv d :: ts) :=
    .conv (local_parse.append [nul] h) hts
  rw [written, vsprintf_eq hreads, plain, vsprintf_eq hts, Run.exec, act, hfirst, bind_some]
  simp only [State.append, append_nil, Nat.add_zero, map_nil] at hrest
  rw [hrest]
  simp only [Option.map_map, Function.comp_def]
  rfl

variable {precision : ℕ}

theorem percent_notMem_layout {num : UInt64} {base size n : ℕ} {type : Flags}
    (hbase : base = 8 ∨ base = 10 ∨ base = 16) :
    '%' ∉ layout num base size precision type (digitsOf type.small base n) := by
  have hsign : '%' ∉ signOf num type := by
    unfold signOf
    split_ifs <;> decide
  have hspecial : '%' ∉ specialOf base type := by
    unfold specialOf
    cases type.small <;> split_ifs <;> decide
  have hdigits : '%' ∉ digitsOf type.small base n := fun h ↦ by
    obtain ⟨c, hc, heq⟩ := mem_map.mp h
    obtain ⟨k, hk, rfl⟩ := exists_of_mem_toDigits (by omega) hc
    have hk' : k < 16 := by omega
    revert heq
    cases type.small <;> interval_cases k <;> decide
  simp [layout, mem_replicate, hsign, hspecial, hdigits]

variable {qualifier : Option Char} {fieldWidth : ℕ} {o : Output}

theorem percent_notMem_convInteger {base : ℕ} (hbase : base = 8 ∨ base = 10 ∨ base = 16)
    (h : convInteger args flags fieldWidth precision qualifier q base = some o) : '%' ∉ o.text := by
  rw [convInteger, number_eq hbase] at h
  cases h
  exact percent_notMem_layout hbase

variable {y : Char}

theorem mem_convChar (h : y ∈ convChar flags fieldWidth c) : y = ' ' ∨ y = c := by
  have hpad : ∀ {p : Prop} [Decidable p] {n : ℕ}, y ∈ (if p then padPre n else []) → y = ' ' :=
    fun h ↦ by
      split at h
      · exact eq_of_mem_replicate h
      · cases h
  rcases mem_append.mp h with h | h
  · rcases mem_append.mp h with h | h
    · exact .inl (hpad h)
    · exact .inr (mem_singleton.mp h)
  · exact .inl (hpad h)

theorem convert_star {pos : ℕ}
    (h : convert strings args pos flags fieldWidth precision qualifier q c = some o)
    (ho : o.text = '%' :: '*' :: x) : c = 's' ∨ c = '*' := by
  have hpercent : '%' ∈ o.text := by simp [ho]
  have hstar : '*' ∈ o.text := by simp [ho]
  unfold convert at h
  split at h
  case h_1 =>
    cases h
    rcases mem_convChar hpercent with h | h
    · exact absurd h (by decide)
    · rw [← h] at hstar
      exact absurd (mem_convChar hstar) (by decide)
  case h_2 => exact .inl rfl
  case h_4 =>
    rw [convPointer, number_eq (by decide)] at h
    cases h
    exact absurd hpercent (percent_notMem_layout (by decide))
  case h_10 =>
    cases h
    simp at hpercent
  case h_11 =>
    cases h
    revert ho
    dsimp only
    split_ifs <;> simp_all
  all_goals exact absurd hpercent (percent_notMem_convInteger (by decide) h)

def widthForm (fl : List Char) (a : UInt32) (u : List Char) : List Char :=
  if a.toNat < 2 ^ 31 then fl ++ Nat.toDigits 10 a.toNat ++ u
  else '-' :: fl ++ Nat.toDigits 10 (2 ^ 32 - a.toNat) ++ u

theorem exists_exec_setFlag {flags' : Flags} (hfl : Run.exec setFlag flags' fl = some flags)
    (flags'' : Flags) : ∃ g, Run.exec setFlag flags'' fl = some g := by
  induction fl generalizing flags' flags'' with
  | nil => exact ⟨flags'', rfl⟩
  | cons c fl ih =>
    obtain ⟨g, hg, hfl⟩ := Run.exec_cons_eq_some.mp hfl
    have hne : setFlag flags'' c ≠ none := fun h ↦ by
      rw [setFlag_eq_none.mpr (setFlag_eq_none.mp h)] at hg
      cases hg
    obtain ⟨g', hg'⟩ := ne_none_iff_exists'.mp hne
    obtain ⟨g'', h⟩ := ih hfl g'
    exact ⟨g'', Run.exec_cons_eq_some.mpr ⟨g', hg', h⟩⟩

/-- Where the conversion is `s`, it stands at the end, and nothing before it is a `%`. -/
theorem Tail.string (hu : Tail u d) (hconv : d.conv = 's') : '%' ∉ u ∧ ∃ k, u = k ++ ['s'] := by
  obtain ⟨c, r, rfl, -, -, hrest⟩ := hu.exists_cons
  simp only [readRest, bind_eq_bind, bind_eq_some_iff] at hrest
  obtain ⟨⟨precision, f₁⟩, h₁, ⟨qualifier, f₂⟩, h₂, ⟨ll, f₃⟩, h₃, ⟨conv, f₄⟩, h₄, heq⟩ := hrest
  obtain ⟨rfl, rfl⟩ := Prod.mk.inj (some.inj heq)
  obtain rfl : conv = 's' := hconv
  have hlast : f₃ = ['s'] := by
    cases f₃ with
    | nil => cases h₄
    | cons x f =>
      obtain ⟨rfl, hf⟩ := Prod.mk.inj (some.inj h₄)
      rw [if_neg (by decide)] at hf
      rw [hf]
  subst hlast
  have hstop : '%' = nul ∨ '%' = '%' := .inr rfl
  refine ⟨fun hmem ↦ ?_, ?_⟩
  · have hmem₁ := (local_readPrecision hstop).stop_mem h₁ hmem
    have hmem₂ := (local_readQualifier hstop).stop_mem h₂ hmem₁
    have hmem₃ := (local_readLl hstop qualifier).stop_mem h₃ hmem₂
    exact absurd hmem₃ (by decide)
  · obtain ⟨k, hk⟩ := (((local_readLl hstop qualifier).suffix h₃).trans
      ((local_readQualifier hstop).suffix h₂)).trans ((local_readPrecision hstop).suffix h₁)
    exact ⟨k, hk.symm⟩

theorem plain_eq (hnul : nul ∉ u) (hpercent : '%' ∉ u) : plain strings args q u = some u := by
  have hreads : Reads [nul] (u ++ [nul]) (u.map .char) := by
    induction u with
    | nil => exact .nil
    | cons c u ih =>
      exact .char (ne_of_not_mem_cons hnul).symm (ne_of_not_mem_cons hpercent).symm
        (ih (not_mem_of_not_mem_cons hnul) (not_mem_of_not_mem_cons hpercent))
  have hexec : ∀ s : State, Run.exec (act strings args) s (u.map .char) =
      some { s with text := s.text ++ u } := by
    clear * -
    induction u with
    | nil =>
      intro s
      simp
    | cons c u ih =>
      intro s
      simp [Run.exec, act, ih]
  rw [plain, vsprintf_eq hreads, hexec]
  rfl

variable {k : List Char}

/-- A padded text that begins and ends with no space has no padding. -/
theorem pad_eq_iff {a b : ℕ} {x : List Char} {z : Char} (hy : y ≠ ' ') (hz : z ≠ ' ') :
    replicate a ' ' ++ x ++ replicate b ' ' = y :: k ++ [z] ↔ a = 0 ∧ b = 0 ∧ x = y :: k ++ [z] := by
  constructor
  · intro h
    have ha : a = 0 := by
      cases a with
      | zero => rfl
      | succ a => exact absurd (cons.inj h).1.symm hy
    have hb : b = 0 := by
      cases b with
      | zero => rfl
      | succ b =>
        rw [replicate_succ', ← append_assoc] at h
        exact absurd (append_inj' h rfl).2 (by simpa using hz.symm)
    subst ha hb
    exact ⟨rfl, rfl, by simpa using h⟩
  · rintro ⟨rfl, rfl, rfl⟩
    simp

theorem convString_eq_star {s : List Char} :
    convString flags fieldWidth precision s = '%' :: '*' :: (k ++ ['s']) ↔
      cut precision s = '%' :: '*' :: (k ++ ['s']) ∧
        effective fieldWidth ≤ (k ++ ['s']).length + 2 := by
  have hpad : ∀ a b, replicate a ' ' ++ cut precision s ++ replicate b ' ' =
      '%' :: '*' :: (k ++ ['s']) ↔ a = 0 ∧ b = 0 ∧ cut precision s = '%' :: '*' :: (k ++ ['s']) :=
    fun a b ↦ pad_eq_iff (k := '*' :: k) (by decide) (by decide)
  have hlen : cut precision s = '%' :: '*' :: (k ++ ['s']) →
      (cut precision s).length = (k ++ ['s']).length + 2 := fun h ↦ by rw [h]; rfl
  rw [convString_eq]
  cases flags.left
  · have h := hpad (effective fieldWidth - (cut precision s).length) 0
    simp only [Bool.false_eq_true, if_false, replicate_zero] at h ⊢
    rw [h]
    constructor
    · rintro ⟨hzero, -, hcut⟩
      exact ⟨hcut, by rw [← hlen hcut]; omega⟩
    · rintro ⟨hcut, hle⟩
      exact ⟨by rw [hlen hcut]; omega, trivial, hcut⟩
  · have h := hpad 0 (effective fieldWidth - (cut precision s).length)
    simp only [if_true, replicate_zero, nil_append] at h ⊢
    rw [h]
    constructor
    · rintro ⟨-, hzero, hcut⟩
      exact ⟨hcut, by rw [← hlen hcut]; omega⟩
    · rintro ⟨hcut, hle⟩
      exact ⟨trivial, by rw [hlen hcut]; omega, hcut⟩

theorem eq_star_iff {pos : ℕ} {args' : ℕ → UInt32} {q' : Char}
    (hu : Tail u d) (hstar : d.conv ≠ '*') (hv : written strings args q v =
      (convert strings args' pos flags fieldWidth precision qualifier q' d.conv).map Output.text) :
    ((plain strings args q u).map fun x ↦ '%' :: '*' :: x) = written strings args q v ↔
      d.conv = 's' ∧ cut precision (strings (args' 0)) = '%' :: '*' :: u ∧
        effective fieldWidth ≤ u.length + 2 := by
  rw [hv]
  by_cases hconv : d.conv = 's'
  · obtain ⟨hpercent, k, rfl⟩ := hu.string hconv
    rw [plain_eq hu.nul_notMem hpercent, hconv, and_iff_right rfl, ← convString_eq_star]
    simp only [convert, map_some, some.injEq]
    exact eq_comm
  · refine iff_of_false (fun h ↦ ?_) fun h ↦ hconv h.1
    obtain ⟨out, hout⟩ := isSome_iff_exists.mp convert_isSome
    rw [hout] at h
    obtain ⟨x, -, hx⟩ := map_eq_some_iff.mp h
    exact hconv ((convert_star hout hx.symm).resolve_right hstar)

/-- The width that an argument means: its absolute value, as an `int`. -/
def absolute (a : UInt32) : ℕ := if a.toNat < 2 ^ 31 then a.toNat else 2 ^ 32 - a.toNat

theorem effective_absolute (a : UInt32) : effective (absolute a % wordSize) = absolute a := by
  have ha := a.toNat_lt
  have hle : absolute a ≤ 2 ^ 31 := by
    unfold absolute
    split <;> omega
  unfold effective unset wordSize
  rw [Nat.mod_eq_of_lt (by omega), if_neg (by omega)]

theorem Tail.written_widthForm (hu : Tail u d) (hfl : Run.exec setFlag {} fl = some flags)
    (a : UInt32) (strings : UInt32 → List Char) (args : ℕ → UInt32) (q : Char) :
    ∃ g fieldWidth, effective fieldWidth = absolute a ∧ written strings args q (widthForm fl a u) =
      (convert strings (fun i ↦ args ((d.precision.getD .none).words + i)) 0 g fieldWidth
        (precisionOf args d.precision) d.qualifier (if d.ll then 'l' else q) d.conv).map
        Output.text := by
  have hdigits : ∀ {fl g}, Run.exec setFlag {} fl = some g →
      ∃ g fieldWidth, effective fieldWidth = absolute a ∧
        written strings args q (fl ++ Nat.toDigits 10 (absolute a) ++ u) =
          (convert strings (fun i ↦ args ((d.precision.getD .none).words + i)) 0 g fieldWidth
            (precisionOf args d.precision) d.qualifier (if d.ll then 'l' else q) d.conv).map
            Output.text := by
    intro fl g hfl
    obtain ⟨fieldWidth, zeropad, hw, h⟩ := hu.written_digits hfl (absolute a) strings args q
    refine ⟨_, fieldWidth, ?_, h⟩
    rw [← effective_absolute a]
    rcases hw with ⟨hw, rfl⟩ | ⟨-, rfl⟩
    · rw [hw]
      rfl
    · rfl
  unfold widthForm
  split
  next hpos =>
    rw [show a.toNat = absolute a from (if_pos hpos).symm]
    exact hdigits hfl
  next hneg =>
    obtain ⟨g, hg⟩ := exists_exec_setFlag hfl { left := true }
    rw [show 2 ^ 32 - a.toNat = absolute a from (if_neg hneg).symm]
    exact hdigits (Run.exec_cons_eq_some.mpr ⟨_, rfl, hg⟩)

/-- **A star does the same as the digits** only for a string that is the text of the star form, `%*`
and what stands behind, and no shorter than the width.  `rest` are the other arguments. -/
theorem star_iff (strings : UInt32 → List Char) (args : ℕ → UInt32) (q : Char)
    (hfl : Run.exec setFlag {} fl = some flags) (hu : Tail u d) (hstar : d.conv ≠ '*') :
    let rest := fun i ↦ args (1 + i)
    (written strings args q (fl ++ '*' :: u) =
        written strings rest q (widthForm fl (args 0) u) ↔
      d.conv = 's' ∧
        cut (precisionOf rest d.precision) (strings (rest (d.precision.getD .none).words)) =
          '%' :: '*' :: u ∧
        absolute (args 0) ≤ u.length + 2) ∧
    (u.head? ≠ some '.' → ∀ w,
      (written strings args q (fl ++ widthText w ++ '.' :: '*' :: u) =
          written strings rest q
            (fl ++ widthText w ++ '.' :: Nat.toDigits 10 (args 0).toNat ++ u) ↔
        d.conv = 's' ∧
          cut (if 2 ^ 31 ≤ (args 0).toNat then 0 else (args 0).toNat) (strings (rest 0)) =
            '%' :: '*' :: u ∧
          effective (w % wordSize) ≤ u.length + 2)) := by
  intro rest
  refine ⟨?_, fun hdot w ↦ ?_⟩
  · obtain ⟨g, fieldWidth, hwidth, hdigits⟩ :=
      hu.written_widthForm hfl (args 0) strings rest q
    rw [written_star hu.nul_notMem (parse_star hfl) rfl rfl rfl, ← hwidth]
    exact eq_star_iff hu hstar hdigits
  · obtain ⟨width, hwidth, hdotted⟩ := parse_dot hfl w
    have hword : (args 0).toNat % wordSize = (args 0).toNat := Nat.mod_eq_of_lt (args 0).toNat_lt
    have hparse := hdotted (Nat.toDigits 10 (args 0).toNat ++ u)
    rw [← cons_append, hu.readRest_precision hdot, ← append_assoc, hword] at hparse
    have hnot : width ≠ .star := by
      rcases hwidth with ⟨-, rfl⟩ | ⟨-, rfl⟩ <;> simp
    have heffective : effective (widthOf rest flags width).1 = effective (w % wordSize) := by
      rcases hwidth with ⟨rfl, rfl⟩ | ⟨-, rfl⟩ <;> rfl
    have hwords : width.words = 0 := if_neg hnot
    rw [written_star hu.nul_notMem (hdotted _) rfl rfl (by rw [hwords]; rfl), ← heffective]
    have hiff := eq_star_iff hu hstar (@written_width strings rest q _ flags
      { d with precision := some (.digits (args 0).toNat) } width hnot hparse)
    exact hiff

theorem star_iff_string :
    written (fun _ ↦ "%*s".toList) (fun _ ↦ 3) nul "*s".toList =
      written (fun _ ↦ "%*s".toList) (fun _ ↦ 3) nul "3s".toList :=
  (@star_iff [] ['s'] {} ⟨{}, .none, none, none, false, 's'⟩ (fun _ ↦ "%*s".toList) (fun _ ↦ 3) nul
    rfl ⟨⟨'s', rfl, by decide, rfl⟩, by decide⟩ (by decide)).1.mpr (by decide)

/-- `%*d` writes its own text. -/
theorem written_starred : written (fun _ ↦ []) (fun _ ↦ 3) nul "*d".toList = some "%*d".toList ∧
    written (fun _ ↦ []) (fun _ ↦ 3) nul "3d".toList = some "  3".toList := by
  decide

end ForgeOS.Vsprintf
