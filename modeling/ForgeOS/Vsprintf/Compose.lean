import ForgeOS.Vsprintf.Format

/-!
# One format behind another

What a token does is the same behind other output, except that `%n` stores the number of characters
so far.  All that a directive leaves for the next ones is `qualifier2`.

The main result is `composes_iff`.
-/

namespace ForgeOS.Vsprintf

open List Reader Option

variable {strings : UInt32 → List Char} {args : ℕ → UInt32} {q q' : Char} {f₁ f₂ : List Char}
  {ts us : List Token} {s s' t : State}

def State.append (s t : State) : State :=
  ⟨⟨s.text ++ t.text, s.words + t.words,
    s.stores ++ t.stores.map fun x ↦ (x.1, s.text.length + x.2)⟩, t.qualifier2⟩

variable {qualifier : Option Char} {flags : Flags} {c : Char}

theorem convert_add {n pos fieldWidth precision : ℕ} :
    convert strings args (n + pos) flags fieldWidth precision qualifier q c =
      (convert strings args pos flags fieldWidth precision qualifier q c).map fun o ↦
        { o with stores := o.stores.map fun x ↦ (x.1, n + x.2) } := by
  unfold convert
  split <;> simp [convInteger, convPointer, Function.comp_def]

theorem act_append (x : Token) : act strings args (s.append t) x =
    (act strings (fun i ↦ args (s.words + i)) t x).map s.append := by
  cases x with
  | char c => simp [act, State.append]
  | conv d =>
    simp [act, directive, State.append, convert_add, Function.comp_def, Nat.add_assoc]

theorem exec_append : Run.exec (act strings args) (s.append t) ts =
    (Run.exec (act strings fun i ↦ args (s.words + i)) t ts).map s.append := by
  induction ts generalizing t with
  | nil => rfl
  | cons x ts ih =>
    simp only [Run.exec, act_append, bind_map, map_bind, Function.comp_def, ih]

def convWords (qualifier : Option Char) (q c : Char) : ℕ :=
  if c ∈ "oxXdiu".toList then (if qualifier = some 'l' ∧ q = 'l' then 2 else 1)
  else if c ∈ "cspn".toList then 1 else 0

/-- The directive has one `l` before an integer conversion. -/
def Directive.Stale (d : Directive) : Prop :=
  d.qualifier = some 'l' ∧ d.ll = false ∧ d.conv ∈ "oxXdiu".toList

/-- There is such a directive before `qualifier2` is assigned. -/
def Stale : List Token → Prop
  | [] => False
  | .char _ :: ts => Stale ts
  | .conv d :: ts => d.Stale ∨ d.ll = false ∧ Stale ts

theorem integer_words : (integer args qualifier q).2 =
    if qualifier = some 'l' ∧ q = 'l' then 2 else 1 := by
  unfold integer
  split <;> rfl

variable {pos fieldWidth precision : ℕ}

theorem convert_words : (convert strings args pos flags fieldWidth precision qualifier q c).map
      Output.words = some (convWords qualifier q c) := by
  unfold convert
  split
  case h_11 =>
    simp_all [convWords]
  all_goals
    simp [convInteger, convPointer, number_eq, integer_words, convWords]

theorem convert_congr (h : (q = 'l' ↔ q' = 'l') ∨ qualifier ≠ some 'l' ∨ c ∉ "oxXdiu".toList) :
    convert strings args pos flags fieldWidth precision qualifier q c =
      convert strings args pos flags fieldWidth precision qualifier q' c := by
  rcases h with h | h
  · have hinteger : ∀ args, integer args qualifier q = integer args qualifier q' := fun args ↦ by
      simp only [integer, h]
    simp only [convert, convInteger, hinteger]
  · unfold convert
    split <;> simp_all [convInteger, integer]

def wordsOf : Char → List Token → ℕ
  | _, [] => 0
  | q, .char _ :: ts => wordsOf q ts
  | q, .conv d :: ts =>
    let q := if d.ll then 'l' else q
    d.width.words + (d.precision.getD .none).words + convWords d.qualifier q d.conv + wordsOf q ts

theorem directive_words {d : Directive} (h : directive strings args s d = some s') :
    s'.words = s.words + (d.width.words + (d.precision.getD .none).words +
      convWords d.qualifier s'.qualifier2 d.conv) ∧
    s'.qualifier2 = if d.ll then 'l' else s.qualifier2 := by
  obtain ⟨o, ho, rfl⟩ := map_eq_some_iff.mp h
  have hwords := congrArg (Option.map Output.words) ho
  rw [convert_words] at hwords
  exact ⟨by rw [← some.inj hwords], rfl⟩

def sets (ts : List Token) : Bool := ts.any fun | .conv d => d.ll | .char _ => false

theorem exec_words (h : Run.exec (act strings args) s ts = some s') :
    s'.words = s.words + wordsOf s.qualifier2 ts ∧
      s'.qualifier2 = if sets ts then 'l' else s.qualifier2 := by
  induction ts generalizing s with
  | nil =>
    cases h
    exact ⟨rfl, rfl⟩
  | cons x ts ih =>
    obtain ⟨t, hact, hts⟩ := Run.exec_cons_eq_some.mp h
    rw [(ih hts).1, (ih hts).2]
    cases x with
    | char c =>
      cases hact
      exact ⟨rfl, rfl⟩
    | conv d =>
      obtain ⟨hwords, hq⟩ := directive_words hact
      rw [hwords, wordsOf, ← hq]
      refine ⟨by omega, ?_⟩
      rw [hq]
      cases hll : d.ll <;> simp [sets, hll]

theorem convWords_le : convWords qualifier q c ≤ convWords qualifier 'l' c := by
  unfold convWords
  split_ifs <;> simp_all

theorem wordsOf_le : wordsOf q ts ≤ wordsOf 'l' ts := by
  induction ts generalizing q with
  | nil => exact le_rfl
  | cons x ts ih =>
    cases x with
    | char c => exact ih
    | conv d =>
      simp only [wordsOf, ite_self]
      have hconv := @convWords_le (if d.ll then 'l' else q) d.qualifier d.conv
      have hrest := @ih (if d.ll then 'l' else q)
      omega

theorem wordsOf_lt (hq : q ≠ 'l') (h : Stale ts) : wordsOf q ts < wordsOf 'l' ts := by
  induction ts with
  | nil => exact h.elim
  | cons x ts ih =>
    cases x with
    | char c => exact ih h
    | conv d =>
      have hll : d.ll = false := h.elim (fun h ↦ h.2.1) (fun h ↦ h.1)
      simp only [wordsOf, hll, ite_self, if_neg Bool.false_ne_true]
      rcases h with h | h
      · have hconv : convWords d.qualifier q d.conv < convWords d.qualifier 'l' d.conv := by
          rw [convWords, convWords, if_pos h.2.2, if_pos h.2.2, if_neg (hq ·.2), if_pos ⟨h.1, rfl⟩]
          exact Nat.one_lt_two
        have hrest := @wordsOf_le q ts
        omega
      · have hconv := @convWords_le q d.qualifier d.conv
        have hrest := ih h.2
        omega

/-- What is written tells whether `qualifier2` was `l` at the start, if it is used at all. -/
theorem same_of_wordsOf_eq (h : wordsOf q ts = wordsOf q' ts) :
    (q = 'l' ↔ q' = 'l') ∨ ¬ Stale ts := by
  by_contra! hnot
  obtain ⟨⟨rfl, hne⟩ | ⟨hne, rfl⟩, hstale⟩ := hnot
  · exact absurd h (wordsOf_lt hne hstale).ne'
  · exact absurd h (wordsOf_lt hne hstale).ne

theorem exec_congr {o : Output} (h : (q = 'l' ↔ q' = 'l') ∨ ¬ Stale ts) :
    (Run.exec (act strings args) ⟨o, q⟩ ts).map State.toOutput =
      (Run.exec (act strings args) ⟨o, q'⟩ ts).map State.toOutput := by
  induction ts generalizing o with
  | nil => rfl
  | cons x ts ih =>
    cases x with
    | char c => exact ih h
    | conv d =>
      simp only [Run.exec, act, directive]
      cases hll : d.ll with
      | true => rfl
      | false =>
        have hd : (q = 'l' ↔ q' = 'l') ∨ d.qualifier ≠ some 'l' ∨ d.conv ∉ "oxXdiu".toList := by
          refine h.imp_right fun h ↦ ?_
          by_contra hd
          rw [not_or, not_not, not_not] at hd
          exact h (.inl ⟨hd.1, hll, hd.2⟩)
        simp only [if_neg Bool.false_ne_true]
        rw [convert_congr hd]
        cases convert strings _ _ _ _ _ _ q' d.conv with
        | none => rfl
        | some o => exact ih (h.imp_right fun h hts ↦ h (.inr ⟨hll, hts⟩))

/-- The two formats compose: the arguments of the second one are those that the first one leaves,
and each has the same part in the output and the arguments of the whole as it has alone.  `q₁`, `q₂`
and `q` are what the three calls find in `qualifier2`.  The call for both formats is behind the first
one in the state in which a call for that one alone would end. -/
def Composes (strings : UInt32 → List Char) (args : ℕ → UInt32) (q₁ q₂ q : Char)
    (f₁ f₂ : List Char) : Prop :=
  ∃ s t r s', vsprintf strings args q₁ (f₁ ++ [nul]) = some ([nul], s) ∧
    vsprintf strings (fun i ↦ args (s.words + i)) q₂ (f₂ ++ [nul]) = some ([nul], t) ∧
    vsprintf strings args q (f₁ ++ f₂ ++ [nul]) = some ([nul], r) ∧
    vsprintf strings args q (f₁ ++ [nul]) = some ([nul], s') ∧ s'.words = s.words ∧
    r.toOutput = (s.append t).toOutput

theorem vsprintf_exec (h : Reads [] f₁ ts) : vsprintf strings args q (f₁ ++ [nul]) =
    (Run.exec (act strings args) ⟨⟨[], 0, []⟩, q⟩ ts).map fun s ↦ ([nul], s) :=
  vsprintf_eq (h.before [nul])

/-- A call for one format, by its tokens. -/
theorem exists_vsprintf (h : Reads [] f₁ ts) (strings : UInt32 → List Char) (args : ℕ → UInt32)
    (q : Char) : ∃ s, Run.exec (act strings args) ⟨⟨[], 0, []⟩, q⟩ ts = some s ∧
      vsprintf strings args q (f₁ ++ [nul]) = some ([nul], s) := by
  obtain ⟨s, hs⟩ := isSome_iff_exists.mp (@exec_isSome strings args ⟨⟨[], 0, []⟩, q⟩ ts)
  exact ⟨s, hs, by rw [vsprintf_exec h, hs]; rfl⟩

theorem vsprintf_append (h₁ : Reads [] f₁ ts) (h₂ : Reads [] f₂ us)
    (hs : Run.exec (act strings args) ⟨⟨[], 0, []⟩, q⟩ ts = some s)
    (ht : Run.exec (act strings fun i ↦ args (s.words + i)) ⟨⟨[], 0, []⟩, s.qualifier2⟩ us =
      some t) : vsprintf strings args q (f₁ ++ f₂ ++ [nul]) = some ([nul], s.append t) := by
  have hself : s.append ⟨⟨[], 0, []⟩, s.qualifier2⟩ = s := by simp [State.append]
  have hexec := @exec_append strings args us s ⟨⟨[], 0, []⟩, s.qualifier2⟩
  rw [hself, ht] at hexec
  rw [vsprintf_exec ((h₁.before f₂).append h₂), Run.exec_append, hs, bind_some, hexec]
  rfl

/-- **Two formats compose** if each of them, as far as it uses `qualifier2`, finds the same there as
it does alone: the first one at the start, and the second one behind the first. -/
theorem composes_iff (strings : UInt32 → List Char) (args : ℕ → UInt32) (q₁ q₂ q : Char)
    (h₁ : Reads [] f₁ ts) (h₂ : Reads [] f₂ us) :
    Composes strings args q₁ q₂ q f₁ f₂ ↔
      ((q₁ = 'l' ↔ q = 'l') ∨ ¬ Stale ts) ∧
        ((q₂ = 'l' ↔ sets ts = true ∨ q = 'l') ∨ ¬ Stale us) := by
  obtain ⟨s, hs, hvs⟩ := exists_vsprintf h₁ strings args q₁
  obtain ⟨s', hs', hvs'⟩ := exists_vsprintf h₁ strings args q
  obtain ⟨t, ht, hvt⟩ := exists_vsprintf h₂ strings (fun i ↦ args (s.words + i)) q₂
  obtain ⟨r, hr, -⟩ := exists_vsprintf h₂ strings (fun i ↦ args (s'.words + i)) s'.qualifier2
  have hboth := vsprintf_append h₁ h₂ hs' hr
  have hleft : s'.qualifier2 = 'l' ↔ sets ts = true ∨ q = 'l' := by
    rw [(exec_words hs').2]
    cases sets ts <;> simp
  constructor
  · rintro ⟨s₁, t₁, r₁, s₂, hvs₁, hvt₁, hvr₁, hvs₂, hwords, heq⟩
    cases hvs.symm.trans hvs₁
    cases hvs'.symm.trans hvs₂
    cases hvt.symm.trans hvt₁
    cases hboth.symm.trans hvr₁
    have htotal : s'.words + r.words = s.words + t.words := congrArg Output.words heq
    have hfirst : wordsOf q₁ ts = wordsOf q ts := by
      have hw := (exec_words hs).1
      have hw' := (exec_words hs').1
      dsimp only at hw hw'
      omega
    have hsecond : wordsOf q₂ us = wordsOf s'.qualifier2 us := by
      have hw := (exec_words ht).1
      have hw' := (exec_words hr).1
      dsimp only at hw hw'
      omega
    refine ⟨same_of_wordsOf_eq hfirst, ?_⟩
    rw [← hleft]
    exact same_of_wordsOf_eq hsecond
  · rintro ⟨hfirst, hsecond⟩
    rw [← hleft] at hsecond
    have hout : s.toOutput = s'.toOutput := by
      have hcongr := @exec_congr strings args q₁ q ts ⟨[], 0, []⟩ hfirst
      rw [hs, hs'] at hcongr
      exact some.inj hcongr
    have hwords : s'.words = s.words := congrArg Output.words hout.symm
    rw [hwords] at hr
    have hrest : t.toOutput = r.toOutput := by
      have hcongr := @exec_congr strings (fun i ↦ args (s.words + i)) q₂ s'.qualifier2 us
        ⟨[], 0, []⟩ hsecond
      rw [ht, hr] at hcongr
      exact some.inj hcongr
    refine ⟨s, t, s'.append r, s', hvs, hvt, hboth, hvs', hwords, ?_⟩
    simp only [State.append, hout, hrest]

/-- A `long long` and an `int`, whatever the three calls find. -/
theorem composes_iff_longLong :
    Composes (fun _ ↦ []) (fun _ ↦ 1) 'l' nul nul "%lld".toList "%d".toList := by
  have hlld : Reads [] "%lld".toList [.conv ⟨{}, .none, none, some 'l', true, 'd'⟩] :=
    .conv (g := []) (by decide) .nil
  have hd : Reads [] "%d".toList [.conv ⟨{}, .none, none, none, false, 'd'⟩] :=
    .conv (g := []) (by decide) .nil
  refine (composes_iff _ _ _ _ _ hlld hd).mpr ⟨.inr ?_, .inr ?_⟩
  · simp [Stale, Directive.Stale]
  · simp [Stale, Directive.Stale]

/-- The `long` behind a `long long` takes two words. -/
theorem not_composes_longLong :
    ¬ Composes (fun _ ↦ []) (fun _ ↦ 1) nul nul nul "%lld".toList "%ld".toList := by
  rintro ⟨s, t, r, s', hs, ht, hr, -, -, heq⟩
  have hs' : vsprintf (fun _ ↦ []) (fun _ ↦ 1) nul ("%lld".toList ++ [nul]) =
      some ([nul], ⟨⟨"4294967297".toList, 2, []⟩, 'l'⟩) := by decide
  have ht' : vsprintf (fun _ ↦ []) (fun _ ↦ 1) nul ("%ld".toList ++ [nul]) =
      some ([nul], ⟨⟨"1".toList, 1, []⟩, nul⟩) := by decide
  have hr' : vsprintf (fun _ ↦ []) (fun _ ↦ 1) nul ("%lld".toList ++ "%ld".toList ++ [nul]) =
      some ([nul], ⟨⟨"42949672974294967297".toList, 4, []⟩, 'l'⟩) := by decide
  cases hs'.symm.trans hs
  cases ht'.symm.trans ht
  cases hr'.symm.trans hr
  exact absurd (congrArg Output.words heq) (by decide)

end ForgeOS.Vsprintf
