import ForgeOS.Vsprintf.Number

/-!
# Reading a format

A format is a sequence of tokens: characters that are copied, and directives.  In every format that
ends with a terminator, however malformed, they lead exactly to the terminator.

The main result is `vsprintf_stops`.
-/

namespace ForgeOS.Vsprintf

open List Reader

theorem local_readFlags (flags : Flags) : Local nul (readFlags flags) :=
  local_scan (fun _ ↦ rfl) flags

section Stop

/-! What stands before the conversion is read up to the terminator, and just so up to a `%`. -/

variable {stop : Char} (hstop : stop = nul ∨ stop = '%')
include hstop

theorem local_skipAtoi (i : ℕ) : Local stop (skipAtoi i) :=
  local_scan (fun _ ↦ by rcases hstop with rfl | rfl <;> rfl) i

theorem local_readAmount : Local stop readAmount :=
  .peek (p := fun c ↦ c.isDigit) (x := fun c ↦ if c = '*' then .star else .none)
    (fun c ↦ (local_skipAtoi hstop ((0 * 10 + (c.toNat - '0'.toNat)) % wordSize)).map .digits)
    (by rcases hstop with rfl | rfl <;> decide) rfl fun c f ↦ by
      by_cases hc : c.isDigit
      · simp [readAmount, skipAtoi, scan, addDigit, hc]
      · by_cases hs : c = '*' <;> simp [readAmount, hc, hs]

theorem local_readPrecision : Local stop readPrecision :=
  .peek (p := (· = '.')) (x := fun _ ↦ none) (fun _ ↦ (local_readAmount hstop).map some)
    (by rcases hstop with rfl | rfl <;> decide) rfl fun _ _ ↦ rfl

theorem local_readQualifier : Local stop readQualifier :=
  .peek (x := fun _ ↦ none) (fun c ↦ local_pure (some c))
    (by rcases hstop with rfl | rfl <;> decide) rfl fun _ _ ↦ rfl

theorem local_readLl (q : Option Char) : Local stop (readLl q) :=
  .peek (x := fun _ ↦ false) (fun _ ↦ local_pure true)
    (fun h ↦ by rcases hstop with rfl | rfl <;> exact absurd h.1 (by decide)) rfl fun _ _ ↦ rfl

end Stop

theorem local_readConv : Local nul readConv :=
  .peek (p := (· ≠ nul)) (x := id) local_pure (by simp) rfl fun c f ↦ by
    by_cases hc : c = nul <;> simp [readConv, hc]

theorem local_readRest (flags : Flags) (width : Amount) : Local nul (readRest flags width) :=
  (local_readPrecision (.inl rfl)).bind fun precision ↦
    (local_readQualifier (.inl rfl)).bind fun qualifier ↦
    (local_readLl (.inl rfl) qualifier).bind fun ll ↦ local_readConv.bind fun conv ↦
    local_pure (⟨flags, width, precision, qualifier, ll, conv⟩ : Directive)

theorem local_parse : Local nul parse :=
  (local_readFlags {}).bind fun flags ↦ (local_readAmount (.inl rfl)).bind fun width ↦
    local_readRest flags width

inductive Token where
  | char (c : Char)
  | conv (d : Directive)

/-- The format `f` begins with the tokens `ts`, up to `r`. -/
inductive Reads (r : List Char) : List Char → List Token → Prop where
  | nil : Reads r r []
  | char {c f ts} : c ≠ nul → c ≠ '%' → Reads r f ts → Reads r (c :: f) (.char c :: ts)
  | conv {f d g ts} : parse f = some (d, g) → Reads r g ts → Reads r ('%' :: f) (.conv d :: ts)

variable {r f g : List Char} {ts us : List Token} {strings : UInt32 → List Char}
  {args : ℕ → UInt32} {s : State} {q : Char}

theorem Reads.append (hf : Reads r f ts) (hr : Reads g r us) : Reads g f (ts ++ us) := by
  induction hf with
  | nil => exact hr
  | char hnul hpercent _ ih => exact .char hnul hpercent ih
  | conv hparse _ ih => exact .conv hparse ih

theorem Reads.before (h : Reads r f ts) (g : List Char) : Reads (r ++ g) (f ++ g) ts := by
  induction h with
  | nil => exact .nil
  | char hnul hpercent _ ih => exact .char hnul hpercent ih
  | conv hparse _ ih => exact .conv (local_parse.append g hparse) ih

theorem exists_reads (hf : nul ∉ f) : ∃ ts, Reads [nul] (f ++ [nul]) ts := by
  induction hn : f.length using Nat.strong_induction_on generalizing f with
  | _ n ih =>
    cases f with
    | nil => exact ⟨[], .nil⟩
    | cons c f =>
      have hnul := ne_of_not_mem_cons hf
      rw [length_cons] at hn
      by_cases hc : c = '%'
      · subst hc
        obtain ⟨d, g, hparse⟩ := local_parse.stops f
        obtain ⟨k, hk⟩ := local_parse.suffix hparse
        have hg : g <:+ f := ⟨k, append_cancel_right ((append_assoc k g _).trans hk)⟩
        obtain ⟨ts, hts⟩ := ih g.length (by have := hg.length_le; omega)
          (fun h ↦ hf (mem_cons_of_mem _ (hg.mem h))) rfl
        exact ⟨_, .conv hparse hts⟩
      · obtain ⟨ts, hts⟩ := ih f.length (by omega) (not_mem_of_not_mem_cons hf) rfl
        exact ⟨_, .char hnul.symm hc hts⟩

def act (strings : UInt32 → List Char) (args : ℕ → UInt32) (s : State) : Token → Option State
  | .char c => some { s with text := s.text ++ [c] }
  | .conv d => directive strings args s d

theorem loop_eq (h : Reads [nul] f ts) {fuel : ℕ} (hfuel : f.length ≤ fuel) :
    loop strings args fuel f s = (Run.exec (act strings args) s ts).map fun s ↦ ([nul], s) := by
  induction h generalizing fuel s with
  | nil =>
    obtain ⟨fuel, rfl⟩ := Nat.exists_eq_add_of_le' hfuel
    rfl
  | @char c f ts hnul hpercent _ ih =>
    obtain ⟨fuel, rfl⟩ := Nat.exists_eq_add_of_le' hfuel
    have hturn := @ih { s with text := s.text ++ [c] } (fuel + f.length) (by omega)
    simpa [loop, hnul, hpercent, Run.exec, act, Nat.add_assoc] using hturn
  | @conv f d g ts hparse _ ih =>
    have hle := (local_parse.suffix hparse).length_le
    obtain ⟨fuel, rfl⟩ := Nat.exists_eq_add_of_le' hfuel
    have hpercent : '%' ≠ nul := by decide
    rw [length_cons, ← Nat.add_assoc, loop, Run.exec, act]
    simp only [head?_cons, tail_cons, Option.bind_eq_bind, Option.bind_some, hparse]
    rw [if_neg hpercent, if_neg (by simp)]
    cases directive strings args s d with
    | none => rfl
    | some t => exact ih (by omega)

theorem vsprintf_eq (h : Reads [nul] f ts) : vsprintf strings args q f =
    (Run.exec (act strings args) ⟨⟨[], 0, []⟩, q⟩ ts).map fun s ↦ ([nul], s) :=
  loop_eq h le_rfl

theorem convert_isSome {pos fieldWidth precision : ℕ} {flags : Flags} {qualifier : Option Char}
    {q c : Char} : (convert strings args pos flags fieldWidth precision qualifier q c).isSome := by
  unfold convert
  split <;> simp [convInteger, convPointer, number_isSome]

theorem exec_isSome (s : State) (ts : List Token) : (Run.exec (act strings args) s ts).isSome := by
  induction ts generalizing s with
  | nil => rfl
  | cons t ts ih =>
    have hact : (act strings args s t).isSome := by
      cases t with
      | char c => rfl
      | conv d => simp [act, directive, convert_isSome]
    obtain ⟨s', hs'⟩ := Option.isSome_iff_exists.mp hact
    rw [Run.exec, hs', Option.bind_some]
    exact ih s'

/-- **`vsprintf` stops at the terminator** of every format, and never reads behind it. -/
theorem vsprintf_stops (strings : UInt32 → List Char) (args : ℕ → UInt32) (q : Char)
    (hf : nul ∉ f) : ∃ s, vsprintf strings args q (f ++ [nul]) = some ([nul], s) := by
  obtain ⟨ts, hts⟩ := exists_reads hf
  obtain ⟨s, hs⟩ := Option.isSome_iff_exists.mp (@exec_isSome strings args
    ⟨⟨[], 0, []⟩, q⟩ ts)
  exact ⟨s, by rw [vsprintf_eq hts, hs]; rfl⟩

theorem vsprintf_stops_dot : nul ∉ "%-5.".toList ∧
    ∃ s, vsprintf (fun _ ↦ []) (fun _ ↦ 0) 'l' ("%-5.".toList ++ [nul]) = some ([nul], s) :=
  ⟨by decide, vsprintf_stops _ _ _ (by decide)⟩

end ForgeOS.Vsprintf
