import Mathlib.Data.List.Infix
import Mathlib.Logic.Relation

/-!
# Words with common prefixes

A radix tree is a tree whose nodes have words: the word of a child goes on from its parent's, and
the words of two children part where the parent's word ends.
-/

universe u v

namespace List

variable {α : Type u} [DecidableEq α]

def commonLen : List α → List α → ℕ
  | a :: s, b :: t => if a = b then commonLen s t + 1 else 0
  | _, _ => 0

variable {s s' t u : List α} {k : ℕ}

@[simp] theorem commonLen_nil_left (t : List α) : commonLen [] t = 0 := by
  simp [commonLen]

@[simp] theorem commonLen_nil_right (s : List α) : commonLen s [] = 0 := by
  cases s <;> simp [commonLen]

theorem le_commonLen : k ≤ commonLen s t ↔ k ≤ s.length ∧ k ≤ t.length ∧ s.take k = t.take k := by
  induction s generalizing t k with
  | nil => simp +contextual
  | cons a s ih =>
    cases t with
    | nil => simp +contextual
    | cons b t =>
      cases k with
      | zero => simp
      | succ k =>
        simp only [commonLen, length_cons, take_succ_cons, cons.injEq]
        by_cases hab : a = b
        · rw [if_pos hab, Nat.succ_le_succ_iff, ih]
          simp [hab]
        · simp [hab]

theorem commonLen_comm (s t : List α) : commonLen s t = commonLen t s := by
  refine eq_of_forall_le_iff fun k ↦ ?_
  rw [le_commonLen, le_commonLen]
  constructor <;> exact fun ⟨hs, ht, heq⟩ ↦ ⟨ht, hs, heq.symm⟩

theorem commonLen_le_left (s t : List α) : commonLen s t ≤ s.length :=
  (le_commonLen.mp le_rfl).1

theorem commonLen_le_right (s t : List α) : commonLen s t ≤ t.length :=
  (le_commonLen.mp le_rfl).2.1

theorem commonLen_eq_length : commonLen s t = s.length ↔ s <+: t := by
  rw [prefix_iff_eq_take]
  constructor
  · intro h
    have htake := (le_commonLen.mp h.ge).2.2
    rwa [take_length] at htake
  · intro h
    refine le_antisymm (commonLen_le_left s t) (le_commonLen.mpr ⟨le_rfl, ?_, ?_⟩)
    · rw [h, length_take]
      exact min_le_right _ _
    · rw [take_length]
      exact h

theorem commonLen_trans (hst : k ≤ commonLen s t) (htu : k ≤ commonLen t u) :
    k ≤ commonLen s u := by
  obtain ⟨hs, -, heq⟩ := le_commonLen.mp hst
  obtain ⟨-, hu, heq'⟩ := le_commonLen.mp htu
  exact le_commonLen.mpr ⟨hs, hu, heq.trans heq'⟩

theorem commonLen_mono (h : s <+: s') (t : List α) : commonLen s t ≤ commonLen s' t := by
  have hlen : commonLen s t ≤ commonLen s s' := by
    rw [commonLen_eq_length.mpr h]
    exact commonLen_le_left s t
  exact commonLen_trans (commonLen_comm s s' ▸ hlen) le_rfl

theorem prefix_of_commonLen_lt (h : s <+: s') (hlt : commonLen s t < commonLen s' t) : s <+: t := by
  by_contra hnot
  have hne : commonLen s t ≠ s.length := fun heq ↦ hnot (commonLen_eq_length.mp heq)
  have hle := commonLen_le_left s t
  have hss' : commonLen s t + 1 ≤ commonLen s s' := by
    rw [commonLen_eq_length.mpr h]
    omega
  have hmore := commonLen_trans hss' (Nat.succ_le_of_lt hlt)
  omega

end List

section Fan

open List

variable {α : Type u} {ν : Type v} [DecidableEq α] {word : ν → List α}

/-- The words of the children `Kid` go on from the word `w`, and part where it ends. -/
structure Fan (word : ν → List α) (w : List α) (Kid : ν → Prop) : Prop where
  strict : ∀ c, Kid c → w <+: word c ∧ w ≠ word c
  apart : ∀ c c', Kid c → Kid c' → c ≠ c' → commonLen (word c) (word c') ≤ w.length

variable {w q : List α} {Kid Kid' : ν → Prop} {a c c' : ν}

theorem Fan.length_lt (h : Fan word w Kid) (hc : Kid c) : w.length < (word c).length := by
  obtain ⟨hpre, hne⟩ := h.strict c hc
  exact lt_of_le_of_ne hpre.length_le fun heq ↦ hne (hpre.eq_of_length heq)

theorem Fan.unique (h : Fan word w Kid) (hc : Kid c) (hc' : Kid c')
    (hlt : w.length < commonLen (word c) q) (hlt' : w.length < commonLen (word c') q) : c = c' := by
  by_contra hne
  have hle := h.apart c c' hc hc' hne
  have hmore := commonLen_trans (Nat.succ_le_of_lt hlt)
    (commonLen_comm (word c') q ▸ Nat.succ_le_of_lt hlt')
  omega

theorem Fan.lt_of_isPrefix (h : Fan word w Kid) (hc : Kid c) (hpre : word c <+: q) :
    w.length < commonLen (word c) q := by
  rw [commonLen_eq_length.mpr hpre]
  exact h.length_lt hc

theorem Fan.congr {word' : ν → List α} (h : Fan word w Kid) (hKid : ∀ c, Kid' c → Kid c)
    (hword : ∀ c, Kid' c → word' c = word c) : Fan word' w Kid' := by
  refine ⟨fun c hc ↦ ?_, fun c c' hc hc' hne ↦ ?_⟩
  · rw [hword c hc]
    exact h.strict c (hKid c hc)
  · rw [hword c hc, hword c' hc']
    exact h.apart c c' (hKid c hc) (hKid c' hc') hne

theorem Fan.insert (h : Fan word w Kid) (hpre : w <+: word a) (hne : w ≠ word a)
    (hapart : ∀ c, Kid c → commonLen (word c) (word a) ≤ w.length) :
    Fan word w fun c ↦ Kid c ∨ c = a := by
  refine ⟨?_, ?_⟩
  · rintro c (hc | rfl)
    · exact h.strict c hc
    · exact ⟨hpre, hne⟩
  · rintro c c' (hc | rfl) (hc' | rfl) hne
    · exact h.apart c c' hc hc' hne
    · exact hapart c hc
    · rw [commonLen_comm]
      exact hapart c' hc'
    · exact absurd rfl hne

theorem Fan.replace (h : Fan word w Kid) (hc : Kid c) (hpre : word a <+: word c)
    (hlen : w.length < (word a).length) : Fan word w fun c' ↦ (Kid c' ∧ c' ≠ c) ∨ c' = a := by
  refine Fan.insert ⟨fun c' hc' ↦ h.strict c' hc'.1, fun b b' hb hb' ↦ h.apart b b' hb.1 hb'.1⟩ ?_ ?_ ?_
  · exact List.prefix_of_prefix_length_le (h.strict c hc).1 hpre hlen.le
  · rintro rfl
    exact lt_irrefl _ hlen
  · rintro c' ⟨hc', hne⟩
    rw [commonLen_comm]
    exact (commonLen_mono hpre _).trans (h.apart c c' hc hc' hne.symm)

theorem Fan.none (word : ν → List α) (w : List α) : Fan word w fun _ ↦ False :=
  ⟨fun _ hc ↦ hc.elim, fun _ _ hc ↦ hc.elim⟩

end Fan

section Radix

open List

variable {α : Type u} {ν : Type v} [DecidableEq α]

def Below (Child : ν → ν → Prop) : ν → ν → Prop := Relation.ReflTransGen Child

def IsRadix (root : ν) (word : ν → List α) (Child : ν → ν → Prop) : Prop :=
  ∀ n, Below Child root n → Fan word (word n) (Child n)

namespace IsRadix

variable {root : ν} {word : ν → List α} {Child : ν → ν → Prop} {n m w : ν} {q : List α}

theorem word_mono (h : IsRadix root word Child) (hn : Below Child root n) (hw : Below Child n w) :
    word n <+: word w := by
  induction hw with
  | refl => exact prefix_rfl
  | tail hm hc ih => exact ih.trans ((h _ (hn.trans hm)).strict _ hc).1

/-- **The search continues in one child only**, the one whose word is a prefix of `q`. -/
theorem exists_child_of_below (h : IsRadix root word Child) (hn : Below Child root n)
    (hw : Below Child n w) (hne : word n ≠ word w) :
    ∃ c, Child n c ∧ word c <+: word w ∧ Below Child c w := by
  rcases hw.cases_head with rfl | ⟨c, hc, hcw⟩
  · exact absurd rfl hne
  · exact ⟨c, hc, h.word_mono (hn.tail hc) hcw, hcw⟩

theorem below_of_mono (h : IsRadix root word Child) (hn : Below Child root n)
    (hw : Below Child root w) (hpre : word n <+: word w) : Below Child n w := by
  induction hn with
  | refl => exact hw
  | @tail m n hm hc ih =>
    have hfan := h m hm
    obtain ⟨hmn, hne⟩ := hfan.strict n hc
    have hlen := hfan.length_lt hc
    have hmw : word m ≠ word w := by
      intro heq
      have hle := hpre.length_le
      rw [← heq] at hle
      omega
    obtain ⟨c, hc', hcw, hbelow⟩ := h.exists_child_of_below hm (ih (hmn.trans hpre)) hmw
    rwa [hfan.unique hc hc' (hfan.lt_of_isPrefix hc hpre) (hfan.lt_of_isPrefix hc' hcw)]

theorem exists_child (h : IsRadix root word Child) (hn : Below Child root n)
    (hw : Below Child root w) (hpre : word n <+: word w) (hne : word n ≠ word w) :
    ∃ c, Child n c ∧ word c <+: word w := by
  obtain ⟨c, hc, hcw, -⟩ := h.exists_child_of_below hn (h.below_of_mono hn hw hpre) hne
  exact ⟨c, hc, hcw⟩

theorem word_injective (h : IsRadix root word Child) (hn : Below Child root n)
    (hw : Below Child root w) (heq : word n = word w) : n = w := by
  rcases (h.below_of_mono hn hw (heq ▸ prefix_rfl)).cases_head with rfl | ⟨c, hc, hcw⟩
  · rfl
  · have hle := (h.word_mono (hn.tail hc) hcw).length_le
    have hlt := (h n hn).length_lt hc
    rw [heq] at hlt
    omega

end IsRadix

end Radix
