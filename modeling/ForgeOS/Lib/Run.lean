import Mathlib.Data.List.Induction
import Mathlib.Data.UInt

/-!
# Runs of a partial step function

A program that is called again and again, or a set of agents that interleave their atomic steps, is
a function `step : σ → ι → Option σ`: the label `i : ι` says what is done next, and `none` says that
it cannot be done, because the agent is blocked or because the program would fault.
-/

/-- Two agents are enough for most schedules. -/
instance neZero_two : NeZero 2 := ⟨two_ne_zero⟩

namespace Run

open List Option

universe u v

variable {σ : Type u} {ι : Type v} (step : σ → ι → Option σ)

/-- The state a list of labels leads to; `none` as soon as one of them cannot be taken. -/
def exec : σ → List ι → Option σ
  | s, [] => some s
  | s, i :: is => (step s i).bind fun t ↦ exec t is

/-- Every label of the run is taken in a state in which `C` holds of it. -/
def Guarded (C : σ → ι → Prop) : σ → List ι → Prop
  | _, [] => True
  | s, i :: is => C s i ∧ ∀ t ∈ step s i, Guarded C t is

/-- The run can be taken to its end, and `P` holds in every state on the way. -/
def Always (P : σ → Prop) : σ → List ι → Prop
  | s, [] => P s
  | s, i :: is => P s ∧ ∃ t ∈ step s i, Always P t is

/-- What the steps of a run emit, in order. -/
def trace {ε : Type*} (emit : σ → ι → List ε) : σ → List ι → List ε
  | _, [] => []
  | s, i :: is => emit s i ++ ((step s i).elim [] fun t ↦ trace emit t is)

variable {step} {is : List ι} {i : ι} {t : σ}

@[simp] theorem exec_nil (s : σ) : exec step s [] = some s := rfl

theorem exec_cons_eq_some {s : σ} :
    exec step s (i :: is) = some t ↔ ∃ m, step s i = some m ∧ exec step m is = some t := by
  simp [exec, bind_eq_some_iff]

variable {s : σ} {js : List ι}

theorem exec_append : exec step s (is ++ js) = (exec step s is).bind fun t ↦ exec step t js := by
  induction is generalizing s with
  | nil => rfl
  | cons i is ih =>
    rw [cons_append, exec, exec, bind_assoc]
    exact bind_congr fun t _ ↦ ih

theorem exec_snoc_eq_some {s : σ} :
    exec step s (is ++ [i]) = some t ↔ ∃ m, exec step s is = some m ∧ step m i = some t := by
  rw [exec_append, bind_eq_some_iff]
  refine exists_congr fun m ↦ and_congr_right fun _ ↦ ?_
  rw [exec_cons_eq_some]
  simp

variable {ε : Type*} {emit : σ → ι → List ε}

theorem trace_snoc {s : σ} (he : exec step s is = some t) :
    trace step emit s (is ++ [i]) = trace step emit s is ++ emit t i := by
  induction is generalizing s with
  | nil =>
    obtain rfl := some.inj he
    rw [nil_append, trace, trace, nil_append]
    cases step s i <;> simp [trace]
  | cons j is ih =>
    obtain ⟨m, hm, he⟩ := exec_cons_eq_some.mp he
    rw [cons_append, trace, trace, hm, elim_some, elim_some, ih he,
      append_assoc]

instance Guarded.decidable {C : σ → ι → Prop} [∀ s i, Decidable (C s i)] :
    ∀ s is, Decidable (Guarded step C s is)
  | _, [] => isTrue trivial
  | s, i :: is =>
    have := fun t ↦ Guarded.decidable (C := C) t is
    inferInstanceAs (Decidable (C s i ∧ ∀ t ∈ step s i, Guarded step C t is))

variable {C D : σ → ι → Prop}

theorem Guarded.mono (h : ∀ s i, C s i → D s i) (hg : Guarded step C s is) :
    Guarded step D s is := by
  induction is generalizing s with
  | nil => trivial
  | cons i is ih => exact ⟨h s i hg.1, fun t ht ↦ ih (hg.2 t ht)⟩

theorem guarded_true (s : σ) (is : List ι) : Guarded step (fun _ _ ↦ True) s is := by
  induction is generalizing s with
  | nil => trivial
  | cons i is ih => exact ⟨trivial, fun t _ ↦ ih t⟩

theorem guarded_append : Guarded step C s (is ++ js) ↔
      Guarded step C s is ∧ ∀ t, exec step s is = some t → Guarded step C t js := by
  induction is generalizing s with
  | nil =>
    refine ⟨fun hg ↦ ⟨trivial, fun t ht ↦ some.inj ht ▸ hg⟩, fun hg ↦ hg.2 s rfl⟩
  | cons i is ih =>
    constructor
    · rintro ⟨hi, hg⟩
      refine ⟨⟨hi, fun t ht ↦ (ih.mp (hg t ht)).1⟩, fun r hr ↦ ?_⟩
      obtain ⟨t, ht, hr⟩ := exec_cons_eq_some.mp hr
      exact (ih.mp (hg t ht)).2 r hr
    · rintro ⟨⟨hi, hg⟩, hjs⟩
      refine ⟨hi, fun t ht ↦ ih.mpr ⟨hg t ht, fun r hr ↦ hjs r ?_⟩⟩
      exact exec_cons_eq_some.mpr ⟨t, ht, hr⟩

theorem Guarded.cons (hi : C s i) (hs : step s i = some t) (hg : Guarded step C t is) :
    Guarded step C s (i :: is) :=
  ⟨hi, fun _ hm ↦ some.inj (hs.symm.trans hm) ▸ hg⟩

theorem Guarded.snoc (hg : Guarded step C s is)
    (hi : ∀ t, exec step s is = some t → C t i) : Guarded step C s (is ++ [i]) :=
  guarded_append.mpr ⟨hg, fun t ht ↦ ⟨hi t ht, fun _ _ ↦ trivial⟩⟩

variable {P : σ → Prop} {C V : σ → ι → Prop}

/-- **The invariant rule**, for steps that meet a condition. -/
theorem inv_of_guarded (hstep : ∀ s i t, P s → C s i → step s i = some t → P t)
    {s : σ} (hs : P s) (hg : Guarded step C s is) (he : exec step s is = some t) : P t := by
  induction is generalizing s with
  | nil => exact some.inj he ▸ hs
  | cons i is ih =>
    obtain ⟨m, hm, he⟩ := exec_cons_eq_some.mp he
    exact ih (hstep s i m hs hg.1 hm) (hg.2 m hm) he

theorem inv_of_exec (hstep : ∀ s i t, P s → step s i = some t → P t)
    {s : σ} (hs : P s) (he : exec step s is = some t) : P t :=
  inv_of_guarded (fun s i t h _ ↦ hstep s i t h) hs (guarded_true s is) he

/-- **The invariant rule with history**: the invariant may speak of the run so far. -/
theorem inv_of_history {H : List ι → σ → Prop} (hs : H [] s)
    (hstep : ∀ is t i r, exec step s is = some t → H is t → step t i = some r → H (is ++ [i]) r)
    (he : exec step s is = some t) : H is t := by
  induction is using reverseRecOn generalizing t with
  | nil => exact some.inj he ▸ hs
  | append_singleton is i ih =>
    obtain ⟨m, hm, hi⟩ := exec_snoc_eq_some.mp he
    exact hstep is m i t hm (ih hm) hi

/-- **The invariant rule with progress**: guarded runs are never stuck. -/
theorem always_of_guarded (hstep : ∀ s i, P s → C s i → ∃ t ∈ step s i, P t) (hs : P s)
    (hg : Guarded step C s is) : Always step P s is := by
  induction is generalizing s with
  | nil => exact hs
  | cons i is ih =>
    obtain ⟨t, ht, hPt⟩ := hstep s i hs hg.1
    exact ⟨hs, t, ht, ih hPt (hg.2 t ht)⟩

theorem Always.exec (h : Always step P s is) : ∃ t, exec step s is = some t ∧ P t := by
  induction is generalizing s with
  | nil => exact ⟨s, rfl, h⟩
  | cons i is ih =>
    obtain ⟨t, ht, h⟩ := h.2
    obtain ⟨r, hr, hP⟩ := ih h
    exact ⟨r, exec_cons_eq_some.mpr ⟨t, ht, hr⟩, hP⟩

theorem Always.mono {Q : σ → Prop} (h : ∀ s, P s → Q s) (ha : Always step P s is) :
    Always step Q s is := by
  induction is generalizing s with
  | nil => exact h s ha
  | cons i is ih =>
    obtain ⟨hs, t, ht, ha⟩ := ha
    exact ⟨h s hs, t, ht, ih ha⟩

theorem Always.head (h : Always step P s is) : P s := by
  cases is with
  | nil => exact h
  | cons i is => exact h.1

variable {τ : Type*} {R : σ → τ → Prop}

/-- **The simulation rule**, for a machine that reads what the steps emit. -/
theorem sim_of_guarded {mstep : τ → ε → Option τ}
    (hstep : ∀ s i t c, R s c → C s i → step s i = some t →
      ∃ d, Run.exec mstep c (emit s i) = some d ∧ R t d) {s : σ} {c : τ} (hs : R s c)
    (hg : Guarded step C s is) (he : Run.exec step s is = some t) :
    ∃ d, Run.exec mstep c (trace step emit s is) = some d ∧ R t d := by
  induction is generalizing s c with
  | nil => exact ⟨c, rfl, some.inj he ▸ hs⟩
  | cons i is ih =>
    obtain ⟨m, hm, he⟩ := exec_cons_eq_some.mp he
    obtain ⟨d, hd, hR⟩ := hstep s i m c hs hg.1 hm
    obtain ⟨d', hd', hR'⟩ := ih hR (hg.2 m hm) he
    refine ⟨d', ?_, hR'⟩
    rw [trace, hm, elim_some, exec_append, hd]
    exact hd'

/-- **The refinement rule**, for a total machine that takes the same labels. -/
theorem foldl_of_guarded {next : τ → ι → τ}
    (hstep : ∀ s i c, R s c → C s i → ∃ t, step s i = some t ∧ R t (next c i)) {c : τ} (hs : R s c)
    (hg : Guarded step C s is) : ∃ t, Run.exec step s is = some t ∧ R t (is.foldl next c) := by
  induction is generalizing s c with
  | nil => exact ⟨s, rfl, hs⟩
  | cons i is ih =>
    obtain ⟨m, hm, hR⟩ := hstep s i c hs hg.1
    obtain ⟨t, ht, hRt⟩ := ih hR (hg.2 m hm)
    exact ⟨t, exec_cons_eq_some.mpr ⟨m, hm, ht⟩, hRt⟩

theorem guarded_congr (hkeep : ∀ s i t, P s → V s i → step s i = some t → P t)
    (hiff : ∀ s i, P s → V s i → (C s i ↔ D s i)) (hs : P s)
    (hv : Guarded step V s is) : Guarded step C s is ↔ Guarded step D s is := by
  induction is generalizing s with
  | nil => exact Iff.rfl
  | cons i is ih =>
    refine and_congr (hiff s i hs hv.1) (forall₂_congr fun t ht ↦ ?_)
    exact ih (hkeep s i t hs hv.1 ht) (hv.2 t ht)

theorem guarded_of_always (hstep : ∀ s i t, P s → V s i → step s i = some t → P t → C s i)
    (hv : Guarded step V s is) (ha : Always step P s is) : Guarded step C s is := by
  induction is generalizing s with
  | nil => trivial
  | cons i is ih =>
    obtain ⟨hs, t, ht, ha⟩ := ha
    refine ⟨hstep s i t hs hv.1 ht ha.head, fun r hr ↦ ?_⟩
    obtain rfl : t = r := mem_unique ht hr
    exact ih (hv.2 t ht) ha

/-- **The exact condition for a run** to stay within `P`, among the steps allowed by `V`. -/
theorem always_iff_guarded (hstep : ∀ s i, P s → V s i → ((∃ t ∈ step s i, P t) ↔ C s i)) (hs : P s)
    (hv : Guarded step V s is) : Always step P s is ↔ Guarded step C s is := by
  refine ⟨guarded_of_always (fun s i t hs hv ht hPt ↦ (hstep s i hs hv).mp ⟨t, ht, hPt⟩) hv, ?_⟩
  intro hg
  induction is generalizing s with
  | nil => exact hs
  | cons i is ih =>
    obtain ⟨t, ht, hPt⟩ := (hstep s i hs hv.1).mpr hg.1
    exact ⟨hs, t, ht, ih hPt (hv.2 t ht) (hg.2 t ht)⟩

/-- The exact condition for a run, when more than `P` is needed to see it: from the states with the
invariant `I` every allowed step can be taken, it leads to a `P` state exactly if it meets `C`, and
then to one with the invariant. -/
theorem always_iff_guarded_of_inv {I : σ → Prop} (hI : ∀ s, I s → P s)
    (hstep : ∀ s i, I s → V s i → ∃ t, step s i = some t ∧ (P t ↔ C s i) ∧ (P t → I t)) (hs : I s)
    (hv : Guarded step V s is) : Always step P s is ↔ Guarded step C s is := by
  induction is generalizing s with
  | nil => exact ⟨fun _ ↦ trivial, fun _ ↦ hI s hs⟩
  | cons i is ih =>
    obtain ⟨t, ht, hiff, hinv⟩ := hstep s i hs hv.1
    constructor
    · rintro ⟨-, r, hr, ha⟩
      obtain rfl : t = r := mem_unique ht hr
      refine ⟨hiff.mp ha.head, fun r hr ↦ ?_⟩
      obtain rfl : t = r := mem_unique ht hr
      exact (ih (hinv ha.head) (hv.2 t ht)).mp ha
    · rintro ⟨hC, hg⟩
      have hPt := hiff.mpr hC
      exact ⟨hI s hs, t, ht, (ih (hinv hPt) (hv.2 t ht)).mpr (hg t ht)⟩

end Run
