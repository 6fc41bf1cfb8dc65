import ForgeOS.Lib.Run

/-!
# Linearizability

Several agents call the operations of one shared object, and what an outsider sees is a *history*:
who called what, and who was returned what.
-/

universe u

inductive Event (I O R : Type u) where
  | call (i : I) (op : O)
  | ret (i : I) (r : R)
  deriving DecidableEq

/-- An event, or a moment at which something is thought to happen inside an operation. -/
inductive Point (I O R : Type u) where
  | event (e : Event I O R)
  /-- The operation of agent `i` takes effect. -/
  | commit (i : I)
  /-- The operation of agent `i` could take effect, and would not change anything. -/
  | look (i : I)

inductive Status (O R : Type u) where
  | idle
  /-- It has called `op`, and the result of its last look at the object is `seen`. -/
  | called (op : O) (seen : Option R)
  /-- Its operation has taken effect and is going to return `r`. -/
  | done (r : R)

namespace Linearizable

variable {I O R : Type u} {σ : Type u}

structure Config (I O R σ : Type u) where
  state : σ
  status : I → Status O R

def events : List (Point I O R) → List (Event I O R) :=
  List.filterMap fun
    | .event e => some e
    | _ => none

@[simp] theorem events_append (ps qs : List (Point I O R)) :
    events (ps ++ qs) = events ps ++ events qs := List.filterMap_append

@[simp] theorem events_nil : events ([] : List (Point I O R)) = [] := rfl

@[simp] theorem events_event (e : Event I O R) : events [.event e] = [e] := rfl

@[simp] theorem events_commit (i : I) : events ([.commit i] : List (Point I O R)) = [] := rfl

@[simp] theorem events_look (i : I) : events ([.look i] : List (Point I O R)) = [] := rfl

variable [DecidableEq I] [DecidableEq R]

def Config.set (c : Config I O R σ) (i : I) (st : Status O R) : Config I O R σ :=
  { c with status := Function.update c.status i st }

variable (apply : σ → O → σ × R)

def advance (c : Config I O R σ) : Point I O R → Option (Config I O R σ)
  | .event (.call i op) =>
    match c.status i with
    | .idle => some (c.set i (.called op none))
    | _ => none
  | .event (.ret i r) =>
    match c.status i with
    | .done r' => if r' = r then some (c.set i .idle) else none
    | _ => none
  | .commit i =>
    match c.status i with
    | .called op _ =>
      some ({ c with state := (apply c.state op).1 }.set i (.done (apply c.state op).2))
    | _ => none
  | .look _ => none

/-- The next point of a history with commit points and looks.  A look must leave the state as it
is, and its result may be returned by and by. -/
def observe [DecidableEq σ] (c : Config I O R σ) : Point I O R → Option (Config I O R σ)
  | .look i =>
    match c.status i with
    | .called op _ =>
      if (apply c.state op).1 = c.state then
        some (c.set i (.called op (some (apply c.state op).2)))
      else none
    | _ => none
  | .event (.ret i r) =>
    match c.status i with
    | .done r' => if r' = r then some (c.set i .idle) else none
    | .called _ (some r') => if r' = r then some (c.set i .idle) else none
    | _ => none
  | p => advance apply c p

def start (a : σ) : Config I O R σ := ⟨a, fun _ ↦ .idle⟩

end Linearizable

open Linearizable in
/-- **Linearizability.**  The history is what remains of one with commit points that explain all
its results. -/
def Linearizable {I O R σ : Type u} [DecidableEq I] [DecidableEq R] (apply : σ → O → σ × R) (a : σ)
    (hist : List (Event I O R)) : Prop :=
  ∃ ps : List (Point I O R), events ps = hist ∧ (Run.exec (advance apply) (start a) ps).isSome

namespace Linearizable

variable {I O R σ : Type u} [DecidableEq I] {apply : σ → O → σ × R}

/-- The status of an agent, with its last look taken for the commit point if `w` says so. -/
def resolve (st : Status O R) (w : Bool) : Status O R :=
  match st, w with
  | .called _ (some r), true => .done r
  | .called op _, _ => .called op none
  | st, _ => st

def Config.resolve (c : Config I O R σ) (w : I → Bool) : Config I O R σ :=
  ⟨c.state, fun i ↦ Linearizable.resolve (c.status i) (w i)⟩

theorem resolve_false_called (op : O) (seen : Option R) :
    resolve (.called op seen) false = .called op none := by
  cases seen <;> rfl

variable {i : I}

theorem Config.set_status {c : Config I O R σ} {st : Status O R} (h : c.status i = st) :
    c.set i st = c := by
  rw [Config.set, ← h, Function.update_eq_self]

theorem Config.resolve_set {c : Config I O R σ} {st' : Status O R} {w : I → Bool}
    (b : Bool) (st : Status O R) (h : Linearizable.resolve st' (w i) = st) :
    (c.resolve (Function.update w i b)).set i st = (c.set i st').resolve w := by
  simp only [Config.resolve, Config.set, Config.mk.injEq, true_and]
  funext j
  by_cases hj : j = i
  · subst hj
    simp [h]
  · simp [hj]

variable [DecidableEq R] {ps : List (Point I O R)} {a : σ}

attribute [local simp] Config.resolve advance observe

/-- Whichever agents' last looks are taken for their commit points, the commits explain all
results.  The induction is on the last point: a return after a look needs the agent resolved. -/
theorem exists_advance [DecidableEq σ] {c : Config I O R σ}
    (h : Run.exec (observe apply) (start a) ps = some c) (w : I → Bool) :
    ∃ qs, events qs = events ps ∧ Run.exec (advance apply) (start a) qs = some (c.resolve w) := by
  induction ps using List.reverseRecOn generalizing c w with
  | nil =>
    refine ⟨[], rfl, ?_⟩
    rw [← Option.some.inj h]
    rfl
  | append_singleton ps p ih =>
    obtain ⟨m, hm, hp⟩ := Run.exec_snoc_eq_some.mp h
    cases p with
    | event e =>
      cases e with
      | call i op =>
        cases hst : m.status i with
        | called | done => simp [hst] at hp
        | idle =>
          obtain rfl : m.set i (.called op none) = c := by simpa [hst] using hp
          obtain ⟨qs, hqs, he⟩ := ih hm (Function.update w i false)
          refine ⟨qs ++ [.event (.call i op)], by simp [hqs], ?_⟩
          rw [Run.exec_snoc_eq_some]
          refine ⟨_, he, ?_⟩
          rw [← Config.resolve_set false (.called op none) (by cases w i <;> rfl)]
          simp [hst, resolve]
      | ret i r =>
        obtain ⟨b, hb, hc⟩ : ∃ b, resolve (m.status i) b = .done r ∧ m.set i .idle = c := by
          cases hst : m.status i with
          | idle => simp [hst] at hp
          | done r' =>
            simp only [observe, hst, Option.ite_none_right_eq_some, Option.some.injEq] at hp
            exact ⟨true, by rw [← hp.1]; rfl, hp.2⟩
          | called op seen =>
            cases seen with
            | none => simp [hst] at hp
            | some r' =>
              simp only [observe, hst, Option.ite_none_right_eq_some, Option.some.injEq] at hp
              exact ⟨true, by rw [← hp.1]; rfl, hp.2⟩
        subst hc
        obtain ⟨qs, hqs, he⟩ := ih hm (Function.update w i b)
        refine ⟨qs ++ [.event (.ret i r)], by simp [hqs], ?_⟩
        rw [Run.exec_snoc_eq_some]
        refine ⟨_, he, ?_⟩
        rw [← Config.resolve_set b Status.idle (by cases w i <;> rfl)]
        simp [hb]
    | commit i =>
      cases hst : m.status i with
      | idle | done => simp [hst] at hp
      | called op seen =>
        obtain rfl : _ = c := by simpa only [observe, advance, hst, Option.some.injEq] using hp
        obtain ⟨qs, hqs, he⟩ := ih hm (Function.update w i false)
        refine ⟨qs ++ [.commit i], by simp [hqs], ?_⟩
        rw [Run.exec_snoc_eq_some]
        refine ⟨_, he, ?_⟩
        rw [← Config.resolve_set false (.done (apply m.state op).2) (by cases w i <;> rfl)]
        simp [hst, resolve_false_called]
    | look i =>
      cases hst : m.status i with
      | idle | done => simp [hst] at hp
      | called op seen =>
        simp only [observe, hst, Option.ite_none_right_eq_some, Option.some.injEq] at hp
        obtain ⟨hstate, rfl⟩ := hp
        obtain ⟨qs, hqs, he⟩ := ih hm (Function.update w i false)
        cases hw : w i with
        | false =>
          refine ⟨qs, by simp [hqs], ?_⟩
          rw [he, ← Config.resolve_set false (.called op none) (by rw [hw]; rfl)]
          refine congrArg some (Config.set_status ?_).symm
          simp [hst, resolve_false_called]
        | true =>
          refine ⟨qs ++ [.commit i], by simp [hqs], ?_⟩
          rw [Run.exec_snoc_eq_some]
          refine ⟨_, he, ?_⟩
          rw [← Config.resolve_set false (.done (apply m.state op).2) (by rw [hw]; rfl)]
          simp [hst, resolve_false_called, hstate]

/-- **Looks can be turned into commit points.** -/
theorem linearizable_of_observe [DecidableEq σ] {c : Config I O R σ}
    (h : Run.exec (observe apply) (start a) ps = some c) : Linearizable apply a (events ps) := by
  obtain ⟨qs, hqs, he⟩ := exists_advance h fun _ ↦ false
  exact ⟨qs, hqs, by simp [he]⟩

variable {S L : Type u} {emit : S → L → List (Point I O R)}

omit [DecidableEq I] [DecidableEq R] in
theorem events_trace {step : S → L → Option S} {event : S → L → List (Event I O R)}
    (h : ∀ s l, events (emit s l) = event s l) (s : S) (ls : List L) :
    events (Run.trace step emit s ls) = Run.trace step event s ls := by
  induction ls generalizing s with
  | nil => rfl
  | cons l ls ih =>
    rw [Run.trace, Run.trace, events_append, h]
    cases hs : step s l with
    | none => rfl
    | some t => rw [Option.elim_some, Option.elim_some, ih]

/-- **A system whose steps can be read as points is linearizable.**  `emit` says which points a step
amounts to. -/
theorem linearizable_of_sim [DecidableEq σ] {step : S → L → Option S} {C : S → L → Prop}
    {event : S → L → List (Event I O R)} (hevent : ∀ s l, events (emit s l) = event s l)
    {Rel : S → Config I O R σ → Prop} (hstep : ∀ s l t c, Rel s c → C s l → step s l = some t →
      ∃ d, Run.exec (observe apply) c (emit s l) = some d ∧ Rel t d) {s t : S} {ls : List L}
    (hs : Rel s (start a)) (hg : Run.Guarded step C s ls) (he : Run.exec step s ls = some t) :
    Linearizable apply a (Run.trace step event s ls) := by
  obtain ⟨d, hd, -⟩ := Run.sim_of_guarded hstep hs hg he
  rw [← events_trace hevent]
  exact linearizable_of_observe hd

end Linearizable
