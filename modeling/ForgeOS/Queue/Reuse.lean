import ForgeOS.Queue.Linearizable

/-!
# What the queue owes to the allocator

The compare-and-swaps compare addresses without any counter.

The main result is `conserved_of_careful`.
-/

namespace ForgeOS.Queue

open Function List Option Run

variable {I A V : Type}

def given (_ : Queue I A V) : Label I A V → List V
  | .call _ (.push data) => [data]
  | _ => []

def returned (q : Queue I A V) : Label I A V → List V
  | .access i =>
    match q.pc i with
    | .popRet ret => [ret]
    | _ => []
  | _ => []

def Pc.carries : Pc A V → Option V
  | .pushMalloc data | .pushSetP data _ | .pushSetNext data _ | .pushReadTail data _
  | .pushReadNext data _ _ | .pushCheck data _ _ _ | .pushLink data _ _ | .pushHelp data _ _ _ =>
    some data
  | .popFree _ ret | .popDec ret | .popRet ret => some ret
  | _ => none

def Inside (q : Queue I A V) (l : List A) (vs : List V) : Prop :=
  Accounts (fun i ↦ (q.pc i).carries) (contents q l) vs

open scoped List in
theorem perm_of_balance {g r c c' link take st st' : List V}
    (hagent : g ++ c ++ take = link ++ r ++ c') (hqueue : st ++ link = take ++ st') :
    g ++ (c ++ st) ~ r ++ (c' ++ st') := by
  classical
  refine perm_iff_count.mpr fun v ↦ ?_
  have hv := congrArg (count v) hagent
  have hv' := congrArg (count v) hqueue
  simp only [count_append] at hv hv' ⊢
  omega

variable [Zero A] [DecidableEq A] [DecidableEq I] {q q' : Queue I A V} {l l' : List A} {i : I}
  {lbl : Label I A V} {vs : List V} {pc : Pc A V}

theorem Inside.move (h : Inside q l vs) (hm : Moves q lbl l q' l')
    (hq' : q'.pc = Function.update q.pc i pc)
    (hbalance : given q lbl ++ (q.pc i).carries.toList ++ taken q lbl =
      linked q lbl ++ returned q lbl ++ pc.carries.toList) :
    ∃ ws, Inside q' l' ws ∧ (given q lbl ++ vs).Perm (returned q lbl ++ ws) := by
  have hcarries : (fun j ↦ (q'.pc j).carries) =
      update (fun j ↦ (q.pc j).carries) i pc.carries := by
    funext j
    by_cases hj : j = i
    · subst hj
      simp [hq']
    · simp [hq', hj]
  obtain ⟨ws, hws, hp⟩ := Accounts.move h (perm_of_balance hbalance hm.contents)
  rw [← hcarries] at hws
  exact ⟨ws, hws, hp⟩

attribute [local simp] Pc.carries returned

theorem balance_access (hq' : q.access i = some q') :
    ∃ pc, q'.pc = Function.update q.pc i pc ∧
      given q (.access i) ++ (q.pc i).carries.toList ++ taken q (.access i) =
        linked q (.access i) ++ returned q (.access i) ++ pc.carries.toList := by
  cases access_cases hq' with
  | reads hpc hr =>
    refine ⟨_, rfl, ?_⟩
    cases hr <;> simp_all [given, taken, linked]
  | @swings pc old new pc' hpc hs =>
    refine ⟨pc', by simp only [Queue.goto, casTail_pc], ?_⟩
    cases hs <;> simp [given, taken, linked, hpc]
  | setP hpc | setNext hpc | free hpc =>
    exact ⟨_, rfl, by simp [given, taken, linked, hpc]⟩
  | link hpc hnull =>
    exact ⟨_, rfl, by simp [given, taken, linked, hpc, hnull]⟩
  | take hpc hhead =>
    exact ⟨_, rfl, by simp [given, taken, linked, hpc, hhead]⟩

theorem inside_step (h : Inv q l) (hvs : Inside q l vs) (hlbl : q.Careful lbl)
    (hq' : q.step lbl = some q') :
    ∃ ws, (∃ l', Inv q' l' ∧ Inside q' l' ws) ∧
    (given q lbl ++ vs).Perm (returned q lbl ++ ws) := by
  obtain ⟨l', hm⟩ := moves_step h hlbl hq'
  suffices hws : ∃ ws, Inside q' l' ws ∧ (given q lbl ++ vs).Perm (returned q lbl ++ ws) by
    obtain ⟨ws, hws, hp⟩ := hws
    exact ⟨ws, ⟨l', hm.inv, hws⟩, hp⟩
  cases lbl with
  | access i =>
    obtain ⟨pc, hpc, hbalance⟩ := balance_access hq'
    exact hvs.move hm hpc hbalance
  | call i op =>
    obtain ⟨hpc, rfl⟩ := step_call_eq_some hq'
    refine hvs.move hm rfl ?_
    rw [hpc]
    cases op <;> rfl
  | malloc i n junk =>
    obtain ⟨data, hpc, -, -, rfl⟩ := step_malloc_eq_some hq'
    refine hvs.move hm rfl ?_
    rw [hpc]
    rfl
  | scribble a junk =>
    have hcontents : contents q l = contents q' l' := by
      have hm' := hm.contents
      rwa [show linked q (.scribble a junk) = [] from rfl,
        show taken q (.scribble a junk) = [] from rfl, append_nil, nil_append] at hm'
    obtain ⟨-, rfl⟩ := step_scribble_eq_some hq'
    refine ⟨vs, ?_, .refl _⟩
    rw [Inside, ← hcontents]
    exact hvs

open scoped List in
/-- **Where no node is handed out while somebody has its address, no value is doubled or lost**: the
values pushed are those returned, those `cs` that the calls carry, and those in the queue. -/
theorem conserved_of_careful (mem : A → Node A V) (allocated : A → Bool) (base : A) (magic : V)
    (hbase : base ≠ 0) (ls : List (Label I A V))
    (hls : Guarded step Careful (createQueue mem allocated base magic) ls) (t : Queue I A V)
    (ht : exec step (createQueue mem allocated base magic) ls = some t) :
    (trace step returned (createQueue mem allocated base magic) ls).Subperm
        (trace step given (createQueue mem allocated base magic) ls) ∧
      ∃ l cs, LinkPath (fun a ↦ (t.mem a).next) t.head l 0 ∧ Carried (fun i ↦ (t.pc i).carries) cs ∧
        trace step given (createQueue mem allocated base magic) ls ~
          trace step returned (createQueue mem allocated base magic) ls ++ (cs ++ contents t l) := by
  have hinv : Inv (createQueue (I := I) mem allocated base magic) [base] :=
    inv_createQueue magic hbase
  have hinside : Inside (createQueue (I := I) mem allocated base magic) [base] [] :=
    ⟨[], carried_none, .refl _⟩
  have hstep : ∀ (q : Queue I A V) lbl q' vs, (∃ l, Inv q l ∧ Inside q l vs) → q.Careful lbl →
      q.step lbl = some q' → ∃ ws, (∃ l', Inv q' l' ∧ Inside q' l' ws) ∧
        (given q lbl ++ vs).Perm (returned q lbl ++ ws) := by
    rintro q lbl q' vs ⟨l, h, hvs⟩ hlbl hq'
    exact inside_step h hvs hlbl hq'
  refine ⟨subperm_of_guarded hstep ⟨[base], hinv, hinside⟩ hls ht, ?_⟩
  obtain ⟨ws, ⟨l, hl, cs, hcs, hws⟩, hp⟩ :=
    conserved_of_guarded hstep ⟨[base], hinv, hinside⟩ hls ht
  rw [append_nil] at hp
  exact ⟨l, cs, hl.chain.path, hcs, hp.trans (hws.append_left _)⟩

/-- Agent 1 pops 7 while agent 0 is about to move `q->tail` on, as in `helped`, and the base node
goes to the next push.  By then nobody has its address any more. -/
def reusedLater : List (Label (Fin 2) ℕ ℕ) :=
  helped ++ .call 1 (.push 8) :: .malloc 1 1 ⟨5, 5⟩ :: List.replicate 9 (.access 1)

theorem conserved_reusedLater : ∃ t,
    exec step fresh reusedLater = some t ∧
      trace step given fresh reusedLater = [7, 8] ∧
      trace step returned fresh reusedLater = [7] ∧
      (trace step returned fresh reusedLater).Subperm (trace step given fresh reusedLater) := by
  have hls : Guarded step Careful fresh reusedLater := by decide
  have hrun : (exec step fresh reusedLater).isSome := by decide
  obtain ⟨t, ht⟩ := isSome_iff_exists.mp hrun
  refine ⟨t, ht, by decide, by decide, ?_⟩
  exact (conserved_of_careful _ _ 1 0 (by decide) reusedLater hls t ht).1

/-- Agent 1 pops 7 from a queue with the nodes 1 and 2, and is held up before its compare-and-swap.
Agent 0 pops 7 and frees node 1, gets node 1 again for a push of 8, and pops 8.  Then `q->head` is
at node 1, and agent 1 goes on. -/
def recycled : List (Label (Fin 2) ℕ ℕ) :=
  runPush 7 2 ++ .call 1 .pop :: List.replicate 5 (.access 1) ++ runPop ++ runPush 8 1 ++ runPop ++
    List.replicate 4 (.access 1)

/-- **A recycled address satisfies a stale comparison**: 7 was pushed once and is returned twice. -/
theorem not_conserved_recycled :
    (exec step fresh recycled).isSome ∧ trace step given fresh recycled = [7, 8] ∧
      trace step returned fresh recycled = [7, 8, 7] ∧
      ¬ (trace step returned fresh recycled).Subperm (trace step given fresh recycled) := by
  have hgiven : trace step given fresh recycled = [7, 8] := by decide
  have hreturned : trace step returned fresh recycled = [7, 8, 7] := by decide
  refine ⟨by decide, hgiven, hreturned, ?_⟩
  rw [hgiven, hreturned]
  intro hsub
  exact absurd hsub.length_le (by decide)

end ForgeOS.Queue
