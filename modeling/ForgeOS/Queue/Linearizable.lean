import ForgeOS.Queue.Steps

/-!
# The queue is linearizable

A pop that returns null has read a null link from the first node, but it does not know that the node
was still the first one before it has looked at `q->head` again.

The main result is `linearizable_fifo`.
-/

namespace ForgeOS.Queue

open List Option Linearizable Run

variable {I A V : Type} [Zero A] [DecidableEq A]

def point (q : Queue I A V) : Label I A V → List (Point I (Op V) (Ret V))
  | .call i op => [.event (.call i op)]
  | .access i =>
    match q.pc i with
    | .pushLink _ _ tail => if (q.mem tail).next = 0 then [.commit i] else []
    | .popReadNext head tail =>
      if head = q.head ∧ head = tail ∧ (q.mem head).next = 0 then [.look i] else []
    | .popTake head _ _ => if q.head = head then [.commit i] else []
    | .pushRet => [.event (.ret i .pushed)]
    | .popRet ret => [.event (.ret i (.popped (some ret)))]
    | .popEmpty => [.event (.ret i (.popped none))]
    | _ => []
  | _ => []

attribute [local simp] observe point

theorem events_point (q : Queue I A V) (lbl : Label I A V) :
    events (point q lbl) = event q lbl := by
  cases lbl with
  | call | malloc | scribble => rfl
  | access i =>
    cases hpc : q.pc i with
    | pushLink | popReadNext | popTake =>
      simp only [point, event, hpc]
      split <;> rfl
    | _ => simp [event, hpc]

def Agree (l : List A) (st : Status (Op V) (Ret V)) : Pc A V → Prop
  | .idle => st = .idle
  | .pushMalloc data | .pushSetP data _ | .pushSetNext data _ | .pushReadTail data _
  | .pushReadNext data _ _ | .pushCheck data _ _ _ | .pushLink data _ _ | .pushHelp data _ _ _ =>
    ∃ seen, st = .called (.push data) seen
  | .pushSwing _ _ | .pushInc | .pushRet => st = .done .pushed
  | .popReadHead | .popReadTail _ | .popReadNext _ _ | .popHelp _ _ | .popReadP _ _
  | .popTake _ _ _ => ∃ seen, st = .called .pop seen
  | .popCheck head tail next =>
    ∃ seen, st = .called .pop seen ∧
      (head = tail → next = 0 → head ∈ l → seen = some (.popped none))
  | .popEmpty => st = .called .pop (some (.popped none))
  | .popFree _ ret | .popDec ret | .popRet ret => st = .done (.popped (some ret))

def Rel (q : Queue I A V) (c : Config I (Op V) (Ret V) (List V)) : Prop :=
  ∃ l, Inv q l ∧ c.state = contents q l ∧ ∀ i, Agree l (c.status i) (q.pc i)

variable {q q' : Queue I A V} {l l' : List A} {i : I} {pc : Pc A V} {st : Status (Op V) (Ret V)}
  {c : Config I (Op V) (Ret V) (List V)} {lbl : Label I A V}

omit [DecidableEq A] in
theorem Agree.mono (hjoin : ∀ x, pc.hazard = some x → x ∈ l' → x ∈ l) (h : Agree l st pc) :
    Agree l' st pc := by
  cases pc with
  | popCheck head tail next =>
    obtain ⟨seen, hst, hseen⟩ := h
    exact ⟨seen, hst, fun ht hn hx ↦ hseen ht hn (hjoin head rfl hx)⟩
  | _ => exact h

theorem contents_of_moves (hm : Moves q lbl l q' l') (hlinked : linked q lbl = [])
    (htaken : taken q lbl = []) (hstate : c.state = contents q l) : c.state = contents q' l' := by
  have hvs := hm.contents
  rw [hlinked, htaken, append_nil, nil_append] at hvs
  exact hstate.trans hvs

omit [DecidableEq A] in
theorem contents_eq_nil (h : Inv q l) (hnull : (q.mem q.head).next = 0) : contents q l = [] := by
  obtain ⟨m, hm⟩ := h.chain.eq_cons
  obtain rfl : m = [] := by
    refine LinkPath.eq_nil (l := []) (hm ▸ h.chain.path) ?_ hnull
    exact fun hz ↦ h.chain.zero (hm ▸ hz)
  simp [contents, hm]

variable [DecidableEq I]

theorem rel_of_moves {vs : List V} (hm : Moves q lbl l (q'.goto i pc) l') (hpc : q'.pc = q.pc)
    (hvs : vs = contents (q'.goto i pc) l') (hag : ∀ j, Agree l (c.status j) (q.pc j))
    (hst : Agree l' st pc) : Rel (q'.goto i pc) (Config.set ⟨vs, c.status⟩ i st) := by
  refine ⟨l', hm.inv, hvs, fun j ↦ ?_⟩
  by_cases hj : j = i
  · subst hj
    simpa [Config.set, Queue.goto] using hst
  · simpa [Config.set, Queue.goto, hpc, hj] using (hag j).mono (hm.join j)

theorem rel_of_silent (hm : Moves q lbl l (q'.goto i pc) l') (hpc : q'.pc = q.pc)
    (hlinked : linked q lbl = []) (htaken : taken q lbl = []) (hstate : c.state = contents q l)
    (hag : ∀ j, Agree l (c.status j) (q.pc j)) (hst : Agree l' (c.status i) pc) :
    Rel (q'.goto i pc) c := by
  have hrel := rel_of_moves hm hpc (contents_of_moves hm hlinked htaken hstate) hag hst
  rwa [Config.set_status rfl] at hrel

omit [DecidableEq I] [Zero A] in
@[simp] theorem casTail_pc {x y : A} : (q.casTail x y).pc = q.pc := by
  rw [casTail]
  split <;> rfl

variable [DecidableEq V]

theorem sim_reads (h : Inv q l) (hstate : c.state = contents q l)
    (hag : ∀ j, Agree l (c.status j) (q.pc j)) {pc' : Pc A V} (hpc : q.pc i = pc)
    (hr : Reads q pc pc') (len : UInt32) :
    ∃ d, exec (observe fifo) c (point q (.access i)) = some d ∧
      Rel ({ q with len := len }.goto i pc') d := by
  have hm := moves_reads h hpc hr len
  obtain ⟨hlinked, htaken⟩ := hr.silent hpc
  have hi := hag i
  rw [hpc] at hi
  have hsilent : point q (.access i) = [] → Agree l (c.status i) pc' →
      ∃ d, exec (observe fifo) c (point q (.access i)) = some d ∧
        Rel ({ q with len := len }.goto i pc') d := fun hpoint hi' ↦
    ⟨c, by rw [hpoint, exec_nil], rel_of_silent hm rfl hlinked htaken hstate hag hi'⟩
  have hevent : ∀ d st, exec (observe fifo) c (point q (.access i)) = some d →
      d = Config.set ⟨c.state, c.status⟩ i st → Agree l st pc' →
      ∃ d, exec (observe fifo) c (point q (.access i)) = some d ∧
        Rel ({ q with len := len }.goto i pc') d := by
    rintro d st hd rfl hst
    exact ⟨_, hd, rel_of_moves hm rfl (contents_of_moves hm hlinked htaken hstate) hag hst⟩
  cases hr with
  | @popReadNext head tail =>
    obtain ⟨seen, hst⟩ := hi
    have hfront : Front q l head := by
      have hok := h.ok i
      rw [hpc] at hok
      exact hok.1
    by_cases hlook : head = q.head ∧ head = tail ∧ (q.mem head).next = 0
    · -- The queue is empty now, whether or not this look will count.
      have hfifo : fifo c.state .pop = (c.state, .popped none) := by
        rw [hstate, contents_eq_nil h (hlook.1 ▸ hlook.2.2), fifo]
      refine hevent _ _ ?_ rfl ⟨some (.popped none), rfl, fun _ _ _ ↦ rfl⟩
      simp [hpc, ← hlook.1, ← hlook.2.1, hlook.2.2, exec, hst, hfifo]
    · refine hsilent (by simp [hpc, hlook]) ⟨seen, hst, fun ht hn hx ↦ ?_⟩
      exact absurd ⟨hfront hx, ht, hn⟩ hlook
  | pushRet | popRet | popEmpty =>
    rw [Agree] at hi
    refine hevent _ .idle ?_ rfl rfl
    simp [hpc, exec, hi]
  | popNone hhead ht hn =>
    obtain ⟨seen, hst, hseen⟩ := hi
    rw [hseen ht hn (hhead ▸ h.chain.head_mem)] at hst
    exact hsilent (by simp [hpc]) hst
  | popBehind | popSome | popMoved =>
    obtain ⟨seen, hst, -⟩ := hi
    exact hsilent (by simp [hpc]) ⟨seen, hst⟩
  | pushFailed hne | popFailed hne => exact hsilent (by simp [hpc, hne]) hi
  | pushReadTail | pushReadNext | pushLast | pushBehind | pushMoved | pushInc | popReadHead
  | popReadTail | popReadP | popDec => exact hsilent (by simp [hpc]) hi

theorem sim_access (h : Inv q l) (hstate : c.state = contents q l)
    (hag : ∀ j, Agree l (c.status j) (q.pc j)) (hq' : q.access i = some q') :
    ∃ d, exec (observe fifo) c (point q (.access i)) = some d ∧ Rel q' d := by
  obtain ⟨l', hm⟩ := moves_access h hq'
  have hi := hag i
  cases access_cases hq' with
  | reads hpc hr => exact sim_reads h hstate hag hpc hr _
  | swings hpc hs =>
    obtain ⟨hlinked, htaken⟩ := hs.silent hpc
    rw [hpc] at hi
    refine ⟨c, ?_, rel_of_silent hm casTail_pc hlinked htaken hstate hag ?_⟩
    · cases hs <;> simp [hpc]
    · cases hs <;> exact hi
  | setP hpc | setNext hpc | free hpc =>
    rw [hpc] at hi
    exact ⟨c, by simp [hpc], rel_of_silent hm rfl (by simp [linked, hpc])
      (by simp [taken, hpc]) hstate hag hi⟩
  | @link data n tail hpc hnull =>
    rw [hpc] at hi
    obtain ⟨seen, hst⟩ := hi
    have hvs := hm.contents
    rw [show linked q (.access i) = [data] by simp [linked, hpc, hnull],
      show taken q (.access i) = [] by simp [taken, hpc], nil_append, ← hstate] at hvs
    refine ⟨_, ?_, rel_of_moves hm rfl hvs hag rfl⟩
    simp [hpc, hnull, exec, advance, hst, fifo]
  | @take head next ret hpc hhead =>
    rw [hpc] at hi
    obtain ⟨seen, hst⟩ := hi
    have hvs := hm.contents
    rw [show linked q (.access i) = [] by simp [linked, hpc],
      show taken q (.access i) = [ret] by simp [taken, hpc, hhead], append_nil,
      singleton_append, ← hstate] at hvs
    refine ⟨_, ?_, rel_of_moves hm rfl rfl hag rfl⟩
    simp [hpc, hhead, exec, advance, hst, hvs, fifo]

theorem sim_step (hrel : Rel q c) (hlbl : q.Careful lbl) (hq' : q.step lbl = some q') :
    ∃ d, exec (observe fifo) c (point q lbl) = some d ∧ Rel q' d := by
  obtain ⟨l, h, hstate, hag⟩ := hrel
  cases lbl with
  | access i => exact sim_access h hstate hag hq'
  | call i op =>
    obtain ⟨l', hm⟩ := moves_step h hlbl hq'
    obtain ⟨hpc, rfl⟩ := step_call_eq_some hq'
    have hst : c.status i = .idle := by
      have hi := hag i
      rw [hpc] at hi
      exact hi
    have hop : Agree l' (.called op none) (op.entry : Pc A V) := by
      cases op
      · exact ⟨none, rfl⟩
      · exact ⟨none, rfl⟩
    refine ⟨_, ?_, rel_of_moves hm rfl (contents_of_moves hm rfl rfl hstate) hag hop⟩
    simp [exec, advance, hst]
  | malloc i n junk =>
    obtain ⟨l', hm⟩ := moves_step h hlbl hq'
    refine ⟨c, rfl, ?_⟩
    obtain ⟨data, hpc, -, -, rfl⟩ := step_malloc_eq_some hq'
    have hi := hag i
    rw [hpc] at hi
    exact rel_of_silent hm rfl rfl rfl hstate hag hi
  | scribble a junk =>
    obtain ⟨l', hm⟩ := moves_step h hlbl hq'
    obtain ⟨-, rfl⟩ := step_scribble_eq_some hq'
    exact ⟨c, rfl, l', hm.inv, contents_of_moves hm rfl rfl hstate,
      fun j ↦ (hag j).mono (hm.join j)⟩

omit [DecidableEq V] in
theorem inv_run {ls : List (Label I A V)} (h : Inv q l) (hls : Guarded step Careful q ls)
    (hq' : exec step q ls = some q') :
    ∃ l', Inv q' l' ∧ contents q l ++ trace step linked q ls =
      trace step taken q ls ++ contents q' l' := by
  induction ls generalizing q l with
  | nil =>
    obtain rfl := some.inj hq'
    exact ⟨l, h, by simp [trace]⟩
  | cons lbl ls ih =>
    obtain ⟨m, hm, hq'⟩ := exec_cons_eq_some.mp hq'
    obtain ⟨k, hk⟩ := moves_step h hls.1 hm
    obtain ⟨l', hl', heq⟩ := ih hk.inv (hls.2 m hm) hq'
    refine ⟨l', hl', ?_⟩
    rw [trace, trace, hm, elim_some, elim_some, ← append_assoc,
      hk.contents, append_assoc, heq, append_assoc]

/-- **`queue.c` implements a queue**, if the allocator does not hand out a node that somebody still
uses and does not write a null link into a freed one: what the callers see is linearizable, and no
value is taken twice, out of order, or lost. -/
theorem linearizable_fifo (mem : A → Node A V) (allocated : A → Bool) (base : A) (magic : V)
    (hbase : base ≠ 0) (ls : List (Label I A V))
    (hls : Guarded step Careful (createQueue mem allocated base magic) ls) (t : Queue I A V)
    (ht : exec step (createQueue mem allocated base magic) ls = some t) :
    Linearizable fifo [] (trace step event (createQueue mem allocated base magic) ls) ∧
      ∃ l, LinkPath (fun a ↦ (t.mem a).next) t.head l 0 ∧
        trace step linked (createQueue mem allocated base magic) ls =
          trace step taken (createQueue mem allocated base magic) ls ++ contents t l := by
  have hinv : Inv (createQueue (I := I) mem allocated base magic) [base] :=
    inv_createQueue magic hbase
  refine ⟨?_, ?_⟩
  · refine linearizable_of_sim events_point (fun s lbl t c hrel hlbl hs ↦
      sim_step hrel hlbl hs) ⟨[base], hinv, rfl, fun i ↦ rfl⟩ hls ht
  · obtain ⟨l, hl, heq⟩ := inv_run hinv hls ht
    exact ⟨l, hl.chain.path, heq⟩

def fresh : Queue (Fin 2) ℕ ℕ := createQueue (fun _ ↦ ⟨0, 0⟩) (fun _ ↦ false) 1 0

/-- Agent 0 pushes 7 and stops before it moves `q->tail` on.  Agent 1 does that for it, pops the
value and frees the base node, in which the allocator then keeps a link; agent 0 returns last. -/
def helped : List (Label (Fin 2) ℕ ℕ) :=
  .call 0 (.push 7) :: .malloc 0 2 ⟨9, 9⟩ :: List.replicate 6 (.access 0) ++
    .call 1 .pop :: List.replicate 14 (.access 1) ++
      .scribble 1 ⟨5, 5⟩ :: List.replicate 3 (.access 0)

theorem linearizable_helped :
    Guarded step Careful fresh helped ∧
      trace step event fresh helped =
        [.call 0 (.push 7), .call 1 .pop, .ret 1 (.popped (some 7)), .ret 0 .pushed] ∧
      Linearizable fifo [] (trace step event fresh helped) := by
  have hls : Guarded step Careful fresh helped := by decide
  have hrun : (exec step fresh helped).isSome := by decide
  obtain ⟨t, ht⟩ := isSome_iff_exists.mp hrun
  refine ⟨hls, by decide, ?_⟩
  exact (linearizable_fifo _ _ 1 0 (by decide) helped hls t ht).1

def runPush (data n : ℕ) : List (Label (Fin 2) ℕ ℕ) :=
  .call 0 (.push data) :: .malloc 0 n ⟨0, 0⟩ :: List.replicate 9 (.access 0)

def runPop : List (Label (Fin 2) ℕ ℕ) := .call 0 .pop :: List.replicate 9 (.access 0)

/-- Agent 1 pushes 8 and is held up before it links its node behind the base node.  Agent 0 pushes and
pops 7, which frees the base node, and the allocator writes a null link there.  Then agent 1 goes on,
and agent 0 pops once more. -/
def nulled : List (Label (Fin 2) ℕ ℕ) :=
  .call 1 (.push 8) :: .malloc 1 2 ⟨0, 0⟩ :: List.replicate 5 (.access 1) ++ runPush 7 3 ++ runPop ++
    .scribble 1 ⟨5, 0⟩ :: List.replicate 4 (.access 1) ++ .call 0 .pop :: List.replicate 5 (.access 0)

/-- **A push into a freed node**: no node is handed out twice, and 8 is lost.  Its push has returned,
nobody has taken it, and the queue is empty. -/
theorem lost_nulled : ∃ t, exec step fresh nulled = some t ∧
    Guarded step NoReuse fresh nulled ∧
      trace step event fresh nulled =
        [.call 1 (.push 8), .call 0 (.push 7), .ret 0 .pushed, .call 0 .pop,
          .ret 0 (.popped (some 7)), .ret 1 .pushed, .call 0 .pop, .ret 0 (.popped none)] ∧
      trace step linked fresh nulled = [7, 8] ∧ trace step taken fresh nulled = [7] ∧
      ∀ l, LinkPath (fun a ↦ (t.mem a).next) t.head l 0 →
        trace step linked fresh nulled ≠ trace step taken fresh nulled ++ contents t l := by
  have hlast : (exec step fresh nulled).map
      (fun t ↦ ((t.mem t.head).next, (t.mem 0).p)) = some (0, 0) := by
    decide
  have hlinked : trace step linked fresh nulled = [7, 8] := by decide
  have htaken : trace step taken fresh nulled = [7] := by decide
  obtain ⟨t, ht, hlast⟩ := map_eq_some_iff.mp hlast
  obtain ⟨hnext, hp⟩ := Prod.mk.inj hlast
  refine ⟨t, ht, by decide, by decide, hlinked, htaken, fun l hl heq ↦ ?_⟩
  rw [hlinked, htaken, singleton_append, cons_inj_right] at heq
  -- Only a node behind the first one could hold 8, and there is none.
  obtain ⟨x, hx, hval⟩ := map_eq_singleton_iff.mp heq.symm
  obtain ⟨a, rfl⟩ : ∃ a, l = [a, x] := by
    cases l with
    | nil => cases hx
    | cons a m => exact ⟨a, by rw [show m = [x] from hx]⟩
  obtain ⟨rfl, hxt, -⟩ := hl
  rw [hxt.symm.trans hnext, hp] at hval
  cases hval

end ForgeOS.Queue
