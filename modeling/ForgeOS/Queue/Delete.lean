import ForgeOS.Lib.Fuel
import ForgeOS.Lib.Ledger
import ForgeOS.Queue.Reuse

/-!
# What `delete_queue` frees

What `malloc` has handed out to a single agent, the base node first, is at every moment what
`queue_pop` has freed, the node it is about to free, the nodes of the queue, and the node that
`queue_push` is about to link (`history`).

The main result is `deleteQueue_settles_iff`.
-/

namespace ForgeOS.Queue

open Function List Option Run Pc Queue Ledger

variable {I A V : Type} [Zero A] [DecidableEq A]

/-- The loop of `delete_queue`: the nodes it frees, and what is left in `q->base`. -/
def deleteLoop (q : Queue I A V) : ℕ → A → A → Option (List A × A)
  | 0, _, _ => none
  | fuel + 1, n, base =>
    if n = 0 then some ([], base)
    else (deleteLoop q fuel (q.mem n).next (if n = base then 0 else base)).map fun r ↦
      (n :: r.1, r.2)

/-- `delete_queue`: the nodes it passes to `free`, in order. -/
def deleteQueue (fuel : ℕ) (q : Queue I A V) : Option (List A) :=
  (deleteLoop q fuel q.head q.base).map fun r ↦ if r.2 ≠ 0 then r.1 ++ [r.2] else r.1

def frees (q : Queue I A V) : Label I A V → List A
  | .access i => (q.pc i).popped.toList
  | _ => []

def mallocs (_ : Queue I A V) : Label I A V → List A
  | .malloc _ n _ => [n]
  | _ => []

def ledger (q : Queue I A V) (lbl : Label I A V) : List (Event A) :=
  (mallocs q lbl).map .malloc ++ (frees q lbl).map .free

/-! ## A single caller -/

def Alone (q : Queue Unit A V) (l : List A) : Pc A V → Prop
  | .pushReadTail _ n => (∃ k, l = k ++ [q.tail]) ∧ (q.mem n).next = 0
  | .pushReadNext _ n tail | .pushLink _ n tail =>
    (∃ k, l = k ++ [q.tail]) ∧ (q.mem n).next = 0 ∧ tail = q.tail
  | .pushCheck _ n tail next =>
    (∃ k, l = k ++ [q.tail]) ∧ (q.mem n).next = 0 ∧ tail = q.tail ∧ next = 0
  | .pushSwing n tail => tail = q.tail ∧ ∃ k, l = k ++ [q.tail, n]
  | .popReadTail head => (∃ k, l = k ++ [q.tail]) ∧ head = q.head
  | .popReadNext head tail => (∃ k, l = k ++ [q.tail]) ∧ head = q.head ∧ tail = q.tail
  | .popCheck head tail next =>
    (∃ k, l = k ++ [q.tail]) ∧ head = q.head ∧ tail = q.tail ∧ next = (q.mem head).next
  | .popReadP head next | .popTake head next _ =>
    (∃ k, l = k ++ [q.tail]) ∧ head = q.head ∧ head ≠ q.tail ∧ next = (q.mem head).next
  | .pushHelp .. | .popHelp .. => False
  | _ => ∃ k, l = k ++ [q.tail]

structure Sole (q : Queue Unit A V) (l : List A) : Prop where
  chain : Chain q l
  owns : ∀ a, (q.pc ()).Owns a → a ≠ 0 ∧ a ∉ l ∧ q.allocated a = true
  alone : Alone q l (q.pc ())

/-- All nodes of the queue, in the order in which they were allocated: the one that is about to be
freed, those on the chain, the one that is about to be linked. -/
def Sole.nodes (q : Queue Unit A V) (l : List A) : List A :=
  (q.pc ()).popped.toList ++ l ++ (q.pc ()).priv.toList

structure Turns (q : Queue Unit A V) (lbl : Label Unit A V) (l : List A) (q' : Queue Unit A V)
    (l' : List A) : Prop where
  sole : Sole q' l'
  nodes : Sole.nodes q l ++ mallocs q lbl = frees q lbl ++ Sole.nodes q' l'

variable {q q' : Queue Unit A V} {l l' : List A} {pc : Pc A V} {lbl : Label Unit A V} {a n x : A}
  {nd : Node A V}

omit [DecidableEq A] in
theorem Alone.frame (hc : Chain q l) (h : Alone q l pc)
    (hmem : ∀ x, x ∈ l ∨ pc.priv = some x → q'.mem x = q.mem x) (hhead : q'.head = q.head)
    (htail : q'.tail = q.tail) : Alone q' l pc := by
  have hfirst : q'.mem q.head = q.mem q.head := hmem _ (.inl hc.head_mem)
  cases pc with
  | pushReadTail data n | pushReadNext data n tail | pushCheck data n tail next
  | pushLink data n tail =>
    simp only [Alone, htail, hmem n (.inr rfl)] at h ⊢
    exact h
  | popCheck head tail next | popReadP head next | popTake head next ret =>
    simp only [Alone, htail, hhead] at h ⊢
    obtain ⟨hk, rfl, ht, hnext⟩ := h
    exact ⟨hk, rfl, ht, by rw [hnext, hfirst]⟩
  | pushHelp | popHelp => exact h
  | _ =>
    simp only [Alone, htail, hhead] at h ⊢
    exact h

omit [DecidableEq A] in
theorem Sole.goto (h : Sole q l) (hpc : q'.pc = Function.update q.pc () pc) (hmem : q'.mem = q.mem)
    (halloc : q'.allocated = q.allocated) (hhead : q'.head = q.head) (htail : q'.tail = q.tail)
    (hpriv : pc.priv = (q.pc ()).priv) (hpopped : pc.popped = none)
    (hwas : (q.pc ()).popped = none) (hmallocs : mallocs q lbl = []) (hfrees : frees q lbl = [])
    (hal : Alone q l pc) : Turns q lbl l q' l := by
  have hq' : q'.pc () = pc := by rw [hpc, update_self]
  refine ⟨⟨h.chain.of_eq hmem halloc hhead htail, fun a ha ↦ ?_, ?_⟩, ?_⟩
  · rw [hq', Owns, hpopped, hpriv] at ha
    rw [halloc]
    exact h.owns a (.inl (ha.resolve_right (by simp)))
  · rw [hq']
    exact hal.frame h.chain (fun x _ ↦ by rw [hmem]) hhead htail
  · rw [hmallocs, hfrees, Sole.nodes, Sole.nodes, hq', hpriv, hpopped, hwas]
    simp

theorem Sole.write (h : Sole q l) (ha : a ∉ l) (hq' : q'.pc () = pc)
    (hmem : q'.mem = Function.update q.mem a nd) (halloc : q'.allocated = q.allocated)
    (hhead : q'.head = q.head) (htail : q'.tail = q.tail) (hpriv : pc.priv = (q.pc ()).priv)
    (hpopped : pc.popped = (q.pc ()).popped) (hmallocs : mallocs q lbl = [])
    (hfrees : frees q lbl = []) (hal : Alone q' l pc) : Turns q lbl l q' l := by
  refine ⟨⟨h.chain.write ha hmem (halloc ▸ h.chain.allocated) hhead htail, fun b hb ↦ ?_, ?_⟩, ?_⟩
  · rw [hq', Owns, hpriv, hpopped] at hb
    rw [halloc]
    exact h.owns b hb
  · rwa [hq']
  · rw [hmallocs, hfrees, Sole.nodes, Sole.nodes, hq', hpriv, hpopped]
    simp

theorem turns_scribble (h : Sole q l) (ha : q.allocated a = false) :
    Turns q (.scribble a nd) l (q.write a nd) l := by
  have hal : a ∉ l := by
    intro hal
    simp [h.chain.allocated a hal] at ha
  have hown : ¬ (q.pc ()).Owns a := by
    intro hown
    simp [(h.owns a hown).2.2] at ha
  refine h.write hal rfl rfl rfl rfl rfl rfl rfl rfl rfl (h.alone.frame h.chain ?_ rfl rfl)
  intro x hx
  refine update_of_ne ?_ _ _
  rintro rfl
  exact hx.elim hal fun hx ↦ hown (.inl hx)

attribute [local simp] Sole.nodes frees goto mallocs

theorem turns_malloc (h : Sole q l) {data : V} (hpc : q.pc () = .pushMalloc data) (hn : n ≠ 0)
    (hfree : q.allocated n = false) :
    Turns q (.malloc () n nd) l ({ q.write n nd with
      allocated := Function.update q.allocated n true }.goto () (.pushSetP data n)) l := by
  have hnl : n ∉ l := by
    intro hnl
    simp [h.chain.allocated n hnl] at hfree
  have hlast := h.alone
  rw [hpc] at hlast
  refine ⟨⟨h.chain.write hnl rfl (fun b hb ↦ ?_) rfl rfl, fun b hb ↦ ?_, hlast⟩, ?_⟩
  · refine (update_of_ne ?_ _ _).trans (h.chain.allocated b hb)
    rintro rfl
    exact hnl hb
  · obtain rfl : n = b := by simpa [Owns, priv, popped] using hb
    exact ⟨hn, hnl, by simp⟩
  · simp [hpc, priv, popped]

theorem turns_link (h : Sole q l) {data : V} (hpc : q.pc () = .pushLink data n x) :
    Turns q (.access ()) l ((q.write x { q.mem x with next := n }).goto () (.pushSwing n x))
      (l ++ [n]) := by
  have hal := h.alone
  rw [hpc] at hal
  obtain ⟨⟨k, hk⟩, hnull, rfl⟩ := hal
  obtain ⟨hn0, hnl, halloc⟩ := h.owns n (.inl (by simp [hpc, priv]))
  refine ⟨⟨h.chain.snoc hk rfl ?_ hn0 hnl halloc rfl rfl rfl rfl, fun b hb ↦ ?_, ?_⟩, ?_⟩
  · rw [← hnull]
  · simp [Owns, priv, popped] at hb
  · exact ⟨rfl, k, by rw [hk, append_assoc]; rfl⟩
  · simp [hpc, priv, popped]

theorem turns_swing (h : Sole q l) (hpc : q.pc () = .pushSwing n x) :
    Turns q (.access ()) l ((q.casTail x n).goto () .pushInc) l := by
  have hal := h.alone
  rw [hpc] at hal
  obtain ⟨rfl, k, hk⟩ := hal
  have hlast : l = (k ++ [q.tail]) ++ [n] := by simp [hk]
  rw [casTail, if_pos rfl]
  refine ⟨⟨⟨h.chain.path, h.chain.zero, h.chain.nodup, h.chain.allocated, ?_⟩, fun b hb ↦ ?_, ?_⟩,
    ?_⟩
  · exact ⟨k ++ [q.tail], .inl hlast⟩
  · simp [Owns, priv, popped] at hb
  · exact ⟨k ++ [q.tail], hlast⟩
  · simp [hpc, priv, popped]

section

omit [DecidableEq A]

theorem Chain.next_tail {k : List A} (h : Chain q l) (hk : l = k ++ [q.tail]) :
    (q.mem q.tail).next = 0 := by
  have hp := h.path
  rw [hk, linkPath_snoc] at hp
  exact hp.2

theorem Chain.eq_cons_cons (h : Chain q l) (hne : q.head ≠ q.tail) :
    ∃ m, l = q.head :: (q.mem q.head).next :: m := by
  obtain ⟨m, hm⟩ := h.eq_cons
  obtain ⟨m', rfl⟩ := LinkPath.eq_cons (l := []) (hm ▸ h.path) (h.next_ne_zero hne.symm)
  exact ⟨m', hm⟩

theorem turns_take (h : Sole q l) {y : A} {ret : V} (hpc : q.pc () = .popTake x y ret) :
    q.head = x ∧ ∃ l', Turns q (.access ()) l ({ q with head := y }.goto () (.popFree x ret)) l' := by
  have hal := h.alone
  rw [hpc] at hal
  obtain ⟨⟨k, hk⟩, rfl, hne, rfl⟩ := hal
  obtain ⟨m, rfl⟩ := h.chain.eq_cons_cons hne
  have hnd := nodup_cons.mp h.chain.nodup
  obtain ⟨k', rfl⟩ : ∃ k', k = q.head :: k' := by
    cases k with
    | nil => exact absurd (cons.inj hk).1 hne
    | cons b k =>
      rw [cons_append] at hk
      exact ⟨k, by rw [(cons.inj hk).1]⟩
  have hlast : (q.mem q.head).next :: m = k' ++ [q.tail] := (cons.inj hk).2
  refine ⟨rfl, (q.mem q.head).next :: m, ⟨⟨⟨rfl, h.chain.path.2.2⟩,
    fun hz ↦ h.chain.zero (mem_cons_of_mem _ hz), hnd.2,
    fun a ha ↦ h.chain.allocated a (mem_cons_of_mem _ ha), k', .inl hlast⟩, fun b hb ↦ ?_,
    ⟨k', hlast⟩⟩, ?_⟩
  · obtain rfl : q.head = b := by simpa [Owns, priv, popped] using hb
    refine ⟨?_, hnd.1, h.chain.allocated _ h.chain.head_mem⟩
    intro hz
    exact h.chain.zero (hz ▸ h.chain.head_mem)
  · simp [hpc, priv, popped]

end

theorem turns_free (h : Sole q l) {ret : V} (hpc : q.pc () = .popFree x ret) :
    Turns q (.access ()) l
      ({ q with allocated := Function.update q.allocated x false }.goto () (.popDec ret)) l := by
  have hxl := (h.owns x (.inr (by simp [hpc, popped]))).2.1
  have hlast := h.alone
  rw [hpc] at hlast
  refine ⟨⟨⟨h.chain.path, h.chain.zero, h.chain.nodup, fun a ha ↦ ?_, h.chain.tail⟩, fun b hb ↦ ?_,
    hlast⟩, ?_⟩
  · refine (update_of_ne ?_ _ _).trans (h.chain.allocated a ha)
    rintro rfl
    exact hxl ha
  · simp [Owns, priv, popped] at hb
  · simp [hpc, priv, popped]

omit [DecidableEq A] in
theorem Reads.alone {pc pc' : Pc A V} (hr : Reads q pc pc') (hc : Chain q l) (hal : Alone q l pc) :
    Alone q l pc' := by
  cases hr with
  | pushReadTail => exact ⟨hal.1, hal.2, rfl⟩
  | pushReadNext =>
    obtain ⟨⟨k, hk⟩, hn, rfl⟩ := hal
    exact ⟨⟨k, hk⟩, hn, rfl, hc.next_tail hk⟩
  | pushLast => exact ⟨hal.1, hal.2.1, hal.2.2.1⟩
  | pushBehind hne => exact hne hal.2.2.2
  | pushMoved | pushFailed => exact ⟨hal.1, hal.2.1⟩
  | popReadHead => exact ⟨hal, rfl⟩
  | popReadTail => exact ⟨hal.1, hal.2, rfl⟩
  | popReadNext => exact ⟨hal.1, hal.2.1, hal.2.2, rfl⟩
  | popBehind ht hne =>
    obtain ⟨⟨k, hk⟩, -, htail, hnext⟩ := hal
    refine hne ?_
    rw [hnext, ht, htail, hc.next_tail hk]
  | popSome hhead hne =>
    obtain ⟨hk, -, htail, hnext⟩ := hal
    exact ⟨hk, hhead, htail ▸ hne, hnext⟩
  | popReadP | pushInc | pushRet | popDec | popRet | popEmpty => exact hal
  | popNone | popMoved | popFailed => exact hal.1

theorem turns_access (h : Sole q l) (hq' : q.access () = some q') :
    ∃ l', Turns q (.access ()) l q' l' := by
  have hal := h.alone
  cases access_cases hq' with
  | reads hpc hr =>
    rw [hpc] at hal
    refine ⟨l, h.goto rfl rfl rfl rfl rfl ?_ hr.popped.2 ?_ rfl ?_ (hr.alone h.chain hal)⟩
    all_goals simp [hpc, hr.priv, hr.popped.1]
  | swings hpc hs =>
    rw [hpc] at hal
    cases hs with
    | pushHelp | popHelp => exact hal.elim
    | pushSwing => exact ⟨l, turns_swing h hpc⟩
  | setP hpc =>
    rw [hpc] at hal
    refine ⟨l, h.write (h.owns _ (.inl (by simp [hpc, priv]))).2.1 (goto_pc ..) rfl rfl rfl rfl
      ?_ ?_ rfl ?_ hal⟩
    all_goals simp [hpc, priv, popped]
  | setNext hpc =>
    rw [hpc] at hal
    refine ⟨l, h.write (h.owns _ (.inl (by simp [hpc, priv]))).2.1 (goto_pc ..) rfl rfl rfl rfl
      ?_ ?_ rfl ?_ ⟨hal, ?_⟩⟩
    all_goals simp [hpc, priv, popped, write]
  | link hpc hnull => exact ⟨_, turns_link h hpc⟩
  | take hpc hhead => exact (turns_take h hpc).2
  | free hpc => exact ⟨l, turns_free h hpc⟩

theorem turns_step (h : Sole q l) (hq' : q.step lbl = some q') : ∃ l', Turns q lbl l q' l' := by
  cases lbl with
  | access i => exact turns_access h hq'
  | call i op =>
    obtain ⟨hpc, rfl⟩ := step_call_eq_some hq'
    have hal := h.alone
    rw [hpc] at hal
    refine ⟨l, h.goto rfl rfl rfl rfl rfl ?_ ?_ ?_ rfl rfl ?_⟩
    · rw [hpc]
      cases op <;> rfl
    · cases op <;> rfl
    · rw [hpc]
      rfl
    · cases op <;> exact hal
  | malloc i n junk =>
    obtain ⟨data, hpc, hn, hfree, rfl⟩ := step_malloc_eq_some hq'
    exact ⟨l, turns_malloc h hpc hn hfree⟩
  | scribble a junk =>
    obtain ⟨hfree, rfl⟩ := step_scribble_eq_some hq'
    exact ⟨l, turns_scribble h hfree⟩

/-! ## The ledger -/

def Pc.owed : Pc A V → ℕ
  | .popDec _ | .popRet _ => 1
  | _ => 0

theorem length_frees (hq' : q.step lbl = some q') :
    (frees q lbl).length + (q.pc ()).owed = (returned q lbl).length + (q'.pc ()).owed := by
  cases lbl with
  | scribble a junk =>
    obtain ⟨-, rfl⟩ := step_scribble_eq_some hq'
    rfl
  | malloc i n junk =>
    obtain ⟨data, hpc, -, -, rfl⟩ := step_malloc_eq_some hq'
    simp [returned, hpc, owed]
  | call i op =>
    obtain ⟨hpc, rfl⟩ := step_call_eq_some hq'
    rw [hpc]
    cases op <;> rfl
  | access i =>
    cases access_cases hq' with
    | reads hpc hr => cases hr <;> simp [returned, hpc, owed, popped]
    | swings hpc hs => cases hs <;> simp [returned, hpc, owed, popped]
    | setP hpc | setNext hpc | link hpc | take hpc | free hpc =>
      simp [returned, hpc, owed, popped]

theorem base_step (hq' : q.step lbl = some q') : q'.base = q.base := by
  cases lbl with
  | scribble a junk =>
    obtain ⟨-, rfl⟩ := step_scribble_eq_some hq'
    rfl
  | malloc i n junk =>
    obtain ⟨data, -, -, -, rfl⟩ := step_malloc_eq_some hq'
    rfl
  | call i op =>
    obtain ⟨-, rfl⟩ := step_call_eq_some hq'
    rfl
  | access i =>
    cases access_cases hq' with
    | swings hpc hs =>
      rw [goto, casTail]
      split <;> rfl
    | reads | setP | setNext | link | take | free => rfl

omit [DecidableEq A] in
theorem Sole.nodup (h : Sole q l) : (Sole.nodes q l).Nodup := by
  have hnd := h.chain.nodup
  have howns := h.owns
  rw [Sole.nodes]
  cases hpc : q.pc () with
  | pushSetP data n | pushSetNext data n | pushReadTail data n | pushReadNext data n
  | pushCheck data n | pushLink data n | pushHelp data n =>
    have hn : n ∉ l := (howns n (.inl (by simp [hpc, priv]))).2.1
    simp only [popped, priv, toList_none, nil_append, toList_some]
    exact hnd.append (nodup_singleton n) (by simpa using hn)
  | popFree head ret =>
    have hn : head ∉ l := (howns head (.inr (by simp [hpc, popped]))).2.1
    simp [popped, priv, hn, hnd]
  | _ => simpa [popped, priv] using hnd

omit [DecidableEq A] in
theorem Sole.allocated (h : Sole q l) (ha : a ∈ Sole.nodes q l) : q.allocated a = true := by
  simp only [Sole.nodes, mem_append, mem_toList] at ha
  rcases ha with (ha | ha) | ha
  · exact (h.owns a (.inr ha)).2.2
  · exact h.chain.allocated a ha
  · exact (h.owns a (.inl ha)).2.2

theorem Sole.post (h : Sole q l) (hq' : q.step lbl = some q') (ht : Turns q lbl l q' l') :
    exec post (Sole.nodes q l).toFinset (ledger q lbl) = some (Sole.nodes q' l').toFinset := by
  have hnodes := ht.nodes
  rw [ledger]
  cases lbl with
  | scribble a junk | call i op =>
    simp only [mallocs, frees, append_nil, nil_append, map_nil] at hnodes ⊢
    rw [hnodes, exec_nil]
  | access i =>
    simp only [mallocs, append_nil, map_nil, nil_append] at hnodes ⊢
    rw [hnodes]
    exact exec_frees (hnodes ▸ h.nodup)
  | malloc i n junk =>
    simp only [mallocs, frees, append_nil, nil_append, map_nil, map_cons]
      at hnodes ⊢
    obtain ⟨-, -, -, hfree, -⟩ := step_malloc_eq_some hq'
    have hn : n ∉ (Sole.nodes q l).toFinset := by
      intro hn
      rw [h.allocated (mem_toFinset.mp hn)] at hfree
      cases hfree
    refine exec_cons_eq_some.mpr ⟨_, post_malloc hn, ?_⟩
    rw [exec_nil, ← hnodes, toFinset_append]
    simp [Finset.union_comm]

theorem sole_createQueue (mem : A → Node A V) (allocated : A → Bool) (magic : V) (h0 : a ≠ 0) :
    Sole (createQueue mem allocated a magic) [a] := by
  refine ⟨⟨⟨rfl, ?_⟩, ?_, nodup_singleton a, fun b hb ↦ ?_, [], .inl rfl⟩, fun b hb ↦ ?_,
    [], rfl⟩
  · simp [createQueue]
  · simpa using h0.symm
  · simp [createQueue, mem_singleton.mp hb]
  · simp [createQueue, Owns, priv, popped] at hb

theorem history (mem : A → Node A V) (allocated : A → Bool) (magic : V) {base : A} (h0 : base ≠ 0)
    {ls : List (Label Unit A V)}
    (hq : exec step (createQueue mem allocated base magic) ls = some q) :
    ∃ l, Sole q l ∧ q.base = base ∧
      base :: trace step mallocs (createQueue mem allocated base magic) ls =
        trace step frees (createQueue mem allocated base magic) ls ++ Sole.nodes q l ∧
      (trace step frees (createQueue mem allocated base magic) ls).length =
        (trace step returned (createQueue mem allocated base magic) ls).length +
          (q.pc ()).owed ∧
      exec post ∅
        (.malloc base :: trace step ledger (createQueue mem allocated base magic) ls) =
          some (Sole.nodes q l).toFinset := by
  refine inv_of_history
    (H := fun ls q ↦ ∃ l, Sole q l ∧ q.base = base ∧
      base :: trace step mallocs (createQueue mem allocated base magic) ls =
        trace step frees (createQueue mem allocated base magic) ls ++ Sole.nodes q l ∧
      (trace step frees (createQueue mem allocated base magic) ls).length =
        (trace step returned (createQueue mem allocated base magic) ls).length +
          (q.pc ()).owed ∧
      exec post ∅
        (.malloc base :: trace step ledger (createQueue mem allocated base magic) ls) =
          some (Sole.nodes q l).toFinset) ?_ ?_ hq
  · exact ⟨[base], sole_createQueue mem allocated magic h0, rfl, rfl, rfl, rfl⟩
  · rintro ls t lbl r ht ⟨l, hsole, hbase, hnodes, howed, hledger⟩ hr
    obtain ⟨l', hturn⟩ := turns_step hsole hr
    refine ⟨l', hturn.sole, (base_step hr).trans hbase, ?_, ?_, ?_⟩
    · rw [trace_snoc ht, trace_snoc ht, ← cons_append, hnodes, append_assoc,
        hturn.nodes, append_assoc]
    · have hlen := length_frees hr
      rw [trace_snoc ht, trace_snoc ht, length_append, length_append, howed]
      omega
    · rw [trace_snoc ht, ← cons_append, exec_append, hledger, bind_some]
      exact hsole.post hr hturn

theorem deleteLoop_returns {q : Queue I A V} {b : A} (hp : LinkPath (fun a ↦ (q.mem a).next) n l 0)
    (hz : 0 ∉ l) : Returns (fun fuel ↦ deleteLoop q fuel n b) (l, if b ∈ l then 0 else b) := by
  induction l generalizing n b with
  | nil =>
    obtain rfl : n = 0 := hp
    refine Returns.turn (f := fun _ ↦ some ([], b)) (Returns.of_eq rfl) fun fuel ↦ ?_
    rw [deleteLoop, if_pos rfl]
  | cons x l ih =>
    obtain ⟨rfl, hp⟩ := hp
    obtain ⟨hn, hz⟩ := not_or.mp (mt mem_cons.mpr hz)
    refine ((ih hp hz (b := if n = b then 0 else b)).map (k := fun r ↦ (n :: r.1, r.2)) ?_).turn
      fun fuel ↦ ?_
    · by_cases hb : b = n
      · subst hb
        simp
      · simp [hb, Ne.symm hb]
    · rw [deleteLoop, if_neg (Ne.symm hn)]

theorem Chain.deleteQueue {q : Queue I A V} (h : Chain q l) (hbase : q.base ≠ 0) :
    Returns (fun fuel ↦ deleteQueue fuel q) (if q.base ∈ l then l else l ++ [q.base]) := by
  refine (deleteLoop_returns h.path h.zero).map ?_
  by_cases hmem : q.base ∈ l
  · simp [hmem]
  · simp [hmem, hbase]

/-- **Which queues are deleted cleanly.**  After any run of a single caller `delete_queue` frees
what is left of the nodes exactly once if and only if no pop has freed the base node, or `malloc`
has handed its address out again for a node that is still in the queue. -/
theorem deleteQueue_settles_iff (mem : A → Node A V) (allocated : A → Bool) (magic : V) {base : A}
    (h0 : base ≠ 0) {ls : List (Label Unit A V)}
    (hq : exec step (createQueue mem allocated base magic) ls = some q) (hidle : q.pc () = .idle) :
    ∃ freed, Returns (fun fuel ↦ deleteQueue fuel q) freed ∧
      (Settles (.malloc base ::
          trace step ledger (createQueue mem allocated base magic) ls ++ freed.map .free) ↔
        base ∈ (base :: trace step mallocs (createQueue mem allocated base magic) ls).drop
          (trace step returned (createQueue mem allocated base magic) ls).length) := by
  obtain ⟨l, hsole, rfl, hnodes, howed, hledger⟩ := history mem allocated magic h0 hq
  refine ⟨_, hsole.chain.deleteQueue h0, ?_⟩
  have hl : Sole.nodes q l = l := by simp [hidle, priv, popped]
  have hzero : (q.pc ()).owed = 0 := by
    rw [hidle]
    rfl
  rw [hzero, Nat.add_zero] at howed
  rw [hnodes, hl, ← howed, drop_left, Settles, exec_append, hledger, hl,
    bind_some]
  have hall : exec post l.toFinset (l.map .free) = some ∅ := by
    have hfrees := exec_frees (l := l) (m := []) (by simpa using hsole.chain.nodup)
    rwa [append_nil, toFinset_nil] at hfrees
  split
  next hmem => exact ⟨fun _ ↦ hmem, fun _ ↦ hall⟩
  next hmem =>
    refine ⟨fun hsettles ↦ ?_, fun hmem' ↦ absurd hmem' hmem⟩
    rw [map_append, exec_append, hall, bind_some] at hsettles
    exact absurd hsettles (by simp [exec, post])

def lone : Queue Unit ℕ ℕ := createQueue (fun _ ↦ ⟨0, 0⟩) (fun _ ↦ false) 1 0

def pushed : List (Label Unit ℕ ℕ) :=
  .call () (.push 7) :: .malloc () 2 ⟨0, 0⟩ :: List.replicate 9 (.access ())

theorem deleteQueue_settles_pushed : ∃ q freed, exec step lone pushed = some q ∧
    Returns (fun fuel ↦ deleteQueue fuel q) freed ∧
      Settles (.malloc 1 :: trace step ledger lone pushed ++ freed.map .free) := by
  have hidle : (exec step lone pushed).map (fun q ↦ q.pc ()) = some .idle := by decide
  obtain ⟨q, hq, hidle⟩ := map_eq_some_iff.mp hidle
  obtain ⟨freed, hfreed, hiff⟩ :=
    deleteQueue_settles_iff (fun _ ↦ ⟨0, 0⟩) (fun _ ↦ false) 0 (by decide) hq hidle
  exact ⟨q, freed, hq, hfreed, hiff.mpr (by decide)⟩

def pushedPopped : List (Label Unit ℕ ℕ) := pushed ++ .call () .pop :: List.replicate 9 (.access ())

/-- **The base node is freed twice**: by the pop, and by `delete_queue` after the node at 2. -/
theorem not_settles_pushedPopped : ∃ q, exec step lone pushedPopped = some q ∧
    q.pc () = .idle ∧ trace step frees lone pushedPopped = [1] ∧
      Returns (fun fuel ↦ deleteQueue fuel q) [2, 1] ∧
      ¬ Settles (.malloc 1 :: trace step ledger lone pushedPopped ++
        [2, 1].map .free) := by
  have hidle : (exec step lone pushedPopped).map (fun q ↦ q.pc ()) = some .idle := by decide
  obtain ⟨q, hq, hidle⟩ := map_eq_some_iff.mp hidle
  have hfrees : trace step frees lone pushedPopped = [1] := by decide
  have hmallocs : trace step mallocs lone pushedPopped = [2] := by decide
  refine ⟨q, hq, hidle, hfrees, ?_, by decide⟩
  obtain ⟨l, hsole, hbase, hnodes, -, -⟩ :=
    history (fun _ ↦ ⟨0, 0⟩) (fun _ ↦ false) 0 (show (1 : ℕ) ≠ 0 by decide) hq
  have hl : Sole.nodes q l = l := by simp [hidle, priv, popped]
  change 1 :: trace step mallocs lone pushedPopped =
    trace step frees lone pushedPopped ++ Sole.nodes q l at hnodes
  rw [hfrees, hmallocs, hl] at hnodes
  obtain rfl : [2] = l := (cons.inj hnodes).2
  have hdelete := hsole.chain.deleteQueue (by rw [hbase]; decide)
  rwa [hbase] at hdelete

end ForgeOS.Queue
