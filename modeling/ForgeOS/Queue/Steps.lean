import ForgeOS.Queue.Invariant

/-!
# The steps of the queue keep its invariant

`Moves` is what is recorded about a step: it keeps the invariant, the values in the queue change by
the value it links or takes, and a node that somebody uses does not join the chain.
-/

namespace ForgeOS.Queue

open Function List Option Queue Pc

variable {I A V : Type} [Zero A] [DecidableEq A]
variable {q q' : Queue I A V} {l : List A} {i : I} {a x y n : A} {nd : Node A V}

theorem Chain.write (h : Chain q l) (ha : a ∉ l) (hmem : q'.mem = Function.update q.mem a nd)
    (halloc : ∀ b ∈ l, q'.allocated b = true) (hhead : q'.head = q.head)
    (htail : q'.tail = q.tail) : Chain q' l where
  path := by
    rw [hhead, hmem]
    refine h.path.frame fun x hx ↦ ?_
    rw [update_of_ne]
    rintro rfl
    exact ha hx
  zero := h.zero
  nodup := h.nodup
  allocated := halloc
  tail := by
    rw [htail]
    exact h.tail

theorem Rely.write (h : Inv q l) (ha : a ∉ l) (hown : ¬ (q.pc i).Owns a)
    (hnull : (q.pc i).hazard = some a → nd.next ≠ 0) (hmem : q'.mem = Function.update q.mem a nd)
    (halloc : ∀ b, (q.pc i).Owns b → q'.allocated b = q.allocated b) (hhead : q'.head = q.head)
    (htail : q'.tail = q.tail) : Rely q q' l l (q.pc i) := by
  have hne : ∀ x, x ≠ a → q'.mem x = q.mem x := fun x hx ↦ by simp [hmem, hx]
  have hl : ∀ x ∈ l, x ≠ a := by
    rintro x hx rfl
    exact ha hx
  refine ⟨fun b hb ↦ ⟨hne b ?_, halloc b hb, (h.owns i b hb).2.1⟩, fun _ _ hx ↦ hx,
    fun x hx hu ↦ ⟨fun hxl ↦ ?_, ?_⟩, fun x _ hx _ ↦ by rw [hne x (hl x hx)], fun x _ _ hx ↦ ?_,
    fun x _ _ _ hx ↦ ?_, fun y hy ↦ by rw [hne y (hl y hy)]⟩
  · rintro rfl
    exact hown hb
  · by_cases hxa : x = a
    · subst hxa
      simpa [hmem] using hnull hx
    · rw [hne x hxa]
      exact hu.1 hxl
  · rw [htail]
    exact hu.2
  · rwa [hhead]
  · rwa [htail]

omit [Zero A] [DecidableEq A] in
theorem contents_congr (hp : ∀ x ∈ l, (q'.mem x).p = (q.mem x).p) : contents q' l = contents q l :=
  map_congr_left fun x hx ↦ hp x (mem_of_mem_tail hx)

structure Moves (q : Queue I A V) (lbl : Label I A V) (l : List A) (q' : Queue I A V)
    (l' : List A) : Prop where
  inv : Inv q' l'
  contents : contents q l ++ linked q lbl = taken q lbl ++ contents q' l'
  join : ∀ j x, (q.pc j).hazard = some x → x ∈ l' → x ∈ l

theorem Moves.of_inv {lbl : Label I A V} (h : Inv q' l) (hlinked : linked q lbl = [])
    (htaken : taken q lbl = []) (hp : ∀ x ∈ l, (q'.mem x).p = (q.mem x).p) :
    Moves q lbl l q' l := by
  refine ⟨h, ?_, fun _ _ _ hx ↦ hx⟩
  rw [hlinked, htaken, contents_congr hp]
  simp

attribute [local simp] createQueue goto popped write

theorem moves_scribble (h : Inv q l) (ha : q.allocated a = false) (hnd : nd.next ≠ 0) :
    Moves q (.scribble a nd) l (q.write a nd) l := by
  have hal : a ∉ l := by
    intro hal
    simp [h.chain.allocated a hal] at ha
  have hown : ∀ j, ¬ (q.pc j).Owns a := by
    intro j hj
    simp [(h.owns j a hj).2.2] at ha
  have hrely : ∀ j, Rely q (q.write a nd) l l (q.pc j) := fun j ↦
    .write h hal (hown j) (fun _ ↦ hnd) rfl (fun _ _ ↦ rfl) rfl rfl
  refine .of_inv ⟨h.chain.write hal rfl h.chain.allocated rfl rfl, h.owns, h.owner, h.priv,
    fun j ↦ (h.ok j).rely h.chain (hrely j)⟩ rfl rfl fun x hx ↦ ?_
  have hxa : x ≠ a := by
    rintro rfl
    exact hal hx
  simp [hxa]

variable [DecidableEq I]

theorem moves_malloc (h : Inv q l) (data : V) (hn : n ≠ 0) (hfree : q.allocated n = false)
    (hreuse : ∀ j, (q.pc j).hazard ≠ some n) :
    Moves q (.malloc i n nd) l ({ q.write n nd with
      allocated := Function.update q.allocated n true }.goto i (.pushSetP data n)) l := by
  have hnl : n ∉ l := by
    intro hnl
    simp [h.chain.allocated n hnl] at hfree
  have hown : ∀ j, ¬ (q.pc j).Owns n := by
    intro j hj
    simp [(h.owns j n hj).2.2] at hfree
  have halloc : ∀ b, b ≠ n → update q.allocated n true b = q.allocated b :=
    fun b hb ↦ update_of_ne hb _ _
  refine .of_inv (h.move (i := i) (fun j hj ↦ by simp [hj])
    (h.chain.write hnl rfl (fun b hb ↦ ?_) rfl rfl)
    (fun j _ ↦ .write h hnl (hown j) (fun hx ↦ absurd hx (hreuse j)) rfl (fun b hb ↦ ?_) rfl rfl)
    (fun b hb ↦ ?_) (fun b hb ↦ ?_) (fun x hx ↦ ?_) ?_) rfl rfl fun x hx ↦ ?_
  · refine (halloc b ?_).trans (h.chain.allocated b hb)
    rintro rfl
    exact hnl hb
  · refine halloc b ?_
    rintro rfl
    exact hown j hb
  · obtain rfl : n = b := by simpa [Owns, priv] using hb
    exact ⟨hn, hnl, by simp, fun j _ ↦ hown j⟩
  · obtain rfl : n = b := by simpa [priv] using hb
    exact ⟨by simp [hazard], fun j _ ↦ hreuse j⟩
  · simp [hazard] at hx
  · simp [Ok]
  · have hxn : x ≠ n := by
      rintro rfl
      exact hnl hx
    simp [hxn]

theorem moves_writePriv (h : Inv q l) {pc : Pc A V} (hn : (q.pc i).priv = some n)
    (hpriv : pc.priv = some n) (hpopped : pc.popped = none) (hhazard : pc.hazard = none)
    (hok : Ok (q.write n nd) l pc) (hlinked : linked q (.access i) = [])
    (htaken : taken q (.access i) = []) : Moves q (.access i) l ((q.write n nd).goto i pc) l := by
  have hnl := (h.owns i n (.inl hn)).2.1
  refine .of_inv (h.step rfl (h.chain.write hnl rfl h.chain.allocated rfl rfl) (fun j hj ↦ ?_)
    (fun b hb ↦ ?_) hpopped (by simp [hhazard]) (hok.congr rfl rfl rfl)) hlinked htaken fun x hx ↦ ?_
  · refine .write h hnl (fun hown ↦ hj (h.owner j i n hown (.inl hn))) (fun hx ↦ ?_) rfl
      (fun _ _ ↦ rfl) rfl rfl
    exact absurd hx (h.priv i j n hn)
  · obtain rfl : n = b := some.inj (hpriv.symm.trans hb)
    exact ⟨hn, rfl, rfl⟩
  · have hxn : x ≠ n := by
      rintro rfl
      exact hnl hx
    simp [hxn]

omit [Zero A] [DecidableEq A] [DecidableEq I] in
theorem eq_append_of_concat_eq {k m : List A} (h : l ++ [n] = k ++ x :: m) (hx : x ≠ n) :
    ∃ m', l = k ++ x :: m' := by
  rcases eq_nil_or_concat' m with rfl | ⟨m', b, rfl⟩
  · have hlast := congrArg getLast? h
    rw [getLast?_concat, getLast?_concat] at hlast
    exact absurd (some.inj hlast).symm hx
  · refine ⟨m', ?_⟩
    rw [← cons_append, ← append_assoc] at h
    exact append_inj_left' h rfl

omit [DecidableEq I] in
theorem Chain.snoc {k : List A} (h : Chain q l) (hl : l = k ++ [x]) (hx : q.tail = x)
    (hn : q.mem n = ⟨(q.mem n).p, 0⟩) (hn0 : n ≠ 0) (hnl : n ∉ l) (halloc : q.allocated n = true)
    (hmem : q'.mem = Function.update q.mem x { q.mem x with next := n })
    (halloc' : q'.allocated = q.allocated) (hhead : q'.head = q.head)
    (htail : q'.tail = q.tail) : Chain q' (l ++ [n]) := by
  have hnd := h.nodup
  have hxk : x ∉ k := by
    rw [hl, nodup_append] at hnd
    exact fun hxk ↦ hnd.2.2 x hxk x (by simp) rfl
  have hnx : n ≠ x := by
    rintro rfl
    exact hnl (by simp [hl])
  refine ⟨?_, ?_, ?_, ?_, ?_⟩
  · have hp := h.path
    rw [hl, linkPath_snoc] at hp
    rw [hl, linkPath_snoc, linkPath_snoc, hhead, hmem]
    refine ⟨⟨hp.1.frame fun z hz ↦ ?_, by simp⟩, ?_⟩
    · have hzx : z ≠ x := by
        rintro rfl
        exact hxk hz
      simp [hzx]
    · rw [update_of_ne hnx, hn]
  · simpa [h.zero] using hn0.symm
  · exact hnd.append (nodup_singleton n) (by simpa using hnl)
  · rw [halloc']
    intro b hb
    rcases mem_append.mp hb with hb | hb
    · exact h.allocated b hb
    · rwa [mem_singleton.mp hb]
  · exact ⟨k, .inr ⟨n, by simp [hl, htail, hx]⟩⟩

omit [DecidableEq I] in
theorem Rely.snoc (h : Inv q l) (hxl : x ∈ l) (hnull : (q.mem x).next = 0)
    (hown : ¬ (q.pc i).Owns n) (hhazard : (q.pc i).hazard ≠ some n)
    (hmem : q'.mem = Function.update q.mem x { q.mem x with next := n })
    (halloc : q'.allocated = q.allocated) (hhead : q'.head = q.head) (htail : q'.tail = q.tail) :
    Rely q q' l (l ++ [n]) (q.pc i) := by
  have hne : ∀ z, z ≠ x → q'.mem z = q.mem z := fun z hz ↦ by simp [hmem, hz]
  have hjoin : ∀ z, (q.pc i).hazard = some z → z ∈ l ++ [n] → z ∈ l := by
    intro z hz hzl
    rcases mem_append.mp hzl with hzl | hzl
    · exact hzl
    · rw [mem_singleton.mp hzl] at hz
      exact absurd hz hhazard
  refine ⟨fun a ha ↦ ⟨hne a ?_, by rw [halloc], ?_⟩, hjoin, fun z hz hu ↦ ⟨fun hzl ↦ ?_, ?_⟩,
    fun z _ _ hzn ↦ ?_, fun z _ _ hzh ↦ by rwa [hhead], fun z _ _ _ hzt ↦ by rwa [htail],
    fun z _ ↦ ?_⟩
  · rintro rfl
    exact (h.owns i a ha).2.1 hxl
  · have han : a ≠ n := by
      rintro rfl
      exact hown ha
    simpa [han] using (h.owns i a ha).2.1
  · have hzl : z ∉ l := fun hz' ↦ hzl (by simp [hz'])
    have hzx : z ≠ x := by
      rintro rfl
      exact hzl hxl
    rw [hne z hzx]
    exact hu.1 hzl
  · rw [htail]
    intro k m hm
    have hzn : z ≠ n := by
      rintro rfl
      exact hhazard hz
    obtain ⟨m', hm'⟩ := eq_append_of_concat_eq hm hzn
    exact hu.2 k m' hm'
  · have hzx : z ≠ x := by
      rintro rfl
      exact hzn hnull
    rw [hne z hzx]
  · by_cases hzx : z = x
    · simp [hmem, hzx]
    · rw [hne z hzx]

theorem moves_link (h : Inv q l) {data : V} (hpc : q.pc i = .pushLink data n x)
    (hnull : (q.mem x).next = 0) :
    Moves q (.access i) l ((q.write x { q.mem x with next := n }).goto i (.pushSwing n x))
      (l ++ [n]) := by
  have hok := h.ok i
  rw [hpc] at hok
  obtain ⟨hn, hlink, hreached⟩ := hok
  have hpriv : (q.pc i).priv = some n := by simp [hpc, priv]
  obtain ⟨hn0, hnl, halloc⟩ := h.owns i n (.inl hpriv)
  have hxl : x ∈ l := by
    by_contra hxl
    exact hlink hxl hnull
  -- `x` is the last node, and `q->tail` is not before it.
  obtain ⟨k, m, hl⟩ := append_of_mem hxl
  obtain rfl : m = [] := by
    refine LinkPath.eq_nil (hl ▸ h.chain.path) ?_ hnull
    rw [← hl]
    exact h.chain.zero
  have htail : q.tail = x := by
    have hmem := h.chain.tail_mem
    rw [hl, mem_append, mem_singleton] at hmem
    exact hmem.resolve_left (hreached k [] hl)
  have hrely : ∀ j ≠ i, Rely q ((q.write x { q.mem x with next := n }).goto i (.pushSwing n x)) l
      (l ++ [n]) (q.pc j) := fun j hj ↦
    .snoc h hxl hnull (fun hown ↦ hj (h.owner j i n hown (.inl hpriv))) (h.priv i j n hpriv)
      rfl rfl rfl rfl
  refine ⟨h.step rfl (h.chain.snoc hl htail (by rw [hn]) hn0 hnl halloc rfl rfl rfl rfl) hrely
    (by simp [priv]) rfl (fun z hz ↦ .inl (by simpa [hpc, hazard] using hz)) ⟨hn0, ?_⟩, ?_,
    fun j z hz hzl ↦ ?_⟩
  · exact fun _ _ ↦ by simp
  · obtain ⟨m, hm⟩ := h.chain.eq_cons
    have hnx : n ≠ x := by
      rintro rfl
      exact hnl hxl
    have hp : ∀ z, (update q.mem x { q.mem x with next := n } z).p = (q.mem z).p := by
      intro z
      by_cases hzx : z = x <;> simp [hzx]
    simp [contents, linked, taken, hpc, hnull, hm, hp, hn]
  · rcases mem_append.mp hzl with hzl | hzl
    · exact hzl
    · rw [mem_singleton.mp hzl] at hz
      exact absurd hz (h.priv i j n hpriv)

theorem moves_take (h : Inv q l) {ret : V} (hpc : q.pc i = .popTake x y ret) (hhead : q.head = x) :
    ∃ m, l = x :: y :: m ∧
      Moves q (.access i) l ({ q with head := y }.goto i (.popFree x ret)) (y :: m) := by
  have hok := h.ok i
  rw [hpc] at hok
  obtain ⟨hy, -, hpast, hnext, hret⟩ := hok
  have hxl : x ∈ l := hhead ▸ h.chain.head_mem
  have hlink : (q.mem x).next = y := hnext hy hxl
  obtain ⟨l0, hl0⟩ := h.chain.eq_cons
  rw [hhead] at hl0
  obtain ⟨m, rfl⟩ : ∃ m, l0 = y :: m := by
    have hp := h.chain.path
    rw [hl0] at hp
    obtain ⟨m, hm⟩ := LinkPath.eq_cons (l := []) hp (by rwa [hlink])
    exact ⟨m, by rw [hm, hlink]⟩
  refine ⟨m, hl0, ?_⟩
  have hnd := h.chain.nodup
  rw [hl0, nodup_cons] at hnd
  have hsub : ∀ z ∈ y :: m, z ∈ l := fun z hz ↦ hl0 ▸ mem_cons_of_mem x hz
  refine ⟨h.move (i := i) (fun j hj ↦ by simp [hj]) ⟨?_, fun hz ↦ h.chain.zero (hsub 0 hz),
    hnd.2, fun a ha ↦ h.chain.allocated a (hsub a ha), ?_⟩
    (fun j _ ↦ ⟨fun a ha ↦ ⟨rfl, rfl, fun hal ↦ (h.owns j a ha).2.1 (hsub a hal)⟩,
      fun z _ hz ↦ hsub z hz, fun z _ hu ↦ ⟨fun hz ↦ ?_, fun k m' hm' ↦ ?_⟩, fun _ _ _ _ ↦ rfl,
      fun z _ hz hzh ↦ ?_, fun z _ hz hzh ↦ ?_, fun _ _ ↦ rfl⟩)
    (fun a ha ↦ ?_) (by simp [priv]) (by simp [hazard]) ?_,
    ?_, fun j z _ hz ↦ hsub z hz⟩
  · have hp := h.chain.path
    rw [hl0] at hp
    exact ⟨rfl, hp.2.2⟩
  · obtain ⟨k, hk⟩ := h.chain.tail
    cases k with
    | nil =>
      have hx : q.tail = x := by
        rcases hk with hk | ⟨z, hk⟩ <;> simp [hl0] at hk
        exact hk.1.symm
      exact absurd hx (hpast hxl)
    | cons b k =>
      rw [hl0, cons_append] at hk
      refine ⟨k, hk.imp (fun hk ↦ (cons.inj hk).2) ?_⟩
      rintro ⟨z, hk⟩
      exact ⟨z, (cons.inj hk).2⟩
  · by_cases hzx : z = x
    · show (q.mem z).next ≠ 0
      rwa [hzx, hlink]
    · exact hu.1 (by rw [hl0]; simpa [hzx] using hz)
  · intro hk
    exact hu.2 (x :: k) m' (by rw [hl0, hm', cons_append]) (by simp [show q.tail ∈ k from hk])
  · rw [hzh, hhead] at hz
    exact absurd hz hnd.1
  · rw [hzh, hhead] at hz
    exact absurd hz hnd.1
  · obtain rfl : x = a := by simpa [Owns, priv] using ha
    refine ⟨?_, hnd.1, h.chain.allocated x hxl, fun j _ hj ↦ (h.owns j x hj).2.1 hxl⟩
    rintro rfl
    exact h.chain.zero hxl
  · simp [Ok]
  · simp [contents, linked, taken, hpc, hhead, hl0, hret hxl]

theorem moves_free (h : Inv q l) {ret : V} (hpc : q.pc i = .popFree x ret) :
    Moves q (.access i) l
      ({ q with allocated := Function.update q.allocated x false }.goto i (.popDec ret)) l := by
  have hown : (q.pc i).Owns x := .inr (by simp [hpc])
  have hxl := (h.owns i x hown).2.1
  have halloc : ∀ a, a ≠ x → update q.allocated x false a = q.allocated a :=
    fun a ha ↦ update_of_ne ha _ _
  refine .of_inv (h.step rfl ⟨h.chain.path, h.chain.zero, h.chain.nodup, fun a ha ↦ ?_,
    h.chain.tail⟩ (fun j hj ↦ ?_) (by simp [priv]) rfl (by simp [hazard]) trivial)
    (by simp [linked, hpc]) (by simp [taken, hpc]) fun _ _ ↦ rfl
  · refine (halloc a ?_).trans (h.chain.allocated a ha)
    rintro rfl
    exact hxl ha
  · have hrefl : Rely q q l l (q.pc j) := .of_eq h rfl rfl rfl rfl j
    refine ⟨fun a ha ↦ ⟨rfl, halloc a ?_, (h.owns j a ha).2.1⟩, hrefl.join, hrefl.used, hrefl.link,
      hrefl.front, hrefl.past, hrefl.value⟩
    rintro rfl
    exact hj (h.owner j i a ha hown)

omit [DecidableEq I] [DecidableEq A] in
theorem Chain.used_tail (h : Chain q l) : Used q l q.tail := by
  refine ⟨fun hx ↦ absurd h.tail_mem hx, fun k m hm hk ↦ ?_⟩
  have hnd := h.nodup
  rw [hm] at hnd
  exact disjoint_of_nodup_append hnd hk (by simp)

omit [DecidableEq I] [DecidableEq A] in
theorem Chain.next_ne_zero (h : Chain q l) (hx : q.tail ≠ q.head) : (q.mem q.head).next ≠ 0 := by
  intro hnull
  obtain ⟨m, hm⟩ := h.eq_cons
  obtain rfl : m = [] := by
    refine LinkPath.eq_nil (l := []) (hm ▸ h.path) ?_ hnull
    exact fun hz ↦ h.zero (hm ▸ hz)
  have htail := h.tail_mem
  rw [hm, mem_singleton] at htail
  exact hx htail

variable {pc pc' : Pc A V}

omit [DecidableEq I] [Zero A] in
@[simp] theorem casTail_mem : (q.casTail x y).mem = q.mem := by
  rw [casTail]
  split <;> rfl

omit [DecidableEq I] [DecidableEq A] in
theorem Reads.ok (hr : Reads q pc pc') (hc : Chain q l) (hok : Ok q l pc) : Ok q l pc' := by
  cases hr with
  | pushReadTail => exact ⟨hok, hc.used_tail⟩
  | pushReadNext => exact ⟨hok.1, hok.2, fun _ _ ↦ rfl⟩
  | pushLast => exact ⟨hok.1, hok.2.1⟩
  | pushBehind hne => exact ⟨hok.1, hne, hok.2.2⟩
  | pushMoved | pushFailed => exact hok.1
  | popReadHead => exact fun _ ↦ rfl
  | popReadTail => exact ⟨hok, fun ht _ ↦ ht⟩
  | popReadNext =>
    refine ⟨hok.1, fun _ _ ↦ rfl, fun ht ↦ ⟨hok.2 ht, fun hx ↦ ?_⟩⟩
    have hpast := hok.2 ht hx
    rw [hok.1 hx] at hpast ⊢
    exact hc.next_ne_zero hpast
  | popBehind ht hne => exact ⟨hne, hok.2.1⟩
  | popSome hhead hne =>
    obtain ⟨hpast, hnext⟩ := hok.2.2 (Ne.symm hne)
    exact ⟨hnext (hhead ▸ hc.head_mem), hok.1, hpast, hok.2.1⟩
  | popReadP =>
    obtain ⟨hne, hfront, hpast, hnext⟩ := hok
    exact ⟨hne, hfront, hpast, hnext, fun _ ↦ rfl⟩
  | pushInc | pushRet | popNone | popMoved | popFailed | popDec | popRet | popEmpty => trivial

theorem moves_reads (h : Inv q l) (hpc : q.pc i = pc) (hr : Reads q pc pc')
    (len : UInt32) : Moves q (.access i) l ({ q with len := len }.goto i pc') l := by
  have hok : Ok q l pc' := hr.ok h.chain (hpc ▸ h.ok i)
  obtain ⟨hlinked, htaken⟩ := hr.silent hpc
  refine .of_inv (h.goto rfl rfl rfl rfl rfl (by simp [hr.priv, hpc]) hr.popped.2 (fun x hx ↦ ?_)
    (hok.congr rfl rfl rfl)) hlinked htaken fun _ _ ↦ rfl
  rw [hpc]
  refine (hr.hazard hx).imp_right ?_
  rintro (rfl | rfl)
  · exact h.chain.tail_mem
  · exact h.chain.head_mem

theorem moves_swings (h : Inv q l) (hpc : q.pc i = pc)
    (hs : Swings pc x y pc') : Moves q (.access i) l ((q.casTail x y).goto i pc') l := by
  have hok := h.ok i
  rw [hpc] at hok
  have hinv : Inv ((q.casTail x y).goto i pc') l := by
    cases hs with
    | pushHelp =>
      refine h.casTail hok.2.1 hok.2.2 (by simp [hpc, priv]) rfl rfl fun q' hmem ↦ ?_
      rw [Ok, hmem]
      exact hok.1
    | pushSwing | popHelp =>
      exact h.casTail hok.1 hok.2 (by simp [priv]) rfl rfl fun _ _ ↦ trivial
  obtain ⟨hlinked, htaken⟩ := hs.silent hpc
  exact .of_inv hinv hlinked htaken fun _ _ ↦ by simp

theorem moves_access (h : Inv q l) (hq' : q.access i = some q') :
    ∃ l', Moves q (.access i) l q' l' := by
  cases access_cases hq' with
  | reads hpc hr => exact ⟨l, moves_reads h hpc hr _⟩
  | swings hpc hs => exact ⟨l, moves_swings h hpc hs⟩
  | setP hpc =>
    exact ⟨l, moves_writePriv h (by simp [hpc, priv]) rfl rfl rfl (by simp [Ok])
      (by simp [linked, hpc]) (by simp [taken, hpc])⟩
  | @setNext data n hpc =>
    have hp : (q.mem n).p = data := by simpa only [hpc, Ok] using h.ok i
    exact ⟨l, moves_writePriv h (by simp [hpc, priv]) rfl rfl rfl (by simp [Ok, hp])
      (by simp [linked, hpc]) (by simp [taken, hpc])⟩
  | link hpc hnull => exact ⟨_, moves_link h hpc hnull⟩
  | take hpc hhead =>
    obtain ⟨m, -, hm⟩ := moves_take h hpc hhead
    exact ⟨_, hm⟩
  | free hpc => exact ⟨l, moves_free h hpc⟩

theorem moves_step {lbl : Label I A V} (h : Inv q l) (hlbl : q.Careful lbl)
    (hq' : q.step lbl = some q') : ∃ l', Moves q lbl l q' l' := by
  cases lbl with
  | call i op =>
    obtain ⟨-, rfl⟩ := step_call_eq_some hq'
    refine ⟨l, .of_inv (h.goto rfl rfl rfl rfl rfl ?_ ?_ ?_ ?_) rfl rfl fun _ _ ↦ rfl⟩
    all_goals cases op <;> simp [Op.entry, priv, hazard, Ok]
  | malloc i n junk =>
    obtain ⟨data, -, hn, hfree, rfl⟩ := step_malloc_eq_some hq'
    exact ⟨l, moves_malloc h data hn hfree hlbl.1⟩
  | access i => exact moves_access h hq'
  | scribble a junk =>
    obtain ⟨hfree, rfl⟩ := step_scribble_eq_some hq'
    exact ⟨l, moves_scribble h hfree hlbl.2⟩

omit [DecidableEq I] in
theorem inv_createQueue {mem : A → Node A V} {allocated : A → Bool} {base : A} (magic : V)
    (hbase : base ≠ 0) : Inv (createQueue (I := I) mem allocated base magic) [base] := by
  refine ⟨⟨?_, ?_, ?_, ?_, ?_⟩, ?_, ?_, ?_, fun _ ↦ trivial⟩
  · simp
  · simpa using hbase.symm
  · exact nodup_singleton base
  · simp
  · exact ⟨[], .inl rfl⟩
  · rintro i a (ha | ha) <;> simp [priv] at ha
  · rintro i j a (ha | ha) <;> simp [priv] at ha
  · intro i j a ha
    simp [priv] at ha

end ForgeOS.Queue
