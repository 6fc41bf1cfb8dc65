import ForgeOS.Stack.Invariant

/-!
# The steps of the stack keep its invariant

Under the condition `TopUnchanged`, and if nodes are not reused too early, every step keeps the
invariant, and the values inside the stack change by the value given to `stack_push` or returned by
`stack_pop`.
-/

namespace ForgeOS.Stack

open Function List Pc

variable {I A V : Type} [Zero A]
variable {s s' : Stack I A V} {l : List A} {i : I} {a n top next : A} {nd : Node A V} {data : V}

theorem Chain.of_eq (h : Chain s l) (hmem : s'.mem = s.mem) (halloc : s'.allocated = s.allocated)
    (hhead : s'.head = s.head) : Chain s' l where
  path := by
    rw [hmem, hhead]
    exact h.path
  zero := h.zero
  nodup := h.nodup
  allocated := by
    rw [halloc]
    exact h.allocated

theorem Ok.congr {pc : Pc A V} (h : Ok s l pc) (hmem : s'.mem = s.mem) : Ok s' l pc := by
  cases pc <;> first | exact h | simpa only [Ok, hmem] using h

theorem Chain.head_mem_or (h : Chain s l) : s.head ∈ l ∨ s.head = 0 := by
  cases l with
  | nil => exact .inr h.path
  | cons a l => exact .inl (by simp [h.path.head])

theorem Chain.eq_cons (h : Chain s l) (hne : s.head ≠ 0) : ∃ m, l = s.head :: m := by
  cases l with
  | nil => exact absurd h.path hne
  | cons a l => exact ⟨l, by rw [h.path.head]⟩

section

variable [DecidableEq I]

theorem Rely.goto (h : Inv s l) (i j : I) (pc : Pc A V) : Rely s (s.goto i pc) l l (s.pc j) where
  owns a ha := ⟨rfl, rfl, (h.owns j a ha).2.1⟩
  join _ _ hx := hx
  link _ _ _ := rfl

theorem moves_goto {pc : Pc A V} (h : Inv s l) (hok : Ok s l pc)
    (hhazard : ∀ x, pc.hazard = some x → (s.pc i).hazard = some x ∨ x ∈ l ∨ x = 0 := by
      simp [*, hazard])
    (howns : ∀ a, pc.Owns a → (s.pc i).Owns a := by simp [*, Owns, priv, popped])
    (hpriv : ∀ a, pc.priv = some a → (s.pc i).priv = some a := by simp [*, priv])
    (hcarries : pc.carries s.mem = (s.pc i).carries s.mem := by simp [*, carries])
    (hreturned : returned s (.access i) = [] := by simp [*, returned]) :
    Moves s (.access i) l (s.goto i pc) l := by
  have hrely : ∀ j ≠ i, Rely s (s.goto i pc) l l (s.pc j) := fun j _ ↦ .goto h i j _
  refine ⟨h.step rfl (h.chain.of_eq rfl rfl rfl) hrely
    (fun a ha ↦ ⟨howns a ha, rfl, (h.owns i a (howns a ha)).2.1⟩) hpriv hhazard (hok.congr rfl),
    fun vs hvs ↦ hvs.move hrely rfl ?_⟩
  rw [hreturned, ← hcarries]
  exact .refl _

theorem moves_call (h : Inv s l) (hpc : s.pc i = .idle) (op : Op V) :
    Moves s (.call i op) l (s.goto i op.entry) l := by
  have hrely : ∀ j ≠ i, Rely s (s.goto i op.entry) l l (s.pc j) := fun j _ ↦ .goto h i j _
  refine ⟨h.step rfl (h.chain.of_eq rfl rfl rfl) hrely ?_ ?_ ?_ ?_,
    fun vs hvs ↦ hvs.move hrely rfl ?_⟩
  · cases op <;> simp [Op.entry, Owns, priv, popped]
  · cases op <;> simp [Op.entry, priv]
  · cases op <;> simp [Op.entry, hazard]
  · cases op <;> simp [Op.entry, Ok]
  · rw [hpc]
    cases op <;> exact .refl _

theorem moves_link (h : Inv s l) (hpc : s.pc i = .pushLink data n)
    (hhead : s.head = (s.mem n).next) :
    Moves s (.access i) l ({ s with head := n }.goto i .pushRet) (n :: l) := by
  have hown : (s.pc i).Owns n := by simp [hpc, Owns, priv]
  obtain ⟨hn0, hnl, halloc⟩ := h.owns i n hown
  have hok : (s.mem n).p = data := by simpa [hpc, Ok] using h.ok i
  have hchain : Chain ({ s with head := n }.goto i .pushRet) (n :: l) := by
    refine ⟨linkPath_cons.mpr ⟨rfl, ?_⟩, by simpa [h.chain.zero] using hn0.symm,
      nodup_cons.mpr ⟨hnl, h.chain.nodup⟩,
      forall_mem_cons.mpr ⟨halloc, h.chain.allocated⟩⟩
    show LinkPath (fun a ↦ (s.mem a).next) (s.mem n).next l 0
    rw [← hhead]
    exact h.chain.path
  have hrely : ∀ j ≠ i, Rely s ({ s with head := n }.goto i .pushRet) l (n :: l) (s.pc j) := by
    refine fun j hj ↦ ⟨fun a ha ↦ ⟨rfl, rfl, ?_⟩, fun x hx hxl ↦ ?_, fun _ _ _ ↦ rfl⟩
    · rw [mem_cons, not_or]
      refine ⟨?_, (h.owns j a ha).2.1⟩
      rintro rfl
      exact hj (h.owner j i a ha hown)
    · refine (mem_cons.mp hxl).resolve_left ?_
      rintro rfl
      exact h.priv i j x (by simp [hpc, priv]) hx
  refine ⟨h.step rfl hchain hrely (by simp [Owns, priv, popped]) (by simp [priv])
    (by simp [hazard]) (by simp [Ok]), fun vs hvs ↦ hvs.move hrely rfl ?_⟩
  rw [returned, hpc, ← hok]
  exact .refl _

theorem moves_take (h : Inv s l) (hpc : s.pc i = .popTake top next) (hhead : s.head = top) :
    ∃ m, Moves s (.access i) l ({ s with head := next }.goto i (.popReadP top)) m := by
  obtain ⟨htop, hnext⟩ : top ≠ 0 ∧ (top ∈ l → (s.mem top).next = next) := by
    simpa [hpc, Ok] using h.ok i
  obtain ⟨m, hl⟩ := h.chain.eq_cons (hhead ▸ htop)
  rw [hhead] at hl
  subst hl
  replace hnext := hnext (by simp)
  have hnd := nodup_cons.mp h.chain.nodup
  have hm : ∀ x ∈ m, x ∈ top :: m := fun x hx ↦ mem_cons_of_mem top hx
  have hself : (({ s with head := next } : Stack I A V).goto i (.popReadP top)).pc i =
      .popReadP top := by
    simp [Stack.goto]
  have hchain : Chain ({ s with head := next }.goto i (.popReadP top)) m := by
    refine ⟨?_, fun h0 ↦ h.chain.zero (hm 0 h0), hnd.2, fun a ha ↦ h.chain.allocated a (hm a ha)⟩
    show LinkPath (fun a ↦ (s.mem a).next) next m 0
    rw [← hnext]
    exact (linkPath_cons.mp h.chain.path).2
  have hrely : ∀ j ≠ i, Rely s ({ s with head := next }.goto i (.popReadP top))
      (top :: m) m (s.pc j) :=
    fun j _ ↦ ⟨fun a ha ↦ ⟨rfl, rfl, fun ham ↦ (h.owns j a ha).2.1 (hm a ham)⟩, fun x _ ↦ hm x,
      fun _ _ _ ↦ rfl⟩
  refine ⟨m, h.move (i := i) (fun j hj ↦ by simp [Stack.goto, hj]) hchain hrely (fun a ha ↦ ?_)
    (by simp [hself, priv]) (by simp [hself, hazard]) (by simp [hself, Ok]),
    fun vs hvs ↦ hvs.move hrely rfl ?_⟩
  · obtain rfl : top = a := by simpa [hself, Owns, priv, popped] using ha
    exact ⟨htop, hnd.1, h.chain.allocated top (by simp),
      fun j _ hj ↦ (h.owns j top hj).2.1 (by simp)⟩
  · rw [returned, hpc]
    exact .refl _

theorem moves_return {ret : V} (h : Inv s l) (hpc : s.pc i = .popRet ret) :
    Moves s (.access i) l (s.goto i .idle) l := by
  have hrely : ∀ j ≠ i, Rely s (s.goto i .idle) l l (s.pc j) := fun j _ ↦ .goto h i j _
  refine ⟨h.step rfl (h.chain.of_eq rfl rfl rfl) hrely (by simp [Owns, priv, popped])
    (by simp [priv]) (by simp [hazard]) trivial, fun vs hvs ↦ hvs.move hrely rfl ?_⟩
  rw [returned, hpc]
  exact .refl _

end

variable [DecidableEq A]

theorem Chain.write (h : Chain s l) (ha : a ∉ l) (hmem : s'.mem = update s.mem a nd)
    (halloc : ∀ b ∈ l, s'.allocated b = true) (hhead : s'.head = s.head) : Chain s' l where
  path := by
    rw [hhead, hmem]
    refine h.path.frame fun x hx ↦ ?_
    rw [update_of_ne]
    rintro rfl
    exact ha hx
  zero := h.zero
  nodup := h.nodup
  allocated := halloc

theorem Rely.write (h : Inv s l) (ha : a ∉ l) (hown : ¬ (s.pc i).Owns a)
    (hmem : s'.mem = update s.mem a nd)
    (halloc : ∀ b, (s.pc i).Owns b → s'.allocated b = s.allocated b) : Rely s s' l l (s.pc i) := by
  refine ⟨fun b hb ↦ ⟨?_, halloc b hb, (h.owns i b hb).2.1⟩, fun _ _ hx ↦ hx, fun x hx _ ↦ ?_⟩
  · have hba : b ≠ a := by
      rintro rfl
      exact hown hb
    simp [hmem, hba]
  · have hxa : x ≠ a := by
      rintro rfl
      exact ha hx
    simp [hmem, hxa]

omit [Zero A] in
theorem contents_write (ha : a ∉ l) (hmem : s'.mem = update s.mem a nd) :
    contents s' l = contents s l := by
  refine map_congr_left fun x hx ↦ ?_
  have hxa : x ≠ a := by
    rintro rfl
    exact ha hx
  simp [hmem, hxa]

theorem moves_scribble (h : Inv s l) (ha : s.allocated a = false) :
    Moves s (.scribble a nd) l (s.write a nd) l := by
  have hal : a ∉ l := by
    intro hal
    simp [h.chain.allocated a hal] at ha
  have hown : ∀ j, ¬ (s.pc j).Owns a := by
    intro j hj
    simp [(h.owns j a hj).2.2] at ha
  have hrely : ∀ j, Rely s (s.write a nd) l l (s.pc j) := fun j ↦
    .write h hal (hown j) rfl fun _ _ ↦ rfl
  refine ⟨⟨h.chain.write hal rfl h.chain.allocated rfl, h.owns, h.owner, h.priv,
    fun j ↦ (h.ok j).rely (hrely j)⟩, fun vs hvs ↦ ⟨vs, ?_, .refl _⟩⟩
  have hcarries : (fun j ↦ ((s.write a nd).pc j).carries (s.write a nd).mem) =
      fun j ↦ (s.pc j).carries s.mem := funext fun j ↦ carries_of_rely (hrely j)
  rwa [Inside, hcarries, contents_write hal rfl]

variable [DecidableEq I]

theorem moves_malloc (h : Inv s l) (hpc : s.pc i = .pushMalloc data) (hn : n ≠ 0)
    (hfree : s.allocated n = false) (hreuse : ∀ j, (s.pc j).hazard ≠ some n)
    (hpc' : s'.pc = update s.pc i (.pushSetP data n)) (hmem : s'.mem = update s.mem n nd)
    (halloc : s'.allocated = update s.allocated n true) (hhead : s'.head = s.head) :
    Moves s (.malloc i n nd) l s' l := by
  have hnl : n ∉ l := by
    intro hnl
    simp [h.chain.allocated n hnl] at hfree
  have hown : ∀ j, ¬ (s.pc j).Owns n := by
    intro j hj
    simp [(h.owns j n hj).2.2] at hfree
  have hself : s'.pc i = .pushSetP data n := by simp [hpc']
  have hkeep : ∀ b, b ≠ n → s'.allocated b = s.allocated b := fun b hb ↦ by simp [halloc, hb]
  have hrely : ∀ j ≠ i, Rely s s' l l (s.pc j) := by
    intro j _
    refine .write h hnl (hown j) hmem fun b hb ↦ hkeep b ?_
    rintro rfl
    exact hown j hb
  refine ⟨h.move (i := i) (fun j hj ↦ by simp [hpc', hj])
    (h.chain.write hnl hmem (fun b hb ↦ ?_) hhead) hrely (fun b hb ↦ ?_) (fun b hb ↦ ?_)
    (by simp [hself, hazard]) (by simp [hself, Ok]), fun vs hvs ↦ hvs.move hrely hpc' ?_⟩
  · refine (hkeep b ?_).trans (h.chain.allocated b hb)
    rintro rfl
    exact hnl hb
  · obtain rfl : n = b := by simpa [hself, Owns, priv, popped] using hb
    exact ⟨hn, hnl, by simp [halloc], fun j _ ↦ hown j⟩
  · obtain rfl : n = b := by simpa [hself, priv] using hb
    exact ⟨by simp [hself, hazard], fun j _ ↦ hreuse j⟩
  · rw [hpc, contents_write hnl hmem]
    exact .refl _

theorem moves_writePriv (h : Inv s l) (hn : (s.pc i).priv = some n)
    (hcarries : (s.pc i).carries s.mem = some data) (hp : nd.p = data)
    (hreturned : returned s (.access i) = []) :
    Moves s (.access i) l ((s.write n nd).goto i (.pushLink data n)) l := by
  have hnl := (h.owns i n (.inl hn)).2.1
  have hrely : ∀ j ≠ i, Rely s ((s.write n nd).goto i (.pushLink data n)) l l (s.pc j) :=
    fun j hj ↦ .write h hnl (fun hown ↦ hj (h.owner j i n hown (.inl hn))) rfl fun _ _ ↦ rfl
  refine ⟨h.step rfl (h.chain.write hnl rfl h.chain.allocated rfl) hrely (fun a ha ↦ ?_)
    (fun a ha ↦ ?_) (by simp [hazard]) (by simpa [Ok, Stack.goto, Stack.write] using hp),
    fun vs hvs ↦ hvs.move hrely rfl ?_⟩
  · obtain rfl : n = a := by simpa [Owns, priv, popped] using ha
    exact ⟨.inl hn, rfl, hnl⟩
  · obtain rfl : n = a := by simpa [priv] using ha
    exact hn
  · have hcontents : contents ((s.write n nd).goto i (.pushLink data n)) l = contents s l :=
      contents_write hnl rfl
    rw [hreturned, hcarries, hcontents]
    exact .refl _

theorem moves_free {ret : V} (h : Inv s l) (hpc : s.pc i = .popFree top ret) :
    Moves s (.access i) l
      ({ s with allocated := update s.allocated top false }.goto i (.popRet ret)) l := by
  have hown : (s.pc i).Owns top := by simp [hpc, Owns, popped]
  have hkeep : ∀ a, a ≠ top → update s.allocated top false a = s.allocated a :=
    fun a ha ↦ update_of_ne ha _ _
  have hrely : ∀ j ≠ i, Rely s ({ s with
      allocated := update s.allocated top false }.goto i (.popRet ret)) l l (s.pc j) := by
    refine fun j hj ↦ ⟨fun a ha ↦ ⟨rfl, hkeep a ?_, (h.owns j a ha).2.1⟩, fun _ _ hx ↦ hx,
      fun _ _ _ ↦ rfl⟩
    rintro rfl
    exact hj (h.owner j i a ha hown)
  refine ⟨h.step rfl ⟨h.chain.path, h.chain.zero, h.chain.nodup, fun a ha ↦ ?_⟩ hrely
    (by simp [Owns, priv, popped]) (by simp [priv]) (by simp [hazard]) trivial,
    fun vs hvs ↦ hvs.move hrely rfl ?_⟩
  · refine (hkeep a ?_).trans (h.chain.allocated a ha)
    rintro rfl
    exact (h.owns i a hown).2.1 ha
  · rw [returned, hpc]
    exact .refl _

theorem moves_access (h : Inv s l) (htop : TopUnchanged s (.access i)) (hs : s.access i = some s') :
    ∃ l', Moves s (.access i) l s' l' := by
  have hok := h.ok i
  unfold access at hs
  split at hs
  next hpc => cases hs
  next hpc => cases hs
  next data n hpc =>
    cases hs
    exact ⟨l, moves_writePriv h (by simp [hpc, priv]) (by simp [hpc, carries]) rfl
      (by simp [returned, hpc])⟩
  next data n hpc =>
    split at hs
    next hhead =>
      cases hs
      exact ⟨n :: l, moves_link h hpc hhead⟩
    next =>
      cases hs
      rw [hpc] at hok
      exact ⟨l, moves_goto h hok⟩
  next data n hpc =>
    cases hs
    rw [hpc] at hok
    exact ⟨l, moves_writePriv h (by simp [hpc, priv]) (by simp [hpc, carries]) hok
      (by simp [returned, hpc])⟩
  next hpc =>
    cases hs
    exact ⟨l, moves_goto h trivial⟩
  next hpc =>
    cases hs
    refine ⟨l, moves_goto h trivial ?_⟩
    rintro x hx
    obtain rfl : s.head = x := by simpa [hazard] using hx
    exact .inr h.chain.head_mem_or
  next top hpc =>
    cases hs
    refine ⟨l, moves_goto h ?_⟩
    rcases htop top hpc with htop | ⟨h0, hoff⟩
    · exact ⟨fun h0 ↦ htop.trans h0, fun _ ↦ htop⟩
    · exact ⟨fun h0' ↦ absurd h0' h0, fun hx ↦ absurd ⟨l, h.chain.path, hx⟩ hoff⟩
  next top head hpc =>
    rw [hpc] at hok
    split at hs
    next =>
      cases hs
      exact ⟨l, moves_goto h trivial⟩
    next hhead =>
      cases hs
      refine ⟨l, moves_goto h ⟨fun h0 ↦ hhead (hok.1 h0), fun hx ↦ ?_⟩⟩
      rw [hok.2 hx]
  next top next hpc =>
    split at hs
    next hhead =>
      cases hs
      exact moves_take h hpc hhead
    next =>
      cases hs
      exact ⟨l, moves_goto h trivial⟩
  next top hpc =>
    split at hs
    next htop0 => exact absurd htop0 (h.owns i top (by simp [hpc, Owns, popped])).1
    next =>
      cases hs
      exact ⟨l, moves_goto h trivial⟩
  next top ret hpc =>
    cases hs
    exact ⟨l, moves_free h hpc⟩
  next ret hpc =>
    cases hs
    exact ⟨l, moves_return h hpc⟩
  next hpc => cases hs

theorem moves_step {lbl : Label I A V} (h : Inv s l) (hreuse : NoReuse s lbl)
    (htop : TopUnchanged s lbl) (hs : step s lbl = some s') : ∃ l', Moves s lbl l s' l' := by
  cases lbl with
  | call i op =>
    rw [step] at hs
    split at hs
    next hpc =>
      cases hs
      exact ⟨l, moves_call h hpc op⟩
    next => cases hs
  | malloc i n nd =>
    rw [step] at hs
    split at hs
    next data hpc =>
      split at hs
      next hn =>
        cases hs
        exact ⟨l, moves_malloc h hpc hn.1 hn.2 hreuse rfl rfl rfl rfl⟩
      next => cases hs
    next => cases hs
  | access i => exact moves_access h htop hs
  | scribble a nd =>
    rw [step] at hs
    split at hs
    next ha =>
      cases hs
      exact ⟨l, moves_scribble h ha⟩
    next => cases hs

omit [DecidableEq I] [DecidableEq A] in
theorem inv_createStack (mem : A → Node A V) (allocated : A → Bool) :
    Inv (createStack mem allocated : Stack I A V) [] where
  chain := ⟨rfl, by simp, by simp, by simp⟩
  owns i a ha := by simp [createStack, Owns, priv, popped] at ha
  owner i j a ha := by simp [createStack, Owns, priv, popped] at ha
  priv i j a ha := by simp [createStack, priv] at ha
  ok _ := trivial

omit [DecidableEq I] [DecidableEq A] in
theorem inside_createStack (mem : A → Node A V) (allocated : A → Bool) :
    Inside (createStack mem allocated : Stack I A V) [] [] := ⟨[], carried_none, .refl _⟩

theorem returned_subperm {mem : A → Node A V} {allocated : A → Bool} {lbls : List (Label I A V)}
    {t : Stack I A V} (hg : Run.Guarded step Careful (createStack mem allocated) lbls)
    (he : Run.exec step (createStack mem allocated) lbls = some t) :
    (Run.trace step returned (createStack mem allocated) lbls).Subperm
      (Run.trace step given (createStack mem allocated) lbls) := by
  refine Run.subperm_of_guarded (R := fun s vs ↦ ∃ l, Inv s l ∧ Inside s l vs) ?_
    ⟨[], inv_createStack mem allocated, inside_createStack mem allocated⟩ hg he
  rintro s lbl t vs ⟨l, h, hvs⟩ hc hs
  obtain ⟨l', hm⟩ := moves_step h hc.1 hc.2 hs
  obtain ⟨ws, hws, hp⟩ := hm.inside vs hvs
  exact ⟨ws, ⟨l', hm.inv, hws⟩, hp⟩

end ForgeOS.Stack
