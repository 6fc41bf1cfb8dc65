import ForgeOS.Pmem.Model
import ForgeOS.Stack.Steps

/-!
# When a physical page has one holder

The stack answers for the addresses of `struct phys_page` it is given (`Stack.Moves`); here each of
them is in one place only, and stands for the page in its `addr`.

The main result is `handedOut_subperm_of_careful`.
-/

namespace ForgeOS

open Function List Option Run

namespace Stack

variable {I A V : Type} [Zero A] [DecidableEq I] [DecidableEq A] {s s' : Stack I A V}

theorem idle_of_step {lbl : Label I A V} (hs : step s lbl = some s')
    (hcall : ∀ i op, lbl ≠ .call i op) {j : I} (hj : s.pc j = .idle) : s'.pc j = .idle := by
  have hother : ∀ (r : Stack I A V) (i : I) (pc : Pc A V), r.pc = s.pc → s.pc i ≠ .idle →
      (r.goto i pc).pc j = .idle := by
    intro r i pc hr hi
    have hji : j ≠ i := by
      rintro rfl
      exact hi hj
    simp [Stack.goto, hji, hr, hj]
  cases lbl with
  | call i op => exact absurd rfl (hcall i op)
  | malloc i n junk =>
    rw [step] at hs
    split at hs
    next data hpc =>
      split at hs
      next =>
        cases hs
        exact hother _ i _ rfl (by simp [hpc])
      next => cases hs
    next => cases hs
  | access i =>
    rw [step, access] at hs
    split at hs
    all_goals try split at hs
    all_goals
      cases hs
      try exact hother _ i _ rfl (by simp [*])
  | scribble a junk =>
    rw [step] at hs
    split at hs
    next =>
      cases hs
      exact hj
    next => cases hs

theorem idle_of_return {i : I} (hs : step s (.access i) = some s')
    (hpc : s.pc i = .pushRet ∨ ∃ ret, s.pc i = .popRet ret) : s'.pc i = .idle := by
  rw [step, access] at hs
  rcases hpc with hpc | ⟨ret, hpc⟩
  all_goals
    rw [hpc] at hs
    cases hs
    simp [Stack.goto]

end Stack

namespace Pmem

variable {I A B P : Type}

/-! ## The invariant -/

def Pc.block : Pc P B → Option B
  | .deallocSetAddr _ page | .deallocPush page | .allocReadAddr page | .allocFree page _ => some page
  | _ => none

def Pc.carries (addr : B → P) : Pc P B → Option P
  | .deallocMalloc p | .deallocSetAddr p _ => some p
  | .deallocPush page | .allocReadAddr page => some (addr page)
  | .allocFree _ ret | .allocReadFree ret | .allocSetFree ret _ | .allocRet ret => some ret
  | _ => none

variable [Zero A] [Zero B]

structure Inv (s : Pmem I A B P) (bs : List B) : Prop where
  stack : ∃ l, Stack.Inv s.stack l ∧ Stack.Inside s.stack l bs
  nodup : bs.Nodup
  live : ∀ b ∈ bs, b ≠ 0 ∧ s.live b = true
  owns : ∀ i b, (s.pc i).block = some b → b ≠ 0 ∧ s.live b = true ∧ b ∉ bs
  owner : UniqueOwner fun i b ↦ (s.pc i).block = some b
  inStack : ∀ i, s.stack.pc i ≠ .idle → s.pc i = .inStack

def Inside (s : Pmem I A B P) (ps : List P) : Prop :=
  ∃ bs, Inv s bs ∧ Accounts (fun i ↦ (s.pc i).carries s.addr) (bs.map s.addr) ps

variable {s s' : Pmem I A B P} {bs bs' : List B} {i : I} {pc : Pc P B}

def Rely (s s' : Pmem I A B P) (bs' : List B) (i : I) : Prop :=
  ∀ j ≠ i, ∀ b, (s.pc j).block = some b → s'.addr b = s.addr b ∧ s'.live b = s.live b ∧ b ∉ bs'

theorem Inv.idle (h : Inv s bs) (hi : s.pc i ≠ .inStack) : s.stack.pc i = .idle := by
  by_contra hne
  exact hi (h.inStack i hne)

omit [Zero A] [Zero B] in
theorem carries_of_addr {addr addr' : B → P} (h : ∀ b, pc.block = some b → addr' b = addr b) :
    pc.carries addr' = pc.carries addr := by
  cases pc with
  | deallocPush page => rw [Pc.carries, Pc.carries, h page rfl]
  | allocReadAddr page => rw [Pc.carries, Pc.carries, h page rfl]
  | _ => rfl

variable [DecidableEq I]

omit [Zero A] [Zero B] in
theorem carries_update (hpc : s'.pc = Function.update s.pc i pc) (hrely : Rely s s' bs' i) :
    (fun j ↦ (s'.pc j).carries s'.addr) =
      Function.update (fun j ↦ (s.pc j).carries s.addr) i (pc.carries s'.addr) := by
  funext j
  by_cases hj : j = i
  · subst hj
    simp [hpc]
  · simp [hpc, hj, carries_of_addr fun b hb ↦ (hrely j hj b hb).1]

theorem Inv.move (h : Inv s bs) (hpc : s'.pc = Function.update s.pc i pc) (hrely : Rely s s' bs' i)
    (hstack : ∃ l, Stack.Inv s'.stack l ∧ Stack.Inside s'.stack l bs') (hnodup : bs'.Nodup)
    (hlive : ∀ b ∈ bs', b ≠ 0 ∧ s'.live b = true) (howns : ∀ b, pc.block = some b →
      b ≠ 0 ∧ s'.live b = true ∧ b ∉ bs' ∧ ∀ j ≠ i, (s.pc j).block ≠ some b)
    (hother : ∀ j ≠ i, s.stack.pc j = .idle → s'.stack.pc j = .idle)
    (hself : s'.stack.pc i ≠ .idle → pc = .inStack) : Inv s' bs' := by
  have hi : s'.pc i = pc := by simp [hpc]
  have hne : ∀ j ≠ i, s'.pc j = s.pc j := fun j hj ↦ by simp [hpc, hj]
  refine ⟨hstack, hnodup, hlive, fun j b hb ↦ ?_, h.owner.move (i := i) (fun j hj b hb ↦ ?_)
    fun b hb j hj ↦ ?_, fun j hj ↦ ?_⟩
  · by_cases hji : j = i
    · subst hji
      obtain ⟨h0, hl, hbs, -⟩ := howns b (hi ▸ hb)
      exact ⟨h0, hl, hbs⟩
    · rw [hne j hji] at hb
      obtain ⟨h0, hl, -⟩ := h.owns j b hb
      obtain ⟨-, hl', hbs'⟩ := hrely j hji b hb
      exact ⟨h0, hl'.trans hl, hbs'⟩
  · rwa [hne j hj] at hb
  · exact (howns b (hi ▸ hb)).2.2.2 j hj
  · by_cases hji : j = i
    · subst hji
      rw [hi]
      exact hself hj
    · rw [hne j hji]
      exact h.inStack j fun hidle ↦ hj (hother j hji hidle)

section

variable {ps g r : List P} (h : Inv s bs)
  (hps : Accounts (fun j ↦ (s.pc j).carries s.addr) (bs.map s.addr) ps)
  (hpc : s'.pc = Function.update s.pc i pc)

include hps hpc

theorem inside_move (hinv : Inv s' bs') (hrely : Rely s s' bs' i)
    (hp : (g ++ (((s.pc i).carries s.addr).toList ++ bs.map s.addr)).Perm
      (r ++ ((pc.carries s'.addr).toList ++ bs'.map s'.addr))) :
    ∃ qs, Inside s' qs ∧ (g ++ ps).Perm (r ++ qs) := by
  obtain ⟨qs, hqs, hp'⟩ := hps.move hp
  rw [← carries_update hpc hrely] at hqs
  exact ⟨qs, ⟨bs', hinv, hqs⟩, hp'⟩

include h

theorem moves_own (hi : s.pc i ≠ .inStack) (hstack : s'.stack = s.stack) (hrely : Rely s s' bs i)
    (hbs : ∀ b ∈ bs, s'.addr b = s.addr b ∧ s'.live b = s.live b) (howns : ∀ b, pc.block = some b →
      b ≠ 0 ∧ s'.live b = true ∧ b ∉ bs ∧ ∀ j ≠ i, (s.pc j).block ≠ some b)
    (hp : g ++ ((s.pc i).carries s.addr).toList = r ++ (pc.carries s'.addr).toList) :
    ∃ qs, Inside s' qs ∧ (g ++ ps).Perm (r ++ qs) := by
  have hinv : Inv s' bs := by
    refine h.move hpc hrely (by rw [hstack]; exact h.stack) h.nodup (fun b hb ↦ ?_) howns
      (fun j _ hj ↦ by rw [hstack]; exact hj) fun hne ↦ absurd ?_ hne
    · rw [(hbs b hb).2]
      exact h.live b hb
    · rw [hstack]
      exact h.idle hi
  have hmap : bs.map s'.addr = bs.map s.addr := map_congr_left fun b hb ↦ (hbs b hb).1
  refine inside_move hps hpc hinv hrely ?_
  rw [← append_assoc, hp, append_assoc, hmap]

theorem moves_block {page : B} (hi : s.pc i ≠ .inStack) (hstack : s'.stack = s.stack)
    (hpage : page ∉ bs) (hother : ∀ j ≠ i, (s.pc j).block ≠ some page)
    (haddr : ∀ b ≠ page, s'.addr b = s.addr b) (hlive : ∀ b ≠ page, s'.live b = s.live b)
    (howns : ∀ b, pc.block = some b → b = page ∧ b ≠ 0 ∧ s'.live b = true)
    (hp : g ++ ((s.pc i).carries s.addr).toList = r ++ (pc.carries s'.addr).toList) :
    ∃ qs, Inside s' qs ∧ (g ++ ps).Perm (r ++ qs) := by
  refine moves_own h hps hpc hi hstack (fun j hj b hb ↦ ?_) (fun b hb ↦ ?_) (fun b hb ↦ ?_) hp
  · have hne : b ≠ page := by
      rintro rfl
      exact hother j hj hb
    exact ⟨haddr b hne, hlive b hne, (h.owns j b hb).2.2⟩
  · have hne : b ≠ page := by
      rintro rfl
      exact hpage hb
    exact ⟨haddr b hne, hlive b hne⟩
  · obtain ⟨rfl, h0, hl⟩ := howns b hb
    exact ⟨h0, hl, hpage, hother⟩

theorem moves_goto (hstack : s'.stack = s.stack := by rfl) (haddr : s'.addr = s.addr := by rfl)
    (hlive : s'.live = s.live := by rfl) (hi : s.pc i ≠ .inStack := by simp [*])
    (howns : ∀ b, pc.block = some b → (s.pc i).block = some b := by simp [*, Pc.block])
    (hp : g ++ ((s.pc i).carries s.addr).toList = r ++ (pc.carries s.addr).toList := by
      simp [*, deallocated, handedOut, Pc.carries]) :
    ∃ qs, Inside s' qs ∧ (g ++ ps).Perm (r ++ qs) := by
  refine moves_own h hps hpc hi hstack (fun j _ b hb ↦ ?_) (fun b _ ↦ ?_) (fun b hb ↦ ?_) ?_
  · rw [haddr, hlive]
    exact ⟨rfl, rfl, (h.owns j b hb).2.2⟩
  · rw [haddr, hlive]
    exact ⟨rfl, rfl⟩
  · obtain ⟨h0, hl, hb'⟩ := h.owns i b (howns b hb)
    rw [hlive]
    exact ⟨h0, hl, hb', fun j hj hb'' ↦ hj (h.owner j i b hb'' (howns b hb))⟩
  · rwa [haddr]

end

variable [DecidableEq A]

section

variable {ps : List P} {lbl : Stack.Label I A B} {stack : Stack I A B} (h : Inv s bs)
  (hps : Accounts (fun j ↦ (s.pc j).carries s.addr) (bs.map s.addr) ps)

include h hps

theorem moves_call {op : Stack.Op B} (hi : s.pc i ≠ .inStack)
    (hgiven : Stack.given s.stack (.call i op) = (s.pc i).block.toList)
    (hcarries : (s.pc i).carries s.addr = (s.pc i).block.map s.addr)
    (hs : s.callStack i op = some s') : ∃ qs, Inside s' qs ∧ ps.Perm qs := by
  obtain ⟨stack, hstack, rfl⟩ := map_eq_some_iff.mp hs
  obtain ⟨l, hinv, hin⟩ := h.stack
  have hcareful : Stack.Careful s.stack (.call i op) := ⟨trivial, trivial⟩
  obtain ⟨l', hm⟩ := Stack.moves_step hinv hcareful.1 hcareful.2 hstack
  obtain ⟨ws, hws, hp⟩ := hm.inside bs hin
  rw [hgiven] at hp
  replace hp : ((s.pc i).block.toList ++ bs).Perm ws := hp
  have hmem : ∀ b, b ∈ ws ↔ (s.pc i).block = some b ∨ b ∈ bs := fun b ↦ by
    simp [← hp.mem_iff, eq_comm]
  have hrely : Rely s ({ s with stack := stack }.goto i .inStack) ws i := by
    refine fun j hj b hb ↦ ⟨rfl, rfl, fun hbw ↦ ?_⟩
    rcases (hmem b).mp hbw with hb' | hb'
    · exact hj (h.owner j i b hb hb')
    · exact (h.owns j b hb).2.2 hb'
  refine inside_move (g := []) (r := [])
    hps rfl (h.move rfl hrely ⟨l', hm.inv, hws⟩ ?_ (fun b hb ↦ ?_)
    (by simp [Pc.block]) (fun j hj hidle ↦ ?_) fun _ ↦ rfl) hrely ?_
  · refine hp.nodup ?_
    cases hb : (s.pc i).block with
    | none => exact h.nodup
    | some b => exact nodup_cons.mpr ⟨(h.owns i b hb).2.2, h.nodup⟩
  · rcases (hmem b).mp hb with hb' | hb'
    · obtain ⟨h0, hl, -⟩ := h.owns i b hb'
      exact ⟨h0, hl⟩
    · exact h.live b hb'
  · rw [Stack.step, h.idle hi] at hstack
    cases hstack
    simp [Pmem.goto, Stack.goto, hj, hidle]
  · rw [hcarries, toList_map, ← map_append]
    exact hp.map s.addr

theorem moves_inside (hcareful : Stack.Careful s.stack lbl) (hstack : s.stack.step lbl = some stack)
    (hcall : ∀ i op, lbl ≠ .call i op) (hreturned : Stack.returned s.stack lbl = []) :
    ∃ qs, Inside { s with stack := stack } qs ∧ ps.Perm qs := by
  obtain ⟨l, hinv, hin⟩ := h.stack
  obtain ⟨l', hm⟩ := Stack.moves_step hinv hcareful.1 hcareful.2 hstack
  obtain ⟨ws, hws, hp⟩ := hm.inside bs hin
  have hgiven : Stack.given s.stack lbl = [] := by
    cases lbl with
    | call i op => exact absurd rfl (hcall i op)
    | _ => rfl
  rw [hgiven, hreturned] at hp
  replace hp : bs.Perm ws := hp
  refine ⟨ps, ⟨ws, ⟨⟨l', hm.inv, hws⟩, hp.nodup h.nodup, fun b hb ↦ h.live b (hp.mem_iff.mpr hb),
    fun i b hb ↦ ?_, h.owner, fun i hi ↦ h.inStack i fun hidle ↦ hi ?_⟩, ?_⟩, .refl _⟩
  · obtain ⟨h0, hl, hbs⟩ := h.owns i b hb
    exact ⟨h0, hl, fun hbw ↦ hbs (hp.mem_iff.mpr hbw)⟩
  · exact Stack.idle_of_step hstack hcall hidle
  · obtain ⟨cs, hcs, hq⟩ := hps
    exact ⟨cs, hcs, hq.trans ((hp.map s.addr).append_left cs)⟩

theorem moves_return (pc : Pc P B) (hcareful : Stack.Careful s.stack (.access i))
    (hstack : s.stack.step (.access i) = some stack) (hi : s.stack.pc i ≠ .idle)
    (hidle : stack.pc i = .idle) (hreturned : Stack.returned s.stack (.access i) = pc.block.toList)
    (hcarries : pc.carries s.addr = pc.block.map s.addr) :
    ∃ qs, Inside ({ s with stack := stack }.goto i pc) qs ∧ ps.Perm qs := by
  obtain ⟨l, hinv, hin⟩ := h.stack
  obtain ⟨l', hm⟩ := Stack.moves_step hinv hcareful.1 hcareful.2 hstack
  obtain ⟨ws, hws, hp⟩ := hm.inside bs hin
  rw [hreturned] at hp
  replace hp : bs.Perm (pc.block.toList ++ ws) := hp
  have hnd := hp.nodup h.nodup
  have hw : ∀ b ∈ ws, b ∈ bs := fun b hb ↦ hp.mem_iff.mpr (mem_append_right _ hb)
  have hrely : Rely s ({ s with stack := stack }.goto i pc) ws i :=
    fun j _ b hb ↦ ⟨rfl, rfl, fun hbw ↦ (h.owns j b hb).2.2 (hw b hbw)⟩
  refine inside_move (g := []) (r := []) hps rfl (h.move rfl hrely ⟨l', hm.inv, hws⟩
    (hnd.sublist (sublist_append_right ..)) (fun b hb ↦ h.live b (hw b hb)) (fun b hb ↦ ?_)
    (fun j _ hj ↦ ?_) fun hne ↦ absurd hidle hne) hrely ?_
  · rw [hb] at hp hnd
    have hbs : b ∈ bs := hp.mem_iff.mpr (by simp)
    exact ⟨(h.live b hbs).1, (h.live b hbs).2, (nodup_cons.mp hnd).1,
      fun j _ hj ↦ (h.owns j b hj).2.2 hbs⟩
  · exact Stack.idle_of_step hstack (by simp) hj
  · have hpc : s.pc i = .inStack := h.inStack i hi
    show ((s.pc i).carries s.addr).toList ++ bs.map s.addr |>.Perm
      ((pc.carries s.addr).toList ++ ws.map s.addr)
    rw [hpc, hcarries, toList_map, ← map_append]
    exact hp.map s.addr

theorem moves_stack (hcareful : Stack.Careful s.stack lbl) (hstack : s.stack.step lbl = some stack)
    (hcall : ∀ i op, lbl ≠ .call i op) :
    ∃ qs, Inside { s with stack := stack, pc := s.resume lbl } qs ∧ ps.Perm qs := by
  cases lbl with
  | call i op => exact absurd rfl (hcall i op)
  | malloc | scribble => exact moves_inside h hps hcareful hstack hcall rfl
  | access i =>
    rw [resume]
    split
    next hpc =>
      exact moves_return h hps .deallocReadFree hcareful hstack (by simp [hpc])
        (Stack.idle_of_return hstack (.inl hpc)) (by simp [Stack.returned, hpc, Pc.block]) rfl
    next page hpc =>
      exact moves_return h hps (.allocReadAddr page) hcareful hstack (by simp [hpc])
        (Stack.idle_of_return hstack (.inr ⟨page, hpc⟩)) (by simp [Stack.returned, hpc, Pc.block]) rfl
    next hret =>
      refine moves_inside h hps hcareful hstack hcall ?_
      rw [Stack.returned]
      split
      next page hpc => exact absurd hpc (hret page)
      next => rfl

theorem moves_access [DecidableEq B] (hs : s.access i = some s') :
    ∃ qs, Inside s' qs ∧ (deallocated s (.access i) ++ ps).Perm (handedOut s (.access i) ++ qs) := by
  unfold access at hs
  split at hs
  next => cases hs
  next => cases hs
  next p page hpc =>
    cases hs
    have hown : (s.pc i).block = some page := by simp [hpc, Pc.block]
    obtain ⟨h0, hl, hbs⟩ := h.owns i page hown
    refine moves_block h hps rfl (by simp [hpc]) rfl hbs (fun j hj hb ↦ hj (h.owner j i page hb hown))
      (fun b hb ↦ update_of_ne hb _ _) (fun _ _ ↦ rfl) (fun b hb ↦ ?_)
      (by simp [hpc, deallocated, handedOut, Pc.carries, Pmem.goto])
    obtain rfl : page = b := by simpa [Pc.block] using hb
    exact ⟨rfl, h0, hl⟩
  next page hpc =>
    have hp := moves_call h hps (by simp [hpc]) (by simp [hpc, Pc.block, Stack.given])
      (by simp [hpc, Pc.block, Pc.carries]) hs
    simpa [deallocated, handedOut, hpc] using hp
  next hpc =>
    cases hs
    exact moves_goto h hps rfl
  next free hpc =>
    cases hs
    exact moves_goto h hps rfl
  next hpc =>
    have hp := moves_call h hps (by simp [hpc]) (by simp [hpc, Pc.block, Stack.given])
      (by simp [hpc, Pc.block, Pc.carries]) hs
    simpa [deallocated, handedOut, hpc] using hp
  next => cases hs
  next page hpc =>
    split at hs
    next hpage => exact absurd hpage (h.owns i page (by simp [hpc, Pc.block])).1
    next =>
      cases hs
      exact moves_goto h hps rfl
  next page ret hpc =>
    cases hs
    have hown : (s.pc i).block = some page := by simp [hpc, Pc.block]
    exact moves_block h hps rfl (by simp [hpc]) rfl (h.owns i page hown).2.2
      (fun j hj hb ↦ hj (h.owner j i page hb hown)) (fun _ _ ↦ rfl)
      (fun b hb ↦ update_of_ne hb _ _) (by simp [Pc.block])
      (by simp [hpc, deallocated, handedOut, Pc.carries])
  next ret hpc =>
    cases hs
    exact moves_goto h hps rfl
  next ret free hpc =>
    cases hs
    exact moves_goto h hps rfl
  next ret hpc =>
    cases hs
    exact moves_goto h hps rfl
  next hpc =>
    cases hs
    exact moves_goto h hps rfl

end

variable [DecidableEq B]

/-! ## Whole runs -/

theorem moves_step {lbl : Label I A B P} {ps : List P} (hin : Inside s ps)
    (hcareful : Careful s lbl) (hs : step s lbl = some s') :
    ∃ qs, Inside s' qs ∧ (deallocated s lbl ++ ps).Perm (handedOut s lbl ++ qs) := by
  obtain ⟨bs, h, hps⟩ := hin
  cases lbl with
  | dealloc i p | alloc i =>
    rw [step] at hs
    split at hs
    next hpc =>
      cases hs
      exact moves_goto h hps rfl
    next => cases hs
  | malloc i page junk =>
    rw [step] at hs
    split at hs
    next p hpc =>
      split at hs
      next hpage =>
        cases hs
        refine moves_block h hps rfl (by simp [hpc]) rfl (fun hb ↦ ?_) (fun j _ hb ↦ ?_)
          (fun b hb ↦ update_of_ne hb _ _) (fun b hb ↦ update_of_ne hb _ _)
          (fun b hb ↦ ?_) (by simp [hpc, deallocated, handedOut, Pc.carries])
        · simp [(h.live page hb).2] at hpage
        · simp [(h.owns j page hb).2.1] at hpage
        · obtain rfl : page = b := by simpa [Pc.block] using hb
          exact ⟨rfl, hpage.1, by simp [Pmem.goto]⟩
      next => cases hs
    next => cases hs
  | access i => exact moves_access h hps hs
  | stack lbl =>
    cases lbl with
    | call i op => cases hs
    | malloc | access | scribble =>
      obtain ⟨stack, hstack, rfl⟩ := map_eq_some_iff.mp hs
      exact moves_stack h hps hcareful hstack (by simp)

omit [DecidableEq I] [DecidableEq A] [DecidableEq B] in
theorem inside_create (mem : A → Stack.Node A B) (allocated : A → Bool) (addr : B → P)
    (live : B → Bool) : Inside (create mem allocated addr live : Pmem I A B P) [] := by
  refine ⟨[], ⟨⟨[], Stack.inv_createStack mem allocated, Stack.inside_createStack mem allocated⟩,
    by simp, by simp, fun i b hb ↦ ?_, fun i j b hb ↦ ?_, fun i hi ↦ absurd rfl hi⟩,
    [], carried_none, .refl _⟩
  · simp [create, Pc.block] at hb
  · simp [create, Pc.block] at hb

/-- **One holder for every page**, if the second read of `s->head` in `stack_pop` finds what the
first one found, or that node has left the stack. -/
theorem handedOut_subperm_of_careful {V : Type} :
    (∀ (mem : A → Stack.Node A V) (allocated : A → Bool) (lbls : List (Stack.Label I A V))
        (t : Stack I A V),
      Guarded Stack.step Stack.Careful (.createStack mem allocated) lbls →
      exec Stack.step (.createStack mem allocated) lbls = some t →
      (trace Stack.step Stack.returned (.createStack mem allocated) lbls).Subperm
        (trace Stack.step Stack.given (.createStack mem allocated) lbls)) ∧
    ∀ (mem : A → Stack.Node A B) (allocated : A → Bool) (addr : B → P) (live : B → Bool)
        (lbls : List (Label I A B P)) (t : Pmem I A B P),
      Guarded step Careful (create mem allocated addr live) lbls →
      exec step (create mem allocated addr live) lbls = some t →
      (trace step handedOut (create mem allocated addr live) lbls).Subperm
        (trace step deallocated (create mem allocated addr live) lbls) := by
  constructor
  · intro mem allocated lbls t hg he
    exact Stack.returned_subperm hg he
  · intro mem allocated addr live lbls t hg he
    exact subperm_of_guarded (fun s lbl t ps ↦ moves_step)
      (inside_create mem allocated addr live)
      hg he

omit [Zero B] [DecidableEq B] in
def sameTop [Fintype I] (s : Pmem I A B P) : Label I A B P → Bool
  | .stack lbl => Stack.sameTop s.stack lbl
  | _ => true

omit [DecidableEq I] [Zero B] [DecidableEq B] in
theorem careful_of_sameTop [Fintype I] {s : Pmem I A B P} {lbl : Label I A B P}
    (h : sameTop s lbl = true) : Careful s lbl := by
  cases lbl with
  | stack lbl => exact Stack.careful_of_sameTop h
  | _ => trivial

/-- `stack_push(data)` by one agent alone, with the node `n`: linked at once on an empty stack, at
the second attempt on another one. -/
def stackPush (i : Fin 2) (data n : ℕ) (empty : Bool) : List (Stack.Label (Fin 2) ℕ ℕ) :=
  [.call i (.push data), .malloc i n ⟨0, 0⟩] ++ replicate (if empty then 3 else 5) (.access i)

def stackPop (i : Fin 2) : List (Stack.Label (Fin 2) ℕ ℕ) :=
  .call i .pop :: replicate 7 (.access i)

/-- `pmem_dealloc(p)` by one agent alone, with the block `b` and the node `n`. -/
def pmemDealloc (i : Fin 2) (p b n : ℕ) (empty : Bool) : List (Label (Fin 2) ℕ ℕ ℕ) :=
  [.dealloc i p, .malloc i b 0, .access i, .access i, .stack (.malloc i n ⟨0, 0⟩)] ++
    replicate (if empty then 3 else 5) (.stack (.access i)) ++ [.access i, .access i]

def pmemAlloc (i : Fin 2) : List (Label (Fin 2) ℕ ℕ ℕ) :=
  [.alloc i, .access i] ++ replicate 7 (.stack (.access i)) ++ replicate 5 (.access i)

def emptyPmem : Pmem (Fin 2) ℕ ℕ ℕ :=
  create (fun _ ↦ ⟨0, 0⟩) (fun _ ↦ false) (fun _ ↦ 0) fun _ ↦ false

/-- Agent 0 takes a page while agent 1, which has read the head of the stack twice, is about to do
the same.  The compare-and-swap of agent 1 fails, and it starts again. -/
def retriedRun : List (Label (Fin 2) ℕ ℕ ℕ) :=
  pmemDealloc 0 0x1000 10 1 true ++ pmemDealloc 0 0x2000 20 2 false ++
    [.alloc 1, .access 1, .stack (.access 1), .stack (.access 1)] ++ pmemAlloc 0 ++
    replicate 9 (.stack (.access 1)) ++ replicate 5 (.access 1)

def retriedStack : List (Stack.Label (Fin 2) ℕ ℕ) :=
  stackPush 0 10 1 true ++ stackPush 0 20 2 false ++ [.call 1 .pop, .access 1, .access 1] ++
    stackPop 0 ++ replicate 9 (.access 1)

theorem handedOut_subperm_retried :
    (trace Stack.step Stack.returned emptyPmem.stack retriedStack).Subperm
        (trace Stack.step Stack.given emptyPmem.stack retriedStack) ∧
      (trace step handedOut emptyPmem retriedRun).Subperm
        (trace step deallocated emptyPmem retriedRun) := by
  obtain ⟨hstack, hpmem⟩ := handedOut_subperm_of_careful (I := Fin 2) (A := ℕ) (B := ℕ) (P := ℕ)
    (V := ℕ)
  constructor
  · have hrun : (exec Stack.step emptyPmem.stack retriedStack).isSome = true := by decide
    obtain ⟨t, ht⟩ := isSome_iff_exists.mp hrun
    have hg : Guarded Stack.step (fun s lbl ↦ Stack.sameTop s lbl = true) emptyPmem.stack
        retriedStack := by decide
    exact hstack _ _ _ t (hg.mono fun _ _ ↦ Stack.careful_of_sameTop) ht
  · have hrun : (exec step emptyPmem retriedRun).isSome = true := by decide
    obtain ⟨t, ht⟩ := isSome_iff_exists.mp hrun
    have hg : Guarded step (fun s lbl ↦ sameTop s lbl = true) emptyPmem retriedRun := by decide
    exact hpmem _ _ _ _ _ t (hg.mono fun _ _ ↦ careful_of_sameTop) ht

/-- Agent 1 reads the head of the stack, node 1.  Agent 0 pushes node 2, agent 1 reads the head
again and finds node 2, whose link is node 1.  Agent 0 pops node 2, and the compare-and-swap of
agent 1 is successful: it has node 1, which is still the head, and agent 0 takes it, too.  Both have
read what is in the node and in its block before either is freed. -/
def racedRun : List (Label (Fin 2) ℕ ℕ ℕ) :=
  pmemDealloc 0 0x1000 10 1 true ++ [.alloc 1, .access 1, .stack (.access 1)] ++
    pmemDealloc 0 0x2000 20 2 false ++ [.stack (.access 1), .stack (.access 1)] ++ pmemAlloc 0 ++
    [.stack (.access 1), .alloc 0, .access 0] ++ replicate 5 (.stack (.access 0)) ++
    replicate 3 (.stack (.access 1)) ++ replicate 2 (.stack (.access 0)) ++
    [.access 1, .access 0] ++ replicate 4 (.access 1) ++ replicate 4 (.access 0)

def racedStack : List (Stack.Label (Fin 2) ℕ ℕ) :=
  stackPush 0 10 1 true ++ [.call 1 .pop, .access 1] ++ stackPush 0 20 2 false ++
    [.access 1, .access 1] ++ stackPop 0 ++ [.access 1, .call 0 .pop] ++
    replicate 5 (.access 0) ++ replicate 3 (.access 1) ++ replicate 2 (.access 0)

/-- **One page, two holders.**  The page `0x1000`, deallocated once, is handed out twice. -/
theorem not_handedOut_subperm_raced :
    ((Stack.mallocs racedStack).Nodup ∧ (exec Stack.step emptyPmem.stack racedStack).isSome = true ∧
      trace Stack.step Stack.given emptyPmem.stack racedStack = [10, 20] ∧
      trace Stack.step Stack.returned emptyPmem.stack racedStack = [20, 10, 10]) ∧
    (exec step emptyPmem racedRun).isSome = true ∧
      trace step deallocated emptyPmem racedRun = [0x1000, 0x2000] ∧
      trace step handedOut emptyPmem racedRun = [0x2000, 0x1000, 0x1000] := by
  refine ⟨⟨?_, ?_, ?_, ?_⟩, ?_, ?_, ?_⟩ <;> decide

end Pmem
end ForgeOS
