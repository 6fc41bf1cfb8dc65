import ForgeOS.Lib.Agents
import ForgeOS.Queue.Model

/-!
# The invariant of the queue

The nodes of a queue form a chain from `q->head` to a null link, and `q->tail` is the last node of
it or the last but one.
-/

namespace ForgeOS.Queue

open List

variable {I A V : Type} [Zero A]

structure Chain (q : Queue I A V) (l : List A) : Prop where
  path : LinkPath (fun a ↦ (q.mem a).next) q.head l 0
  zero : 0 ∉ l
  nodup : l.Nodup
  allocated : ∀ a ∈ l, q.allocated a = true
  /-- `q->tail` is the last node or the last but one. -/
  tail : ∃ k, l = k ++ [q.tail] ∨ ∃ z, l = k ++ [q.tail, z]

def contents (q : Queue I A V) (l : List A) : List V := l.tail.map fun a ↦ (q.mem a).p

def Used (q : Queue I A V) (l : List A) (x : A) : Prop :=
  (x ∉ l → (q.mem x).next ≠ 0) ∧ ∀ k m, l = k ++ x :: m → q.tail ∉ k

def Next (q : Queue I A V) (l : List A) (x y : A) : Prop := y ≠ 0 → x ∈ l → (q.mem x).next = y

def Front (q : Queue I A V) (l : List A) (x : A) : Prop := x ∈ l → x = q.head

def Past (q : Queue I A V) (l : List A) (x : A) : Prop := x ∈ l → q.tail ≠ x

def Pc.priv : Pc A V → Option A
  | .pushSetP _ n | .pushSetNext _ n | .pushReadTail _ n | .pushReadNext _ n _ | .pushCheck _ n _ _
  | .pushLink _ n _ | .pushHelp _ n _ _ => some n
  | _ => none

def Pc.popped : Pc A V → Option A
  | .popFree head _ => some head
  | _ => none

def Pc.Owns (pc : Pc A V) (a : A) : Prop := pc.priv = some a ∨ pc.popped = some a

def Ok (q : Queue I A V) (l : List A) : Pc A V → Prop
  | .pushSetNext data n => (q.mem n).p = data
  | .pushReadTail data n => q.mem n = ⟨data, 0⟩
  | .pushReadNext data n tail | .pushLink data n tail => q.mem n = ⟨data, 0⟩ ∧ Used q l tail
  | .pushCheck data n tail next => q.mem n = ⟨data, 0⟩ ∧ Used q l tail ∧ Next q l tail next
  | .pushHelp data n tail next => q.mem n = ⟨data, 0⟩ ∧ next ≠ 0 ∧ Next q l tail next
  | .pushSwing n tail => n ≠ 0 ∧ Next q l tail n
  | .popReadTail head => Front q l head
  | .popReadNext head tail => Front q l head ∧ (tail ≠ head → Past q l head)
  | .popCheck head tail next =>
    Front q l head ∧ Next q l head next ∧
      (tail ≠ head → Past q l head ∧ (head ∈ l → next ≠ 0))
  | .popHelp head next => next ≠ 0 ∧ Next q l head next
  | .popReadP head next => next ≠ 0 ∧ Front q l head ∧ Past q l head ∧ Next q l head next
  | .popTake head next ret =>
    next ≠ 0 ∧ Front q l head ∧ Past q l head ∧ Next q l head next ∧
      (head ∈ l → (q.mem next).p = ret)
  | _ => True

/-- The invariant, for a queue with the nodes `l`. -/
structure Inv (q : Queue I A V) (l : List A) : Prop where
  chain : Chain q l
  owns : ∀ i a, (q.pc i).Owns a → a ≠ 0 ∧ a ∉ l ∧ q.allocated a = true
  owner : ∀ i j a, (q.pc i).Owns a → (q.pc j).Owns a → i = j
  /-- A node that is not linked yet is not known to anyone else. -/
  priv : ∀ i j a, (q.pc i).priv = some a → (q.pc j).hazard ≠ some a
  ok : ∀ i, Ok q l (q.pc i)

/-- What an agent may see others do to the nodes it uses. -/
structure Rely (q q' : Queue I A V) (l l' : List A) (pc : Pc A V) : Prop where
  /-- A node of its own is left alone. -/
  owns : ∀ a, pc.Owns a → q'.mem a = q.mem a ∧ q'.allocated a = q.allocated a ∧ a ∉ l'
  /-- A node it uses does not join the chain, -/
  join : ∀ x, pc.hazard = some x → x ∈ l' → x ∈ l
  /-- leaves it with a link that is not null and is not overtaken by it, -/
  used : ∀ x, pc.hazard = some x → Used q l x → Used q' l' x
  /-- keeps such a link on the chain, -/
  link : ∀ x, pc.hazard = some x → x ∈ l' → (q.mem x).next ≠ 0 → (q'.mem x).next = (q.mem x).next
  /-- stays in front, -/
  front : ∀ x, pc.hazard = some x → x ∈ l' → x = q.head → x = q'.head
  /-- and is not met by `q->tail` there. -/
  past : ∀ x, pc.hazard = some x → x ∈ l' → x = q.head → q.tail ≠ x → q'.tail ≠ x
  /-- Values on the chain do not change. -/
  value : ∀ y ∈ l, (q'.mem y).p = (q.mem y).p

variable {q q' : Queue I A V} {l l' : List A} {pc : Pc A V} {x y : A}

section Reads

variable [DecidableEq A] {pc' : Pc A V} {i : I}

section

omit [DecidableEq A]

theorem Reads.priv (hr : Reads q pc pc') : pc'.priv = pc.priv := by cases hr <;> rfl

theorem Reads.popped (hr : Reads q pc pc') : pc.popped = none ∧ pc'.popped = none := by
  cases hr <;> exact ⟨rfl, rfl⟩

theorem Reads.hazard (hr : Reads q pc pc') (hx : pc'.hazard = some x) :
    pc.hazard = some x ∨ x = q.tail ∨ x = q.head := by
  cases hr <;> simp_all [Pc.hazard]

end

theorem Reads.silent (hr : Reads q pc pc') (hpc : q.pc i = pc) :
    linked q (.access i) = [] ∧ taken q (.access i) = [] := by
  cases hr <;> simp_all [linked, taken]

theorem Swings.silent (hs : Swings pc x y pc') (hpc : q.pc i = pc) :
    linked q (.access i) = [] ∧ taken q (.access i) = [] := by
  cases hs <;> simp [linked, taken, hpc]

end Reads

theorem Chain.eq_cons (h : Chain q l) : ∃ m, l = q.head :: m := by
  cases l with
  | nil =>
    obtain ⟨k, hk | ⟨z, hk⟩⟩ := h.tail
    · simp at hk
    · simp at hk
  | cons a l => exact ⟨l, by rw [h.path.head]⟩

theorem Chain.head_mem (h : Chain q l) : q.head ∈ l := by
  obtain ⟨m, hm⟩ := h.eq_cons
  simp [hm]

theorem Chain.tail_mem (h : Chain q l) : q.tail ∈ l := by
  obtain ⟨k, hk | ⟨z, hk⟩⟩ := h.tail
  · simp [hk]
  · simp [hk]

theorem Chain.next_mem (h : Chain q l) (hx : x ∈ l) (hne : (q.mem x).next ≠ 0) :
    (q.mem x).next ∈ l := by
  obtain ⟨s, t, rfl⟩ := append_of_mem hx
  obtain ⟨t', rfl⟩ := h.path.eq_cons hne
  simp

theorem Ok.congr (h : Ok q l pc) (hmem : q'.mem = q.mem) (hhead : q'.head = q.head)
    (htail : q'.tail = q.tail) : Ok q' l pc := by
  cases pc <;> first | exact h | simpa only [Ok, Used, Next, Front, Past, hmem, hhead,
    htail] using h

theorem Next.of_rely (hr : Rely q q' l l' pc) (hx : pc.hazard = some x) (h : Next q l x y) :
    Next q' l' x y := by
  intro hy hx'
  have hq := h hy (hr.join x hx hx')
  rw [hr.link x hx hx' (by rwa [hq]), hq]

theorem Front.of_rely (hr : Rely q q' l l' pc) (hx : pc.hazard = some x) (h : Front q l x) :
    Front q' l' x :=
  fun hx' ↦ hr.front x hx hx' (h (hr.join x hx hx'))

theorem Past.of_rely (hr : Rely q q' l l' pc) (hx : pc.hazard = some x) (hf : Front q l x)
    (h : Past q l x) : Past q' l' x :=
  fun hx' ↦ hr.past x hx hx' (hf (hr.join x hx hx')) (h (hr.join x hx hx'))

theorem Ok.rely (hc : Chain q l) (hr : Rely q q' l l' pc) (h : Ok q l pc) : Ok q' l' pc := by
  have hmem : ∀ n, pc.priv = some n → q'.mem n = q.mem n := fun n hn ↦ (hr.owns n (.inl hn)).1
  cases pc with
  | idle | pushMalloc | pushSetP | pushInc | pushRet | popReadHead | popFree | popDec | popRet
  | popEmpty => trivial
  | pushSetNext data n =>
    rw [Ok, hmem n rfl]
    exact h
  | pushReadTail data n =>
    rw [Ok, hmem n rfl]
    exact h
  | pushReadNext data n tail =>
    rw [Ok, hmem n rfl]
    exact ⟨h.1, hr.used tail rfl h.2⟩
  | pushLink data n tail =>
    rw [Ok, hmem n rfl]
    exact ⟨h.1, hr.used tail rfl h.2⟩
  | pushCheck data n tail next =>
    rw [Ok, hmem n rfl]
    exact ⟨h.1, hr.used tail rfl h.2.1, h.2.2.of_rely hr rfl⟩
  | pushHelp data n tail next =>
    rw [Ok, hmem n rfl]
    exact ⟨h.1, h.2.1, h.2.2.of_rely hr rfl⟩
  | pushSwing n tail => exact ⟨h.1, h.2.of_rely hr rfl⟩
  | popReadTail head => exact Front.of_rely hr rfl h
  | popReadNext head tail => exact ⟨h.1.of_rely hr rfl, fun ht ↦ (h.2 ht).of_rely hr rfl h.1⟩
  | popCheck head tail next =>
    refine ⟨h.1.of_rely hr rfl, h.2.1.of_rely hr rfl, fun ht ↦ ?_⟩
    exact ⟨(h.2.2 ht).1.of_rely hr rfl h.1, fun hx ↦ (h.2.2 ht).2 (hr.join head rfl hx)⟩
  | popHelp head next => exact ⟨h.1, h.2.of_rely hr rfl⟩
  | popReadP head next =>
    exact ⟨h.1, h.2.1.of_rely hr rfl, h.2.2.1.of_rely hr rfl h.2.1, h.2.2.2.of_rely hr rfl⟩
  | popTake head next ret =>
    obtain ⟨hne, hfront, hpast, hnext, hret⟩ := h
    refine ⟨hne, hfront.of_rely hr rfl, hpast.of_rely hr rfl hfront, hnext.of_rely hr rfl,
      fun hx ↦ ?_⟩
    have hx' := hr.join head rfl hx
    have hnext' : (q.mem head).next = next := hnext hne hx'
    rw [hr.value next, hret hx']
    rw [← hnext']
    exact hc.next_mem hx' (by rwa [hnext'])

theorem Chain.of_eq (h : Chain q l) (hmem : q'.mem = q.mem) (halloc : q'.allocated = q.allocated)
    (hhead : q'.head = q.head) (htail : q'.tail = q.tail) : Chain q' l where
  path := by
    rw [hmem, hhead]
    exact h.path
  zero := h.zero
  nodup := h.nodup
  allocated := by
    rw [halloc]
    exact h.allocated
  tail := by
    rw [htail]
    exact h.tail

theorem Rely.of_eq (h : Inv q l) (hmem : q'.mem = q.mem) (halloc : q'.allocated = q.allocated)
    (hhead : q'.head = q.head) (htail : q'.tail = q.tail) (i : I) : Rely q q' l l (q.pc i) where
  owns a ha := ⟨by rw [hmem], by rw [halloc], (h.owns i a ha).2.1⟩
  join _ _ hx := hx
  used x _ hx := by
    refine ⟨?_, ?_⟩
    · rw [hmem]
      exact hx.1
    · rw [htail]
      exact hx.2
  link _ _ _ _ := by rw [hmem]
  front _ _ _ hx := by rwa [hhead]
  past _ _ _ _ hx := by rwa [htail]
  value _ _ := by rw [hmem]

theorem Inv.move {i : I} (h : Inv q l) (hpc : ∀ j ≠ i, q'.pc j = q.pc j) (hchain : Chain q' l')
    (hrely : ∀ j ≠ i, Rely q q' l l' (q.pc j)) (howns : ∀ a, (q'.pc i).Owns a →
      a ≠ 0 ∧ a ∉ l' ∧ q'.allocated a = true ∧ ∀ j ≠ i, ¬ (q.pc j).Owns a)
    (hpriv : ∀ a, (q'.pc i).priv = some a →
      (q'.pc i).hazard ≠ some a ∧ ∀ j ≠ i, (q.pc j).hazard ≠ some a)
    (hhazard : ∀ x, (q'.pc i).hazard = some x → ∀ j ≠ i, (q.pc j).priv ≠ some x)
    (hok : Ok q' l' (q'.pc i)) : Inv q' l' := by
  have howner : UniqueOwner fun j ↦ (q.pc j).Owns := h.owner
  have howner' : UniqueOwner fun j ↦ (q'.pc j).Owns := by
    refine howner.move (i := i) (fun j hji a ha ↦ ?_) fun a ha ↦ (howns a ha).2.2.2
    rwa [hpc j hji] at ha
  refine ⟨hchain, fun j a hj ↦ ?_, howner', fun j k a hj hk ↦ ?_, fun j ↦ ?_⟩
  · by_cases hji : j = i
    · subst hji
      obtain ⟨h0, hl, ha, -⟩ := howns a hj
      exact ⟨h0, hl, ha⟩
    · rw [hpc j hji] at hj
      obtain ⟨h0, -, ha⟩ := h.owns j a hj
      obtain ⟨-, ha', hl⟩ := (hrely j hji).owns a hj
      exact ⟨h0, hl, ha'.trans ha⟩
  · by_cases hji : j = i
    · subst hji
      by_cases hki : k = j
      · subst hki
        exact (hpriv a hj).1 hk
      · rw [hpc k hki] at hk
        exact (hpriv a hj).2 k hki hk
    · rw [hpc j hji] at hj
      by_cases hki : k = i
      · subst hki
        exact hhazard a hk j hji hj
      · rw [hpc k hki] at hk
        exact h.priv j k a hj hk
  · by_cases hji : j = i
    · subst hji
      exact hok
    · rw [hpc j hji]
      exact (h.ok j).rely h.chain (hrely j hji)

variable [DecidableEq I] {i : I}

theorem Inv.step (h : Inv q l) (hq' : q'.pc = Function.update q.pc i pc) (hchain : Chain q' l')
    (hrely : ∀ j ≠ i, Rely q q' l l' (q.pc j)) (hpriv : ∀ a, pc.priv = some a →
      (q.pc i).priv = some a ∧ q'.allocated a = q.allocated a ∧ l' = l) (hpopped : pc.popped = none)
    (hhazard : ∀ x, pc.hazard = some x → (q.pc i).hazard = some x ∨ x ∈ l) (hok : Ok q' l' pc) :
    Inv q' l' := by
  have hself : q'.pc i = pc := by simp [hq']
  have hother : ∀ j ≠ i, q'.pc j = q.pc j := fun j hj ↦ by simp [hq', hj]
  refine h.move hother hchain hrely ?_ ?_ ?_ (by rwa [hself])
  · intro a ha
    rw [hself, Pc.Owns, hpopped] at ha
    obtain ⟨hi, halloc', hl'⟩ := hpriv a (ha.resolve_right (by simp))
    obtain ⟨h0, hl, halloc⟩ := h.owns i a (.inl hi)
    exact ⟨h0, by rwa [hl'], halloc'.trans halloc, fun j hj ha' ↦ hj (h.owner j i a ha' (.inl hi))⟩
  · intro a ha
    rw [hself] at ha ⊢
    have hi := (hpriv a ha).1
    refine ⟨fun hx ↦ ?_, fun j _ ↦ h.priv i j a hi⟩
    rcases hhazard a hx with hx | hx
    · exact h.priv i i a hi hx
    · exact (h.owns i a (.inl hi)).2.1 hx
  · intro x hx j _ hj
    rw [hself] at hx
    rcases hhazard x hx with hx | hx
    · exact h.priv j i x hj hx
    · exact (h.owns j x (.inl hj)).2.1 hx

theorem Inv.goto (h : Inv q l) (hq' : q'.pc = Function.update q.pc i pc) (hmem : q'.mem = q.mem)
    (halloc : q'.allocated = q.allocated) (hhead : q'.head = q.head) (htail : q'.tail = q.tail)
    (hpriv : ∀ a, pc.priv = some a → (q.pc i).priv = some a) (hpopped : pc.popped = none)
    (hhazard : ∀ x, pc.hazard = some x → (q.pc i).hazard = some x ∨ x ∈ l) (hok : Ok q' l pc) :
    Inv q' l :=
  h.step hq' (h.chain.of_eq hmem halloc hhead htail)
    (fun j _ ↦ .of_eq h hmem halloc hhead htail j)
    (fun a ha ↦ ⟨hpriv a ha, by rw [halloc], rfl⟩) hpopped hhazard hok

omit [Zero A] [DecidableEq I] in
theorem last_notMem {k k' m : List A} (hnd : l.Nodup) (hlast : l = k' ++ [y])
    (heq : l = k ++ x :: m) : y ∉ k := by
  have hmem : y ∈ x :: m := by
    refine mem_of_getLast? ?_
    rw [← getLast?_append_cons k, ← heq, hlast, getLast?_concat]
  intro hk
  rw [heq] at hnd
  exact disjoint_of_nodup_append hnd hk hmem

omit [DecidableEq I] in
theorem Chain.eq_append_tail (h : Chain q l) (hne : (q.mem q.tail).next ≠ 0) :
    ∃ k, l = k ++ [q.tail, (q.mem q.tail).next] := by
  obtain ⟨k, hk | ⟨z, hk⟩⟩ := h.tail
  · have hp := h.path
    rw [hk, linkPath_snoc] at hp
    exact absurd hp.2 hne
  · have hp := h.path
    rw [hk] at hp
    exact ⟨k, by rw [hk, hp.after.head]⟩

theorem Inv.casTail [DecidableEq A] (h : Inv q l) (hy : y ≠ 0) (hnext : Next q l x y)
    (hpriv : ∀ a, pc.priv = some a → (q.pc i).priv = some a) (hpopped : pc.popped = none)
    (hhazard : pc.hazard = none) (hok : ∀ q' : Queue I A V, q'.mem = q.mem → Ok q' l pc) :
    Inv ((q.casTail x y).goto i pc) l := by
  rw [Queue.casTail]
  split
  · next htail =>
    subst htail
    have hlink : (q.mem q.tail).next = y := hnext hy h.chain.tail_mem
    obtain ⟨k, hk⟩ := h.chain.eq_append_tail (by rwa [hlink])
    rw [hlink] at hk
    have hlast : l = (k ++ [q.tail]) ++ [y] := by simp [hk]
    refine h.step rfl ⟨h.chain.path, h.chain.zero, h.chain.nodup, h.chain.allocated, ?_⟩
      (fun j hj ↦ ?_) (fun a ha ↦ ⟨hpriv a ha, rfl, rfl⟩) hpopped (by simp [hhazard]) (hok _ rfl)
    · exact ⟨k ++ [q.tail], .inl hlast⟩
    · have hrefl : Rely q q l l (q.pc j) := .of_eq h rfl rfl rfl rfl j
      refine ⟨hrefl.owns, hrefl.join, fun z _ hz ↦ ⟨hz.1, fun k' m hm ↦ ?_⟩, hrefl.link,
        hrefl.front, fun z _ hz hfront _ ↦ ?_, hrefl.value⟩
      · exact last_notMem h.chain.nodup hlast hm
      · intro hyz
        have hyz : y = z := hyz
        obtain ⟨m, hm⟩ := h.chain.eq_cons
        have hnd := h.chain.nodup
        rw [hlast, nodup_append] at hnd
        have hmem : z ∈ k ++ [q.tail] := by
          have hhead := congrArg head? (hlast.symm.trans hm)
          cases k with
          | nil => simpa [hfront, eq_comm] using hhead
          | cons a k => simp at hhead; simp [hhead, hfront]
        exact hnd.2.2 z hmem y (by simp) hyz.symm
  · exact h.goto rfl rfl rfl rfl rfl hpriv hpopped (by simp [hhazard]) (hok _ rfl)

end ForgeOS.Queue
