import ForgeOS.Lib.Agents
import ForgeOS.Stack.Model

/-!
# When the stack does not return a value twice

`stack_pop` has read the link it puts in for the new head from the node that was the head at its
*second* read of `s->head`.
-/

namespace ForgeOS.Stack

variable {I A V : Type} [Zero A]

structure Chain (s : Stack I A V) (l : List A) : Prop where
  path : LinkPath (fun a ↦ (s.mem a).next) s.head l 0
  zero : 0 ∉ l
  nodup : l.Nodup
  allocated : ∀ a ∈ l, s.allocated a = true

def contents (s : Stack I A V) (l : List A) : List V := l.map fun a ↦ (s.mem a).p

def Pc.priv : Pc A V → Option A
  | .pushSetP _ n | .pushLink _ n | .pushSetNext _ n => some n
  | _ => none

def Pc.popped : Pc A V → Option A
  | .popReadP top | .popFree top _ => some top
  | _ => none

def Pc.Owns (pc : Pc A V) (a : A) : Prop := pc.priv = some a ∨ pc.popped = some a

def Ok (s : Stack I A V) (l : List A) : Pc A V → Prop
  | .pushLink data n | .pushSetNext data n => (s.mem n).p = data
  | .popReadNext top head => (top = 0 → head = 0) ∧ (top ∈ l → head = top)
  | .popTake top next => top ≠ 0 ∧ (top ∈ l → (s.mem top).next = next)
  | _ => True

structure Inv (s : Stack I A V) (l : List A) : Prop where
  chain : Chain s l
  owns : ∀ i a, (s.pc i).Owns a → a ≠ 0 ∧ a ∉ l ∧ s.allocated a = true
  owner : UniqueOwner fun i ↦ (s.pc i).Owns
  /-- A node that is not linked yet is not known to anyone else. -/
  priv : ∀ i j a, (s.pc i).priv = some a → (s.pc j).hazard ≠ some a
  ok : ∀ i, Ok s l (s.pc i)

/-- What an agent may see others do to the nodes it uses. -/
structure Rely (s s' : Stack I A V) (l l' : List A) (pc : Pc A V) : Prop where
  owns : ∀ a, pc.Owns a → s'.mem a = s.mem a ∧ s'.allocated a = s.allocated a ∧ a ∉ l'
  join : ∀ x, pc.hazard = some x → x ∈ l' → x ∈ l
  link : ∀ x ∈ l', x ∈ l → (s'.mem x).next = (s.mem x).next

def Pc.carries (mem : A → Node A V) : Pc A V → Option V
  | .pushMalloc data | .pushSetP data _ | .pushLink data _ | .pushSetNext data _ => some data
  | .popReadP top => some (mem top).p
  | .popFree _ ret | .popRet ret => some ret
  | _ => none

def Inside (s : Stack I A V) (l : List A) (vs : List V) : Prop :=
  Accounts (fun i ↦ (s.pc i).carries s.mem) (contents s l) vs

variable {s s' : Stack I A V} {l l' : List A} {pc : Pc A V} {x : A}

theorem Ok.rely (hr : Rely s s' l l' pc) (h : Ok s l pc) : Ok s' l' pc := by
  cases pc with
  | pushLink data n =>
    rw [Ok, (hr.owns n (.inl rfl)).1]
    exact h
  | pushSetNext data n =>
    rw [Ok, (hr.owns n (.inl rfl)).1]
    exact h
  | popReadNext top head => exact ⟨h.1, fun hx ↦ h.2 (hr.join top rfl hx)⟩
  | popTake top next =>
    refine ⟨h.1, fun hx ↦ ?_⟩
    have hx' := hr.join top rfl hx
    rw [hr.link top hx hx', h.2 hx']
  | idle | pushMalloc | pushSetP | pushRet | popReadTop | popReadHead | popReadP | popFree | popRet
  | fault => trivial

omit [Zero A] in
theorem carries_of_rely (hr : Rely s s' l l' pc) : pc.carries s'.mem = pc.carries s.mem := by
  cases pc with
  | popReadP top => rw [Pc.carries, Pc.carries, (hr.owns top (.inr rfl)).1]
  | _ => rfl

theorem Inv.move {i : I} (h : Inv s l) (hpc : ∀ j ≠ i, s'.pc j = s.pc j) (hchain : Chain s' l')
    (hrely : ∀ j ≠ i, Rely s s' l l' (s.pc j)) (howns : ∀ a, (s'.pc i).Owns a →
      a ≠ 0 ∧ a ∉ l' ∧ s'.allocated a = true ∧ ∀ j ≠ i, ¬ (s.pc j).Owns a)
    (hpriv : ∀ a, (s'.pc i).priv = some a →
      (s'.pc i).hazard ≠ some a ∧ ∀ j ≠ i, (s.pc j).hazard ≠ some a)
    (hhazard : ∀ x, (s'.pc i).hazard = some x → ∀ j ≠ i, (s.pc j).priv ≠ some x)
    (hok : Ok s' l' (s'.pc i)) : Inv s' l' := by
  refine ⟨hchain, fun j a hj ↦ ?_, h.owner.move (i := i) (fun j hj a ha ↦ ?_)
    (fun a ha ↦ (howns a ha).2.2.2), fun j k a hj hk ↦ ?_, fun j ↦ ?_⟩
  · by_cases hji : j = i
    · subst hji
      obtain ⟨h0, hl, ha, -⟩ := howns a hj
      exact ⟨h0, hl, ha⟩
    · rw [hpc j hji] at hj
      obtain ⟨h0, -, ha⟩ := h.owns j a hj
      obtain ⟨-, ha', hl⟩ := (hrely j hji).owns a hj
      exact ⟨h0, hl, ha'.trans ha⟩
  · rwa [hpc j hj] at ha
  · by_cases hji : j = i
    · subst hji
      by_cases hki : k = j
      · subst hki
        exact (hpriv a hj).1 hk
      · rw [hpc k hki] at hk
        exact (hpriv a hj).2 k hki hk
    · rw [hpc j hji] at hj
      by_cases hki : k = i
      · subst hki
        exact hhazard a hk j hji hj
      · rw [hpc k hki] at hk
        exact h.priv j k a hj hk
  · by_cases hji : j = i
    · subst hji
      exact hok
    · rw [hpc j hji]
      exact (h.ok j).rely (hrely j hji)

variable [DecidableEq I] {i : I}

theorem Inv.step (h : Inv s l) (hs' : s'.pc = Function.update s.pc i pc) (hchain : Chain s' l')
    (hrely : ∀ j ≠ i, Rely s s' l l' (s.pc j))
    (howns : ∀ a, pc.Owns a → (s.pc i).Owns a ∧ s'.allocated a = s.allocated a ∧ a ∉ l')
    (hpriv : ∀ a, pc.priv = some a → (s.pc i).priv = some a)
    (hhazard : ∀ x, pc.hazard = some x → (s.pc i).hazard = some x ∨ x ∈ l ∨ x = 0)
    (hok : Ok s' l' pc) : Inv s' l' := by
  have hself : s'.pc i = pc := by simp [hs']
  have hother : ∀ j ≠ i, s'.pc j = s.pc j := fun j hj ↦ by simp [hs', hj]
  -- A node that is not linked yet is not on the stack, and not null.
  have hpub : ∀ j x, (s.pc j).priv = some x →
      ¬ ((s.pc i).hazard = some x ∨ x ∈ l ∨ x = 0) := by
    rintro j x hj (hx | hx | hx)
    · exact h.priv j i x hj hx
    · exact (h.owns j x (.inl hj)).2.1 hx
    · exact (h.owns j x (.inl hj)).1 hx
  refine h.move hother hchain hrely ?_ ?_ ?_ (by rwa [hself])
  · intro a ha
    rw [hself] at ha
    obtain ⟨hi, halloc', hl'⟩ := howns a ha
    obtain ⟨h0, -, halloc⟩ := h.owns i a hi
    exact ⟨h0, hl', halloc'.trans halloc, fun j hj ha' ↦ hj (h.owner j i a ha' hi)⟩
  · intro a ha
    rw [hself] at ha ⊢
    exact ⟨fun hx ↦ hpub i a (hpriv a ha) (hhazard a hx), fun j _ ↦ h.priv i j a (hpriv a ha)⟩
  · intro x hx j _ hj
    rw [hself] at hx
    exact hpub j x hj (hhazard x hx)

omit [Zero A] in
theorem carries_update (hs' : s'.pc = Function.update s.pc i pc)
    (hrely : ∀ j ≠ i, Rely s s' l l' (s.pc j)) :
    (fun j ↦ (s'.pc j).carries s'.mem) =
      Function.update (fun j ↦ (s.pc j).carries s.mem) i (pc.carries s'.mem) := by
  funext j
  by_cases hj : j = i
  · subst hj
    simp [hs']
  · simp [hs', hj, carries_of_rely (hrely j hj)]

omit [Zero A] in
theorem Inside.move {vs g r : List V} (h : Inside s l vs) (hrely : ∀ j ≠ i, Rely s s' l l' (s.pc j))
    (hs' : s'.pc = Function.update s.pc i pc)
    (hp : (g ++ (((s.pc i).carries s.mem).toList ++ contents s l)).Perm
      (r ++ ((pc.carries s'.mem).toList ++ contents s' l'))) :
    ∃ ws, Inside s' l' ws ∧ (g ++ vs).Perm (r ++ ws) := by
  obtain ⟨ws, hws, hq⟩ := Accounts.move h hp
  rw [← carries_update hs' hrely] at hws
  exact ⟨ws, hws, hq⟩

structure Moves (s : Stack I A V) (lbl : Label I A V) (l : List A) (s' : Stack I A V)
    (l' : List A) : Prop where
  inv : Inv s' l'
  inside : ∀ vs, Inside s l vs →
    ∃ ws, Inside s' l' ws ∧ (given s lbl ++ vs).Perm (returned s lbl ++ ws)

end ForgeOS.Stack
