import Mathlib.Order.WellFoundedSet

/-!
# Trees given by their edges

A relation between nodes and their children is a tree, seen from its root, if no node has two
parents and the root has none: `Arbor`.
-/

universe u

open Relation

/-- Seen from the root, every node has at most one parent and the root has none. -/
structure Arbor {ν : Type u} (root : ν) (Child : ν → ν → Prop) : Prop where
  unique : ∀ n m c, ReflTransGen Child root n → ReflTransGen Child root m → Child n c →
    Child m c → n = m
  top : ∀ n, ReflTransGen Child root n → ¬ Child n root

namespace Arbor

variable {ν : Type u} {root n m c : ν} {Child : ν → ν → Prop}

/-- **There are no cycles**: a cycle through a node is also one through its parent, and so on up to
the root. -/
theorem acyclic (h : Arbor root Child) (hn : ReflTransGen Child root n) : ¬ TransGen Child n n := by
  induction hn with
  | refl =>
    intro hcycle
    obtain ⟨m, hm, hedge⟩ := TransGen.tail'_iff.mp hcycle
    exact h.top m hm hedge
  | @tail n c hn hc ih =>
    intro hcycle
    obtain ⟨m, hm, hedge⟩ := TransGen.tail'_iff.mp hcycle
    obtain rfl := h.unique m n c ((hn.tail hc).trans hm) hn hedge hc
    exact ih (TransGen.head' hc hm)

theorem not_above (h : Arbor root Child) (hn : ReflTransGen Child root n) (hc : Child n c) :
    ¬ ReflTransGen Child c n :=
  fun habove ↦ h.acyclic hn (TransGen.head' hc habove)

/-- **Induction from the leaves.** -/
theorem induction (h : Arbor root Child) {N : Set ν} (hfin : N.Finite)
    (hN : ∀ n, ReflTransGen Child root n → n ∈ N) {P : ν → Prop}
    (hP : ∀ n, ReflTransGen Child root n → (∀ c, Child n c → P c) → P n)
    (hn : ReflTransGen Child root n) : P n := by
  -- Among the finitely many nodes, "above" is a strict order.
  let above : N → N → Prop := fun m n ↦
    ReflTransGen Child root n.1 ∧ TransGen Child n.1 m.1
  have : Finite N := hfin
  have : IsTrans N above := ⟨fun _ _ _ hab hbc ↦ ⟨hbc.1, hbc.2.trans hab.2⟩⟩
  have : Std.Irrefl above := ⟨fun n hself ↦ h.acyclic hself.1 hself.2⟩
  have hwf : WellFounded above := Finite.wellFounded_of_trans_of_irrefl above
  suffices hall : ∀ x : N, ReflTransGen Child root x.1 → P x.1 from hall ⟨n, hN n hn⟩ hn
  intro x
  induction x using hwf.induction with
  | _ x ih =>
    intro hx
    refine hP x.1 hx fun c hc ↦ ?_
    exact ih ⟨c, hN c (hx.tail hc)⟩ ⟨hx, .single hc⟩ (hx.tail hc)

end Arbor
