import ForgeOS.Tree.Walk

/-!
# The length of the tree

`create_tree_cmp` leaves the length as `malloc` found it.  The operations add one and subtract one,
so a later insertion may bring it to 0, and then the tree is taken for empty.

The main result is `counted_iff`.
-/

namespace ForgeOS.Tree

open BinaryTree List Option

variable {K V : Type}

/-- `create_tree_cmp`, when the memory that `malloc` returns has `len` for the length. -/
def createTreeCmp (len : UInt32) : Tree K V := ⟨0, len.toNat, Heap.empty⟩

def Fresh (s : Tree K V) : Op K V → Prop
  | .insert a _ _ => a ≠ 0 ∧ s.heap.read a = none
  | .delete _ => True

structure Counted (cmp : K → K → ℤ) (s : Tree K V) : Prop where
  len : ∃ ks, Returns (fun fuel ↦ walk fuel s s.root) ks ∧ s.len = ks.length
  seen : ∀ k fuel n, find cmp fuel s k s.root = some n → n ≠ 0 → s.len ≠ 0

structure Formed (s : Tree K V) (t : Shape K V) : Prop where
  at_ : At s [] t
  below : ExactBelow t
  idle : ∀ x ∈ cores t, x.refcount = 0

variable {cmp : K → K → ℤ} {notFound : V} {s s' : Tree K V} {t u : Shape K V}

theorem Formed.counted (h : Formed s t) (hlen : s.len = (cores t).length) : Counted cmp s := by
  have hroot : s.root = ptr t := h.at_.around
  refine ⟨⟨t.inorder.map Cell.key, ⟨t.height + 1, fun fuel hfuel ↦ ?_⟩, ?_⟩, ?_⟩
  · show walk fuel s s.root = _
    rw [hroot]
    exact h.at_.rep.walk hfuel
  · rw [hlen, cores, length_map, length_map]
  · intro k fuel n hfind hn hzero
    cases fuel with
    | zero => cases hfind
    | succ fuel =>
      have hnil : t = .nil := by
        rw [hlen, length_eq_zero_iff, cores, map_eq_nil_iff] at hzero
        cases t with
        | nil => rfl
        | node x l r => simp at hzero
      rw [hroot, hnil] at hfind
      exact hn (some.inj hfind).symm

/-- What a call does to the length, and what it does to the nodes. -/
structure Tallied (s s' : Tree K V) (t u : Shape K V) : Prop where
  formed : Formed s' u
  len : s.len = (cores t).length → s'.len = (cores u).length

theorem Formed.tallied_refl (h : Formed s t) : Tallied s s t t := ⟨h, id⟩

variable [DecidableEq V]

theorem Formed.insert (h : Formed s t) {a : Ptr} (ha : a ≠ 0) (hfree : s.heap.read a = none) (k : K)
    (v : V) :
    ∃ s' u, Returns (fun fuel ↦ treeInsert cmp notFound fuel s a k v) s' ∧ Tallied s s' t u := by
  obtain ⟨found, hsearch⟩ := h.at_.treeSearch_returns cmp notFound k
  by_cases hfound : found = notFound
  swap
  · refine ⟨s, t, ?_, h.tallied_refl⟩
    exact hsearch.bind ⟨0, fun fuel _ ↦ if_pos hfound⟩
  subst hfound
  obtain ⟨s', u, c, hret, hat, hbelow, hlen, hplug, -, hcores, -⟩ :=
    h.at_.treeInsert_of_unfound (v := v) h.below hsearch ha hfree
  rw [cores_plug_node] at hcores
  simp only [inorder_nil, append_nil, nil_append] at hcores
  have ht : cores t = (before c).map Cell.core ++ (after c).map Cell.core := by
    rw [← hplug, cores_plug_nil]
  refine ⟨s', u, hret, ⟨hat, hbelow, fun x hx ↦ ?_⟩, fun hcount ↦ ?_⟩
  · rw [hcores, perm_middle.mem_iff, mem_cons, ← ht] at hx
    rcases hx with rfl | hx
    · rfl
    · exact h.idle x hx
  · have hlt := hat.length_lt
    rw [hcores, perm_middle.length_eq, length_cons, ← ht] at hlt ⊢
    rw [hlen, hcount, wordInc_of_lt hlt]

theorem Formed.delete (h : Formed s t) (k : K) :
    ∃ s' u, Returns (fun fuel ↦ treeDelete cmp notFound fuel s k) s' ∧ Tallied s s' t u := by
  have hroot : s.root = ptr t := h.at_.around
  by_cases hlen : s.len = 0
  · exact ⟨s, t, ⟨0, fun fuel _ ↦ if_pos hlen⟩, h.tallied_refl⟩
  obtain ⟨p, hfind, hp⟩ := h.at_.find_returns cmp k
  rcases hp with rfl | hp
  · refine ⟨s, t, ⟨t.height + 1, fun fuel hfuel ↦ ?_⟩, h.tallied_refl⟩
    simp only [treeDelete, treeSearch, if_neg hlen, hroot, hfind fuel hfuel, bind_eq_bind, bind_some,
      if_true]
  obtain ⟨c, x, l, r, rfl, hat, hplug⟩ := h.at_.place hp
  rw [plug_nil] at hplug
  by_cases hval : x.val = notFound
  · refine ⟨s, t, ⟨t.height + 1, fun fuel hfuel ↦ ?_⟩, h.tallied_refl⟩
    exact hat.treeDelete_of_unseen (hroot ▸ hfind fuel hfuel) (.inr hval)
  have ht : cores t = (before c ++ l.inorder).map Cell.core ++
      x.core :: (r.inorder ++ after c).map Cell.core := by
    rw [← hplug, cores_plug_node]
  have hidle : x.refcount = 0 := h.idle x.core (by rw [ht]; simp)
  obtain ⟨s', u, hret, hat', hbelow', hlen', hcores, -⟩ :=
    hat.treeDelete hplug h.below hroot hfind hlen hval hidle
  refine ⟨s', u, hret, ⟨hat', hbelow', fun y hy ↦ h.idle y ?_⟩, fun hcount ↦ ?_⟩
  · rw [ht, perm_middle.mem_iff, mem_cons, ← hcores]
    exact .inr hy
  · have hlt := h.at_.length_lt
    rw [ht, perm_middle.length_eq, length_cons, ← hcores] at hcount hlt
    rw [hlen', hcount, wordDec_of_pos (Nat.succ_pos _) hlt]
    rfl

theorem Formed.step (h : Formed s t) {op : Op K V} (hop : Fresh s op) :
    ∃ s' u, Returns (fun fuel ↦ step cmp notFound fuel s op) s' ∧ Tallied s s' t u := by
  cases op with
  | insert a k v => exact h.insert hop.1 hop.2 k v
  | delete k => exact h.delete k

/-- **The length counts the nodes** in every state exactly if `malloc` has returned memory with a 0
in its place. -/
theorem counted_iff (cmp : K → K → ℤ) (notFound : V) (len : UInt32) :
    (∀ ops, ∃ N, ∀ fuel ≥ N,
      Run.Guarded (step cmp notFound fuel) Fresh (createTreeCmp len) ops →
        ∃ s, Run.exec (step cmp notFound fuel) (createTreeCmp len) ops = some s ∧ Counted cmp s) ↔
      len = 0 := by
  constructor
  · intro h
    obtain ⟨N, hN⟩ := h []
    obtain ⟨s, hs, hcounted⟩ := hN N le_rfl trivial
    obtain rfl := some.inj hs
    obtain ⟨ks, hwalk, hlen⟩ := hcounted.len
    have hnil : Returns (fun fuel ↦ walk fuel (createTreeCmp len : Tree K V) 0) [] :=
      ⟨1, fun fuel hfuel ↦ by obtain ⟨n, rfl⟩ := Nat.exists_eq_add_of_le' hfuel; rfl⟩
    rw [← hnil.unique hwalk] at hlen
    exact UInt32.toNat_inj.mp hlen
  · rintro rfl ops
    have hinit : ∃ t, Formed (createTreeCmp 0 : Tree K V) t ∧
        (createTreeCmp 0 : Tree K V).len = (cores t).length :=
      ⟨.nil, ⟨⟨trivial, rfl, by simp [addrs, addrsAround, BinaryTree.around]⟩, trivial,
        by simp [cores]⟩, rfl⟩
    have hstep : ∀ (s : Tree K V) op, (∃ t, Formed s t ∧ s.len = (cores t).length) → Fresh s op →
        ∃ s', Returns (fun fuel ↦ step cmp notFound fuel s op) s' ∧
          ∃ u, Formed s' u ∧ s'.len = (cores u).length := by
      rintro s op ⟨t, ht, hlen⟩ hop
      obtain ⟨s', u, hret, htallied⟩ := ht.step hop
      exact ⟨s', hret, u, htallied.formed, htallied.len hlen⟩
    rcases Run.returns_of_inv hstep hinit ops with ⟨N, hN⟩ | ⟨s, ⟨N, hN⟩, t, ht, hlen⟩
    · exact ⟨N, fun fuel hfuel hg ↦ absurd hg (hN fuel hfuel)⟩
    · exact ⟨N, fun fuel hfuel _ ↦ ⟨s, hN fuel hfuel, ht.counted hlen⟩⟩

/-- **The only key of the tree is not found**: its insertion has brought the length to 0. -/
theorem not_counted_wrapped : ∃ s,
    Run.exec (step defaultComparer notFoundPtr 8) (createTreeCmp 0xFFFFFFFF) [.insert 0x10 5 50] =
      some s ∧ s.len = 0 ∧ walk 8 s s.root = some [5] ∧
      treeSearch defaultComparer notFoundPtr 8 s 5 = some notFoundPtr ∧
      treeDelete defaultComparer notFoundPtr 8 s 5 = some s ∧ ¬ Counted defaultComparer s := by
  refine ⟨_, rfl, rfl, rfl, rfl, rfl, fun h ↦ ?_⟩
  exact h.seen 5 8 0x10 rfl (by decide) rfl

end ForgeOS.Tree
