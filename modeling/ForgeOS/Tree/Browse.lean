import ForgeOS.Tree.Walk

/-!
# Searching a tree that is being iterated over

`tree_delete` leaves a node in the tree if an iterator stands on it and marks it.  Neither
`tree_search` nor `tree_insert` looks at the mark.

The main result is `treeSearch_of_settled`.
-/

namespace ForgeOS.Tree

open BinaryTree Function List Option

variable {K V : Type} {cmp : K → K → ℤ} {notFound : V} {s : Tree K V} {t : Shape K V}
variable {c : List (Frame (Cell K V))} {d : Side} {n : Ptr} {x : Cell K V} {l r : Shape K V}

structure SameNodes (t u : Shape K V) : Prop where
  bindings : bindings (cores u) = bindings (cores t)
  addrs : addrs u = addrs t
  delete : (cores u).map Cell.delete = (cores t).map Cell.delete

theorem SameNodes.refl (t : Shape K V) : SameNodes t t := ⟨rfl, rfl, rfl⟩

variable {u : Shape K V} {s' : Tree K V}

theorem Stores.of_counts {f : Cell K V → Cell K V} (h : Stores cmp notFound s t) (hf : OnlyCounts f)
    (hu : Revised s s' t u f) : Stores cmp notFound s' u ∧ SameNodes t u := by
  obtain ⟨hst, hbindings⟩ := h.of_revised hf.toKeepsEntries hu
  refine ⟨hst, hbindings, hu.addrs hf.toKeepsEntries, ?_⟩
  rw [hu.cores, List.map_map]
  exact List.map_congr_left fun y _ ↦ hf.delete y

theorem Stores.setRefcount (h : Stores cmp notFound s t) (hn : n ∈ addrs t) (g : ℕ → ℕ) :
    ∃ s' u, s.modify n (fun nd ↦ { nd with refcount := g nd.refcount }) = some s' ∧
      Stores cmp notFound s' u ∧ SameNodes t u := by
  obtain ⟨s', u, hs', hu⟩ := h.at_.setRefcount hn g
  exact ⟨s', u, hs', h.of_counts (onlyCounts_withCount n g) hu⟩

theorem SameNodes.contents [DecidableEq K] (h : SameNodes t u) : contents u = contents t := by
  rw [Tree.contents, Tree.contents, h.bindings]

def Unmarked (t : Shape K V) : Prop := ∀ x ∈ cores t, x.delete = false

theorem SameNodes.unmarked (h : SameNodes t u) (ht : Unmarked t) : Unmarked u := by
  intro x hx
  have hmem : x.delete ∈ (cores u).map Cell.delete := mem_map_of_mem hx
  rw [h.delete] at hmem
  obtain ⟨y, hy, hxy⟩ := mem_map.mp hmem
  rw [← hxy]
  exact ht y hy

theorem Stores.leaveFor_returns (d : Side) (h : Stores cmp notFound s t) (hn : n ∈ addrs t)
    (ht : Unmarked t) :
    ∃ m s' u, (m = 0 ∨ m ∈ addrs t) ∧
      Returns (fun fuel ↦ leaveFor d fuel s n) (m, false, s') ∧ Stores cmp notFound s' u ∧
      SameNodes t u := by
  obtain ⟨m, hm, hneighbour⟩ := h.at_.neighbour_returns d hn
  have hkeep : ∀ x ∈ cores t, x.addr = n → x.delete = true → wordDec x.refcount ≠ 0 := by
    intro x hx _ hdelete
    rw [ht x hx] at hdelete
    cases hdelete
  obtain ⟨s', u, hret, hu⟩ := h.at_.leaveFor hn hneighbour hm hkeep
  have hcounts := (onlyCounts_withCount (K := K) (V := V) m wordInc).comp
    (onlyCounts_withCount n wordDec)
  exact ⟨m, s', u, hm, hret, h.of_counts hcounts hu⟩

variable {a : Ptr}

theorem counts_ne_of_modify {f : Node K V → Node K V} (h : s.modify n f = some s')
    (ha : s'.counts a ≠ none) : s.counts a ≠ none := by
  obtain ⟨nd, hnd, heq⟩ := modify_counts h
  by_cases han : a = n
  · subst han
    simp [counts, hnd]
  · rwa [heq, update_of_ne han] at ha

variable {fuel : ℕ}

theorem counts_ne_of_leaveFor {m : Ptr} {freed : Bool}
    (h : leaveFor d fuel s n = some (m, freed, s')) (ha : s'.counts a ≠ none) :
    s.counts a ≠ none := by
  obtain ⟨m', -, h⟩ := bind_eq_some_iff.mp h
  obtain ⟨s1, h1, h⟩ := bind_eq_some_iff.mp h
  obtain ⟨⟨b, s2⟩, h2, h⟩ := bind_eq_some_iff.mp h
  obtain ⟨s3, h3, h⟩ := bind_eq_some_iff.mp h
  cases h
  obtain ⟨-, rfl⟩ := freeNodeIfNeeded_eq h2
  refine counts_ne_of_modify h1 ?_
  unfold stepOnto at h3
  split at h3
  · exact counts_ne_of_modify h3 ha
  · cases h3
    exact ha

variable {xs ys : List (Cell K V)}

theorem addrs_perm_of_middle (ht : cores t = xs ++ ys)
    (hu : cores u = xs ++ x :: ys) : (addrs u).Perm (x.addr :: addrs t) := by
  rw [addrs_eq_map_cores, hu, addrs_eq_map_cores, ht]
  exact perm_middle.map Cell.addr

variable {k : K} {v : V}

theorem owned_insert [DecidableEq V] (h : ∀ b, s.counts b ≠ none → b ∈ addrs t)
    (hs' : treeInsert cmp notFound fuel s a k v = some s') (ht : cores t = xs ++ ys)
    (hu : cores u = xs ++ newCell a k v :: ys) : ∀ b, s'.counts b ≠ none → b ∈ addrs u := by
  intro b hb
  rw [(addrs_perm_of_middle ht hu).mem_iff, mem_cons]
  by_cases hba : b = a
  · exact .inl hba
  · rcases treeInsert_counts hs' with rfl | ⟨-, hcounts⟩
    · exact .inr (h b hb)
    · rw [hcounts, update_of_ne hba] at hb
      exact .inr (h b hb)

theorem owned_delete (h : ∀ b, s.counts b ≠ none → b ∈ addrs t)
    (hcounts : s'.counts = Function.update s.counts x.addr none) (ht : cores t = xs ++ x :: ys)
    (hu : cores u = xs ++ ys) : ∀ b, s'.counts b ≠ none → b ∈ addrs u := by
  intro b hb
  have hbx : b ≠ x.addr := by
    rintro rfl
    rw [hcounts, update_self] at hb
    exact hb rfl
  rw [hcounts, update_of_ne hbx] at hb
  have hbt := h b hb
  rw [(addrs_perm_of_middle hu ht).mem_iff, mem_cons] at hbt
  exact hbt.resolve_left hbx

namespace Iterated

/-- What the operations may rely on: `malloc` returns a non-null pointer to memory that is not in
use, no value is `TREE_NOTFOUND`, a tree is not empty when an iterator is created, and only live
iterators are used. -/
def Allowed (notFound : V) (s : Iterated K V) : Op K V → Prop
  | .insert a _ v => a ≠ 0 ∧ s.tree.heap.read a = none ∧ v ≠ notFound
  | .delete _ => True
  | .iterator i => s.tree.root ≠ 0 ∧ i ≠ 0 ∧ s.its.read i = none
  | .next i | .prev i | .deliterator i => s.its.read i ≠ none

/-- No iterator stands on the node whose key is deleted.  An iterator past the end that is moved
back has come from a node that is still there, and an iterator that is deleted is past an end. -/
def Settled (s : Iterated K V) : Op K V → Prop
  | .delete k => ∀ i it nd, s.its.read i = some it → s.tree.heap.read it.n = some nd → nd.key ≠ k
  | .prev i => ∀ it ∈ s.its.read i, it.n = 0 → s.tree.heap.read it.prev ≠ none
  | .deliterator i => ∀ it ∈ s.its.read i, it.n = 0
  | _ => True

/-- The reference.  Iterators have no effect on it. -/
def mapStep [DecidableEq K] (m : Finmap fun _ : K ↦ V) : Op K V → Finmap fun _ : K ↦ V
  | .insert _ k v => if k ∈ m then m else m.insert k v
  | .delete k => m.erase k
  | .iterator _ | .next _ | .prev _ | .deliterator _ => m

structure Browsed (cmp : K → K → ℤ) (notFound : V) (s : Iterated K V) (t : Shape K V) : Prop where
  stores : Stores cmp notFound s.tree t
  unmarked : Unmarked t
  exact : s.Exact
  owned : ∀ a, s.tree.counts a ≠ none → a ∈ addrs t

variable {s s' : Iterated K V} {u : Shape K V} {i : Ptr} {it : Iterator} {op : Op K V}

theorem Browsed.mem_addrs (h : Browsed cmp notFound s t) (hit : s.its.read i = some it)
    (hn : it.n ≠ 0) : it.n ∈ addrs t :=
  h.owned _ (h.exact.exist i _ (by rw [pos_of_read hit, if_neg hn]))

theorem Browsed.idle (h : Browsed cmp notFound s t) (hset : s.Settled (.delete k)) :
    ∀ x ∈ cores t, x.key = k → x.refcount = 0 := by
  intro x hx hxk
  by_contra hne
  obtain ⟨nd, hnd, hkey, -⟩ := h.stores.at_.read_core hx
  have hcount := h.exact.count _ _ (h.stores.at_.counts_core hx)
  obtain ⟨i, hi⟩ := Set.nonempty_of_ncard_ne_zero (hcount ▸ hne)
  obtain ⟨it, hit, hn⟩ := (pos_eq_some (Heap.ne_zero_of_read hnd)).mp hi
  exact hset i it nd hit (hn ▸ hnd) (hkey.trans hxk)

variable [DecidableEq K] [DecidableEq V]

theorem Browsed.of_same (h : Browsed cmp notFound s t)
    (hret : Returns (fun fuel ↦ s.step cmp notFound fuel op) s') (hdel : s.DeletedAtEnd op)
    (hst : Stores cmp notFound s'.tree u) (hsame : SameNodes t u)
    (hdom : ∀ a, s'.tree.counts a ≠ none → s.tree.counts a ≠ none) :
    Browsed cmp notFound s' u ∧ contents u = contents t := by
  obtain ⟨N, hN⟩ := hret
  refine ⟨⟨hst, hsame.unmarked h.unmarked, exact_step h.exact hdel (hN N le_rfl), fun a ha ↦ ?_⟩,
    hsame.contents⟩
  rw [hsame.addrs]
  exact h.owned a (hdom a ha)

theorem Browsed.insert (hcmp : TotalComparer cmp) (h : Browsed cmp notFound s t)
    (hop : s.Allowed notFound (.insert a k v)) :
    ∃ s' u, Returns (fun fuel ↦ s.step cmp notFound fuel (.insert a k v)) s' ∧
      Browsed cmp notFound s' u ∧ contents u = mapStep (contents t) (.insert a k v) := by
  obtain ⟨ha, hfree, hv⟩ := hop
  by_cases hk : k ∈ contents t
  · exact ⟨s, t, (h.stores.treeInsert_of_mem hcmp hk).map rfl, h, (if_pos hk).symm⟩
  · obtain ⟨tree, u, ⟨N, hN⟩, hst, xs, ys, ht, hu⟩ :=
      h.stores.treeInsert_of_notMem hcmp hk ha hfree hv
    have hret : ∀ fuel ≥ N,
        s.step cmp notFound fuel (.insert a k v) = some { s with tree := tree } :=
        fun fuel hfuel ↦ by
      simp only [step, hN fuel hfuel, map_some]
    have hdel : s.DeletedAtEnd (.insert a k v) := trivial
    refine ⟨{ s with tree := tree }, u, ⟨N, hret⟩, ⟨hst, fun x hx ↦ ?_,
      exact_step h.exact hdel (hret N le_rfl), owned_insert h.owned (hN N le_rfl) ht hu⟩,
      (hst.contents_insert hcmp ht hu).trans (if_neg hk).symm⟩
    rw [hu, perm_middle.mem_iff, mem_cons, ← ht] at hx
    rcases hx with rfl | hx
    · rfl
    · exact h.unmarked x hx

theorem Browsed.delete (hcmp : TotalComparer cmp) (h : Browsed cmp notFound s t)
    (hset : s.Settled (.delete k)) :
    ∃ s' u, Returns (fun fuel ↦ s.step cmp notFound fuel (.delete k)) s' ∧
      Browsed cmp notFound s' u ∧ contents u = mapStep (contents t) (.delete k) := by
  by_cases hk : k ∈ contents t
  · obtain ⟨tree, u, ⟨N, hN⟩, hst, xs, x, ys, rfl, ht, hu, hcounts⟩ :=
      h.stores.treeDelete_of_mem hcmp hk (h.idle hset)
    have hret : ∀ fuel ≥ N,
        s.step cmp notFound fuel (.delete x.key) = some { s with tree := tree } :=
        fun fuel hfuel ↦ by
      simp only [step, hN fuel hfuel, map_some]
    have hdel : s.DeletedAtEnd (.delete x.key) := trivial
    refine ⟨{ s with tree := tree }, u, ⟨N, hret⟩, ⟨hst, fun y hy ↦ h.unmarked y ?_,
      exact_step h.exact hdel (hret N le_rfl), owned_delete h.owned hcounts ht hu⟩,
      h.stores.contents_erase hcmp ht hu⟩
    rw [ht, perm_middle.mem_iff, mem_cons, ← hu]
    exact .inr hy
  · exact ⟨s, t, (h.stores.treeDelete_of_notMem hcmp hk).map rfl, h,
      (Finmap.erase_of_notMem hk).symm⟩

theorem Browsed.iterator (h : Browsed cmp notFound s t) (hop : s.Allowed notFound (.iterator i)) :
    ∃ s' u, Returns (fun fuel ↦ s.step cmp notFound fuel (.iterator i)) s' ∧
      Browsed cmp notFound s' u ∧ contents u = contents t := by
  obtain ⟨hroot, hi, hfree⟩ := hop
  have hptr : s.tree.root = ptr t := h.stores.at_.around
  have ht : t ≠ .nil := by
    rintro rfl
    exact hroot hptr
  obtain ⟨tree, u, htree, hret, hu⟩ := h.stores.at_.treeIterator ht hi hfree
  obtain ⟨hst, hsame⟩ := h.stores.of_counts (onlyCounts_withCount _ wordInc) hu
  have hcall : Returns (fun fuel ↦ s.step cmp notFound fuel (.iterator i))
      ⟨tree, s.its.set i ⟨first t.inorder, 0⟩⟩ := hret
  exact ⟨_, u, hcall, h.of_same hcall trivial hst hsame fun a ↦ counts_ne_of_modify htree⟩

theorem Browsed.next (h : Browsed cmp notFound s t) (hop : s.Allowed notFound (.next i)) :
    ∃ s' u, Returns (fun fuel ↦ s.step cmp notFound fuel (.next i)) s' ∧
      Browsed cmp notFound s' u ∧ contents u = contents t := by
  obtain ⟨it, hit⟩ := ne_none_iff_exists'.mp hop
  by_cases hn : it.n = 0
  · refine ⟨s, t, ⟨0, fun fuel _ ↦ ?_⟩, h, rfl⟩
    simp only [step, treeNext, hit, hn, if_true, bind_eq_bind, bind_some,
      map_some]
  · obtain ⟨m, tree, u, -, ⟨N, hleave⟩, hst, hsame⟩ :=
      h.stores.leaveFor_returns .right (h.mem_addrs hit hn) h.unmarked
    have hret : Returns (fun fuel ↦ s.step cmp notFound fuel (.next i))
        ⟨tree, s.its.set i ⟨m, it.n⟩⟩ := by
      refine ⟨N, fun fuel hfuel ↦ ?_⟩
      simp [step, treeNext, hit, hn, hleave fuel hfuel]
    exact ⟨_, u, hret, h.of_same hret trivial hst hsame fun a ↦
      counts_ne_of_leaveFor (hleave N le_rfl)⟩

theorem Browsed.prev (h : Browsed cmp notFound s t) (hop : s.Allowed notFound (.prev i))
    (hset : s.Settled (.prev i)) :
    ∃ s' u, Returns (fun fuel ↦ s.step cmp notFound fuel (.prev i)) s' ∧
      Browsed cmp notFound s' u ∧ contents u = contents t := by
  obtain ⟨it, hit⟩ := ne_none_iff_exists'.mp hop
  by_cases hn : it.n = 0
  · have hprev : it.prev ∈ addrs t := by
      refine h.owned _ fun hnone ↦ hset it hit hn ?_
      rwa [counts, map_eq_none_iff] at hnone
    obtain ⟨tree, u, htree, hst, hsame⟩ := h.stores.setRefcount hprev wordInc
    have htree' : s.tree.retain it.prev = some tree := htree
    have hret : Returns (fun fuel ↦ s.step cmp notFound fuel (.prev i))
        ⟨tree, s.its.set i ⟨it.prev, it.prev⟩⟩ := by
      refine ⟨0, fun fuel _ ↦ ?_⟩
      simp [step, treePrev, hit, hn, htree']
    exact ⟨_, u, hret, h.of_same hret trivial hst hsame fun a ↦ counts_ne_of_modify htree⟩
  · obtain ⟨m, tree, u, -, ⟨N, hleave⟩, hst, hsame⟩ :=
      h.stores.leaveFor_returns .left (h.mem_addrs hit hn) h.unmarked
    have hret : Returns (fun fuel ↦ s.step cmp notFound fuel (.prev i))
        ⟨tree, s.its.set i ⟨m, if m ≠ 0 then it.n else it.prev⟩⟩ := by
      refine ⟨N, fun fuel hfuel ↦ ?_⟩
      simp [step, treePrev, hit, hn, hleave fuel hfuel]
    exact ⟨_, u, hret, h.of_same hret trivial hst hsame fun a ↦
      counts_ne_of_leaveFor (hleave N le_rfl)⟩

theorem Browsed.deliterator (h : Browsed cmp notFound s t)
    (hop : s.Allowed notFound (.deliterator i)) (hset : s.Settled (.deliterator i)) :
    ∃ s' u, Returns (fun fuel ↦ s.step cmp notFound fuel (.deliterator i)) s' ∧
      Browsed cmp notFound s' u ∧ contents u = contents t := by
  obtain ⟨it, hit⟩ := ne_none_iff_exists'.mp hop
  have hret : Returns (fun fuel ↦ s.step cmp notFound fuel (.deliterator i))
      { s with its := s.its.erase i } := by
    refine ⟨0, fun fuel _ ↦ ?_⟩
    simp only [step, treeDeliterator, if_neg (Heap.ne_zero_of_read hit), Heap.free_eq hit,
      map_some]
  exact ⟨_, t, hret, h.of_same hret hset h.stores (.refl t) fun _ ha ↦ ha⟩

theorem Browsed.step (hcmp : TotalComparer cmp) (h : Browsed cmp notFound s t)
    (hop : s.Allowed notFound op) (hset : s.Settled op) :
    ∃ s' u, Returns (fun fuel ↦ s.step cmp notFound fuel op) s' ∧ Browsed cmp notFound s' u ∧
      contents u = mapStep (contents t) op := by
  cases op with
  | insert a k v => exact h.insert hcmp hop
  | delete k => exact h.delete hcmp hset
  | iterator i => exact h.iterator hop
  | next i => exact h.next hop
  | prev i => exact h.prev hop hset
  | deliterator i => exact h.deliterator hop hset

omit [DecidableEq K] [DecidableEq V] in
theorem browsed_new : Browsed cmp notFound (new 0 : Iterated K V) .nil where
  stores := stores_empty rfl rfl
  unmarked x hx := by simp [cores] at hx
  exact := exact_new 0
  owned a ha := by simp [new, counts] at ha

/-- **Searching a tree with iterators** finds what the reference has, if no key is deleted while an
iterator stands on its node and no iterator goes back to a node that has been removed. -/
theorem treeSearch_of_settled (hcmp : TotalComparer cmp) (ops : List (Op K V)) :
    ∃ N, ∀ fuel ≥ N, Run.Guarded (Iterated.step cmp notFound fuel)
        (fun s op ↦ s.Allowed notFound op ∧ s.Settled op) (new 0) ops →
      ∃ s', Run.exec (Iterated.step cmp notFound fuel) (new 0) ops = some s' ∧
        ∀ k, treeSearch cmp notFound fuel s'.tree k =
          some (((ops.foldl mapStep ∅).lookup k).getD notFound) := by
  have hstep : ∀ (s : Iterated K V) m op, (∃ t, Browsed cmp notFound s t ∧ contents t = m) →
      s.Allowed notFound op ∧ s.Settled op →
      ∃ s', Returns (fun fuel ↦ s.step cmp notFound fuel op) s' ∧
        ∃ t, Browsed cmp notFound s' t ∧ contents t = mapStep m op := by
    rintro s m op ⟨t, h, rfl⟩ ⟨hop, hset⟩
    obtain ⟨s', u, hret, h', hcont⟩ := h.step hcmp hop hset
    exact ⟨s', hret, u, h', hcont⟩
  have hinit : ∃ t, Browsed cmp notFound (new 0 : Iterated K V) t ∧ contents t = ∅ :=
    ⟨.nil, browsed_new, rfl⟩
  rcases Run.returns_of_guarded hstep hinit ops with ⟨N, hN⟩ | ⟨s', ⟨N, hN⟩, t, h, hcont⟩
  · exact ⟨N, fun fuel hfuel hg ↦ absurd hg (hN fuel hfuel)⟩
  · refine ⟨max N (t.height + 1), fun fuel hfuel _ ↦ ⟨s', hN fuel (by omega), fun k ↦ ?_⟩⟩
    rw [h.stores.treeSearch hcmp k (by omega), hcont]

/-- An iterator goes past the end of a tree of one node, which is deleted.  The key is inserted
again, in the memory of the old node, and the iterator goes back to it. -/
def thereAndBack : List (Op Ptr Ptr) :=
  [.insert 0x10 5 50, .iterator 0x100, .next 0x100, .delete 5, .insert 0x10 5 99, .prev 0x100]

theorem guarded_thereAndBack (n : ℕ) :
    Run.Guarded (Iterated.step defaultComparer notFoundPtr (n + 8))
      (fun s op ↦ s.Allowed notFoundPtr op ∧ s.Settled op) (new 0) thereAndBack := by
  let h1 : Heap Ptr (Node Ptr Ptr) := Heap.empty.set 0x10 ⟨5, 50, 0, 0, false, 0, 0, 0⟩
  let h2 := h1.set 0x10 ⟨5, 50, 0, 1, false, 0, 0, 0⟩
  let h3 := h2.set 0x10 ⟨5, 50, 0, 0, false, 0, 0, 0⟩
  let h4 := (h3.set 0x10 ⟨5, 50, 0, 0, true, 0, 0, 0⟩).erase 0x10
  let h5 := h4.set 0x10 ⟨5, 99, 0, 0, false, 0, 0, 0⟩
  let i1 : Heap Ptr Iterator := (Heap.empty.set 0x100 ⟨0, 0⟩).set 0x100 ⟨0x10, 0⟩
  let i2 := i1.set 0x100 ⟨0, 0x10⟩
  refine .cons (t := ⟨⟨0x10, 1, h1⟩, Heap.empty⟩) ⟨⟨by decide, rfl, by decide⟩, trivial⟩ rfl ?_
  refine .cons (t := ⟨⟨0x10, 1, h2⟩, i1⟩) ⟨⟨by decide, by decide, rfl⟩, trivial⟩ rfl ?_
  refine .cons (t := ⟨⟨0x10, 1, h3⟩, i2⟩) ⟨some_ne_none _, trivial⟩ rfl ?_
  refine .cons (t := ⟨⟨0, wordDec 1, h4⟩, i2⟩) ⟨trivial, fun i it nd hit hnd ↦ ?_⟩ rfl ?_
  · have hi : i = 0x100 := by
      by_contra hi
      rw [Heap.read_set_of_ne hi, Heap.read_set_of_ne hi, Heap.read_set_of_ne hi] at hit
      cases hit
    subst hi
    obtain rfl := some.inj hit
    cases hnd
  refine .cons (t := ⟨⟨0x10, wordInc (wordDec 1), h5⟩, i2⟩)
    ⟨⟨by decide, rfl, by decide⟩, trivial⟩ rfl ?_
  refine ⟨⟨some_ne_none _, fun it hit _ ↦ ?_⟩, fun t ht ↦ trivial⟩
  obtain rfl := some.inj hit
  exact some_ne_none _

theorem treeSearch_thereAndBack : ∃ N, ∀ fuel ≥ N,
    ∃ s', Run.exec (Iterated.step defaultComparer notFoundPtr fuel) (new 0) thereAndBack = some s' ∧
      treeSearch defaultComparer notFoundPtr fuel s'.tree 5 = some 99 ∧
      treeSearch defaultComparer notFoundPtr fuel s'.tree 7 = some notFoundPtr := by
  obtain ⟨N, hN⟩ := treeSearch_of_settled totalComparer_default thereAndBack
  refine ⟨N + 8, fun fuel hfuel ↦ ?_⟩
  obtain ⟨n, rfl⟩ : ∃ n, fuel = n + 8 := ⟨fuel - 8, by omega⟩
  obtain ⟨s', hexec, hsearch⟩ := hN (n + 8) (by omega) (guarded_thereAndBack n)
  exact ⟨s', hexec, (hsearch 5).trans (by decide), (hsearch 7).trans (by decide)⟩

def stoodOn : List (Op Ptr Ptr) := [.insert 0x10 5 50, .iterator 0x100, .delete 5]

def insertedAgain : List (Op Ptr Ptr) := stoodOn ++ [Op.insert 0x20 5 99]

/-- **A deletion that is put off is not seen**: the old value is found, even after a new
insertion. -/
theorem not_treeSearch_stoodOn :
    (∃ s', Run.exec (Iterated.step defaultComparer notFoundPtr 8) (new 0) stoodOn = some s' ∧
      treeSearch defaultComparer notFoundPtr 8 s'.tree 5 = some 50 ∧
      (stoodOn.foldl mapStep ∅).lookup 5 = none) ∧
    ∃ s', Run.exec (Iterated.step defaultComparer notFoundPtr 8) (new 0) insertedAgain = some s' ∧
      treeSearch defaultComparer notFoundPtr 8 s'.tree 5 = some 50 ∧
      (insertedAgain.foldl mapStep ∅).lookup 5 = some 99 :=
  ⟨⟨_, rfl, by decide, by decide⟩, ⟨_, rfl, by decide, by decide⟩⟩

end Iterated
end ForgeOS.Tree
