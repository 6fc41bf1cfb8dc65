import ForgeOS.Lib.Refcount
import ForgeOS.Tree.Counts

/-!
# Iterators and their reference counts

An iterator stands on a node of the tree, or, past one of the ends, on none; it also remembers the
node it came from.  A node counts the iterators that stand on it.

The main result is `countsExact_of_deletedAtEnd`.
-/

namespace ForgeOS

open Function Option Heap

structure Tree.Iterator where
  n : Ptr
  prev : Ptr
  deriving DecidableEq

structure Tree.Iterated (K V : Type) where
  tree : Tree K V
  its : Heap Ptr Tree.Iterator

namespace Tree

variable {K V : Type}

/-- A new tree, with no iterators.  `create_tree_cmp` leaves the length as `malloc` found it. -/
def Iterated.new (len : ℕ) : Iterated K V := ⟨⟨0, len, Heap.empty⟩, Heap.empty⟩

/-- `while(n->left) n = n->left;`, or the same to the right: the last node on the side `d`. -/
def descend (d : Side) : ℕ → Tree K V → Ptr → Option Ptr
  | 0, _, _ => none
  | fuel + 1, s, n => do
    let nd ← s.heap.read n
    if nd.child d ≠ 0 then descend d fuel s (nd.child d) else some n

/-- `while(n->parent && (n == n->parent->right)) n = n->parent; n = n->parent;`, or the same to the
left. -/
def ascend (d : Side) : ℕ → Tree K V → Ptr → Option Ptr
  | 0, _, _ => none
  | fuel + 1, s, n => do
    let nd ← s.heap.read n
    if nd.parent = 0 then some 0
    else do
      let pd ← s.heap.read nd.parent
      if n = pd.child d then ascend d fuel s nd.parent else some nd.parent

def treeMin (fuel : ℕ) (s : Tree K V) : Option Ptr := descend .left fuel s s.root

/-- The node after `n` (for the side `right`) or before it (`left`), null if there is none. -/
def neighbour (d : Side) (fuel : ℕ) (s : Tree K V) (n : Ptr) : Option Ptr := do
  let nd ← s.heap.read n
  if nd.child d ≠ 0 then descend d.other fuel s (nd.child d) else ascend d fuel s n

def retain (s : Tree K V) (n : Ptr) : Option (Tree K V) :=
  s.modify n fun nd ↦ { nd with refcount := wordInc nd.refcount }

def release (s : Tree K V) (n : Ptr) : Option (Tree K V) :=
  s.modify n fun nd ↦ { nd with refcount := wordDec nd.refcount }

/-- `if(it->n) it->n->refcount++;`. -/
def stepOnto (s : Tree K V) (n : Ptr) : Option (Tree K V) := if n ≠ 0 then s.retain n else some s

def freeNodeIfNeeded (fuel : ℕ) (s : Tree K V) (n : Ptr) : Option (Bool × Tree K V) := do
  let nd ← s.heap.read n
  if nd.refcount = 0 ∧ nd.delete = true then do
    let s ← removeNode fuel s n
    let h ← s.heap.free n
    some (true, { s with heap := h })
  else some (false, s)

/-- What `tree_next` and `tree_prev` do to the tree when an iterator goes from the node `p` to its
neighbour.  The results are the neighbour and whether `p` has been freed. -/
def leaveFor (d : Side) (fuel : ℕ) (s : Tree K V) (p : Ptr) : Option (Ptr × Bool × Tree K V) := do
  let n ← neighbour d fuel s p
  let s ← s.release p
  let (freed, s) ← freeNodeIfNeeded fuel s p
  let s ← s.stepOnto n
  some (n, freed, s)

namespace Iterated

/-- `tree_iterator`, when `malloc` returns the address `i`. -/
def treeIterator (fuel : ℕ) (s : Iterated K V) (i : Ptr) : Option (Iterated K V) := do
  let its ← s.its.alloc i ⟨0, 0⟩
  let n ← descend .left fuel s.tree s.tree.root
  let tree ← s.tree.retain n
  some ⟨tree, its.set i ⟨n, 0⟩⟩

def treeIteratorEof (s : Iterated K V) (i : Ptr) : Option Bool :=
  if i = 0 then some false else (s.its.read i).map fun it ↦ decide (it.n = 0)

def treeNext (fuel : ℕ) (s : Iterated K V) (i : Ptr) : Option (Ptr × Iterated K V) := do
  let it ← s.its.read i
  -- At the end of the tree, we can't iterate further.
  if it.n = 0 then some (it.prev, s)
  else do
    let (n, freed, tree) ← leaveFor .right fuel s.tree it.n
    some (n, ⟨tree, s.its.set i ⟨n, if freed then it.prev else it.n⟩⟩)

def treePrev (fuel : ℕ) (s : Iterated K V) (i : Ptr) : Option (Ptr × Iterated K V) := do
  let it ← s.its.read i
  if it.n = 0 then do
    let tree ← s.tree.retain it.prev
    some (it.prev, ⟨tree, s.its.set i ⟨it.prev, it.prev⟩⟩)
  else do
    let (n, _, tree) ← leaveFor .left fuel s.tree it.n
    some (n, ⟨tree, s.its.set i ⟨n, if n ≠ 0 then it.n else it.prev⟩⟩)

def treeDeliterator (s : Iterated K V) (i : Ptr) : Option (Iterated K V) :=
  if i = 0 then some s else (s.its.free i).map fun its ↦ { s with its := its }

/-- A call of one of the operations, with what the allocator does. -/
inductive Op (K V : Type) where
  | insert (a : Ptr) (k : K) (v : V)
  | delete (k : K)
  | iterator (i : Ptr)
  | next (i : Ptr)
  | prev (i : Ptr)
  | deliterator (i : Ptr)
  deriving DecidableEq

def step [DecidableEq V] (cmp : K → K → ℤ) (notFound : V) (fuel : ℕ) (s : Iterated K V) :
    Op K V → Option (Iterated K V)
  | .insert a k v => (treeInsert cmp notFound fuel s.tree a k v).map fun tree ↦ { s with tree := tree }
  | .delete k => (treeDelete cmp notFound fuel s.tree k).map fun tree ↦ { s with tree := tree }
  | .iterator i => s.treeIterator fuel i
  | .next i => (s.treeNext fuel i).map Prod.snd
  | .prev i => (s.treePrev fuel i).map Prod.snd
  | .deliterator i => s.treeDeliterator i

/-- The refcount of each node is the number of iterators that stand on it. -/
def CountsExact (s : Iterated K V) : Prop :=
  ∀ a nd, s.tree.heap.read a = some nd →
    nd.refcount = {i | ∃ it, s.its.read i = some it ∧ it.n = a}.ncard

/-- No iterator is deleted while it stands on a node. -/
def DeletedAtEnd (s : Iterated K V) : Op K V → Prop
  | .deliterator i => ∀ it ∈ s.its.read i, it.n = 0
  | _ => True

instance DeletedAtEnd.decidable (s : Iterated K V) : ∀ op, Decidable (s.DeletedAtEnd op)
  | .deliterator i => inferInstanceAs (Decidable (∀ it ∈ s.its.read i, it.n = 0))
  | .insert _ _ _ => isTrue trivial
  | .delete _ => isTrue trivial
  | .iterator _ => isTrue trivial
  | .next _ => isTrue trivial
  | .prev _ => isTrue trivial

def pos (s : Iterated K V) (i : Ptr) : Option Ptr :=
  (s.its.read i).bind fun it ↦ if it.n = 0 then none else some it.n

def Exact (s : Iterated K V) : Prop := ExactCounts s.tree.counts s.pos

variable {s : Iterated K V} {i n p : Ptr} {it : Iterator}

theorem pos_zero (s : Iterated K V) : s.pos 0 = none := by simp [pos]

theorem pos_eq_some {a : Ptr} (ha : a ≠ 0) :
    s.pos i = some a ↔ ∃ it, s.its.read i = some it ∧ it.n = a := by
  rw [pos, bind_eq_some_iff]
  refine exists_congr fun it ↦ and_congr_right fun _ ↦ ?_
  by_cases hn : it.n = 0
  · simp [hn, ha.symm]
  · simp [hn]

theorem Exact.countsExact (h : s.Exact) : s.CountsExact := by
  intro a nd hnd
  have hcount : s.tree.counts a = some nd.refcount := by rw [counts, hnd, map_some]
  rw [h.count a _ hcount]
  congr 1
  ext i
  exact pos_eq_some (ne_zero_of_read hnd)

theorem pos_set (hi : i ≠ 0) (tree : Tree K V) (it : Iterator) :
    (⟨tree, s.its.set i it⟩ : Iterated K V).pos =
      Function.update s.pos i (if it.n = 0 then none else some it.n) := by
  funext j
  by_cases hj : j = i
  · subst hj
    simp [pos, hi]
  · simp [pos, hj]

theorem pos_of_read (hit : s.its.read i = some it) :
    s.pos i = if it.n = 0 then none else some it.n := by
  rw [pos, hit, bind_some]

variable {cnt : Ptr → Option ℕ} {at_ : Ptr → Option Ptr}

theorem count_lt (h : ExactCounts cnt at_) (hnull : at_ 0 = none) {k : ℕ} (hk : cnt n = some k) :
    k < wordSize := by
  rw [h.count n k hk]
  refine ncard_lt_wordSize ?_
  simp [standing, hnull]

variable {t t' : Tree K V}

theorem exact_retain (h : ExactCounts t.counts at_) (hi : i ≠ 0)
    (hnull : at_ 0 = none) (hpos : at_ i = none) (ht' : t.retain n = some t') :
    ExactCounts t'.counts (Function.update at_ i (some n)) := by
  obtain ⟨k, hk, hcounts⟩ := setRefcount_counts ht'
  have henter := h.enter hpos hk
  have hlt : k + 1 < wordSize := by
    refine count_lt henter ?_ (update_self n (some (k + 1)) t.counts)
    rw [update_of_ne hi.symm, hnull]
  rw [hcounts, wordInc_of_lt hlt]
  exact henter

theorem exact_stepOnto (h : ExactCounts t.counts at_) (hi : i ≠ 0)
    (hnull : at_ 0 = none) (hpos : at_ i = none) (ht' : t.stepOnto n = some t') :
    ExactCounts t'.counts (Function.update at_ i (if n = 0 then none else some n)) := by
  unfold stepOnto at ht'
  split at ht'
  · next hn =>
    rw [if_neg hn]
    exact exact_retain h hi hnull hpos ht'
  · next hn =>
    cases ht'
    rw [if_pos (not_not.mp hn), ← hpos, update_eq_self]
    exact h

theorem exact_release (h : ExactCounts t.counts at_) (hnull : at_ 0 = none) (hpos : at_ i = some p)
    (ht' : t.release p = some t') : ExactCounts t'.counts (Function.update at_ i none) := by
  obtain ⟨k, hk, hcounts⟩ := setRefcount_counts ht'
  rw [hcounts, wordDec_of_pos (h.pos_of_standing hpos hk) (count_lt h hnull hk)]
  exact h.leave hpos hk

end Iterated

/-- **`free_node_if_needed` never gets to free a node**: `remove_node` has already freed it. -/
theorem freeNodeIfNeeded_eq {s s' : Tree K V} {n : Ptr} {fuel : ℕ} {freed : Bool}
    (h : freeNodeIfNeeded fuel s n = some (freed, s')) : freed = false ∧ s' = s := by
  obtain ⟨nd, hnd, h⟩ := bind_eq_some_iff.mp h
  have hn := ne_zero_of_read hnd
  split at h
  · obtain ⟨s1, h1, h⟩ := bind_eq_some_iff.mp h
    obtain ⟨heap, hfree, -⟩ := bind_eq_some_iff.mp h
    have hgone : s1.heap.read n = none := by
      have hcounts := congrFun (removeNode_counts hn h1) n
      rwa [update_self, counts, map_eq_none_iff] at hcounts
    simp [free, hn, hgone] at hfree
  · cases h
    exact ⟨rfl, rfl⟩

namespace Iterated

variable {s s' : Iterated K V} {i n p : Ptr} {fuel : ℕ} {at_ : Ptr → Option Ptr}

theorem exact_leaveFor {d : Side} {t t' : Tree K V} {freed : Bool} (h : ExactCounts t.counts at_)
    (hi : i ≠ 0) (hnull : at_ 0 = none) (hpos : at_ i = some p)
    (ht' : leaveFor d fuel t p = some (n, freed, t')) :
    ExactCounts t'.counts (Function.update at_ i (if n = 0 then none else some n)) := by
  obtain ⟨m, -, ht'⟩ := bind_eq_some_iff.mp ht'
  obtain ⟨t1, h1, ht'⟩ := bind_eq_some_iff.mp ht'
  obtain ⟨⟨b, t2⟩, h2, ht'⟩ := bind_eq_some_iff.mp ht'
  obtain ⟨t3, h3, ht'⟩ := bind_eq_some_iff.mp ht'
  cases ht'
  obtain ⟨-, rfl⟩ := freeNodeIfNeeded_eq h2
  have hleft := exact_release h hnull hpos h1
  have hstep := exact_stepOnto hleft hi (by rw [update_of_ne hi.symm, hnull])
    (update_self i none at_) h3
  rwa [update_idem] at hstep

theorem exact_iterator (h : s.Exact) (hs : s.treeIterator fuel i = some s') : s'.Exact := by
  obtain ⟨its, halloc, hs⟩ := bind_eq_some_iff.mp hs
  obtain ⟨n, -, hs⟩ := bind_eq_some_iff.mp hs
  obtain ⟨tree, htree, hs⟩ := bind_eq_some_iff.mp hs
  cases hs
  rw [alloc, ite_none_right_eq_some] at halloc
  obtain ⟨⟨hi, hfree⟩, heq⟩ := halloc
  obtain rfl := some.inj heq
  have hpos : s.pos i = none := by rw [pos, isNone_iff_eq_none.mp hfree, bind_none]
  have hn : n ≠ 0 := by
    obtain ⟨nd, hnd, -⟩ := modify_counts htree
    exact ne_zero_of_read hnd
  rw [set_set, Exact, pos_set hi, if_neg hn]
  exact exact_retain h hi s.pos_zero hpos htree

theorem exact_next {r : Ptr} (h : s.Exact) (hs : s.treeNext fuel i = some (r, s')) : s'.Exact := by
  obtain ⟨it, hit, hs⟩ := bind_eq_some_iff.mp hs
  split at hs
  · cases hs
    exact h
  · next hn =>
    obtain ⟨⟨n, freed, tree⟩, hleave, hs⟩ := bind_eq_some_iff.mp hs
    cases hs
    have hi := ne_zero_of_read hit
    rw [Exact, pos_set hi]
    exact exact_leaveFor h hi s.pos_zero (by rw [pos_of_read hit, if_neg hn]) hleave

theorem exact_prev {r : Ptr} (h : s.Exact) (hs : s.treePrev fuel i = some (r, s')) : s'.Exact := by
  obtain ⟨it, hit, hs⟩ := bind_eq_some_iff.mp hs
  have hi := ne_zero_of_read hit
  split at hs
  · next hn =>
    obtain ⟨tree, htree, hs⟩ := bind_eq_some_iff.mp hs
    cases hs
    have hprev : it.prev ≠ 0 := by
      obtain ⟨nd, hnd, -⟩ := modify_counts htree
      exact ne_zero_of_read hnd
    rw [Exact, pos_set hi, if_neg hprev]
    exact exact_retain h hi s.pos_zero (by rw [pos_of_read hit, if_pos hn]) htree
  · next hn =>
    obtain ⟨⟨n, freed, tree⟩, hleave, hs⟩ := bind_eq_some_iff.mp hs
    cases hs
    rw [Exact, pos_set hi]
    exact exact_leaveFor h hi s.pos_zero (by rw [pos_of_read hit, if_neg hn]) hleave

theorem exact_deliterator (h : s.Exact) (hend : ∀ it ∈ s.its.read i, it.n = 0)
    (hs : s.treeDeliterator i = some s') : s'.Exact := by
  unfold treeDeliterator at hs
  split at hs
  · cases hs
    exact h
  · next hi =>
    obtain ⟨its, hfree, rfl⟩ := map_eq_some_iff.mp hs
    rw [free, if_neg hi] at hfree
    obtain ⟨it, hit, rfl⟩ := map_eq_some_iff.mp hfree
    have hsame : ({ s with its := s.its.erase i } : Iterated K V).pos = s.pos := by
      funext j
      by_cases hj : j = i
      · subst hj
        simp [pos, hit, hend it hit]
      · simp [pos, hj]
    rw [Exact, hsame]
    exact h

variable [DecidableEq V] {cmp : K → K → ℤ} {notFound : V} {op : Op K V}

theorem exact_step (h : s.Exact) (hop : s.DeletedAtEnd op)
    (hs : s.step cmp notFound fuel op = some s') : s'.Exact := by
  cases op with
  | insert a k v =>
    obtain ⟨tree, htree, rfl⟩ := map_eq_some_iff.mp hs
    rcases treeInsert_counts htree with rfl | ⟨hfree, hcounts⟩
    · exact h
    · have hcreate : ExactCounts tree.counts s.pos := hcounts ▸ ExactCounts.create h hfree
      exact hcreate
  | delete k =>
    obtain ⟨tree, htree, rfl⟩ := map_eq_some_iff.mp hs
    have hdelete : ExactCounts tree.counts s.pos := by
      rcases treeDelete_counts htree with hcounts | ⟨n, hidle, hcounts⟩
      · exact hcounts ▸ h
      · exact hcounts ▸ ExactCounts.destroy h hidle
    exact hdelete
  | iterator i => exact exact_iterator h hs
  | next i =>
    obtain ⟨⟨r, t⟩, hcall, rfl⟩ := map_eq_some_iff.mp hs
    exact exact_next h hcall
  | prev i =>
    obtain ⟨⟨r, t⟩, hcall, rfl⟩ := map_eq_some_iff.mp hs
    exact exact_prev h hcall
  | deliterator i => exact exact_deliterator h hop hs

omit [DecidableEq V] in
theorem exact_new (len : ℕ) : (new len : Iterated K V).Exact where
  count a n ha := by simp [new, counts] at ha
  exist i a hi := by simp [new, pos] at hi

/-- **Reference counts are exact**, as long as no iterator is deleted while it stands on a node. -/
theorem countsExact_of_deletedAtEnd (len : ℕ) {ops : List (Op K V)} {t : Iterated K V}
    (hops : Run.Guarded (step cmp notFound fuel) DeletedAtEnd (new len) ops)
    (ht : Run.exec (step cmp notFound fuel) (new len) ops = some t) : t.CountsExact := by
  have hexact : t.Exact :=
    Run.inv_of_guarded (fun _ _ _ h hop hs ↦ exact_step h hop hs) (exact_new len) hops ht
  exact hexact.countsExact

/-- An iterator walks over a tree of two nodes, one of which is deleted when it has left it, and is
deleted past the end. -/
def walkThrough : List (Op Ptr Ptr) :=
  [.insert 0x10 5 50, .insert 0x20 7 70, .iterator 0x100, .next 0x100, .delete 5, .next 0x100,
    .deliterator 0x100]

theorem countsExact_walkThrough : ∃ t : Iterated Ptr Ptr,
    Run.exec (step defaultComparer notFoundPtr 8) (new 0) walkThrough = some t ∧ t.CountsExact := by
  have hsome : (Run.exec (step defaultComparer notFoundPtr 8) (new 0) walkThrough).isSome := by decide
  obtain ⟨t, ht⟩ := isSome_iff_exists.mp hsome
  exact ⟨t, ht, countsExact_of_deletedAtEnd 0 (by decide) ht⟩

def abandoned : List (Op Ptr Ptr) := [.insert 0x10 5 50, .iterator 0x100, .deliterator 0x100]

/-- **The count of a deleted iterator remains.** -/
theorem not_countsExact_abandoned : ∃ t : Iterated Ptr Ptr,
    Run.exec (step defaultComparer notFoundPtr 8) (new 0) abandoned = some t ∧
      t.tree.counts 0x10 = some 1 ∧ (∀ i, t.its.read i = none) ∧ ¬ t.CountsExact := by
  have hcount : (Run.exec (step defaultComparer notFoundPtr 8) (new 0) abandoned).map
      (fun t ↦ t.tree.counts 0x10) = some (some 1) := by decide
  have hits : (Run.exec (step defaultComparer notFoundPtr 8) (new 0) abandoned).map Iterated.its =
      some (((Heap.empty.set 0x100 ⟨0, 0⟩).set 0x100 ⟨0x10, 0⟩).erase 0x100) := rfl
  obtain ⟨t, ht, hcount⟩ := map_eq_some_iff.mp hcount
  rw [ht, map_some, some.injEq] at hits
  have hnone : ∀ i, t.its.read i = none := by
    intro i
    rw [hits]
    by_cases hi : i = 0x100
    · rw [hi, read_erase_self]
    · rw [read_erase_of_ne hi, read_set_of_ne hi, read_set_of_ne hi, read_empty]
  refine ⟨t, ht, hcount, hnone, fun hexact ↦ ?_⟩
  obtain ⟨nd, hnd, hone⟩ := map_eq_some_iff.mp hcount
  have hzero := hexact 0x10 nd hnd
  simp [hnone, hone] at hzero

end Iterated
end Tree
end ForgeOS
