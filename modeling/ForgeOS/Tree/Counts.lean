import ForgeOS.Tree.Model

/-!
# What the tree does to reference counts

`counts` is all there is to see of the nodes from the iterators' side: which addresses hold a node,
and its count.  None of this needs the tree to be in order.
-/

namespace ForgeOS.Tree

open Function Option

variable {K V : Type}

def counts (s : Tree K V) (a : Ptr) : Option ℕ := (s.heap.read a).map Node.refcount

variable {s s' : Tree K V} {n m : Ptr}

theorem counts_len (s : Tree K V) (len : ℕ) :
    ({ s with len := len } : Tree K V).counts = s.counts :=
  rfl

theorem counts_set {nd : Node K V} (hn : n ≠ 0) :
    ({ s with heap := s.heap.set n nd } : Tree K V).counts =
      Function.update s.counts n (some nd.refcount) := by
  funext a
  by_cases ha : a = n
  · subst ha
    simp [counts, hn]
  · simp [counts, ha]

variable {f : Node K V → Node K V}

theorem modify_counts (h : s.modify n f = some s') : ∃ nd, s.heap.read n = some nd ∧ s'.counts =
    Function.update s.counts n (some (f nd).refcount) := by
  obtain ⟨h', hmodify, rfl⟩ := map_eq_some_iff.mp h
  obtain ⟨nd, hnd, rfl⟩ := map_eq_some_iff.mp hmodify
  exact ⟨nd, hnd, counts_set (Heap.ne_zero_of_read hnd)⟩

theorem modify_counts_eq (h : s.modify n f = some s')
    (hf : ∀ nd, (f nd).refcount = nd.refcount) : s'.counts = s.counts := by
  obtain ⟨nd, hnd, heq⟩ := modify_counts h
  have hcount : some (f nd).refcount = s.counts n := by rw [hf, counts, hnd, map_some]
  rw [heq, hcount, update_eq_self]

theorem setRefcount_counts {g : ℕ → ℕ}
    (h : s.modify n (fun nd ↦ { nd with refcount := g nd.refcount }) = some s') :
    ∃ k, s.counts n = some k ∧ s'.counts = Function.update s.counts n (some (g k)) := by
  obtain ⟨nd, hnd, heq⟩ := modify_counts h
  exact ⟨nd.refcount, by rw [counts, hnd, map_some], heq⟩

theorem refcount_setChild (nd : Node K V) (p : Ptr) (d : Side) :
    (nd.setChild p d).refcount = nd.refcount := by
  cases d <;> rfl

theorem replaceInParent_counts (h : s.replaceInParent n m = some s') : s'.counts = s.counts := by
  obtain ⟨nd, -, h⟩ := bind_eq_some_iff.mp h
  split at h
  · cases h
    rfl
  · obtain ⟨pd, -, h⟩ := bind_eq_some_iff.mp h
    exact modify_counts_eq h (fun nd ↦ refcount_setChild nd m _)

theorem reparent_counts (h : s.reparent m n = some s') : s'.counts = s.counts := by
  unfold reparent at h
  split at h
  · exact modify_counts_eq h (fun _ ↦ rfl)
  · cases h
    rfl

theorem rotate_counts {d : Side} (h : rotate d s n = some s') : s'.counts = s.counts := by
  obtain ⟨nd, -, h⟩ := bind_eq_some_iff.mp h
  obtain ⟨yd, -, h⟩ := bind_eq_some_iff.mp h
  obtain ⟨s1, h1, h⟩ := bind_eq_some_iff.mp h
  obtain ⟨s2, h2, h⟩ := bind_eq_some_iff.mp h
  obtain ⟨s3, h3, h⟩ := bind_eq_some_iff.mp h
  obtain ⟨s4, h4, h⟩ := bind_eq_some_iff.mp h
  obtain ⟨s5, h5, h⟩ := bind_eq_some_iff.mp h
  rw [modify_counts_eq h (fun _ ↦ rfl), modify_counts_eq h5 (fun nd ↦ refcount_setChild nd _ _),
    replaceInParent_counts h4, modify_counts_eq h3 (fun _ ↦ rfl), reparent_counts h2,
    modify_counts_eq h1 (fun nd ↦ refcount_setChild nd _ _)]

theorem nodeHeight_counts {k : ℕ} (h : s.nodeHeight n = some (k, s')) : s'.counts = s.counts := by
  unfold nodeHeight at h
  split at h
  · cases h
    rfl
  · obtain ⟨nd, -, h⟩ := bind_eq_some_iff.mp h
    obtain ⟨l, -, h⟩ := bind_eq_some_iff.mp h
    obtain ⟨r, -, h⟩ := bind_eq_some_iff.mp h
    obtain ⟨s1, h1, h⟩ := bind_eq_some_iff.mp h
    cases h
    exact modify_counts_eq h1 (fun _ ↦ rfl)

theorem nodeBfactor_counts {b : ℤ} (h : s.nodeBfactor n = some (b, s')) : s'.counts = s.counts := by
  obtain ⟨nd, -, h⟩ := bind_eq_some_iff.mp h
  obtain ⟨⟨r, s1⟩, h1, h⟩ := bind_eq_some_iff.mp h
  obtain ⟨⟨l, s2⟩, h2, h⟩ := bind_eq_some_iff.mp h
  cases h
  rw [nodeHeight_counts h2, nodeHeight_counts h1]

theorem rotate_rotate_counts {d e : Side} {c : Prop} [Decidable c]
    (h : (if c then (rotate d s m).bind fun s ↦ rotate e s n else rotate e s n) = some s') :
    s'.counts = s.counts := by
  split at h
  · obtain ⟨s1, h1, h⟩ := bind_eq_some_iff.mp h
    rw [rotate_counts h, rotate_counts h1]
  · exact rotate_counts h

theorem nodeRebalance_counts (h : s.nodeRebalance n = some s') : s'.counts = s.counts := by
  obtain ⟨⟨b, s1⟩, h1, h⟩ := bind_eq_some_iff.mp h
  obtain ⟨nd, -, h⟩ := bind_eq_some_iff.mp h
  split at h
  · obtain ⟨⟨b', s2⟩, h2, h⟩ := bind_eq_some_iff.mp h
    rw [rotate_rotate_counts h, nodeBfactor_counts h2, nodeBfactor_counts h1]
  split at h
  · obtain ⟨⟨b', s2⟩, h2, h⟩ := bind_eq_some_iff.mp h
    rw [rotate_rotate_counts h, nodeBfactor_counts h2, nodeBfactor_counts h1]
  · cases h
    exact nodeBfactor_counts h1

theorem climbTurn_counts (h : s.climbTurn n = some s') : s'.counts = s.counts := by
  obtain ⟨⟨b, s1⟩, h1, h⟩ := bind_eq_some_iff.mp h
  dsimp only at h
  split at h
  · rw [nodeRebalance_counts h, nodeBfactor_counts h1]
  · cases h
    exact nodeBfactor_counts h1

theorem climb_counts {fuel : ℕ} (h : climb fuel s n = some s') : s'.counts = s.counts := by
  induction fuel generalizing s n with
  | zero => cases h
  | succ fuel ih =>
    unfold climb at h
    split at h
    · cases h
      rfl
    · obtain ⟨s1, h1, h⟩ := bind_eq_some_iff.mp h
      obtain ⟨nd, -, h⟩ := bind_eq_some_iff.mp h
      rw [ih h, climbTurn_counts h1]

theorem sinkTurn_counts {l r : Ptr} (h : s.sinkTurn n l r = some s') : s'.counts = s.counts := by
  obtain ⟨⟨hl, s1⟩, h1, h⟩ := bind_eq_some_iff.mp h
  obtain ⟨⟨hr, s2⟩, h2, h⟩ := bind_eq_some_iff.mp h
  have heights : s2.counts = s.counts := by rw [nodeHeight_counts h2, nodeHeight_counts h1]
  dsimp only at h
  split at h
  · rw [rotate_counts h, heights]
  split at h
  · rw [rotate_counts h, heights]
  split at h
  all_goals
    obtain ⟨s3, h3, h⟩ := bind_eq_some_iff.mp h
    rw [rotate_counts h, rotate_counts h3, heights]

theorem sink_counts {fuel : ℕ} (h : sink fuel s n = some s') : s'.counts = s.counts := by
  induction fuel generalizing s with
  | zero => cases h
  | succ fuel ih =>
    obtain ⟨nd, -, h⟩ := bind_eq_some_iff.mp h
    split at h
    · obtain ⟨s1, h1, h⟩ := bind_eq_some_iff.mp h
      rw [ih h, sinkTurn_counts h1]
    · cases h
      rfl

theorem removeNode_counts {fuel : ℕ} (hn : n ≠ 0) (h : removeNode fuel s n = some s') :
    s'.counts = Function.update s.counts n none := by
  obtain ⟨s1, h1, h⟩ := bind_eq_some_iff.mp h
  obtain ⟨s2, h2, h⟩ := bind_eq_some_iff.mp h
  obtain ⟨s3, h3, h⟩ := bind_eq_some_iff.mp h
  have hsame : s3.counts = s.counts := by
    rw [climb_counts h3, replaceInParent_counts h2, sink_counts h1, counts_len]
  obtain ⟨heap, hfree, rfl⟩ := map_eq_some_iff.mp h
  rw [Heap.free, if_neg hn] at hfree
  obtain ⟨nd, -, rfl⟩ := map_eq_some_iff.mp hfree
  rw [← hsame]
  funext a
  by_cases ha : a = n
  · subst ha
    simp [counts]
  · simp [counts, ha]

variable {cmp : K → K → ℤ} {notFound : V} {fuel : ℕ} {a : Ptr} {k : K} {v : V}

theorem attach_counts (h : attach cmp fuel s a k n = some (m, s')) : s'.counts = s.counts := by
  induction fuel generalizing n with
  | zero => cases h
  | succ fuel ih =>
    obtain ⟨nd, -, h⟩ := bind_eq_some_iff.mp h
    generalize (if cmp k nd.key < 0 then Side.left else Side.right) = d at h
    dsimp only at h
    split at h
    · obtain ⟨s1, h1, h⟩ := bind_eq_some_iff.mp h
      obtain ⟨s2, h2, h⟩ := bind_eq_some_iff.mp h
      cases h
      rw [modify_counts_eq h2 (fun _ ↦ rfl), modify_counts_eq h1 (fun nd ↦ refcount_setChild nd _ _)]
    · exact ih h

variable [DecidableEq V]

theorem treeInsert_counts (h : treeInsert cmp notFound fuel s a k v = some s') :
    s' = s ∨ s.counts a = none ∧ s'.counts = Function.update s.counts a (some 0) := by
  obtain ⟨found, -, h⟩ := bind_eq_some_iff.mp h
  split at h
  · cases h
    exact .inl rfl
  · obtain ⟨heap, halloc, h⟩ := bind_eq_some_iff.mp h
    rw [Heap.alloc, ite_none_right_eq_some] at halloc
    obtain ⟨⟨ha, hfree⟩, heq⟩ := halloc
    obtain rfl := some.inj heq
    refine .inr ⟨by rw [counts, isNone_iff_eq_none.mp hfree, map_none], ?_⟩
    let nd : Node K V := ⟨k, v, 0, 0, false, 0, 0, 0⟩
    have hnew : ({ s with len := wordInc s.len, heap := s.heap.set a nd } : Tree K V).counts =
        update s.counts a (some 0) := counts_set (s := { s with len := wordInc s.len }) ha
    dsimp only at h
    split at h
    · cases h
      exact hnew
    · obtain ⟨⟨m, s1⟩, h1, h⟩ := bind_eq_some_iff.mp h
      rw [climb_counts h, attach_counts h1]
      exact hnew

theorem treeDelete_counts (h : treeDelete cmp notFound fuel s k = some s') :
    s'.counts = s.counts ∨ ∃ n, s.counts n = some 0 ∧ s'.counts =
    Function.update s.counts n none := by
  unfold treeDelete at h
  split at h
  · cases h
    exact .inl rfl
  obtain ⟨found, -, h⟩ := bind_eq_some_iff.mp h
  split at h
  · cases h
    exact .inl rfl
  obtain ⟨n, -, h⟩ := bind_eq_some_iff.mp h
  split at h
  · cases h
    exact .inl rfl
  · next hn =>
    obtain ⟨s1, h1, h⟩ := bind_eq_some_iff.mp h
    have hmark : s1.counts = s.counts := modify_counts_eq h1 (fun _ ↦ rfl)
    obtain ⟨nd, hnd, h⟩ := bind_eq_some_iff.mp h
    split at h
    · next hidle =>
      refine .inr ⟨n, ?_, ?_⟩
      · rw [← hmark, counts, hnd, map_some, hidle]
      · rw [removeNode_counts hn h, hmark]
    · cases h
      exact .inl hmark

end ForgeOS.Tree
