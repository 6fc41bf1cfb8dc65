import ForgeOS.Cache.Model
import ForgeOS.Tree.Walk

/-!
# Eviction

`evict_cache` takes the node that `tree_min` returns for a `struct block`, and reads the height of
the node as the reference count.

The main result is `evicts_iff`.
-/

namespace ForgeOS.Cache

open ForgeOS.Tree BinaryTree Function List Option Iterated

variable {s s' : Cache} {t : Shape Ptr Ptr} {it m : Ptr} {nd : Node Ptr Ptr} {numpages : ℕ}

def Kept (s s' : Cache) (offset : Ptr) : Prop :=
  ∀ b, Returns (fun fuel ↦ search fuel s offset) b →
    Returns (fun fuel ↦ search fuel s' offset) b ∧
    ∀ bd, s.blocks.read b = some bd → s'.blocks.read b = some bd ∧
      Set.EqOn s'.mem s.mem (Memory.bytes (UInt32.ofNat bd.addr) 0x1000) ∧
      (accessible s.pool.vmem bd.addr = some () → accessible s'.pool.vmem bd.addr = some ())

def Evicted (s s' : Cache) (offset : Ptr) : Prop :=
  ∃ b bd, Returns (fun fuel ↦ search fuel s offset) b ∧ s.blocks.read b = some bd ∧
    bd.refcount = 0 ∧ (s.started.map Prod.snd).count b ≤ s.finished.count b ∧
    Returns (fun fuel ↦ cacheIscached fuel s' offset) 0 ∧
    ∀ i < s'.pool.book.bufferCount, s'.pool.book.bufferAddr i = bd.addr →
      ¬ Bits.InMap s'.pool.book.bitmap i

/-- **The purpose of `evict_cache`**: at most `numpages` blocks are evicted, and the others are left
as they are. -/
def Evicts (s : Cache) (it : Ptr) (numpages : ℕ) : Prop :=
  ∃ (s' : Cache) (gone : Finset Ptr), Returns (fun fuel ↦ evictCache fuel s it numpages) s' ∧
    gone.card ≤ numpages ∧ (∀ o ∈ gone, Evicted s s' o) ∧ ∀ o ∉ gone, Kept s s' o

def Spared (s : Cache) (numpages : ℕ) : Prop :=
  numpages = 0 ∨ ∃ n nd, Returns (fun fuel ↦ treeMin fuel s.blockdata.tree) n ∧
    s.blockdata.tree.heap.read n = some nd ∧ nd.height ≠ 0

structure Idle (s : Cache) (t : Shape Ptr Ptr) : Prop where
  at_ : At s.blockdata.tree [] t
  below : ExactBelow t
  kept : ∀ x ∈ cores t, x.refcount = 0 ∧ x.delete = false

theorem Idle.of_tree (h : Idle s t) (htree : s'.blockdata.tree = s.blockdata.tree) : Idle s' t :=
  ⟨htree ▸ h.at_, h.below, h.kept⟩

theorem idle_createCache (earlier : List UInt32) (cachesz : UInt32) (len : ℕ) (vmem : Vmem)
    (mem : Memory) : Idle (createCache earlier cachesz len vmem mem) .nil where
  at_ := ⟨trivial, rfl, by simp [addrs, addrsAround, BinaryTree.around]⟩
  below := trivial
  kept := by simp [cores]

theorem Idle.first_mem (h : Idle s t) (ht : t ≠ .nil) :
    ∃ nd, s.blockdata.tree.heap.read (first t.inorder) = some nd :=
  isSome_iff_exists.mp (h.at_.rep.read_isSome (first_listed_mem .right ht))

theorem Idle.treeMin_returns (h : Idle s t) (ht : t ≠ .nil) :
    Returns (fun fuel ↦ treeMin fuel s.blockdata.tree) (first t.inorder) := by
  have hroot : s.blockdata.tree.root = ptr t := h.at_.around
  have hdescend := h.at_.descend_returns .left ht
  rw [← hroot] at hdescend
  exact hdescend

theorem Idle.treeMin_fails (h : Idle s .nil) : Fails fun fuel ↦ treeMin fuel s.blockdata.tree := by
  have hroot : s.blockdata.tree.root = 0 := h.at_.around
  refine Fails.turn (f := fun _ ↦ none) ⟨0, fun _ _ ↦ rfl⟩ fun fuel ↦ ?_
  rw [treeMin, hroot, Tree.descend, Heap.read_zero]
  rfl

/-! ## The loop -/

def visiting (s : Cache) (it : Ptr) (tree : Tree Ptr Ptr) (n prev : Ptr) : Cache :=
  { s with blockdata := ⟨tree, s.blockdata.its.set it ⟨n, prev⟩⟩ }

theorem evictBlock_of_height (hread : s.blockdata.tree.heap.read m = some nd)
    (hheight : nd.height ≠ 0) (fuel : ℕ) : evictBlock fuel s m = some s := by
  have hcount : (Block.ofNode nd).refcount ≠ 0 := hheight
  simp only [evictBlock, hread, bind_eq_bind, bind_some, if_neg hcount]

theorem visiting_eof (hit : it ≠ 0) (tree : Tree Ptr Ptr) (n prev : Ptr) :
    (s.visiting it tree n prev).blockdata.treeIteratorEof it = some (decide (n = 0)) := by
  simp [visiting, treeIteratorEof, hit]

theorem visiting_next (hit : it ≠ 0) (tree : Tree Ptr Ptr) {n : Ptr} (hn : n ≠ 0) (prev : Ptr)
    (fuel : ℕ) : (s.visiting it tree n prev).blockdata.treeNext fuel it =
      (Tree.leaveFor .right fuel tree n).map fun r ↦
        (r.1, (s.visiting it r.2.2 r.1 (if r.2.1 then prev else n)).blockdata) := by
  simp only [visiting, treeNext, Heap.read_set_self hit, Heap.set_set, if_neg hn,
    bind_eq_bind, bind_some, map_eq_bind, comp_def]

variable {tree : Tree Ptr Ptr}

theorem Idle.evictLoop_returns (h : Idle s t) (hit : it ≠ 0)
    (hread : s.blockdata.tree.heap.read m = some nd) (hheight : nd.height ≠ 0) {as bs : List Ptr}
    (ht : addrs t = as ++ bs) (htree : s.blockdata.tree.stepOnto (bs.headD 0) = some tree)
    (prev : Ptr) :
    ∃ last, Returns (fun fuel ↦ evictLoop fuel (s.visiting it tree (bs.headD 0) prev) m it)
      (s.visiting it s.blockdata.tree 0 last) := by
  -- Induction on the nodes that are still ahead of the iterator.
  induction bs generalizing as tree prev with
  | nil =>
    cases htree
    refine ⟨prev, Returns.turn (f := fun _ ↦ some _) (Returns.of_eq rfl) fun fuel ↦ ?_⟩
    rw [evictLoop, visiting_eof hit]
    rfl
  | cons n bs ih =>
    have hmem : n ∈ addrs t := by simp [ht]
    have hn0 : n ≠ 0 := fun h0 ↦ h.at_.notMem_zero (h0 ▸ hmem)
    have hretain : s.blockdata.tree.retain n = some tree := by
      rw [← htree]
      exact (if_pos hn0).symm
    obtain ⟨nd', hread', hheight'⟩ := stepOnto_height htree hread
    have hahead : bs.headD 0 = 0 ∨ bs.headD 0 ∈ addrs t := by
      cases bs with
      | nil => exact .inl rfl
      | cons b bs => exact .inr (by simp [ht])
    obtain ⟨tree', -, htree', -⟩ := h.at_.stepOnto hahead
    have hleave := h.at_.leaveFor_retained h.kept ht hretain htree'
    obtain ⟨last, hlast⟩ := ih (show addrs t = (as ++ [n]) ++ bs by simp [ht]) htree' n
    have hblock : ∀ fuel, evictBlock fuel (s.visiting it tree n prev) m =
        some (s.visiting it tree n prev) :=
      evictBlock_of_height hread' (hheight'.trans_ne hheight)
    refine ⟨last, (hleave.bind (g := fun r fuel ↦ evictLoop fuel
      (s.visiting it r.2.2 r.1 (if r.2.1 then prev else n)) m it) hlast).turn fun fuel ↦ ?_⟩
    rw [evictLoop, headD_cons, visiting_eof hit]
    simp only [hn0, decide_false, bind_eq_bind, bind_some, hblock, visiting_next hit tree hn0,
      Bool.false_eq_true, if_false, map_eq_bind, bind_assoc, comp_def]
    rfl

theorem Idle.evictCache_returns (h : Idle s t) (ht : t ≠ .nil) (hit : it ≠ 0)
    (hfree : s.blockdata.its.read it = none)
    (hread : s.blockdata.tree.heap.read (first t.inorder) = some nd) (hheight : nd.height ≠ 0)
    (hpages : numpages ≠ 0) :
    ∃ last, Returns (fun fuel ↦ evictCache fuel s it numpages)
      (s.visiting it s.blockdata.tree 0 last) := by
  obtain ⟨tree, -, htree, hiterator, -⟩ := h.at_.treeIterator ht hit hfree
  have hstep : s.blockdata.tree.stepOnto ((addrs t).headD 0) = some tree :=
    (if_pos (Heap.ne_zero_of_read hread)).trans htree
  obtain ⟨last, hloop⟩ := h.evictLoop_returns hit hread hheight (nil_append (addrs t)).symm hstep 0
  obtain ⟨N, hN⟩ := h.treeMin_returns ht
  obtain ⟨M, hM⟩ := hiterator
  obtain ⟨L, hL⟩ := hloop
  refine ⟨last, max N (max M L), fun fuel hfuel ↦ ?_⟩
  have hmin : treeMin fuel s.blockdata.tree = some (first t.inorder) := hN fuel (by omega)
  have hiterator : s.blockdata.treeIterator fuel it = _ := hM fuel (by omega)
  show evictCache fuel s it numpages = _
  rw [evictCache, if_neg hpages, hmin, bind_eq_bind, bind_some, hiterator]
  exact hL fuel (by omega)

theorem evictBlock_read (hread : s.blockdata.tree.heap.read m = some nd) (hheight : nd.height = 0)
    {fuel : ℕ} (h : evictBlock fuel s m = some s') :
    s'.blockdata.its = s.blockdata.its ∧ s'.blockdata.tree.heap.read m = none := by
  have hcount : (Block.ofNode nd).refcount = 0 := hheight
  simp only [evictBlock, hread, bind_eq_bind, bind_some, if_pos hcount] at h
  obtain ⟨pool, -, h⟩ := bind_eq_some_iff.mp h
  obtain ⟨tree, -, h⟩ := bind_eq_some_iff.mp h
  obtain ⟨heap, hfree, h⟩ := bind_eq_some_iff.mp h
  cases h
  rw [Heap.free, if_neg (Heap.ne_zero_of_read hread), map_eq_some_iff] at hfree
  obtain ⟨-, -, rfl⟩ := hfree
  exact ⟨rfl, Heap.read_erase_self⟩

theorem treeNext_of_freed {b : Iterated Ptr Ptr} {i : Iterator} (hi : b.its.read it = some i)
    (hn : i.n ≠ 0) (hfreed : b.tree.heap.read i.n = none) (fuel : ℕ) :
    b.treeNext fuel it = none := by
  simp only [treeNext, hi, bind_eq_bind, bind_some, if_neg hn, Tree.leaveFor,
    Tree.neighbour, hfreed, bind_none]

theorem evictLoop_eq_none (hit : it ≠ 0) (hread : tree.heap.read m = some nd)
    (hheight : nd.height = 0) (prev : Ptr) (fuel : ℕ) :
    evictLoop fuel (s.visiting it tree m prev) m it = none := by
  cases fuel with
  | zero => rfl
  | succ fuel =>
    have hm0 : m ≠ 0 := Heap.ne_zero_of_read hread
    rw [evictLoop, visiting_eof hit]
    simp only [hm0, decide_false, bind_eq_bind, bind_some, Bool.false_eq_true, if_false]
    refine bind_eq_none_iff.mpr fun s' hs' ↦ ?_
    obtain ⟨hits, hfreed⟩ := evictBlock_read (s := s.visiting it tree m prev) hread hheight hs'
    have hi : s'.blockdata.its.read it = some ⟨m, prev⟩ := hits ▸ Heap.read_set_self hit
    rw [treeNext_of_freed hi hm0 hfreed, bind_none]

theorem Idle.evictCache_fails_of_nil (h : Idle s .nil) (hpages : numpages ≠ 0) :
    Fails fun fuel ↦ evictCache fuel s it numpages := by
  simp only [evictCache, if_neg hpages]
  exact h.treeMin_fails.bind _

theorem Idle.evictCache_fails (h : Idle s t) (ht : t ≠ .nil) (hit : it ≠ 0)
    (hfree : s.blockdata.its.read it = none)
    (hread : s.blockdata.tree.heap.read (first t.inorder) = some nd) (hheight : nd.height = 0)
    (hpages : numpages ≠ 0) : Fails fun fuel ↦ evictCache fuel s it numpages := by
  obtain ⟨tree, -, htree, hiterator, -⟩ := h.at_.treeIterator ht hit hfree
  have hn0 : first t.inorder ≠ 0 := Heap.ne_zero_of_read hread
  have hstep : s.blockdata.tree.stepOnto (first t.inorder) = some tree := (if_pos hn0).trans htree
  obtain ⟨nd', hread', hheight'⟩ := stepOnto_height hstep hread
  have hloop : Fails fun fuel ↦ evictLoop fuel (s.visiting it tree (first t.inorder) 0)
      (first t.inorder) it :=
    ⟨0, fun fuel _ ↦ evictLoop_eq_none hit hread' (hheight'.trans hheight) 0 fuel⟩
  simp only [evictCache, if_neg hpages]
  exact (h.treeMin_returns ht).bind_fails (hiterator.bind_fails hloop)

theorem Idle.evictCache_ends (h : Idle s t) (it : Ptr) (numpages : ℕ) :
    Ends (fun fuel ↦ evictCache fuel s it numpages) fun s' ↦ ∃ u, Idle s' u := by
  by_cases hpages : numpages = 0
  · simp only [evictCache, if_pos hpages]
    exact .of_returns (Returns.of_eq rfl) ⟨t, h⟩
  by_cases ht : t = .nil
  · subst ht
    exact .inl (h.evictCache_fails_of_nil hpages)
  by_cases hit : it ≠ 0 ∧ s.blockdata.its.read it = none
  swap
  · have halloc : s.blockdata.its.alloc it ⟨0, 0⟩ = none :=
      if_neg fun hfree ↦ hit ⟨hfree.1, isNone_iff_eq_none.mp hfree.2⟩
    have hiterator : Fails fun fuel ↦ s.blockdata.treeIterator fuel it :=
      ⟨0, fun fuel _ ↦ by simp only [treeIterator, halloc, bind_eq_bind, bind_none]⟩
    simp only [evictCache, if_neg hpages]
    exact .inl ((h.treeMin_returns ht).bind_fails (hiterator.bind _))
  obtain ⟨nd, hread⟩ := h.first_mem ht
  by_cases hheight : nd.height = 0
  · exact .inl (h.evictCache_fails ht hit.1 hit.2 hread hheight hpages)
  · obtain ⟨last, hret⟩ := h.evictCache_returns ht hit.1 hit.2 hread hheight hpages
    exact .of_returns hret ⟨t, h.of_tree rfl⟩

theorem Idle.insertBlock_ends (h : Idle s t) {offset b a : Ptr}
    (hsearch : Returns (fun fuel ↦ search fuel s offset) notFoundPtr) :
    Ends (fun fuel ↦ s.insertBlock fuel offset b a) fun s' ↦ ∃ u, Idle s' u := by
  by_cases ha : a ≠ 0 ∧ s.blockdata.tree.heap.read a = none
  swap
  · obtain ⟨N, hN⟩ := hsearch
    refine .inl ⟨N, fun fuel hfuel ↦ ?_⟩
    have hfound : treeSearch defaultComparer notFoundPtr fuel s.blockdata.tree offset =
      some notFoundPtr := hN fuel hfuel
    have halloc : s.blockdata.tree.heap.alloc a ⟨offset, b, 0, 0, false, 0, 0, 0⟩ = none :=
      if_neg fun hfree ↦ ha ⟨hfree.1, isNone_iff_eq_none.mp hfree.2⟩
    simp only [insertBlock, treeInsert, hfound, halloc, ne_eq, not_true_eq_false, if_false,
      bind_eq_bind, bind_some, bind_none, map_none]
  obtain ⟨tree, u, c, hret, hat, hbelow, -, hplug, -, hcores, -⟩ :=
    h.at_.treeInsert_of_unfound (v := b) h.below hsearch ha.1 ha.2
  have hinsert : Returns (fun fuel ↦ s.insertBlock fuel offset b a)
      { s with blockdata := { s.blockdata with tree := tree } } := hret.map rfl
  refine .of_returns hinsert ⟨u, hat, hbelow, ?_⟩
  rw [hcores]
  have hkept := h.kept
  rw [← hplug, cores_plug_nil] at hkept
  rw [cores_plug_node]
  simp only [inorder_nil, append_nil, nil_append]
  intro x hx
  rcases mem_append.mp hx with hx | hx
  · exact hkept x (mem_append_left _ hx)
  rcases mem_cons.mp hx with rfl | hx
  · exact ⟨rfl, rfl⟩
  · exact hkept x (mem_append_right _ hx)

theorem allocBlock_blockdata {offset b : Ptr} {frames : ℕ → UInt64 × UInt64}
    (h : s.allocBlock offset b frames = some s') : s'.blockdata = s.blockdata := by
  obtain ⟨blocks, -, h⟩ := bind_eq_some_iff.mp h
  obtain ⟨⟨addr, pool⟩, -, h⟩ := bind_eq_some_iff.mp h
  obtain ⟨blocks', -, h⟩ := bind_eq_some_iff.mp h
  obtain ⟨-, -, h⟩ := bind_eq_some_iff.mp h
  cases h
  rfl

theorem useBlock_blockdata {b : Ptr} (h : s.useBlock b = some s') : s'.blockdata = s.blockdata := by
  obtain ⟨blocks, -, h⟩ := bind_eq_some_iff.mp h
  obtain ⟨bd, -, h⟩ := bind_eq_some_iff.mp h
  obtain ⟨-, -, h⟩ := bind_eq_some_iff.mp h
  obtain ⟨blocks', -, h⟩ := bind_eq_some_iff.mp h
  cases h
  rfl

theorem Idle.useBlock_ends (h : Idle s t) (offset b : Ptr) :
    Ends (fun _ ↦ (s.useBlock b).bind fun s ↦
      some (b, { s with started := (offset, b) :: s.started })) fun r ↦ ∃ u, Idle r.2 u := by
  refine .of_option fun r hr ↦ ?_
  obtain ⟨s', hs', hr⟩ := bind_eq_some_iff.mp hr
  cases hr
  have hdata : s'.blockdata = s.blockdata := useBlock_blockdata hs'
  exact ⟨t, h.of_tree (congrArg tree hdata)⟩

theorem Idle.cacheStartblock_ends (h : Idle s t) (offset b a : Ptr) (frames : ℕ → UInt64 × UInt64) :
    Ends (fun fuel ↦ s.cacheStartblock fuel offset b a frames) fun r ↦ ∃ u, Idle r.2 u := by
  obtain ⟨found, hfound⟩ := h.at_.treeSearch_returns defaultComparer notFoundPtr offset
  refine (Ends.of_returns (P := (· = found)) hfound rfl).bind fun found' heq ↦ ?_
  subst heq
  by_cases hnot : found' = notFoundPtr
  swap
  · simp only [if_neg hnot]
    exact h.useBlock_ends offset found'
  subst hnot
  simp only [if_pos]
  have halloc : Ends (fun _ : ℕ ↦ s.allocBlock offset b frames) (·.blockdata = s.blockdata) :=
    .of_option fun s' hs' ↦ allocBlock_blockdata hs'
  refine halloc.bind fun s1 hs1 ↦ ?_
  have hidle : Idle s1 t := h.of_tree (congrArg tree hs1)
  have hsearch : Returns (fun fuel ↦ search fuel s1 offset) notFoundPtr := by
    simpa only [search, hs1] using hfound
  refine (hidle.insertBlock_ends hsearch).bind fun s2 hs2 ↦ ?_
  obtain ⟨u, hu⟩ := hs2
  exact hu.useBlock_ends offset b

theorem cacheDoneblock_blockdata {b : Ptr} (h : s.cacheDoneblock b = some s') :
    s'.blockdata = s.blockdata := by
  rw [cacheDoneblock] at h
  split at h
  · cases h
    rfl
  · obtain ⟨blocks, -, h⟩ := bind_eq_some_iff.mp h
    cases h
    rfl

theorem Idle.step_ends (h : ∃ t, Idle s t) (op : Op) :
    Ends (fun fuel ↦ step fuel s op) fun s' ↦ ∃ u, Idle s' u := by
  obtain ⟨t, h⟩ := h
  cases op with
  | start offset b a frames =>
    rcases h.cacheStartblock_ends offset b a frames with ⟨N, hN⟩ | ⟨r, hret, hr⟩
    · refine .inl ⟨N, fun fuel hfuel ↦ ?_⟩
      exact map_eq_none_iff.mpr (hN fuel hfuel)
    · exact .of_returns (hret.map rfl) hr
  | done b =>
    exact .of_option fun s' hs' ↦
      ⟨t, h.of_tree (congrArg tree (cacheDoneblock_blockdata hs'))⟩
  | write p v =>
    refine .of_option fun s' hs' ↦ ?_
    obtain ⟨mapped, -, hs'⟩ := bind_eq_some_iff.mp hs'
    split at hs'
    · cases hs'
      exact ⟨t, h.of_tree rfl⟩
    · cases hs'
  | evict it numpages => exact h.evictCache_ends it numpages

theorem Kept.refl_visiting (s : Cache) (it n prev o : Ptr) :
    Kept s (s.visiting it s.blockdata.tree n prev) o :=
  fun _ hb ↦ ⟨hb, fun _ hbd ↦ ⟨hbd, fun _ _ ↦ rfl, id⟩⟩

theorem evicts_of_zero (s : Cache) (it : Ptr) : Evicts s it 0 :=
  ⟨s, ∅, Returns.of_eq rfl, le_rfl, by simp,
    fun _ _ _ hb ↦ ⟨hb, fun _ hbd ↦ ⟨hbd, fun _ _ ↦ rfl, id⟩⟩⟩

theorem Idle.evicts_iff_spared (h : Idle s t) (hit : it ≠ 0)
    (hfree : s.blockdata.its.read it = none) (numpages : ℕ) :
    Evicts s it numpages ↔ Spared s numpages := by
  by_cases hpages : numpages = 0
  · subst hpages
    exact iff_of_true (evicts_of_zero s it) (.inl rfl)
  by_cases ht : t = .nil
  · subst ht
    refine iff_of_false ?_ ?_
    · rintro ⟨s', gone, hret, -⟩
      exact (h.evictCache_fails_of_nil hpages).not_returns hret
    · rintro (hzero | ⟨n, nd, hmin, -⟩)
      · exact hpages hzero
      · exact h.treeMin_fails.not_returns hmin
  obtain ⟨nd, hread⟩ := h.first_mem ht
  have hmin := h.treeMin_returns ht
  by_cases hheight : nd.height = 0
  · refine iff_of_false ?_ ?_
    · rintro ⟨s', gone, hret, -⟩
      exact (h.evictCache_fails ht hit hfree hread hheight hpages).not_returns hret
    · rintro (hzero | ⟨n, nd', hmin', hread', hheight'⟩)
      · exact hpages hzero
      · obtain rfl := hmin.unique hmin'
        rw [hread] at hread'
        cases hread'
        exact hheight' hheight
  · obtain ⟨last, hret⟩ := h.evictCache_returns ht hit hfree hread hheight hpages
    exact iff_of_true
      ⟨_, ∅, hret, Nat.zero_le _, by simp, fun o _ ↦ Kept.refl_visiting s it 0 last o⟩
      (.inr ⟨_, nd, hmin, hread, hheight⟩)

/-! ## The outcome -/

/-- **When eviction works**: no page is asked for, or the leftmost node of the tree is there and is
no leaf. -/
theorem evicts_iff (earlier : List UInt32) (cachesz : UInt32) (len : ℕ) (vmem : Vmem) (mem : Memory)
    (ops : List Op) : ∃ F, ∀ fuel ≥ F, ∀ s,
      Run.exec (step fuel) (createCache earlier cachesz len vmem mem) ops = some s →
      ∀ it ≠ 0, s.blockdata.its.read it = none → ∀ numpages,
        Evicts s it numpages ↔ Spared s numpages := by
  have hinit : ∃ t, Idle (createCache earlier cachesz len vmem mem) t :=
    ⟨_, idle_createCache earlier cachesz len vmem mem⟩
  have hstep : ∀ s op, (∃ t, Idle s t) → Ends (fun fuel ↦ step fuel s op) fun s' ↦ ∃ t, Idle s' t :=
    fun s op h ↦ Idle.step_ends h op
  obtain ⟨F, hF⟩ := Run.inv_of_ends hstep hinit ops
  refine ⟨F, fun fuel hfuel s hs it hit hfree numpages ↦ ?_⟩
  obtain ⟨t, ht⟩ := hF fuel hfuel s hs
  exact ht.evicts_iff_spared hit hfree numpages

def small : Cache := createCache [] 0x4000 0 Vmem.populated fun _ ↦ 0

def twoBlocks : List Op :=
  [.start 7 0x100 0x10 fun _ ↦ (0, 0), .start 5 0x200 0x20 fun _ ↦ (0, 0)]

theorem leftmost_twoBlocks (n k : ℕ) :
    (Run.exec (step (n + 8)) small twoBlocks).map (fun s ↦ (s.blockdata.its.read 0x30,
      treeMin (k + 8) s.blockdata.tree, (s.blockdata.tree.heap.read 0x20).map Node.height)) =
      some (none, some 0x20, some 1) := rfl

theorem evicts_twoBlocks : ∃ F, ∀ fuel ≥ F,
    ∃ s, Run.exec (step fuel) small twoBlocks = some s ∧ Evicts s 0x30 3 := by
  obtain ⟨F, hF⟩ := evicts_iff [] 0x4000 0 Vmem.populated (fun _ ↦ 0) twoBlocks
  refine ⟨max F 8, fun fuel hfuel ↦ ?_⟩
  obtain ⟨n, rfl⟩ : ∃ n, fuel = n + 8 := ⟨fuel - 8, by omega⟩
  obtain ⟨s, hs, hfacts⟩ := map_eq_some_iff.mp (leftmost_twoBlocks n 0)
  have hmin : Returns (fun k ↦ treeMin k s.blockdata.tree) 0x20 := by
    refine ⟨8, fun k hk ↦ ?_⟩
    obtain ⟨k, rfl⟩ : ∃ j, k = j + 8 := ⟨k - 8, by omega⟩
    have hk := leftmost_twoBlocks n k
    rw [hs, map_some, some.injEq, Prod.mk.injEq, Prod.mk.injEq] at hk
    exact hk.2.1
  rw [Prod.mk.injEq, Prod.mk.injEq] at hfacts
  obtain ⟨nd, hread, hheight⟩ := map_eq_some_iff.mp hfacts.2.2
  have hspared : Spared s 3 := .inr ⟨0x20, nd, hmin, hread, by omega⟩
  exact ⟨s, hs, (hF (n + 8) (by omega) s hs 0x30 (by decide) hfacts.1 3).mpr hspared⟩

/-- **A cache with one block in use, and one with none**: eviction never returns. -/
theorem not_evicts_oneBlock : ¬ Evicts small 0x30 1 ∧ ∀ fuel ≥ 8,
    ∃ s, Run.exec (step fuel) small [.start 7 0x100 0x10 fun _ ↦ (0, 0)] = some s ∧
      (s.blocks.read 0x100).map Block.refcount = some 1 ∧ ¬ Evicts s 0x30 1 := by
  have hfails : ∀ s : Cache, (∀ k, evictCache (k + 8) s 0x30 1 = none) → ¬ Evicts s 0x30 1 := by
    rintro s hs ⟨s', gone, hret, -⟩
    exact Fails.not_returns ⟨8, fun k hk ↦ Nat.sub_add_cancel hk ▸ hs (k - 8)⟩ hret
  refine ⟨hfails small fun k ↦ rfl, fun fuel hfuel ↦ ?_⟩
  obtain ⟨n, rfl⟩ : ∃ n, fuel = n + 8 := ⟨fuel - 8, by omega⟩
  have hrun : ∀ k, (Run.exec (step (n + 8)) small [.start 7 0x100 0x10 fun _ ↦ (0, 0)]).map
      (fun s ↦ ((s.blocks.read 0x100).map Block.refcount, evictCache (k + 8) s 0x30 1)) =
      some (some 1, none) := fun k ↦ rfl
  obtain ⟨s, hs, hfacts⟩ := map_eq_some_iff.mp (hrun 0)
  refine ⟨s, hs, (Prod.mk.injEq .. ▸ hfacts).1, hfails s fun k ↦ ?_⟩
  have hk := hrun k
  rw [hs, map_some, some.injEq, Prod.mk.injEq] at hk
  exact hk.2

end ForgeOS.Cache
