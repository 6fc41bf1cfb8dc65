import ForgeOS.Lib.Ledger
import ForgeOS.Tree.Browse
import ForgeOS.Tree.Traversal

/-!
# Who frees a node

`free_node_if_needed` calls `remove_node` and then frees the node once more.  And whoever frees a
node, iterators that have come from it keep its address in `prev`.

The main result is `frees_of_undisturbed`.
-/

namespace ForgeOS.Tree

open BinaryTree Ledger Function List Option Heap Run Iterated

variable {K V : Type} (cmp : K → K → ℤ) (notFound : V)

def removeNodeFrees (n : Ptr) : List Ptr := [n]

def freeNodeIfNeededFrees (s : Tree K V) (n : Ptr) : List Ptr :=
  match s.heap.read n with
  | none => []
  | some nd => if nd.refcount = 0 ∧ nd.delete = true then removeNodeFrees n ++ [n] else []

/-- What is freed when an iterator leaves the node `p`. -/
def leaveFrees (s : Tree K V) (p : Ptr) : List Ptr :=
  match s.release p with
  | none => []
  | some s => freeNodeIfNeededFrees s p

def treeDeleteFrees [DecidableEq V] (fuel : ℕ) (s : Tree K V) (k : K) : List Ptr :=
  if s.len = 0 then []
  else
    Option.getD (do
      let found ← treeSearch cmp notFound fuel s k
      if found = notFound then some []
      else do
        let n ← find cmp fuel s k s.root
        if n = 0 then some []
        else do
          let nd ← s.heap.read n
          if nd.refcount = 0 then some (removeNodeFrees n) else some []) []

/-- What `tree_insert` allocates, when `malloc` returns the address `a`. -/
def treeInsertMallocs [DecidableEq V] (fuel : ℕ) (s : Tree K V) (a : Ptr) (k : K) : List Ptr :=
  if treeSearch cmp notFound fuel s k = some notFound then [a] else []

variable {fuel : ℕ} {k : K} {a : Ptr}

theorem counts_ne_of_treeDelete {cmp : K → K → ℤ} {notFound : V} [DecidableEq V] {s s' : Tree K V}
    (h : treeDelete cmp notFound fuel s k = some s') (ha : s'.counts a ≠ none) :
    s.counts a ≠ none := by
  rcases treeDelete_counts h with heq | ⟨n, -, heq⟩
  · rwa [heq] at ha
  · rw [heq] at ha
    by_cases han : a = n
    · rw [han, update_self] at ha
      exact absurd rfl ha
    · rwa [update_of_ne han] at ha

namespace Iterated

/-- The calls of `malloc` and `free` for nodes of the tree. -/
def events [DecidableEq V] (fuel : ℕ) (s : Iterated K V) : Op K V → List (Event Ptr)
  | .insert a k _ => (treeInsertMallocs cmp notFound fuel s.tree a k).map .malloc
  | .delete k => (treeDeleteFrees cmp notFound fuel s.tree k).map .free
  | .next i | .prev i =>
    match s.its.read i with
    | none => []
    | some it => if it.n = 0 then [] else (leaveFrees s.tree it.n).map .free
  | .iterator _ | .deliterator _ => []

/-! ## The invariant -/

/-- No node is removed that an iterator has come from, and no iterator leaves a node as the last one
that is marked for deletion. -/
def Undisturbed (s : Iterated K V) : Op K V → Prop
  | .delete k => ∀ i it nd, s.its.read i = some it → s.tree.heap.read it.prev = some nd →
      nd.key = k → nd.refcount ≠ 0
  | .next i | .prev i => ∀ it nd, s.its.read i = some it → s.tree.heap.read it.n = some nd →
      nd.delete = true → wordDec nd.refcount ≠ 0
  | _ => True

variable {cmp notFound} {s : Iterated K V} {t : Shape K V} {i : Ptr} {it : Iterator}

/-- The tree in memory has the shape `t`, its nodes are all the nodes there are, and the iterators
have come from nodes of the tree. -/
structure Owned (cmp : K → K → ℤ) (notFound : V) (s : Iterated K V) (t : Shape K V) : Prop where
  stores : Stores cmp notFound s.tree t
  owned : ∀ a, s.tree.counts a ≠ none → a ∈ addrs t
  prev : ∀ i it, s.its.read i = some it → it.prev = 0 ∨ it.prev ∈ addrs t

variable {s' : Iterated K V} {u : Shape K V}

theorem Owned.of_same (h : Owned cmp notFound s t) (hst : Stores cmp notFound s'.tree u)
    (haddrs : addrs u = addrs t) (hdom : ∀ a, s'.tree.counts a ≠ none → s.tree.counts a ≠ none)
    (hprev : ∀ i it, s'.its.read i = some it → it.prev = 0 ∨ it.prev ∈ addrs t) :
    Owned cmp notFound s' u where
  stores := hst
  owned a ha := haddrs ▸ h.owned a (hdom a ha)
  prev i it hit := haddrs ▸ hprev i it hit

/-- What is allocated in memory are the nodes of the tree. -/
theorem Owned.read_ne_none_iff (h : Owned cmp notFound s t) (a : Ptr) :
    s.tree.heap.read a ≠ none ↔ a ∈ addrs t := by
  refine ⟨fun ha ↦ h.owned a ?_, fun ha hfree ↦ ?_⟩
  · rwa [counts, Ne, map_eq_none_iff]
  · exact h.stores.at_.notMem_of_free hfree (mem_append_left _ ha)

theorem Owned.prev_set (h : Owned cmp notFound s t) (hi : i ≠ 0) {p : Iterator}
    (hp : p.prev = 0 ∨ p.prev ∈ addrs t) (j : Ptr) (it : Iterator)
    (hit : (s.its.set i p).read j = some it) : it.prev = 0 ∨ it.prev ∈ addrs t := by
  by_cases hj : j = i
  · subst hj
    obtain rfl := some.inj ((read_set_self hi).symm.trans hit)
    exact hp
  · rw [read_set_of_ne hj] at hit
    exact h.prev j it hit

theorem leaveFrees_eq_nil {tree : Tree K V} {p : Ptr}
    (h : ∀ nd, tree.heap.read p = some nd → nd.delete = true → wordDec nd.refcount ≠ 0) :
    leaveFrees tree p = [] := by
  cases hread : tree.heap.read p with
  | none => simp [leaveFrees, release, modify, Heap.modify, hread]
  | some nd =>
    obtain ⟨tree', htree', -, -, hnew, -⟩ :=
      modify_spec hread fun nd ↦ { nd with refcount := wordDec nd.refcount }
    have hrelease : tree.release p = some tree' := htree'
    have hnot : ¬ (wordDec nd.refcount = 0 ∧ nd.delete = true) := fun hdue ↦
      h nd hread hdue.2 hdue.1
    simp only [leaveFrees, hrelease, freeNodeIfNeededFrees, hnew, if_neg hnot]

theorem Owned.leaveFor (d : Side) (h : Owned cmp notFound s t) {n : Ptr}
    (hkeep : ∀ nd, s.tree.heap.read n = some nd → nd.delete = true → wordDec nd.refcount ≠ 0) :
    (∀ fuel, Tree.leaveFor d fuel s.tree n = none) ∨
      n ∈ addrs t ∧ ∃ m tree u, Returns (fun fuel ↦ Tree.leaveFor d fuel s.tree n) (m, false, tree) ∧
        Stores cmp notFound tree u ∧ addrs u = addrs t ∧
        ∀ a, tree.counts a ≠ none → s.tree.counts a ≠ none := by
  by_cases hn : n ∈ addrs t
  · refine .inr ⟨hn, ?_⟩
    obtain ⟨m, hm, hneighbour⟩ := h.stores.at_.neighbour_returns d hn
    have hkeep' : ∀ x ∈ cores t, x.addr = n → x.delete = true → wordDec x.refcount ≠ 0 := by
      rintro x hx rfl hdelete
      obtain ⟨nd, hnd, -, hcount, hmarked⟩ := h.stores.at_.read_core hx
      exact hcount ▸ hkeep nd hnd (hmarked.trans hdelete)
    obtain ⟨tree, u, hret, hu⟩ := h.stores.at_.leaveFor hn hneighbour hm hkeep'
    have hcounts := (onlyCounts_withCount (K := K) (V := V) m wordInc).comp
      (onlyCounts_withCount n wordDec)
    refine ⟨m, tree, u, hret, (h.stores.of_revised hcounts.toKeepsEntries hu).1,
      hu.addrs hcounts.toKeepsEntries, fun a ha ↦ ?_⟩
    obtain ⟨N, hN⟩ := hret
    exact counts_ne_of_leaveFor (hN N le_rfl) ha
  · refine .inl fun fuel ↦ ?_
    have hnone : s.tree.heap.read n = none :=
      not_not.mp fun hsome ↦ hn ((h.read_ne_none_iff n).mp hsome)
    simp [Tree.leaveFor, neighbour, hnone]

def nodes (t : Shape K V) : Finset Ptr := (addrs t).toFinset

/-- How a call ends for the ledger: it can be entered, and if the call returns, what is out are the
nodes of the tree again. -/
def Entered [DecidableEq V] (cmp : K → K → ℤ) (notFound : V) (s : Iterated K V) (t : Shape K V)
    (op : Op K V) : Prop :=
  ∃ out, Returns (fun fuel ↦ exec post (nodes t) (events cmp notFound fuel s op)) out ∧
    (Fails (fun fuel ↦ s.step cmp notFound fuel op) ∨
      ∃ s', Returns (fun fuel ↦ s.step cmp notFound fuel op) s' ∧
        ∃ u, Owned cmp notFound s' u ∧ out = nodes u)

variable [DecidableEq V]

theorem entered_of_same {op : Op K V}
    (hevents : Returns (fun fuel ↦ some (events cmp notFound fuel s op)) [])
    (hret : Returns (fun fuel ↦ s.step cmp notFound fuel op) s') (hu : Owned cmp notFound s' u)
    (haddrs : addrs u = addrs t) : Entered cmp notFound s t op := by
  obtain ⟨N, hN⟩ := hevents
  refine ⟨nodes t, ⟨N, fun fuel hfuel ↦ ?_⟩, .inr ⟨s', hret, u, hu, ?_⟩⟩
  · show exec post (nodes t) (events cmp notFound fuel s op) = _
    rw [some.inj (hN fuel hfuel)]
    rfl
  · rw [nodes, nodes, haddrs]

theorem entered_of_fails {op : Op K V} (hevents : ∀ fuel, events cmp notFound fuel s op = [])
    (hfails : Fails (fun fuel ↦ s.step cmp notFound fuel op)) : Entered cmp notFound s t op := by
  refine ⟨nodes t, ⟨0, fun fuel _ ↦ ?_⟩, .inl hfails⟩
  show exec post (nodes t) (events cmp notFound fuel s op) = _
  rw [hevents]
  rfl

section Calls

variable [DecidableEq K]

theorem Owned.entered_insert (hcmp : TotalComparer cmp) (h : Owned cmp notFound s t) {v : V}
    (hop : s.Allowed notFound (.insert a k v)) : Entered cmp notFound s t (.insert a k v) := by
  obtain ⟨ha, hfree, hv⟩ := hop
  have hsearch : ∀ fuel > t.height, treeSearch cmp notFound fuel s.tree k =
      some (((contents t).lookup k).getD notFound) := fun fuel ↦ h.stores.treeSearch hcmp k
  by_cases hk : k ∈ contents t
  · obtain ⟨v', hv'⟩ := Finmap.mem_iff.mp hk
    refine entered_of_same ⟨t.height + 1, fun fuel hfuel ↦ ?_⟩
      ((h.stores.treeInsert_of_mem hcmp hk).map rfl) h rfl
    have hfound : v' ≠ notFound := h.stores.lookup_ne hv'
    simp [events, treeInsertMallocs, hsearch fuel hfuel, hv', hfound]
  · obtain ⟨tree, u, hret, hst, xs, ys, ht, hu⟩ :=
      h.stores.treeInsert_of_notMem hcmp hk ha hfree hv
    have hperm : (addrs u).Perm (a :: addrs t) := addrs_perm_of_middle ht hu
    have hnotin : a ∉ nodes t := by
      rw [nodes, List.mem_toFinset]
      exact fun hmem ↦ h.stores.at_.notMem_of_free hfree (mem_append_left _ hmem)
    have hreturns : Returns (fun fuel ↦ s.step cmp notFound fuel (.insert a k v)) ⟨tree, s.its⟩ :=
      hret.map rfl
    obtain ⟨N, hN⟩ := hret
    refine ⟨insert a (nodes t), ⟨t.height + 1, fun fuel hfuel ↦ ?_⟩,
      .inr ⟨⟨tree, s.its⟩, hreturns, u, ⟨hst, owned_insert h.owned (hN N le_rfl) ht hu, ?_⟩, ?_⟩⟩
    · have hnone : treeSearch cmp notFound fuel s.tree k = some notFound := by
        rw [hsearch fuel hfuel, Finmap.lookup_eq_none.mpr hk]
        rfl
      show exec post (nodes t) (events cmp notFound fuel s (.insert a k v)) = _
      rw [events, treeInsertMallocs, if_pos hnone]
      exact exec_cons_eq_some.mpr ⟨_, post_malloc hnotin, rfl⟩
    · intro i it hit
      exact (h.prev i it hit).imp_right fun hmem ↦ hperm.mem_iff.mpr (mem_cons_of_mem _ hmem)
    · unfold nodes
      rw [toFinset_eq_of_perm _ _ hperm, toFinset_cons]

variable {x : Cell K V}

omit [DecidableEq K] in
theorem treeDeleteFrees_of_mem (hcmp : TotalComparer cmp) (h : Stores cmp notFound s.tree t)
    (hx : x ∈ cores t) (hfuel : t.height < fuel) :
    treeDeleteFrees cmp notFound fuel s.tree x.key = if x.refcount = 0 then [x.addr] else [] := by
  have hlen : s.tree.len ≠ 0 := by
    rw [h.len]
    exact length_pos_of_mem hx |>.ne'
  have hval : x.val ≠ notFound := h.ordered.vals x hx
  obtain ⟨c, z, l, r, rfl, hat, hfind⟩ := h.at_.find_core hcmp h.sorted hx
  have hfind' : find cmp fuel s.tree z.key s.tree.root = some z.addr := hfind fuel hfuel
  have hsearch : treeSearch cmp notFound fuel s.tree z.key = some z.val :=
    hat.treeSearch_of_find hlen hfind'
  have hread := hat.rep.1
  show treeDeleteFrees cmp notFound fuel s.tree z.key = if z.refcount = 0 then [z.addr] else []
  simp only [treeDeleteFrees, if_neg hlen, hsearch, bind_eq_bind, bind_some,
    if_neg (show ¬ z.val = notFound from hval), hfind', if_neg (ne_zero_of_read hread), hread,
    toNode_refcount]
  split <;> rfl

theorem treeDeleteFrees_of_notMem (hcmp : TotalComparer cmp) (h : Stores cmp notFound s.tree t)
    (hk : k ∉ contents t) (hfuel : t.height < fuel) :
    treeDeleteFrees cmp notFound fuel s.tree k = [] := by
  have hsearch : treeSearch cmp notFound fuel s.tree k = some notFound := by
    rw [h.treeSearch hcmp k hfuel, Finmap.lookup_eq_none.mpr hk]
    rfl
  by_cases hlen : s.tree.len = 0
  · exact if_pos hlen
  · simp [treeDeleteFrees, hlen, hsearch]

omit [DecidableEq K] in
theorem Owned.entered_mark (hcmp : TotalComparer cmp) (h : Owned cmp notFound s t)
    (hx : x ∈ cores t) (hcount : x.refcount ≠ 0) : Entered cmp notFound s t (.delete x.key) := by
  have hevents : Returns (fun fuel ↦ some (events cmp notFound fuel s (.delete x.key))) [] := by
    refine ⟨t.height + 1, fun fuel hfuel ↦ ?_⟩
    show some (events cmp notFound fuel s (.delete x.key)) = some []
    rw [events, treeDeleteFrees_of_mem hcmp h.stores hx hfuel, if_neg hcount]
    rfl
  have hcases : Returns (fun fuel ↦ treeDelete cmp notFound fuel s.tree x.key) s.tree ∨ _ :=
    h.stores.at_.treeDelete_cases hcmp h.stores.sorted hx
  rcases hcases with hret | ⟨tree, u, hret, hu⟩ | ⟨hzero, -⟩
  · exact entered_of_same hevents (hret.map rfl) h rfl
  · have hmark : KeepsEntries (Tree.revise (K := K) (V := V) x.addr mark) := by
      refine ⟨fun y ↦ ?_, fun y ↦ ?_, fun y ↦ ?_⟩ <;> (unfold Tree.revise; split <;> rfl)
    have howned : Owned cmp notFound ⟨tree, s.its⟩ u := by
      refine h.of_same (h.stores.of_revised hmark hu).1 (hu.addrs hmark) (fun a ha ↦ ?_) h.prev
      obtain ⟨N, hN⟩ := hret
      exact counts_ne_of_treeDelete (hN N le_rfl) ha
    exact entered_of_same hevents (hret.map rfl) howned (hu.addrs hmark)
  · exact absurd hzero hcount

theorem Owned.entered_delete (hcmp : TotalComparer cmp) (h : Owned cmp notFound s t)
    (hset : s.Undisturbed (.delete k)) : Entered cmp notFound s t (.delete k) := by
  by_cases hk : k ∈ contents t
  swap
  · refine entered_of_same ⟨t.height + 1, fun fuel hfuel ↦ ?_⟩
      ((h.stores.treeDelete_of_notMem hcmp hk).map rfl) h rfl
    show some (events cmp notFound fuel s (.delete k)) = some []
    rw [events, treeDeleteFrees_of_notMem hcmp h.stores hk hfuel]
    rfl
  obtain ⟨y, hy, rfl⟩ := mem_contents.mp hk
  have hx : y.core ∈ cores t := mem_map_of_mem hy
  by_cases hcount : y.refcount = 0
  swap
  · have hmark : Entered cmp notFound s t (.delete y.core.key) := h.entered_mark hcmp hx hcount
    exact hmark
  have hidle : ∀ z ∈ cores t, z.key = y.key → z.refcount = 0 := by
    intro z hz hzy
    rw [inj_on_of_nodup_map (nodup_keys hcmp h.stores.sorted) hz hx hzy]
    exact hcount
  obtain ⟨tree, u, hret, hst, xs, x, ys, hkey, ht, hu, hcounts⟩ :=
    h.stores.treeDelete_of_mem hcmp hk hidle
  have hx' : x ∈ cores t := by simp [ht]
  have hperm : (addrs t).Perm (x.addr :: addrs u) := addrs_perm_of_middle hu ht
  have hmem : x.addr ∈ nodes t := mem_toFinset.mpr (hperm.mem_iff.mpr mem_cons_self)
  refine ⟨(nodes t).erase x.addr, ⟨t.height + 1, fun fuel hfuel ↦ ?_⟩,
    .inr ⟨⟨tree, s.its⟩, hret.map rfl, u, ⟨hst, owned_delete h.owned hcounts ht hu, ?_⟩, ?_⟩⟩
  · show exec post (nodes t) (events cmp notFound fuel s (.delete y.key)) = _
    rw [events, ← hkey, treeDeleteFrees_of_mem hcmp h.stores hx' hfuel, if_pos (hidle x hx' hkey)]
    exact exec_cons_eq_some.mpr ⟨_, post_free hmem, rfl⟩
  · intro i it hit
    refine (h.prev i it hit).imp_right fun hprev ↦ ?_
    refine (mem_cons.mp (hperm.mem_iff.mp hprev)).resolve_left fun heq ↦ ?_
    -- The iterator would have come from the node that is removed.
    obtain ⟨nd, hnd, hndkey, hndcount, -⟩ := h.stores.at_.read_core hx'
    refine hset i it nd hit (heq ▸ hnd) (hndkey.trans hkey) ?_
    rw [hndcount, hidle x hx' hkey]
  · have hnd : (x.addr :: addrs u).Nodup := hperm.nodup h.stores.at_.nodup_addrs
    have hnotin : x.addr ∉ (addrs u).toFinset := by
      rw [List.mem_toFinset]
      exact (nodup_cons.mp hnd).1
    unfold nodes
    rw [toFinset_eq_of_perm _ _ hperm, toFinset_cons, Finset.erase_insert hnotin]

end Calls

theorem Owned.entered_iterator (h : Owned cmp notFound s t)
    (hop : s.Allowed notFound (.iterator i)) : Entered cmp notFound s t (.iterator i) := by
  obtain ⟨hroot, hi, hfree⟩ := hop
  have hptr : s.tree.root = ptr t := h.stores.at_.around
  have ht : t ≠ .nil := by
    rintro rfl
    exact hroot hptr
  obtain ⟨tree, u, htree, hret, hu⟩ := h.stores.at_.treeIterator ht hi hfree
  have hcounts := (onlyCounts_withCount (K := K) (V := V) (first t.inorder) wordInc).toKeepsEntries
  have howned : Owned cmp notFound ⟨tree, s.its.set i ⟨first t.inorder, 0⟩⟩ u := by
    exact h.of_same (h.stores.of_revised hcounts hu).1 (hu.addrs hcounts)
      (fun a ha ↦ counts_ne_of_modify htree ha) (h.prev_set hi (.inl rfl))
  exact entered_of_same (.of_eq rfl) hret howned (hu.addrs hcounts)

theorem Owned.entered_leave (d : Side) (h : Owned cmp notFound s t) {op : Op K V} {it : Iterator}
    (hit : s.its.read i = some it)
    (hkeep : ∀ nd, s.tree.heap.read it.n = some nd → nd.delete = true → wordDec nd.refcount ≠ 0)
    (hevents : ∀ fuel, events cmp notFound fuel s op = []) (prev : Ptr → Bool → Ptr)
    (hstep : ∀ fuel, s.step cmp notFound fuel op = (Tree.leaveFor d fuel s.tree it.n).map
      fun r ↦ ⟨r.2.2, s.its.set i ⟨r.1, prev r.1 r.2.1⟩⟩)
    (hprev : ∀ m, it.n ∈ addrs t → prev m false = 0 ∨ prev m false ∈ addrs t) :
    Entered cmp notFound s t op := by
  rcases h.leaveFor d hkeep with hfault | ⟨hmem, m, tree, u, hret, hst, haddrs, hdom⟩
  · refine entered_of_fails hevents ⟨0, fun fuel _ ↦ ?_⟩
    simp only [hstep, hfault fuel, map_none]
  · have howned : Owned cmp notFound ⟨tree, s.its.set i ⟨m, prev m false⟩⟩ u :=
      h.of_same hst haddrs hdom (h.prev_set (ne_zero_of_read hit) (hprev m hmem))
    refine entered_of_same ⟨0, fun fuel _ ↦ congrArg some (hevents fuel)⟩ ?_ howned haddrs
    obtain ⟨N, hN⟩ := hret
    refine ⟨N, fun fuel hfuel ↦ ?_⟩
    simp only [hstep, hN fuel hfuel, map_some]

theorem Owned.entered_next (h : Owned cmp notFound s t) (hop : s.Allowed notFound (.next i))
    (hset : s.Undisturbed (.next i)) : Entered cmp notFound s t (.next i) := by
  obtain ⟨it, hit⟩ := ne_none_iff_exists'.mp hop
  have hkeep := fun nd hnd ↦ hset it nd hit hnd
  have hevents : ∀ fuel, events cmp notFound fuel s (.next i) = [] := by
    simp [events, hit, leaveFrees_eq_nil hkeep]
  by_cases hn : it.n = 0
  · refine entered_of_same ⟨0, fun fuel _ ↦ congrArg some (hevents fuel)⟩ ⟨0, fun fuel _ ↦ ?_⟩ h rfl
    simp [step, treeNext, hit, hn]
  refine h.entered_leave .right hit hkeep hevents (fun _ freed ↦ if freed then it.prev else it.n)
    (fun fuel ↦ ?_) fun m hmem ↦ .inr hmem
  simp [step, treeNext, hit, hn, map_eq_bind, bind_assoc]

theorem Owned.entered_prev (h : Owned cmp notFound s t) (hop : s.Allowed notFound (.prev i))
    (hset : s.Undisturbed (.prev i)) : Entered cmp notFound s t (.prev i) := by
  obtain ⟨it, hit⟩ := ne_none_iff_exists'.mp hop
  have hkeep := fun nd hnd ↦ hset it nd hit hnd
  have hevents : ∀ fuel, events cmp notFound fuel s (.prev i) = [] := by
    simp [events, hit, leaveFrees_eq_nil hkeep]
  by_cases hn : it.n = 0
  · by_cases hprev : it.prev ∈ addrs t
    · obtain ⟨tree, u, htree, hu⟩ := h.stores.at_.setRefcount hprev wordInc
      have hretain : s.tree.retain it.prev = some tree := htree
      have hcounts := (onlyCounts_withCount (K := K) (V := V) it.prev wordInc).toKeepsEntries
      have howned : Owned cmp notFound ⟨tree, s.its.set i ⟨it.prev, it.prev⟩⟩ u :=
        h.of_same (h.stores.of_revised hcounts hu).1 (hu.addrs hcounts)
          (fun a ha ↦ counts_ne_of_modify htree ha)
          (h.prev_set (ne_zero_of_read hit) (.inr hprev))
      refine entered_of_same ⟨0, fun fuel _ ↦ congrArg some (hevents fuel)⟩ ⟨0, fun fuel _ ↦ ?_⟩
        howned (hu.addrs hcounts)
      simp [step, treePrev, hit, hn, hretain]
    · have hprev0 : it.prev = 0 := (h.prev i it hit).resolve_right hprev
      refine entered_of_fails hevents ⟨0, fun fuel _ ↦ ?_⟩
      simp [step, treePrev, hit, hn, hprev0, retain, modify, Heap.modify]
  refine h.entered_leave .left hit hkeep hevents (fun m _ ↦ if m ≠ 0 then it.n else it.prev)
    (fun fuel ↦ ?_) fun m hmem ↦ ?_
  · simp [step, treePrev, hit, hn, map_eq_bind, bind_assoc]
  · split
    · exact .inr hmem
    · exact h.prev i it hit

theorem Owned.entered_deliterator (h : Owned cmp notFound s t)
    (hop : s.Allowed notFound (.deliterator i)) : Entered cmp notFound s t (.deliterator i) := by
  obtain ⟨it, hit⟩ := ne_none_iff_exists'.mp hop
  have howned : Owned cmp notFound { s with its := s.its.erase i } t := by
    refine h.of_same h.stores rfl (fun _ ha ↦ ha) fun j it hj ↦ ?_
    by_cases hji : j = i
    · subst hji
      rw [read_erase_self] at hj
      cases hj
    · rw [read_erase_of_ne hji] at hj
      exact h.prev j it hj
  refine entered_of_same (.of_eq rfl) ⟨0, fun fuel _ ↦ ?_⟩ howned rfl
  simp only [step, treeDeliterator, if_neg (ne_zero_of_read hit), free_eq hit,
    map_some]

theorem Owned.entered [DecidableEq K] (hcmp : TotalComparer cmp) (h : Owned cmp notFound s t)
    {op : Op K V} (hop : s.Allowed notFound op) (hset : s.Undisturbed op) :
    Entered cmp notFound s t op := by
  cases op with
  | insert a k v => exact h.entered_insert hcmp hop
  | delete k => exact h.entered_delete hcmp hset
  | iterator i => exact h.entered_iterator hop
  | next i => exact h.entered_next hop hset
  | prev i => exact h.entered_prev hop hset
  | deliterator i => exact h.entered_deliterator hop

/-! ## Whole runs -/

omit [DecidableEq V] in
theorem owned_new : Owned cmp notFound (new 0 : Iterated K V) .nil where
  stores := stores_empty rfl rfl
  owned a ha := by simp [new, counts] at ha
  prev i it hit := by simp [new] at hit

/-- **Every node is freed exactly once**, in every run in which no node is removed that an iterator
has come from and no marked node is left by its last iterator.  What has been allocated and not freed
is what the memory holds, and these are the nodes of the tree. -/
theorem frees_of_undisturbed [DecidableEq K] (hcmp : TotalComparer cmp) (ops : List (Op K V)) :
    ∃ N, ∀ fuel ≥ N, Guarded (step cmp notFound fuel)
        (fun s op ↦ s.Allowed notFound op ∧ s.Undisturbed op) (new 0) ops →
      ∃ out, exec post ∅ (trace (step cmp notFound fuel)
          (events cmp notFound fuel) (new 0) ops) = some out ∧
        ∀ s', exec (step cmp notFound fuel) (new 0) ops = some s' →
          (∀ a, s'.tree.heap.read a ≠ none ↔ a ∈ out) ∧
          (∃ t, At s'.tree [] t ∧ out = (addrs t).toFinset) ∧
          ∀ i it, s'.its.read i = some it → it.prev = 0 ∨ it.prev ∈ out := by
  have hstep : ∀ (s : Iterated K V) out op, (∃ t, Owned cmp notFound s t ∧ out = nodes t) →
      s.Allowed notFound op ∧ s.Undisturbed op →
      ∃ out', Returns (fun fuel ↦ exec post out (events cmp notFound fuel s op)) out' ∧
        (Fails (fun fuel ↦ s.step cmp notFound fuel op) ∨
          ∃ s', Returns (fun fuel ↦ s.step cmp notFound fuel op) s' ∧
            ∃ u, Owned cmp notFound s' u ∧ out' = nodes u) := by
    rintro s out op ⟨t, h, rfl⟩ ⟨hop, hset⟩
    exact h.entered hcmp hop hset
  have hinit : ∃ t, Owned cmp notFound (new 0 : Iterated K V) t ∧ ∅ = nodes t :=
    ⟨.nil, owned_new, rfl⟩
  obtain ⟨N, hN⟩ := emits_of_guarded hstep hinit ops
  refine ⟨N, fun fuel hfuel hg ↦ ?_⟩
  obtain ⟨out, hout, hend⟩ := hN fuel hfuel hg
  refine ⟨out, hout, fun s' hs' ↦ ?_⟩
  obtain ⟨t, h, rfl⟩ := hend s' hs'
  refine ⟨fun a ↦ ?_, ⟨t, h.stores.at_, rfl⟩, fun i it hit ↦ ?_⟩
  · rw [h.read_ne_none_iff, nodes, List.mem_toFinset]
  · exact (h.prev i it hit).imp_right mem_toFinset.mpr

def afterwards : List (Op Ptr Ptr) :=
  [.insert 0x10 5 50, .iterator 0x100, .next 0x100, .deliterator 0x100, .delete 5]

theorem guarded_afterwards (n : ℕ) :
    Guarded (step defaultComparer notFoundPtr (n + 8))
      (fun s op ↦ s.Allowed notFoundPtr op ∧ s.Undisturbed op) (new 0) afterwards := by
  let h1 : Heap Ptr (Node Ptr Ptr) := Heap.empty.set 0x10 ⟨5, 50, 0, 0, false, 0, 0, 0⟩
  let h2 := h1.set 0x10 ⟨5, 50, 0, 1, false, 0, 0, 0⟩
  let h3 := h2.set 0x10 ⟨5, 50, 0, 0, false, 0, 0, 0⟩
  let i1 : Heap Ptr Iterator := (Heap.empty.set 0x100 ⟨0, 0⟩).set 0x100 ⟨0x10, 0⟩
  let i2 := i1.set 0x100 ⟨0, 0x10⟩
  refine .cons (t := ⟨⟨0x10, 1, h1⟩, Heap.empty⟩) ⟨⟨by decide, rfl, by decide⟩, trivial⟩ rfl ?_
  refine .cons (t := ⟨⟨0x10, 1, h2⟩, i1⟩) ⟨⟨by decide, by decide, rfl⟩, trivial⟩ rfl ?_
  refine .cons (t := ⟨⟨0x10, 1, h3⟩, i2⟩) ⟨some_ne_none _, fun it nd hit hnd hdelete ↦ ?_⟩ rfl ?_
  · obtain rfl := some.inj hit
    obtain rfl := some.inj hnd
    cases hdelete
  refine .cons (t := ⟨⟨0x10, 1, h3⟩, i2.erase 0x100⟩) ⟨some_ne_none _, trivial⟩ rfl ?_
  refine ⟨⟨trivial, fun i it nd hit ↦ ?_⟩, fun t ht ↦ trivial⟩
  have hi : i ≠ 0x100 := by
    rintro rfl
    rw [read_erase_self] at hit
    cases hit
  rw [read_erase_of_ne hi, read_set_of_ne hi, read_set_of_ne hi,
    read_set_of_ne hi] at hit
  cases hit

theorem frees_afterwards : ∃ N, ∀ fuel ≥ N,
    ∃ out, exec post ∅ (trace (step defaultComparer notFoundPtr fuel)
        (events defaultComparer notFoundPtr fuel) (new 0) afterwards) = some out ∧
      ∀ s', exec (step defaultComparer notFoundPtr fuel) (new 0) afterwards = some s' →
        (∀ a, s'.tree.heap.read a ≠ none ↔ a ∈ out) ∧
        (∃ t, At s'.tree [] t ∧ out = (addrs t).toFinset) ∧
        ∀ i it, s'.its.read i = some it → it.prev = 0 ∨ it.prev ∈ out := by
  obtain ⟨N, hN⟩ := frees_of_undisturbed totalComparer_default afterwards
  refine ⟨N + 8, fun fuel hfuel ↦ ?_⟩
  obtain ⟨n, rfl⟩ : ∃ n, fuel = n + 8 := ⟨fuel - 8, by omega⟩
  exact hN (n + 8) (by omega) (guarded_afterwards n)

def putOff : List (Op Ptr Ptr) :=
  [.insert 0x10 5 50, .iterator 0x100, .delete 5, .next 0x100]

def cameFrom : List (Op Ptr Ptr) :=
  [.insert 0x10 5 50, .insert 0x20 7 70, .iterator 0x100, .next 0x100, .delete 5]

/-- **The deferred removal frees a node twice, the immediate one leaves its address** in an
iterator. -/
theorem not_frees_putOff :
    trace (step defaultComparer notFoundPtr 8) (events defaultComparer notFoundPtr 8)
        (new 0) putOff = [.malloc 0x10, .free 0x10, .free 0x10] ∧
      exec post ∅ (trace (step defaultComparer notFoundPtr 8)
        (events defaultComparer notFoundPtr 8) (new 0) putOff) = none ∧
      ∃ s', exec (step defaultComparer notFoundPtr 8) (new 0) cameFrom = some s' ∧
        s'.its.read 0x100 = some ⟨0x20, 0x10⟩ ∧ s'.tree.heap.read 0x10 = none :=
  ⟨by decide, by decide, _, rfl, rfl, rfl⟩

end Iterated
end ForgeOS.Tree
