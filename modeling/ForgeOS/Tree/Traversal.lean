import ForgeOS.Tree.Balance
import ForgeOS.Tree.Walk

/-!
# A walk over the whole tree

`tree_iterator` and then `tree_next` until `tree_iterator_eof` is how the kernel goes over all
entries of a tree.

The main result is `traverse_iff`.
-/

namespace ForgeOS.Tree

open BinaryTree Function List Option Cell Nat Heap

variable {K V : Type} {cmp : K → K → ℤ} {notFound : V} {t u : Shape K V} {x : Cell K V}
variable {xs ys : List (Cell K V)}

theorem addrs_of_cores (ht : cores t = xs ++ x :: ys) :
    addrs t = xs.map addr ++ x.addr :: ys.map addr := by
  rw [addrs_eq_map_cores, ht, map_append, map_cons]

theorem first_mem_addrs (ht : cores t = xs ++ x :: ys) :
    (first xs.reverse = 0 ∨ first xs.reverse ∈ addrs t) ∧ (first ys = 0 ∨ first ys ∈ addrs t) := by
  have hmem : ∀ zs : List (Cell K V), (∀ z ∈ zs, z ∈ cores t) → first zs = 0 ∨ first zs ∈ addrs t := by
    intro zs hzs
    cases zs with
    | nil => exact .inl rfl
    | cons z zs =>
      rw [addrs_eq_map_cores]
      exact .inr (mem_map_of_mem (hzs z mem_cons_self))
  refine ⟨hmem _ fun z hz ↦ ?_, hmem _ fun z hz ↦ ?_⟩
  · simp [ht, mem_reverse.mp hz]
  · simp [ht, hz]

theorem nodup_keys (hcmp : TotalComparer cmp) (hsorted : Sorted cmp t) :
    ((cores t).map key).Nodup := by
  have hpair : (cores t).Pairwise fun y z ↦ cmp y.key z.key < 0 := pairwise_map.mpr hsorted
  exact pairwise_map.mpr (hpair.imp fun hlt ↦ hcmp.ne hlt)

theorem At.find_core {s : Tree K V} (hcmp : TotalComparer cmp) (hat : At s [] t)
    (hsorted : Sorted cmp t) (hx : x ∈ cores t) :
    ∃ c z l r, z.core = x ∧ At s c (.node z l r) ∧
      ∀ fuel > t.height, Tree.find cmp fuel s x.key s.root = some x.addr := by
  have hroot : s.root = ptr t := hat.around
  rcases hat.find hcmp hsorted x.key with ⟨c, z, l, r, hfind, hkey, hat', hplug⟩ | ⟨-, habsent⟩
  · have hz : z.core ∈ cores t := by
      rw [← plug_nil t, ← hplug, cores_plug_node]
      simp
    obtain rfl : z.core = x := inj_on_of_nodup_map (nodup_keys hcmp hsorted) hz hx hkey
    exact ⟨c, z, l, r, rfl, hat', hroot ▸ hfind⟩
  · obtain ⟨y, hy, rfl⟩ := mem_map.mp hx
    exact absurd rfl (habsent y hy)

def mark (y : Cell K V) : Cell K V := { y with delete := true }

theorem map_revise_middle {g : Cell K V → Cell K V}
    (hnd : (xs.map addr ++ x.addr :: ys.map addr).Nodup) :
    (xs ++ x :: ys).map (Tree.revise x.addr g) = xs ++ g x :: ys := by
  rw [nodup_middle, nodup_cons, mem_append, not_or] at hnd
  obtain ⟨⟨hxs, hys⟩, -⟩ := hnd
  have hne : ∀ {zs : List (Cell K V)}, x.addr ∉ zs.map addr → ∀ z ∈ zs, z.addr ≠ x.addr :=
    fun hzs z hz heq ↦ hzs (heq ▸ mem_map_of_mem hz)
  have hself : Tree.revise x.addr g x = g x := if_pos rfl
  rw [map_append, map_cons, map_revise_of_notMem (hne hxs),
    map_revise_of_notMem (hne hys), hself]

theorem At.treeDelete_cases [DecidableEq V] {s : Tree K V} (hcmp : TotalComparer cmp)
    (hat : At s [] t) (hsorted : Sorted cmp t) (hx : x ∈ cores t) :
    Returns (fun fuel ↦ Tree.treeDelete cmp notFound fuel s x.key) s ∨
      (∃ s' u, Returns (fun fuel ↦ Tree.treeDelete cmp notFound fuel s x.key) s' ∧
        Revised s s' t u (Tree.revise x.addr mark)) ∨
      x.refcount = 0 ∧ ∃ N, ∀ fuel ≥ N, ∀ s' ∈ Tree.treeDelete cmp notFound fuel s x.key,
        s'.heap.read x.addr = none := by
  obtain ⟨c, z, l, r, rfl, hat', hfind⟩ := hat.find_core hcmp hsorted hx
  by_cases hunseen : s.len = 0 ∨ z.val = notFound
  · exact .inl ⟨t.height + 1, fun fuel hfuel ↦ hat'.treeDelete_of_unseen (hfind fuel hfuel) hunseen⟩
  obtain ⟨hlen, hval⟩ := not_or.mp hunseen
  refine .inr ?_
  have hmem : z.addr ∈ addrs t := by
    rw [addrs_eq_map_cores]
    exact mem_map.mpr ⟨z.core, hx, rfl⟩
  obtain ⟨s1, u, h1, hu⟩ := hat.revise hmem (g := mark)
    (k := fun nd ↦ { nd with delete := true }) (fun _ ↦ rfl) (fun _ ↦ rfl) (fun _ ↦ rfl)
    fun _ _ _ _ ↦ rfl
  have hcall : ∀ fuel > t.height, Tree.treeDelete cmp notFound fuel s z.key =
      if z.refcount = 0 then removeNode fuel s1 z.addr else some s1 := by
    intro fuel hfuel
    obtain ⟨s2, h2, -, heq⟩ := hat'.treeDelete_of_seen (hfind fuel hfuel) hlen hval
    obtain rfl : s2 = s1 := some.inj (h2.symm.trans h1)
    exact heq
  by_cases hidle : z.refcount = 0
  · refine .inr ⟨hidle, t.height + 1, fun fuel hfuel s' hs' ↦ ?_⟩
    have hremove : removeNode fuel s1 z.addr = some s' :=
      (if_pos hidle).symm.trans ((hcall fuel hfuel).symm.trans hs')
    have hgone := congrFun (removeNode_counts (ne_zero_of_read hat'.rep.1) hremove) z.addr
    rwa [update_self, counts, map_eq_none_iff] at hgone
  · refine .inl ⟨s1, u, ⟨t.height + 1, fun fuel hfuel ↦ ?_⟩, hu⟩
    exact (hcall fuel hfuel).trans (if_neg hidle)

variable {m : Ptr}

theorem At.leaveFor_core {s : Tree K V} {d : Side} (hat : At s [] t) (hx : x ∈ cores t)
    (hneighbour : Returns (fun fuel ↦ Tree.neighbour d fuel s x.addr) m) (hm : m = 0 ∨ m ∈ addrs t)
    (hkeep : x.delete = true → wordDec x.refcount ≠ 0) :
    ∃ s' u, Returns (fun fuel ↦ Tree.leaveFor d fuel s x.addr) (m, false, s') ∧
      Revised s s' t u (withCount m wordInc ∘ withCount x.addr wordDec) := by
  have hnd : ((cores t).map addr).Nodup := addrs_eq_map_cores t ▸ hat.nodup_addrs
  have hmem : x.addr ∈ addrs t := by
    rw [addrs_eq_map_cores]
    exact mem_map_of_mem hx
  refine hat.leaveFor hmem hneighbour hm fun y hy hyx ↦ ?_
  obtain rfl := inj_on_of_nodup_map hnd hy hx hyx
  exact hkeep

section Step

variable {s : Iterated K V} {i : Ptr} {it : Iterator}

theorem At.pos_ne_zero (hat : At s.tree [] t) (hx : x ∈ cores t) (hn : it.n = x.addr) :
    it.n ≠ 0 := by
  intro h0
  refine hat.notMem_zero ?_
  rw [addrs_eq_map_cores, ← h0, hn]
  exact mem_map_of_mem hx

theorem At.treeNext (hat : At s.tree [] t) (ht : cores t = xs ++ x :: ys)
    (hit : s.its.read i = some it) (hn : it.n = x.addr)
    (hkeep : x.delete = true → wordDec x.refcount ≠ 0) :
    ∃ tree u, Returns (fun fuel ↦ s.treeNext fuel i)
        (first ys, ⟨tree, s.its.set i ⟨first ys, x.addr⟩⟩) ∧
      Revised s.tree tree t u (withCount (first ys) wordInc ∘ withCount x.addr wordDec) := by
  have hx : x ∈ cores t := by simp [ht]
  have hn0 := hat.pos_ne_zero hx hn
  obtain ⟨tree, u, ⟨N, hN⟩, hu⟩ :=
    hat.leaveFor_core hx (hat.neighbours (addrs_of_cores ht)).1 (first_mem_addrs ht).2 hkeep
  refine ⟨tree, u, ⟨N, fun fuel hfuel ↦ ?_⟩, hu⟩
  rw [← hn] at hN ⊢
  simp only [Iterated.treeNext, hit, if_neg hn0, hN fuel hfuel, bind_eq_bind,
    bind_some, Bool.false_eq_true, if_false]
  rfl

theorem At.treePrev (hat : At s.tree [] t) (ht : cores t = xs ++ x :: ys)
    (hit : s.its.read i = some it) (hn : it.n = x.addr)
    (hkeep : x.delete = true → wordDec x.refcount ≠ 0) :
    ∃ tree u it', Returns (fun fuel ↦ s.treePrev fuel i)
        (first xs.reverse, ⟨tree, s.its.set i it'⟩) ∧ it'.n = first xs.reverse ∧
      Revised s.tree tree t u (withCount (first xs.reverse) wordInc ∘ withCount x.addr wordDec) := by
  have hx : x ∈ cores t := by simp [ht]
  have hn0 := hat.pos_ne_zero hx hn
  have hneighbour := (hat.neighbours (addrs_of_cores ht)).2
  rw [← map_reverse] at hneighbour
  obtain ⟨tree, u, ⟨N, hN⟩, hu⟩ :=
    hat.leaveFor_core hx hneighbour (first_mem_addrs ht).1 hkeep
  refine ⟨tree, u, ⟨first xs.reverse, if first xs.reverse ≠ 0 then it.n else it.prev⟩,
    ⟨N, fun fuel hfuel ↦ ?_⟩, rfl, hu⟩
  rw [← hn] at hN
  simp only [Iterated.treePrev, hit, if_neg hn0, hN fuel hfuel, bind_eq_bind,
    bind_some]
  rfl

end Step

variable {nd : Node K V} {fuel : ℕ}

theorem freeNodeIfNeeded_of_due {s : Tree K V} {n : Ptr} (hnd : s.heap.read n = some nd)
    (hdue : nd.refcount = 0 ∧ nd.delete = true) : freeNodeIfNeeded fuel s n = none := by
  rw [eq_none_iff_forall_not_mem]
  rintro ⟨freed, s'⟩ h
  obtain ⟨rfl, -⟩ := freeNodeIfNeeded_eq h
  simp only [freeNodeIfNeeded, hnd, bind_eq_bind, bind_some, if_pos hdue,
    mem_def, bind_eq_some_iff] at h
  obtain ⟨s1, -, heap, -, h⟩ := h
  cases h

variable {it : Iterator}

theorem treeNext_eq_none {s : Iterated K V} {i : Ptr} (hit : s.its.read i = some it)
    (hn : it.n ≠ 0) (h : ∀ nd ∈ s.tree.heap.read it.n, wordDec nd.refcount = 0 ∧ nd.delete = true) :
    s.treeNext fuel i = none := by
  have hleave : leaveFor .right fuel s.tree it.n = none := by
    rw [leaveFor]
    cases hread : s.tree.heap.read it.n with
    | none => simp [neighbour, hread]
    | some nd =>
      obtain ⟨tree, htree, -, -, hnew, -⟩ :=
        modify_spec hread fun nd ↦ { nd with refcount := wordDec nd.refcount }
      have hrelease : s.tree.release it.n = some tree := htree
      have hfree : freeNodeIfNeeded fuel tree it.n = none :=
        freeNodeIfNeeded_of_due hnew (h nd hread)
      simp [hrelease, hfree]
  simp only [Iterated.treeNext, hit, if_neg hn, hleave, bind_eq_bind, bind_some,
    bind_none]

namespace Iterated

variable [DecidableEq V] (cmp notFound) (choose : ℕ → Bool)

/-! ## The traversal -/

/-- The rest of a walk, from the `j`-th node on: the keys that are visited.  The key of this node is
deleted if it is chosen, before the iterator goes on. -/
def visit : ℕ → ℕ → Iterated K V → Ptr → Option (List K × Iterated K V)
  | 0, _, _, _ => none
  | fuel + 1, j, s, i => do
    let it ← s.its.read i
    -- `tree_iterator_eof`
    if it.n = 0 then some ([], s)
    else do
      let nd ← s.tree.heap.read it.n
      let tree ← if choose j then treeDelete cmp notFound fuel s.tree nd.key else some s.tree
      let (_, s) ← treeNext fuel ⟨tree, s.its⟩ i
      let (ks, s) ← visit fuel (j + 1) s i
      some (nd.key :: ks, s)

/-- A walk over the whole tree with a new iterator. -/
def traverse (fuel : ℕ) (s : Iterated K V) (i : Ptr) : Option (List K × Iterated K V) := do
  let s ← s.treeIterator fuel i
  visit cmp notFound choose fuel 0 s i

omit [DecidableEq V] in
def kept (choose : ℕ → Bool) : ℕ → List K → List K
  | _, [] => []
  | j, k :: ks => if choose j then kept choose (j + 1) ks else k :: kept choose (j + 1) ks

variable {cmp notFound choose} {s : Iterated K V} {i : Ptr} {j : ℕ} {tree : Tree K V}

section

omit [DecidableEq V]

def entered : List (Cell K V) → List (Cell K V)
  | [] => []
  | y :: ys => { y with refcount := wordInc y.refcount } :: ys

theorem first_entered (ys : List (Cell K V)) : first (entered ys) = first ys := by
  cases ys <;> rfl

theorem map_key_entered (ys : List (Cell K V)) : (entered ys).map key = ys.map key := by
  cases ys <;> rfl

theorem length_entered (ys : List (Cell K V)) : (entered ys).length = ys.length := by
  cases ys <;> rfl

theorem map_step (hx : x.addr ∉ ys.map addr) (hnd : (ys.map addr).Nodup) :
    ys.map (withCount (first ys) wordInc ∘ withCount x.addr wordDec) = entered ys := by
  cases ys with
  | nil => rfl
  | cons y ys =>
    simp only [map_cons, mem_cons, not_or, nodup_cons] at hx hnd
    have hleft : ∀ z : Cell K V, z.addr ≠ x.addr → withCount x.addr wordDec z = z :=
      fun z hz ↦ if_neg hz
    have hy : withCount y.addr wordInc y = { y with refcount := wordInc y.refcount } := if_pos rfl
    rw [map_cons, comp_apply, hleft y (Ne.symm hx.1)]
    refine congrArg₂ cons hy ((map_congr_left fun z hz ↦ ?_).trans (map_id ys))
    have hzx : z.addr ≠ x.addr := by
      intro heq
      exact hx.2 (heq ▸ mem_map_of_mem hz)
    have hzy : z.addr ≠ y.addr := by
      intro heq
      exact hnd.1 (heq ▸ mem_map_of_mem hz)
    rw [comp_apply, hleft z hzx]
    exact if_neg hzy

end

def Held (y : Cell K V) : Prop := y.refcount < wordSize ∧ (y.delete = true → y.refcount ≠ 0)

instance (y : Cell K V) : Decidable (Held y) :=
  inferInstanceAs (Decidable (y.refcount < wordSize ∧ (y.delete = true → y.refcount ≠ 0)))

omit [DecidableEq V] in
theorem held_entered (h : ∀ y ∈ ys, Held y) :
    (∀ y ∈ (entered ys).head?, y.delete = true → wordDec y.refcount ≠ 0) ∧
      ∀ y ∈ (entered ys).tail, Held y := by
  cases ys with
  | nil => simp [entered]
  | cons y ys =>
    obtain ⟨hlt, hheld⟩ := h y mem_cons_self
    refine ⟨fun z hz hdelete ↦ ?_, fun z hz ↦ h z (mem_cons_of_mem _ hz)⟩
    obtain rfl := some.inj hz
    rw [wordDec_wordInc hlt]
    exact hheld hdelete

/-- The iterator `i` stands on the first node of `ys`, or past the end, if there is none.  Nodes
that are marked are held by other iterators. -/
structure Standing (cmp : K → K → ℤ) (s : Iterated K V) (i : Ptr) (t : Shape K V)
    (xs ys : List (Cell K V)) : Prop where
  at_ : At s.tree [] t
  sorted : Sorted cmp t
  list : cores t = xs ++ ys
  pos : ∃ it, s.its.read i = some it ∧ it.n = first ys
  held : (∀ y ∈ ys.head?, y.delete = true → wordDec y.refcount ≠ 0) ∧ ∀ y ∈ ys.tail, Held y

omit [DecidableEq V] in
theorem sorted_of_keys (h : (cores u).map key = (cores t).map key) (ht : Sorted cmp t) :
    Sorted cmp u := by
  have hpair : (cores t).Pairwise fun y z ↦ cmp y.key z.key < 0 := pairwise_map.mpr ht
  have hkeys : ((cores t).map key).Pairwise fun a b ↦ cmp a b < 0 := pairwise_map.mpr hpair
  rw [← h] at hkeys
  exact pairwise_map.mp (pairwise_map.mp hkeys)

omit [DecidableEq V] in
theorem standing_next (hat : At tree [] t) (hsorted : Sorted cmp t) (ht : cores t = xs ++ x :: ys)
    (hpos : ∃ it, s.its.read i = some it ∧ it.n = x.addr)
    (hkeep : x.delete = true → wordDec x.refcount ≠ 0) (hahead : ∀ y ∈ ys, Held y) :
    ∃ s' u xs', Returns (fun fuel ↦ treeNext fuel ⟨tree, s.its⟩ i) (first ys, s') ∧
      Standing cmp s' i u xs' (entered ys) ∧
      (cores u).map key = (cores t).map key := by
  obtain ⟨it, hit, hn⟩ := hpos
  obtain ⟨tree', u, hret, hu⟩ := At.treeNext (s := ⟨tree, s.its⟩) hat ht hit hn hkeep
  have hcounts := (onlyCounts_withCount (K := K) (V := V) (first ys) wordInc).comp
    (onlyCounts_withCount x.addr wordDec)
  have hkeys : (cores u).map key = (cores t).map key := by
    rw [hu.cores, List.map_map]
    exact map_congr_left fun y _ ↦ hcounts.key y
  have hi : i ≠ 0 := ne_zero_of_read hit
  have hnd := hat.nodup_addrs
  rw [addrs_of_cores ht, nodup_middle, nodup_cons, mem_append, not_or] at hnd
  obtain ⟨⟨-, hxys⟩, hnd⟩ := hnd
  have hlist := hu.cores
  rw [ht, append_cons, map_append, map_step hxys (List.Nodup.of_append_right hnd)] at hlist
  refine ⟨_, u, _, hret, ⟨hu.at_, sorted_of_keys hkeys hsorted, hlist,
    ⟨_, read_set_self hi, (first_entered ys).symm⟩, held_entered hahead⟩, hkeys⟩

theorem visit_succ (hit : s.its.read i = some it)
    (hn : it.n ≠ 0) (hread : s.tree.heap.read it.n = some nd) :
    visit cmp notFound choose (fuel + 1) j s i =
      (if choose j then treeDelete cmp notFound fuel s.tree nd.key else some s.tree).bind fun tree ↦
        (treeNext fuel ⟨tree, s.its⟩ i).bind fun r ↦
          (visit cmp notFound choose fuel (j + 1) r.2 i).bind fun q ↦ some (nd.key :: q.1, q.2) := by
  simp only [visit, hit, bind_eq_bind, bind_some, if_neg hn, hread]
  split <;> rfl

/-! ## Where it ends -/

/-- How a walk over the keys `ks` ends, from the `j`-th node on: all of them are visited and none
has left the tree, or there is a fault, and then a key was chosen to be deleted. -/
def Outcome (cmp : K → K → ℤ) (notFound : V) (choose : ℕ → Bool) (j : ℕ) (s : Iterated K V)
    (i : Ptr) (t : Shape K V) (ks : List K) : Prop :=
  (∃ s' u, Returns (fun fuel ↦ visit cmp notFound choose fuel j s i) (ks, s') ∧ At s'.tree [] u ∧
      (cores u).map key = (cores t).map key) ∨
    (Fails (fun fuel ↦ visit cmp notFound choose fuel j s i) ∧ ∃ m < ks.length, choose (j + m) = true)

variable {ks : List K}

theorem outcome_of_returns (hit : s.its.read i = some it) (hn : it.n ≠ 0)
    (hread : s.tree.heap.read it.n = some nd) (hpre : Returns (fun fuel ↦
      if choose j then treeDelete cmp notFound fuel s.tree nd.key else some s.tree) tree)
    {s' : Iterated K V} (hnext : Returns (fun fuel ↦ treeNext fuel ⟨tree, s.its⟩ i) (m, s'))
    (hkeys : (cores u).map key = (cores t).map key)
    (h : Outcome cmp notFound choose (j + 1) s' i u ks) :
    Outcome cmp notFound choose j s i t (nd.key :: ks) := by
  rcases h with ⟨s'', w, hret, hat, hw⟩ | ⟨hfails, m, hm, hchosen⟩
  · refine .inl ⟨s'', w, ?_, hat, hw.trans hkeys⟩
    refine Returns.turn ?_ fun fuel ↦ visit_succ hit hn hread
    exact hpre.bind (hnext.bind (hret.bind (.of_eq rfl)))
  · refine .inr ⟨?_, m + 1, succ_lt_succ hm, ?_⟩
    · refine Fails.turn ?_ fun fuel ↦ visit_succ hit hn hread
      exact hpre.bind_fails (hnext.bind_fails (hfails.bind fun q _ ↦ some (nd.key :: q.1, q.2)))
    · rwa [← add_assoc, add_right_comm]

theorem outcome_of_fails (hit : s.its.read i = some it) (hn : it.n ≠ 0)
    (hread : s.tree.heap.read it.n = some nd) (hchosen : choose j = true) {N : ℕ}
    (hnext : ∀ fuel ≥ N, ∀ tree ∈ treeDelete cmp notFound fuel s.tree nd.key,
      treeNext fuel ⟨tree, s.its⟩ i = none) :
    Outcome cmp notFound choose j s i t (nd.key :: ks) := by
  refine .inr ⟨Fails.turn ⟨N, fun fuel hfuel ↦ ?_⟩ fun fuel ↦ visit_succ hit hn hread, 0, ?_, hchosen⟩
  · rw [if_pos hchosen, bind_eq_none_iff]
    intro tree htree
    rw [hnext fuel hfuel tree htree, bind_none]
  · exact succ_pos _

theorem Standing.outcome (hcmp : TotalComparer cmp) (h : Standing cmp s i t xs ys) :
    Outcome cmp notFound choose j s i t (ys.map key) := by
  induction hlen : ys.length generalizing xs ys s t j with
  | zero =>
    obtain rfl := length_eq_zero_iff.mp hlen
    obtain ⟨it, hit, hn⟩ := h.pos
    refine .inl ⟨s, t, (Returns.of_eq rfl).turn fun fuel ↦ ?_, h.at_, rfl⟩
    have hn0 : it.n = 0 := hn
    simp only [visit, hit, bind_eq_bind, bind_some, if_pos hn0]
    rfl
  | succ m ih =>
    obtain ⟨x, ys, rfl⟩ := exists_cons_of_length_eq_add_one hlen
    obtain ⟨it, hit, hn⟩ := h.pos
    have hlist := h.list
    have hx : x ∈ cores t := by simp [hlist]
    have hn' : it.n = x.addr := hn
    obtain ⟨nd, hread, hkey, hcount, hdelete⟩ := h.at_.read_core hx
    have hn0 : it.n ≠ 0 := hn' ▸ ne_zero_of_read hread
    have hkeep : x.delete = true → wordDec x.refcount ≠ 0 := h.held.1 x rfl
    rw [← hn'] at hread
    rw [map_cons, ← hkey]
    -- The rest of the walk, once it is known what the tree is when the iterator goes on.
    have hrest : ∀ {tree : Tree K V} {u : Shape K V} {y : Cell K V}, At tree [] u →
        cores u = xs ++ y :: ys → y.addr = x.addr → y.key = x.key →
        (y.delete = true → wordDec y.refcount ≠ 0) →
        Returns (fun fuel ↦
          if choose j then treeDelete cmp notFound fuel s.tree nd.key else some s.tree) tree →
        Outcome cmp notFound choose j s i t (nd.key :: ys.map key) := by
      intro tree u y hat hu hyx hyk hkeep hpre
      have hkeys : (cores u).map key = (cores t).map key := by simp [hu, hlist, hyk]
      obtain ⟨s', w, xs', hnext, hstand, hw⟩ := standing_next (s := s) hat
        (sorted_of_keys hkeys h.sorted) hu ⟨it, hit, hn'.trans hyx.symm⟩ hkeep h.held.2
      have hout := ih (j := j + 1) hstand ((length_entered ys).trans (succ.inj hlen))
      rw [map_key_entered] at hout
      exact outcome_of_returns hit hn0 hread hpre hnext (hw.trans hkeys) hout
    by_cases hchosen : choose j = true
    swap
    · exact hrest h.at_ hlist rfl rfl hkeep ⟨0, fun fuel _ ↦ if_neg hchosen⟩
    simp only [if_pos hchosen, hkey] at hrest
    have hcases : _ ∨ (∃ s' u, Returns (fun fuel ↦ treeDelete cmp notFound fuel s.tree x.key) s' ∧ _)
      ∨ _ := h.at_.treeDelete_cases hcmp h.sorted hx
    rcases hcases with hret | ⟨tree, u, hret, hu⟩ | ⟨-, N, hgone⟩
    · exact hkey ▸ hrest h.at_ hlist rfl rfl hkeep hret
    · have hlist' : cores u = xs ++ mark x :: ys := by
        rw [hu.cores, hlist, map_revise_middle (addrs_of_cores hlist ▸ h.at_.nodup_addrs)]
      by_cases hlast : wordDec x.refcount = 0
      · obtain ⟨N, hN⟩ := hret
        refine outcome_of_fails hit hn0 hread hchosen (N := N) fun fuel hfuel tree' htree' ↦ ?_
        obtain rfl : tree = tree' := some.inj ((hN fuel hfuel).symm.trans (hkey ▸ htree'))
        refine treeNext_eq_none (s := ⟨tree, s.its⟩) hit hn0 fun nd' hnd' ↦ ?_
        obtain ⟨nd'', hread', -, hcount', hdelete'⟩ :=
          hu.at_.read_core (x := mark x) (by simp [hlist'])
        obtain rfl : nd'' = nd' := some.inj (hread'.symm.trans (hn' ▸ hnd'))
        exact ⟨hcount' ▸ hlast, hdelete'⟩
      · exact hkey ▸ hrest hu.at_ hlist' rfl rfl (fun _ ↦ hlast) hret
    · refine outcome_of_fails hit hn0 hread hchosen (N := N) fun fuel hfuel tree' htree' ↦ ?_
      refine treeNext_eq_none (s := ⟨tree', s.its⟩) hit hn0 fun nd' hnd' ↦ ?_
      have hnone : tree'.heap.read it.n = none := hn' ▸ hgone fuel hfuel tree' (hkey ▸ htree')
      rw [hnone] at hnd'
      cases hnd'

omit [DecidableEq V] in
theorem length_kept_le (j : ℕ) (ks : List K) : (kept choose j ks).length ≤ ks.length := by
  induction ks generalizing j with
  | nil => exact le_refl 0
  | cons k ks ih =>
    rw [kept, length_cons]
    split
    · exact (ih (j + 1)).trans (le_succ _)
    · exact succ_le_succ (ih (j + 1))

omit [DecidableEq V] in
theorem kept_eq_self : kept choose j ks = ks ↔ ∀ m < ks.length, choose (j + m) = false := by
  induction ks generalizing j with
  | nil => simp [kept]
  | cons k ks ih =>
    rw [kept]
    split
    next hchosen =>
      refine iff_of_false (fun heq ↦ ?_) fun h ↦ ?_
      · have hle : (kept choose (j + 1) ks).length ≤ ks.length := length_kept_le (j + 1) ks
        rw [heq, length_cons] at hle
        omega
      · have hfalse := h 0 (succ_pos _)
        rw [add_zero, hchosen] at hfalse
        cases hfalse
    next hkept =>
      rw [cons.injEq, ih]
      constructor
      · rintro ⟨-, h⟩ m hm
        cases m with
        | zero => simpa using hkept
        | succ m => simpa only [add_assoc, add_comm 1] using h m (lt_of_succ_lt_succ hm)
      · refine fun h ↦ ⟨rfl, fun m hm ↦ ?_⟩
        have hm' := h (m + 1) (succ_lt_succ hm)
        rwa [← add_assoc, add_right_comm] at hm'

section

omit [DecidableEq V]

theorem withCount_inc_dec (n : Ptr) (hx : x.refcount < wordSize) :
    withCount n wordInc (withCount n wordDec x) = x := by
  by_cases hn : x.addr = n
  · subst hn
    simp [withCount, wordInc_wordDec hx]
  · simp [withCount, hn]

theorem withCount_dec_inc (n : Ptr) (hx : x.refcount < wordSize) :
    withCount n wordDec (withCount n wordInc x) = x := by
  by_cases hn : x.addr = n
  · subst hn
    simp [withCount, wordDec_wordInc hx]
  · simp [withCount, hn]

theorem refcount_withCount_dec_lt (n : Ptr) (hx : x.refcount < wordSize) :
    (withCount n wordDec x).refcount < wordSize := by
  by_cases hn : x.addr = n
  · have hlt : wordDec x.refcount < wordSize := mod_lt _ (zero_lt_of_lt hx)
    simpa [withCount, hn] using hlt
  · simpa [withCount, hn] using hx

theorem undoes_next (hat : At s.tree [] t)
    (hword : ∀ y ∈ cores t, y.refcount < wordSize) (hunmarked : ∀ y ∈ cores t, y.delete = false)
    (hit : s.its.read i = some it) (hn : it.n ∈ addrs t) :
    ∃ m s1 s2 it' u, Returns (fun fuel ↦ s.treeNext fuel i) (m, s1) ∧
      Returns (fun fuel ↦ s1.treePrev fuel i) (it.n, s2) ∧ s2.its.read i = some it' ∧
      it'.n = it.n ∧ At s2.tree [] u ∧ cores u = cores t := by
  rw [addrs_eq_map_cores] at hn
  obtain ⟨x, hx, hxn⟩ := mem_map.mp hn
  obtain ⟨xs, ys, ht⟩ := append_of_mem hx
  have hi : i ≠ 0 := ne_zero_of_read hit
  rw [← hxn]
  obtain ⟨tree, u, hnext, hu⟩ := hat.treeNext ht hit hxn.symm (by simp [hunmarked x hx])
  have hcores := hu.cores
  cases ys with
  | nil =>
    -- Past the end the iterator goes back to where it came from.
    have haddrs : addrs u = addrs t := by
      rw [addrs_eq_map_cores, hcores, addrs_eq_map_cores, List.map_map]
      simp [comp_def]
    obtain ⟨tree', w, htree', hw⟩ := hu.at_.setRefcount (n := x.addr)
      (by simp [haddrs, addrs_of_cores ht]) wordInc
    have hretain : tree.retain x.addr = some tree' := htree'
    refine ⟨0, _, ⟨tree', (s.its.set i ⟨0, x.addr⟩).set i ⟨x.addr, x.addr⟩⟩, ⟨x.addr, x.addr⟩, w,
      hnext, ⟨0, fun fuel _ ↦ ?_⟩, read_set_self hi, rfl, hw.at_, ?_⟩
    · simp [treePrev, read_set_self hi, first, hretain]
    · rw [hw.cores, hcores, List.map_map]
      refine (map_congr_left fun z hz ↦ ?_).trans (map_id _)
      have hz0 : (withCount x.addr wordDec z).addr ≠ 0 := by
        rw [withCount_addr]
        intro h0
        refine hat.notMem_zero ?_
        rw [addrs_eq_map_cores, ← h0]
        exact mem_map_of_mem hz
      have hskip : withCount 0 wordInc (withCount x.addr wordDec z) = withCount x.addr wordDec z :=
        if_neg hz0
      have hfirst : first ([] : List (Cell K V)) = 0 := rfl
      rw [hfirst, comp_apply, comp_apply, hskip]
      exact withCount_inc_dec x.addr (hword z hz)
  | cons y ys =>
    rw [ht, append_cons, map_append, map_cons] at hcores
    have hy : ((withCount (first (y :: ys)) wordInc ∘ withCount x.addr wordDec) y).addr =
        y.addr := by simp
    have hfirst : first (((xs ++ [x]).map
        (withCount (first (y :: ys)) wordInc ∘ withCount x.addr wordDec)).reverse) = x.addr := by
      simp [first]
    obtain ⟨tree', w, it', hprev, hit', hw⟩ := At.treePrev
      (s := ⟨tree, s.its.set i ⟨y.addr, x.addr⟩⟩) hu.at_ hcores (read_set_self hi) hy.symm
      (by simp [hunmarked y (by simp [ht])])
    rw [hfirst] at hprev hit' hw
    rw [hy] at hw
    refine ⟨_, _, _, it', w, hnext, hprev, read_set_self hi, hit', hw.at_, ?_⟩
    rw [hw.cores, hu.cores, List.map_map]
    refine (map_congr_left fun z hz ↦ ?_).trans (map_id _)
    have hundo : withCount y.addr wordDec (withCount y.addr wordInc (withCount x.addr wordDec z)) =
        withCount x.addr wordDec z :=
      withCount_dec_inc y.addr (refcount_withCount_dec_lt x.addr (hword z hz))
    have hfirst' : first (y :: ys) = y.addr := rfl
    rw [hfirst', comp_apply, comp_apply, comp_apply, hundo]
    exact withCount_inc_dec x.addr (hword z hz)

end

omit [DecidableEq V] in
theorem standing_iterator (hat : At s.tree [] t) (hsorted : Sorted cmp t) (ht : t ≠ .nil)
    (hahead : ∀ y ∈ cores t, Held y) (hi : i ≠ 0) (hfree : s.its.read i = none) :
    ∃ s' u, Returns (fun fuel ↦ s.treeIterator fuel i) s' ∧
      Standing cmp s' i u [] (entered (cores t)) ∧
      (cores u).map key = (cores t).map key := by
  obtain ⟨tree, u, -, hret, hu⟩ := hat.treeIterator ht hi hfree
  have hnd := hat.nodup_addrs
  have hcores := hu.cores
  have hfirst : first t.inorder = first (cores t) := by
    rw [first, first, ← addrs_eq_map_cores]
    rfl
  rw [hfirst] at hret hcores
  have hlist : cores u = entered (cores t) := by
    rw [hcores]
    cases hxs : cores t with
    | nil => rfl
    | cons x xs =>
      rw [addrs_eq_map_cores, hxs] at hnd
      exact @map_revise_middle K V x [] xs _ hnd
  have hkeys : (cores u).map key = (cores t).map key := by
    rw [hlist, map_key_entered]
  refine ⟨_, u, hret, ⟨hu.at_, sorted_of_keys hkeys hsorted, hlist,
    ⟨_, read_set_self hi, (first_entered _).symm⟩, held_entered hahead⟩, hkeys⟩

theorem traverse_outcome (hcmp : TotalComparer cmp) (hat : At s.tree [] t) (hsorted : Sorted cmp t)
    (ht : t ≠ .nil) (hheld : ∀ y ∈ cores t, Held y) (hi : i ≠ 0) (hfree : s.its.read i = none)
    (notFound : V) (choose : ℕ → Bool) :
    (∃ s' u, Returns (fun fuel ↦ traverse cmp notFound choose fuel s i)
        ((cores t).map key, s') ∧ At s'.tree [] u ∧
        (cores u).map key = (cores t).map key) ∨
      (Fails (fun fuel ↦ traverse cmp notFound choose fuel s i) ∧
        ∃ j < ((cores t).map key).length, choose j = true) := by
  obtain ⟨s0, u0, hret, hstand, hkeys⟩ := standing_iterator hat hsorted ht hheld hi hfree
  have hout : Outcome cmp notFound choose 0 s0 i u0 _ := hstand.outcome hcmp
  rw [map_key_entered] at hout
  rcases hout with ⟨s', u, hvisit, hat', hu⟩ | ⟨hfails, j, hj, hchosen⟩
  · exact .inl ⟨s', u, hret.bind hvisit, hat', hu.trans hkeys⟩
  · exact .inr ⟨hret.bind_fails hfails, j, hj, zero_add j ▸ hchosen⟩

/-- **When a walk works**: if and only if none of the keys was chosen to be deleted on the way. -/
theorem traverse_iff (hcmp : TotalComparer cmp) (hat : At s.tree [] t) (hsorted : Sorted cmp t)
    (ht : t ≠ .nil) (hheld : ∀ y ∈ cores t, Held y) (hi : i ≠ 0) (hfree : s.its.read i = none)
    (choose : ℕ → Bool) :
    ((∃ s' u, Returns (fun fuel ↦ traverse cmp notFound choose fuel s i)
        (t.inorder.map key, s') ∧ At s'.tree [] u ∧
        u.inorder.map key = kept choose 0 (t.inorder.map key)) ↔
      ∀ j < t.inorder.length, choose j = false) ∧
    ∀ (r : Iterated K V) (u : Shape K V) (i : Ptr) (it : Iterator), At r.tree [] u →
      (∀ y ∈ cores u, y.refcount < wordSize) → (∀ y ∈ cores u, y.delete = false) →
      r.its.read i = some it → it.n ∈ addrs u →
      ∃ m r₁ r₂ it' w, Returns (fun fuel ↦ r.treeNext fuel i) (m, r₁) ∧
        Returns (fun fuel ↦ r₁.treePrev fuel i) (it.n, r₂) ∧ r₂.its.read i = some it' ∧
        it'.n = it.n ∧ At r₂.tree [] w ∧ cores w = cores u := by
  have hkeys : ∀ w : Shape K V, (cores w).map key = w.inorder.map key := fun w ↦ by
    simp [cores, comp_def, core]
  refine ⟨?_, fun r u i it hat hword hunmarked hit hn ↦ undoes_next hat hword hunmarked hit hn⟩
  have hall : kept choose 0 (t.inorder.map key) = t.inorder.map key ↔
      ∀ j < t.inorder.length, choose j = false := by
    rw [kept_eq_self, length_map]
    simp only [zero_add]
  have hout := traverse_outcome hcmp hat hsorted ht hheld hi hfree notFound choose
  rw [hkeys] at hout
  rw [← hall]
  rcases hout with ⟨s', u, hret, hatu, hu⟩ | ⟨hfails, j, hj, hchosen⟩
  · rw [hkeys] at hu
    constructor
    · rintro ⟨s'', w, hret', hatw, hw⟩
      obtain rfl := (Prod.mk.inj (hret.unique hret')).2
      rw [← hw, ← hatu.unique hatw, hu]
    · exact fun h ↦ ⟨s', u, hret, hatu, hu.trans h.symm⟩
  · refine iff_of_false ?_ fun h ↦ ?_
    · rintro ⟨s'', w, hret', -⟩
      exact hfails.not_returns hret'
    · rw [length_map] at hj
      rw [hall.mp h j hj] at hchosen
      cases hchosen

theorem traverse_tilted : ∃ s' u,
    Returns (fun fuel ↦ traverse defaultComparer notFoundPtr (fun _ ↦ false) fuel
      ⟨build tilted, Heap.empty⟩ 0x100) ([5, 8], s') ∧ At s'.tree [] u ∧
      u.inorder.map key = [5, 8] := by
  have hat : At (build tilted) [] tilted := at_build (by decide) (by decide)
  exact (traverse_iff (s := ⟨build tilted, Heap.empty⟩) totalComparer_default hat (by decide)
    nofun (by decide) (by decide) rfl fun _ ↦ false).1.mpr fun _ _ ↦ rfl

/-- **A deletion on the way is a fault**: the node is freed twice when the iterator leaves it. -/
theorem not_traverse_tilted :
    At (build tilted) [] tilted ∧ Sorted defaultComparer tilted ∧
      (∀ y ∈ cores tilted, y.refcount = 0 ∧ y.delete = false) ∧
      Fails fun fuel ↦ traverse defaultComparer notFoundPtr (fun j ↦ j == 0) fuel
        ⟨build tilted, Heap.empty⟩ 0x100 := by
  refine ⟨at_build (by decide) (by decide), by decide, by decide, 8, fun fuel hfuel ↦ ?_⟩
  obtain ⟨n, rfl⟩ : ∃ n, fuel = n + 8 := ⟨fuel - 8, by omega⟩
  rfl

end Iterated

end ForgeOS.Tree
