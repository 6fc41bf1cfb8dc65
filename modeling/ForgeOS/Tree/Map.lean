import ForgeOS.Lib.Assoc
import ForgeOS.Tree.Counts
import ForgeOS.Tree.Order
import ForgeOS.Tree.Remove

/-!
# The tree is a finite map

What the tree in memory means is the finite map of its entries, `contents`.

The main result is `treeSearch_of_allowed`.
-/

namespace ForgeOS.Tree

open BinaryTree Function Option Cell

variable {K V : Type} {cmp : K → K → ℤ} {notFound : V}

structure Ordered (cmp : K → K → ℤ) (notFound : V) (xs : List (Cell K V)) : Prop where
  sorted : xs.Pairwise fun x y ↦ cmp x.key y.key < 0
  vals : ∀ x ∈ xs, x.val ≠ notFound

def bindings (xs : List (Cell K V)) : List (Σ _ : K, V) := xs.map fun x ↦ ⟨x.key, x.val⟩

variable {xs ys : List (Cell K V)} {x y : Cell K V}

theorem Ordered.sublist (h : Ordered cmp notFound ys) (hsub : xs.Sublist ys) :
    Ordered cmp notFound xs where
  sorted := h.sorted.sublist hsub
  vals x hx := h.vals x (hsub.subset hx)

theorem Ordered.insert (h : Ordered cmp notFound (xs ++ ys)) (hxs : ∀ x ∈ xs, cmp x.key y.key < 0)
    (hys : ∀ x ∈ ys, cmp y.key x.key < 0) (hval : y.val ≠ notFound) :
    Ordered cmp notFound (xs ++ y :: ys) := by
  obtain ⟨hsx, hsy, hcross⟩ := List.pairwise_append.mp h.sorted
  refine ⟨List.pairwise_append.mpr ⟨hsx, List.pairwise_cons.mpr ⟨hys, hsy⟩, ?_⟩, ?_⟩
  · intro a ha b hb
    rcases List.mem_cons.mp hb with rfl | hb
    · exact hxs a ha
    · exact hcross a ha b hb
  · intro x hx
    rw [List.perm_middle.mem_iff, List.mem_cons] at hx
    rcases hx with rfl | hx
    · exact hval
    · exact h.vals x hx

theorem Ordered.nodupKeys (hcmp : TotalComparer cmp) (h : Ordered cmp notFound xs) :
    (bindings xs).NodupKeys := by
  rw [List.nodupKeys_iff_pairwise, bindings, List.pairwise_map]
  exact h.sorted.imp fun hlt ↦ hcmp.ne hlt

theorem bindings_middle (xs ys : List (Cell K V)) (y : Cell K V) :
    bindings (xs ++ y :: ys) = bindings xs ++ ⟨y.key, y.val⟩ :: bindings ys := by
  simp [bindings]

theorem bindings_append (xs ys : List (Cell K V)) :
    bindings (xs ++ ys) = bindings xs ++ bindings ys := by
  simp [bindings]

structure Stores (cmp : K → K → ℤ) (notFound : V) (s : Tree K V) (t : Shape K V) : Prop where
  at_ : At s [] t
  below : ExactBelow t
  ordered : Ordered cmp notFound (cores t)
  len : s.len = (cores t).length

/-- Moreover there are no iterators. -/
structure Holds (cmp : K → K → ℤ) (notFound : V) (s : Tree K V) (t : Shape K V) : Prop
    extends Stores cmp notFound s t where
  idle : ∀ x ∈ cores t, x.refcount = 0

variable {s s' : Tree K V} {t u : Shape K V} {c : List (Frame (Cell K V))}

theorem Ordered.shape (h : Ordered cmp notFound (cores t)) : Sorted cmp t :=
  List.pairwise_map.mp h.sorted

theorem Stores.sorted (h : Stores cmp notFound s t) : Sorted cmp t := h.ordered.shape

theorem Stores.len_eq_zero (h : Stores cmp notFound s t) : s.len = 0 ↔ t = .nil := by
  rw [h.len, List.length_eq_zero_iff, cores, List.map_eq_nil_iff]
  cases t <;> simp

theorem At.notMem_zero (hat : At s c t) : (0 : Ptr) ∉ addrs t := by
  intro h0
  have hsome := hat.rep.read_isSome h0
  simp at hsome

theorem At.length_lt (hat : At s c t) : (cores t).length < wordSize := by
  have hlt := length_lt_wordSize (List.Nodup.of_append_left hat.nodup) hat.notMem_zero
  rwa [addrs_eq_map_cores, List.length_map] at hlt

variable [DecidableEq K]

theorem toFinmap_insert (hcmp : TotalComparer cmp) (h : Ordered cmp notFound (xs ++ y :: ys)) :
    (bindings (xs ++ y :: ys)).toFinmap = (bindings (xs ++ ys)).toFinmap.insert y.key y.val := by
  have hnd := h.nodupKeys hcmp
  rw [bindings_middle] at hnd ⊢
  rw [List.toFinmap_middle hnd, bindings_append]

theorem toFinmap_erase (hcmp : TotalComparer cmp) (h : Ordered cmp notFound (xs ++ y :: ys)) :
    (bindings (xs ++ ys)).toFinmap = (bindings (xs ++ y :: ys)).toFinmap.erase y.key := by
  have hnd := h.nodupKeys hcmp
  rw [bindings_middle] at hnd ⊢
  rw [← List.toFinmap_remove hnd, bindings_append]

/-! ## The map -/

def contents (t : Shape K V) : Finmap fun _ : K ↦ V := (bindings (cores t)).toFinmap

variable {l r : Shape K V}

theorem lookup_contents_of_plug (hcmp : TotalComparer cmp) (h : Stores cmp notFound s t)
    (hplug : plug c (.node x l r) = t) : (contents t).lookup x.key = some x.val := by
  have hord := h.ordered
  rw [← hplug, cores_plug_node] at hord
  rw [contents, ← hplug, cores_plug_node, toFinmap_insert hcmp hord]
  exact Finmap.lookup_insert _

theorem toFinset_keys_contents (t : Shape K V) :
    (t.inorder.map key).toFinset = (contents t).keys := by
  rw [contents, List.keys_toFinmap]
  simp [bindings, cores, List.keys, comp_def, core]

theorem mem_contents {k : K} : k ∈ contents t ↔ ∃ y ∈ t.inorder, y.key = k := by
  rw [← Finmap.mem_keys, ← toFinset_keys_contents, List.mem_toFinset, List.mem_map]

theorem lookup_contents_of_absent {k : K} (habsent : ∀ y ∈ t.inorder, y.key ≠ k) :
    (contents t).lookup k = none := by
  rw [Finmap.lookup_eq_none, mem_contents]
  rintro ⟨y, hy, hyk⟩
  exact habsent y hy hyk

variable {fuel : ℕ}

omit [DecidableEq K] in
theorem At.treeSearch_of_find {k : K} (hat : At s c (.node x l r))
    (hlen : s.len ≠ 0) (hfind : Tree.find cmp fuel s k s.root = some x.addr) :
    Tree.treeSearch cmp notFound fuel s k = some x.val := by
  have hx := hat.rep.1
  rw [Tree.treeSearch, if_neg hlen, hfind]
  simp [Heap.ne_zero_of_read hx, hx]

theorem Stores.treeSearch (hcmp : TotalComparer cmp) (h : Stores cmp notFound s t) (k : K)
    (hfuel : t.height < fuel) :
    treeSearch cmp notFound fuel s k = some (((contents t).lookup k).getD notFound) := by
  have hroot : s.root = ptr t := h.at_.around
  by_cases hlen : s.len = 0
  · obtain rfl := h.len_eq_zero.mp hlen
    rw [Tree.treeSearch, if_pos hlen]
    rfl
  rcases h.at_.find hcmp h.sorted k with ⟨c, x, l, r, hfind, rfl, hat, hplug⟩ | ⟨hfind, habsent⟩
  · rw [lookup_contents_of_plug hcmp h hplug]
    exact hat.treeSearch_of_find hlen (hroot ▸ hfind fuel hfuel)
  · rw [Tree.treeSearch, if_neg hlen, hroot, hfind fuel hfuel, lookup_contents_of_absent habsent]
    rfl

theorem Stores.card_keys (hcmp : TotalComparer cmp) (h : Stores cmp notFound s t) :
    s.len = (contents t).keys.card := by
  rw [contents, List.card_keys_toFinmap (h.ordered.nodupKeys hcmp), bindings, List.length_map,
    h.len]

theorem Stores.contents_insert (hcmp : TotalComparer cmp) (hu : Stores cmp notFound s u)
    (ht : cores t = xs ++ ys) (hcores : cores u = xs ++ y :: ys) :
    contents u = (contents t).insert y.key y.val := by
  have hord := hu.ordered
  rw [hcores] at hord
  rw [contents, contents, hcores, ht, toFinmap_insert hcmp hord]

theorem Stores.contents_erase (hcmp : TotalComparer cmp) (h : Stores cmp notFound s t)
    (ht : cores t = xs ++ y :: ys) (hcores : cores u = xs ++ ys) :
    contents u = (contents t).erase y.key := by
  have hord := h.ordered
  rw [ht] at hord
  rw [contents, contents, hcores, ht, toFinmap_erase hcmp hord]

omit [DecidableEq K] in
theorem exactBelow_plug (h : ExactBelow (plug c t)) : (∀ f ∈ c, Exact f.sib) ∧ ExactBelow t := by
  induction c generalizing t with
  | nil => exact ⟨by simp, h⟩
  | cons f c ih =>
    obtain ⟨hc, hjoin⟩ := ih h
    obtain ⟨ht, hsib⟩ := exactBelow_join.mp hjoin
    exact ⟨List.forall_mem_cons.mpr ⟨hsib, hc⟩, ht.below⟩

omit [DecidableEq K] in
theorem At.notMem_of_free (hat : At s c t) {a : Ptr} (hfree : s.heap.read a = none) :
    a ∉ addrs t ++ addrsAround c := by
  intro hmem
  rcases List.mem_append.mp hmem with hmem | hmem
  · have hsome := hat.rep.read_isSome hmem
    simp [hfree] at hsome
  · have hsome := hat.around.read_isSome hmem
    simp [hfree] at hsome

/-! ## Insertion -/

def newCell (a : Ptr) (k : K) (v : V) : Cell K V := ⟨a, k, v, 0, 0, false⟩

def grown (s : Tree K V) (a : Ptr) (k : K) (v : V) : Tree K V :=
  ⟨s.root, wordInc s.len, s.heap.set a ((newCell a k v).toNode .left 0 0 0)⟩

section

omit [DecidableEq K]

theorem At.grown (hat : At s c t) {a : Ptr} (hfree : s.heap.read a = none) (k : K) (v : V) :
    At (s.grown a k v) c t := by
  have hset : ∀ w ∈ addrs t ++ addrsAround c, (s.grown a k v).heap.read w = s.heap.read w := by
    intro w hw
    refine Heap.read_set_of_ne ?_
    rintro rfl
    exact hat.notMem_of_free hfree hw
  exact ⟨hat.rep.frame fun w hw ↦ hset w (List.mem_append_left _ hw),
    hat.around.frame fun w hw ↦ hset w (List.mem_append_right _ hw), hat.nodup⟩

/-- A cell that is linked in the place `c` comes between what is before the place and after it. -/
theorem cores_linked (hplug : plug c .nil = t)
    (hcores : cores u = cores (plug c (.node y .nil .nil))) :
    cores t = (before c).map core ++ (after c).map core ∧
      cores u = (before c).map core ++ y.core :: (after c).map core := by
  rw [cores_plug_node, inorder_nil, List.append_nil, List.nil_append] at hcores
  exact ⟨by rw [← hplug, cores_plug_nil], hcores⟩

theorem Ordered.linked (h : Ordered cmp notFound (cores t)) (hplug : plug c .nil = t)
    (hfits : Fits cmp y.key c) (hval : y.val ≠ notFound)
    (hcores : cores u = cores (plug c (.node y .nil .nil))) :
    Ordered cmp notFound (cores u) ∧
      ∃ xs ys, cores t = xs ++ ys ∧ cores u = xs ++ y.core :: ys := by
  obtain ⟨ht, hcores⟩ := cores_linked hplug hcores
  refine ⟨?_, _, _, ht, hcores⟩
  rw [ht] at h
  rw [hcores]
  exact h.insert (List.forall_mem_map.mpr hfits.1) (List.forall_mem_map.mpr hfits.2) hval

theorem Stores.linked (h : Stores cmp notFound s t) (hplug : plug c .nil = t)
    (hfits : Fits cmp y.key c) (hval : y.val ≠ notFound) (hat : At s' [] u) (hbelow : ExactBelow u)
    (hcores : cores u = cores (plug c (.node y .nil .nil))) (hlen : s'.len = wordInc s.len) :
    Stores cmp notFound s' u ∧ ∃ xs ys, cores t = xs ++ ys ∧ cores u = xs ++ y.core :: ys := by
  obtain ⟨hordered, xs, ys, ht, hu⟩ := h.ordered.linked hplug hfits hval hcores
  refine ⟨⟨hat, hbelow, hordered, ?_⟩, xs, ys, ht, hu⟩
  have hlt := hat.length_lt
  rw [hu] at hlt ⊢
  rw [hlen, h.len, ht]
  simp only [List.length_append, List.length_cons] at hlt ⊢
  rw [wordInc_of_lt (by omega)]
  omega

end

theorem Stores.lookup_ne (h : Stores cmp notFound s t) {k : K} {v : V}
    (hv : (contents t).lookup k = some v) : v ≠ notFound := by
  rw [contents, Finmap.dlookup_list_toFinmap] at hv
  have hmem := List.of_mem_dlookup hv
  obtain ⟨x, hx, hxv⟩ := List.mem_map.mp hmem
  have hval := h.ordered.vals x hx
  injection hxv with _ hxv
  rwa [hxv] at hval

section Insert

variable [DecidableEq V] {a : Ptr} {k : K} {v : V}

theorem Stores.treeInsert_of_mem (hcmp : TotalComparer cmp) (h : Stores cmp notFound s t)
    (hk : k ∈ contents t) : Returns (fun fuel ↦ treeInsert cmp notFound fuel s a k v) s := by
  obtain ⟨v', hv'⟩ := Finmap.mem_iff.mp hk
  refine ⟨t.height + 1, fun fuel hfuel ↦ ?_⟩
  simp only [Tree.treeInsert, h.treeSearch hcmp k hfuel, hv', getD_some, bind_eq_bind,
    bind_some, if_pos (h.lookup_ne hv')]

omit [DecidableEq K] [DecidableEq V] in
theorem At.treeSearch_of_absent (hcmp : TotalComparer cmp) (hat : At s [] t)
    (hsorted : Sorted cmp t) (habsent : ∀ x ∈ t.inorder, x.key ≠ k) (hfuel : t.height < fuel) :
    Tree.treeSearch cmp notFound fuel s k = some notFound := by
  have hroot : s.root = ptr t := hat.around
  rw [Tree.treeSearch, hroot]
  split
  · rfl
  rcases hat.find hcmp hsorted k with ⟨c, x, l, r, -, rfl, -, hplug⟩ | ⟨hfind, -⟩
  · refine absurd rfl (habsent x ?_)
    rw [← plug_nil t, ← hplug, inorder_plug]
    simp
  · rw [hfind fuel hfuel]
    rfl

omit [DecidableEq K] [DecidableEq V] in
theorem At.treeSearch_returns (cmp : K → K → ℤ) (notFound : V) (hat : At s [] t) (k : K) :
    ∃ v, Returns (fun fuel ↦ Tree.treeSearch cmp notFound fuel s k) v := by
  have hroot : s.root = ptr t := hat.around
  by_cases hlen : s.len = 0
  · exact ⟨notFound, ⟨0, fun fuel _ ↦ if_pos hlen⟩⟩
  obtain ⟨p, hfind, hp⟩ := hat.find_returns cmp k
  have hcall : ∀ fuel > t.height, Tree.treeSearch cmp notFound fuel s k =
      if p = 0 then some notFound else (s.heap.read p).map Node.val := fun fuel hfuel ↦ by
    rw [Tree.treeSearch, if_neg hlen, hroot, hfind fuel hfuel]
    rfl
  by_cases hp0 : p = 0
  · exact ⟨notFound, t.height + 1, fun fuel hfuel ↦ (hcall fuel (by omega)).trans (if_pos hp0)⟩
  · obtain ⟨nd, hnd⟩ := isSome_iff_exists.mp (hat.rep.read_isSome (hp.resolve_left hp0))
    refine ⟨nd.val, t.height + 1, fun fuel hfuel ↦ (hcall fuel (by omega)).trans ?_⟩
    rw [if_neg hp0, hnd, map_some]

section

omit [DecidableEq K]

theorem At.treeInsert_eq (ha : a ≠ 0) (hfree : s.heap.read a = none)
    (hsearch : Tree.treeSearch cmp notFound fuel s k = some notFound) :
    treeInsert cmp notFound fuel s a k v =
      if s.root = 0 then some { s.grown a k v with root := a }
      else (Tree.attach cmp fuel (s.grown a k v) a k s.root).bind fun p ↦ climb fuel p.2 p.1 := by
  have halloc : s.heap.alloc a ⟨k, v, 0, 0, false, 0, 0, 0⟩ = some (s.grown a k v).heap :=
    Heap.alloc_eq ha hfree
  simp only [Tree.treeInsert, hsearch, halloc, bind_eq_bind, bind_some, ne_eq,
    not_true_eq_false, if_false]
  rfl

theorem At.treeInsert_of_unfound (hat : At s [] t) (hbelow : ExactBelow t)
    (hsearch : Returns (fun fuel ↦ Tree.treeSearch cmp notFound fuel s k) notFound) (ha : a ≠ 0)
    (hfree : s.heap.read a = none) :
    ∃ s' u c, Returns (fun fuel ↦ treeInsert cmp notFound fuel s a k v) s' ∧ At s' [] u ∧
      ExactBelow u ∧ s'.len = wordInc s.len ∧ plug c .nil = t ∧
      (TotalComparer cmp → Sorted cmp t → (∀ x ∈ t.inorder, x.key ≠ k) → Fits cmp k c) ∧
      cores u = cores (plug c (.node (newCell a k v) .nil .nil)) ∧
      Climbed (bareFrames c) (.node () .nil .nil) (bare u) := by
  have hroot : s.root = ptr t := hat.around
  have hread : (s.grown a k v).heap.read a = some ((newCell a k v).toNode .left 0 0 0) :=
    Heap.read_set_self ha
  have hfits : Fits cmp k ([] : List (Frame (Cell K V))) := ⟨by simp [before], by simp [after]⟩
  obtain ⟨M, hsearch⟩ := hsearch
  by_cases ht : t = .nil
  · subst ht
    have hleaf : At { s.grown a k v with root := a } [] (.node (newCell a k v) .nil .nil) :=
      ⟨⟨hread, trivial, trivial⟩, rfl, by simp [addrs, addrsAround, BinaryTree.around]⟩
    refine ⟨_, _, [], ⟨M, fun fuel hfuel ↦ ?_⟩, hleaf, ⟨trivial, trivial⟩, rfl, rfl, fun _ _ _ ↦ hfits,
      rfl, rfl⟩
    show Tree.treeInsert cmp notFound fuel s a k v = _
    rw [At.treeInsert_eq ha hfree (hsearch fuel hfuel), hroot, ptr_nil, if_pos rfl]
  have hroot0 : s.root ≠ 0 := by
    rw [hroot]
    exact fun h0 ↦ ht (hat.rep.ptr_eq_zero.mp h0)
  obtain ⟨c, s2, hattach, hat2, hplug, hlen, hfits'⟩ := (hat.grown hfree k v).attach
    (y := newCell a k v) cmp ht hread (hat.notMem_of_free hfree)
  rw [← hroot] at hattach
  rw [← plug_nil t, ← hplug] at hbelow
  obtain ⟨s', u, ⟨N, hclimb⟩, hat', hbelow', hm, hbare⟩ :=
    hat2.climb_up ⟨trivial, trivial⟩ (exactBelow_plug hbelow).1
  refine ⟨s', u, c, ⟨max N (max M (t.height + 1)), fun fuel hfuel ↦ ?_⟩, hat', hbelow',
    hm.keeps.len.trans hlen, hplug, fun hcmp hsorted habsent ↦ hfits' hcmp hsorted habsent hfits,
    hm.cores, hbare⟩
  have hattach' : Tree.attach cmp fuel (s.grown a k v) a k s.root = some (up c, s2) :=
      hattach fuel (by omega)
  show Tree.treeInsert cmp notFound fuel s a k v = _
  rw [At.treeInsert_eq ha hfree (hsearch fuel (by omega)), if_neg hroot0, hattach']
  exact hclimb fuel (by omega)

theorem At.treeInsert (hcmp : TotalComparer cmp) (hat : At s [] t) (hbelow : ExactBelow t)
    (hsorted : Sorted cmp t) (habsent : ∀ x ∈ t.inorder, x.key ≠ k) (ha : a ≠ 0)
    (hfree : s.heap.read a = none) :
    ∃ s' u c, Returns (fun fuel ↦ treeInsert cmp notFound fuel s a k v) s' ∧ At s' [] u ∧
      ExactBelow u ∧ s'.len = wordInc s.len ∧ plug c .nil = t ∧ Fits cmp k c ∧
      cores u = cores (plug c (.node (newCell a k v) .nil .nil)) ∧
      Climbed (bareFrames c) (.node () .nil .nil) (bare u) := by
  have hsearch : Returns (fun fuel ↦ Tree.treeSearch cmp notFound fuel s k) notFound :=
    ⟨t.height + 1, fun fuel hfuel ↦ hat.treeSearch_of_absent hcmp hsorted habsent hfuel⟩
  obtain ⟨s', u, c, hret, hat', hbelow', hlen, hplug, hfits, hrest⟩ :=
    hat.treeInsert_of_unfound (v := v) hbelow hsearch ha hfree
  exact ⟨s', u, c, hret, hat', hbelow', hlen, hplug, hfits hcmp hsorted habsent, hrest⟩

end

theorem Stores.treeInsert_of_notMem (hcmp : TotalComparer cmp) (h : Stores cmp notFound s t)
    (hk : k ∉ contents t) (ha : a ≠ 0) (hfree : s.heap.read a = none) (hv : v ≠ notFound) :
    ∃ s' u, Returns (fun fuel ↦ treeInsert cmp notFound fuel s a k v) s' ∧
    Stores cmp notFound s' u ∧
      ∃ xs ys, cores t = xs ++ ys ∧ cores u = xs ++ newCell a k v :: ys := by
  have habsent : ∀ x ∈ t.inorder, x.key ≠ k := fun x hx hxk ↦ hk (mem_contents.mpr ⟨x, hx, hxk⟩)
  obtain ⟨s', u, c, hret, hat', hbelow', hlen, hplug, hfits, hcores, -⟩ :=
    h.at_.treeInsert hcmp h.below h.sorted habsent ha hfree
  exact ⟨s', u, hret, h.linked (y := newCell a k v) hplug hfits hv hat' hbelow' hcores hlen⟩

end Insert

/-! ## Deletion -/

omit [DecidableEq K] in
theorem Stores.removed (h : Stores cmp notFound s t) (hplug : plug c (.node x l r) = t)
    (hat : At s' [] u) (hbelow : ExactBelow u)
    (hcores : cores u = (before c ++ l.inorder).map core ++ (r.inorder ++ after c).map core)
    (hlen : s'.len = wordDec s.len) :
    Stores cmp notFound s' u ∧ ∃ xs ys, cores t = xs ++ x.core :: ys ∧ cores u = xs ++ ys := by
  have ht := cores_plug_node (c := c) (x := x) (l := l) (r := r)
  rw [hplug] at ht
  refine ⟨⟨hat, hbelow, ?_, ?_⟩, _, _, ht, hcores⟩
  · have hord := h.ordered
    rw [ht] at hord
    rw [hcores]
    exact hord.sublist ((List.sublist_cons_self _ _).append_left _)
  · have hlt := h.at_.length_lt
    rw [hcores, hlen, h.len]
    rw [ht] at hlt ⊢
    simp only [List.length_append, List.length_cons] at hlt ⊢
    rw [wordDec_of_pos (by omega) (by omega)]
    omega

section Delete

variable [DecidableEq V] {k : K}

theorem Stores.treeDelete_of_notMem (hcmp : TotalComparer cmp) (h : Stores cmp notFound s t)
    (hk : k ∉ contents t) : Returns (fun fuel ↦ treeDelete cmp notFound fuel s k) s := by
  refine ⟨t.height + 1, fun fuel hfuel ↦ ?_⟩
  have hsearch : Tree.treeSearch cmp notFound fuel s k = some notFound := by
    rw [h.treeSearch hcmp k hfuel, Finmap.lookup_eq_none.mpr hk]
    rfl
  by_cases hlen : s.len = 0
  · simp only [Tree.treeDelete, if_pos hlen]
  · simp only [Tree.treeDelete, if_neg hlen, hsearch, bind_eq_bind, bind_some,
      if_true]

section

omit [DecidableEq K]

theorem At.treeDelete_of_unseen (hat : At s c (.node x l r))
    (hfind : Tree.find cmp fuel s k s.root = some x.addr) (h : s.len = 0 ∨ x.val = notFound) :
    Tree.treeDelete cmp notFound fuel s k = some s := by
  by_cases hlen : s.len = 0
  · exact if_pos hlen
  have hsearch : Tree.treeSearch cmp notFound fuel s k = some notFound := by
    rw [← h.resolve_left hlen]
    exact hat.treeSearch_of_find hlen hfind
  simp only [Tree.treeDelete, if_neg hlen, hsearch, bind_eq_bind, bind_some, if_true]

theorem At.treeDelete_of_seen (hat : At s c (.node x l r))
    (hfind : Tree.find cmp fuel s k s.root = some x.addr) (hlen : s.len ≠ 0)
    (hval : x.val ≠ notFound) :
    ∃ s1, s.modify x.addr (fun nd ↦ { nd with delete := true }) = some s1 ∧
      At s1 c (.node { x with delete := true } l r) ∧
      Tree.treeDelete cmp notFound fuel s k =
        if x.refcount = 0 then removeNode fuel s1 x.addr else some s1 := by
  obtain ⟨s1, h1, hat1, -⟩ := At.write (d := .left) hat { x with delete := true }
    (g := fun nd ↦ { nd with delete := true }) rfl (setDelete_toNode ..)
  refine ⟨s1, h1, hat1, ?_⟩
  have hsearch : Tree.treeSearch cmp notFound fuel s k = some x.val :=
    hat.treeSearch_of_find hlen hfind
  have hx0 : x.addr ≠ 0 := Heap.ne_zero_of_read hat.rep.1
  have hread1 : s1.heap.read x.addr = some _ := hat1.rep.1
  simp only [Tree.treeDelete, if_neg hlen, hsearch, bind_eq_bind, bind_some,
    if_neg hval, hfind, if_neg hx0, h1, hread1, toNode_refcount]

theorem At.treeDelete (hat : At s c (.node x l r)) (hplug : plug c (.node x l r) = t)
    (hbelow : ExactBelow t) (hroot : s.root = ptr t)
    (hfind : ∀ fuel, t.height < fuel → Tree.find cmp fuel s k (ptr t) = some x.addr)
    (hlen : s.len ≠ 0) (hval : x.val ≠ notFound) (hidle : x.refcount = 0) :
    ∃ s' u, Returns (fun fuel ↦ treeDelete cmp notFound fuel s k) s' ∧ At s' [] u ∧ ExactBelow u ∧
      s'.len = wordDec s.len ∧
      cores u = (before c ++ l.inorder).map core ++ (r.inorder ++ after c).map core ∧
      s'.counts = Function.update s.counts x.addr none ∧
      Climbed (sinkPath c (.node x l r)) .nil (bare u) := by
  have hx0 : x.addr ≠ 0 := Heap.ne_zero_of_read hat.rep.1
  rw [← hroot] at hfind
  obtain ⟨s1, h1, hat1, -⟩ :=
    hat.treeDelete_of_seen (hfind _ (Nat.lt_succ_self _)) hlen hval
  have hlen1 : s1.len = s.len := by
    obtain ⟨s2, h2, -, hlen2, -⟩ := modify_spec hat.rep.1 fun nd ↦ { nd with delete := true }
    rw [← some.inj (h1.symm.trans h2)] at hlen2
    exact hlen2
  rw [← hplug] at hbelow
  obtain ⟨hsibs, hbelow⟩ := exactBelow_plug hbelow
  have hexact : ExactAt s1 c (.node { x with delete := true } l r) := ⟨hat1, hbelow, hsibs⟩
  obtain ⟨s', u, ⟨N, hremove⟩, hat', hbelow', hlen', hcores, hclimbed⟩ := hexact.removeNode
  have hcounts : s'.counts = update s.counts x.addr none := by
    rw [removeNode_counts hx0 (hremove N le_rfl), modify_counts_eq h1 fun _ ↦ rfl]
  refine ⟨s', u, ⟨max N (t.height + 1), fun fuel hfuel ↦ ?_⟩, hat', hbelow',
    hlen'.trans (by rw [hlen1]), hcores, hcounts, hclimbed⟩
  obtain ⟨s2, h2, -, heq⟩ := hat.treeDelete_of_seen (hfind fuel (by omega)) hlen hval
  obtain rfl : s2 = s1 := some.inj (h2.symm.trans h1)
  show Tree.treeDelete cmp notFound fuel s k = some s'
  rw [heq, if_pos hidle]
  exact hremove fuel (by omega)

end

theorem Stores.treeDelete_of_mem (hcmp : TotalComparer cmp) (h : Stores cmp notFound s t)
    (hk : k ∈ contents t) (hidle : ∀ x ∈ cores t, x.key = k → x.refcount = 0) :
    ∃ s' u, Returns (fun fuel ↦ treeDelete cmp notFound fuel s k) s' ∧ Stores cmp notFound s' u ∧
      ∃ xs x ys, x.key = k ∧ cores t = xs ++ x :: ys ∧ cores u = xs ++ ys ∧
        s'.counts = Function.update s.counts x.addr none := by
  rcases h.at_.find hcmp h.sorted k with ⟨c, x, l, r, hfind, rfl, hat, hplug⟩ | ⟨-, habsent⟩
  swap
  · obtain ⟨y, hy, hyk⟩ := mem_contents.mp hk
    exact absurd hyk (habsent y hy)
  rw [plug_nil] at hplug
  have hmem : x.core ∈ cores t := by
    rw [← hplug, cores_plug_node]
    simp
  have hlen0 : s.len ≠ 0 := by
    rw [Ne, h.len_eq_zero]
    rintro rfl
    simp [cores] at hmem
  obtain ⟨s', u, hret, hat', hbelow', hlen', hcores, hcounts, -⟩ :=
    hat.treeDelete hplug h.below h.at_.around hfind hlen0 (h.ordered.vals x.core hmem)
      (hidle x.core hmem rfl)
  obtain ⟨hstores, xs, ys, ht, hu⟩ := h.removed hplug hat' hbelow' hcores hlen'
  exact ⟨s', u, hret, hstores, xs, x.core, ys, rfl, ht, hu, hcounts⟩

end Delete

/-! ## Whole runs -/

/-- The reference: a finite map in which insertion of a key that is present does nothing. -/
def mapStep (m : Finmap fun _ : K ↦ V) : Op K V → Finmap fun _ : K ↦ V
  | .insert _ k v => if k ∈ m then m else m.insert k v
  | .delete k => m.erase k

theorem Holds.step [DecidableEq V] (hcmp : TotalComparer cmp) {op : Op K V}
    (h : Holds cmp notFound s t) (hop : Allowed notFound s op) :
    ∃ s' u, Returns (fun fuel ↦ step cmp notFound fuel s op) s' ∧ Holds cmp notFound s' u ∧
      contents u = mapStep (contents t) op := by
  cases op with
  | insert a k v =>
    obtain ⟨ha, hfree, hv⟩ := hop
    by_cases hk : k ∈ contents t
    · exact ⟨s, t, h.treeInsert_of_mem hcmp hk, h, (if_pos hk).symm⟩
    · obtain ⟨s', u, hret, hst', xs, ys, ht, hu⟩ := h.treeInsert_of_notMem hcmp hk ha hfree hv
      refine ⟨s', u, hret, ⟨hst', fun x hx ↦ ?_⟩,
        (hst'.contents_insert hcmp ht hu).trans (if_neg hk).symm⟩
      rw [hu, List.perm_middle.mem_iff, List.mem_cons, ← ht] at hx
      rcases hx with rfl | hx
      · rfl
      · exact h.idle x hx
  | delete k =>
    by_cases hk : k ∈ contents t
    · obtain ⟨s', u, hret, hst', xs, x, ys, rfl, ht, hu, -⟩ :=
        h.treeDelete_of_mem hcmp hk fun x hx _ ↦ h.idle x hx
      refine ⟨s', u, hret, ⟨hst', fun y hy ↦ h.idle y ?_⟩, h.contents_erase hcmp ht hu⟩
      rw [ht, List.perm_middle.mem_iff, List.mem_cons, ← hu]
      exact .inr hy
    · exact ⟨s, t, h.treeDelete_of_notMem hcmp hk, h, (Finmap.erase_of_notMem hk).symm⟩

omit [DecidableEq K] in
theorem stores_empty (hroot : s.root = 0) (hlen : s.len = 0) :
    Stores cmp notFound s (.nil : Shape K V) where
  at_ := ⟨trivial, hroot, by simp [addrs, addrsAround, BinaryTree.around]⟩
  below := trivial
  ordered := ⟨by simp [cores], by simp [cores]⟩
  len := hlen

/-- **The tree is a finite map.**  Searching finds what the reference has, the length is the number
of its keys, and an in-order walk yields them, strictly increasing. -/
theorem treeSearch_of_allowed [DecidableEq V] (hcmp : TotalComparer cmp) (hroot : s.root = 0)
    (hlen : s.len = 0) (ops : List (Op K V)) :
    ∃ N, ∀ fuel ≥ N, Run.Guarded (Tree.step cmp notFound fuel) (Allowed notFound) s ops →
      ∃ s', Run.exec (Tree.step cmp notFound fuel) s ops = some s' ∧
        (∀ k, treeSearch cmp notFound fuel s' k =
          some (((ops.foldl mapStep ∅).lookup k).getD notFound)) ∧
        s'.len = (ops.foldl mapStep ∅).keys.card ∧
        ∃ ks, walk fuel s' s'.root = some ks ∧ ks.Pairwise (fun a b ↦ cmp a b < 0) ∧
          ks.toFinset = (ops.foldl mapStep ∅).keys := by
  have hstep : ∀ (s : Tree K V) m op, (∃ t, Holds cmp notFound s t ∧ contents t = m) →
      Allowed notFound s op → ∃ s', Returns (fun fuel ↦ Tree.step cmp notFound fuel s op) s' ∧
        ∃ t, Holds cmp notFound s' t ∧ contents t = mapStep m op := by
    rintro s m op ⟨t, h, rfl⟩ hop
    obtain ⟨s', u, hret, h', hcont⟩ := h.step hcmp hop
    exact ⟨s', hret, u, h', hcont⟩
  have hinit : ∃ t, Holds cmp notFound s t ∧ contents t = ∅ :=
    ⟨.nil, ⟨stores_empty hroot hlen, by simp [cores]⟩, rfl⟩
  rcases Run.returns_of_guarded hstep hinit ops with ⟨N, hN⟩ | ⟨s', ⟨N, hN⟩, t, h, hcont⟩
  · exact ⟨N, fun fuel hfuel hg ↦ absurd hg (hN fuel hfuel)⟩
  refine ⟨max N (t.height + 1), fun fuel hfuel _ ↦ ⟨s', hN fuel (by omega), ?_, ?_, ?_⟩⟩
  · intro k
    rw [h.treeSearch hcmp k (by omega), hcont]
  · rw [h.card_keys hcmp, hcont]
  · have hroot' : s'.root = ptr t := h.at_.around
    refine ⟨t.inorder.map key, ?_, List.pairwise_map.mpr h.sorted, ?_⟩
    · rw [hroot']
      exact h.at_.rep.walk (by omega)
    · rw [toFinset_keys_contents, hcont]

def turnover : List (Op Ptr Ptr) :=
  [.insert 0x10 5 50, .insert 0x20 3 30, .insert 0x30 1 10, .insert 0x40 5 99, .delete 3,
    .insert 0x20 3 33]

theorem guarded_turnover (n : ℕ) :
    Run.Guarded (Tree.step defaultComparer notFoundPtr (n + 8)) (Allowed notFoundPtr) empty
      turnover := by
  refine .cons ⟨by decide, rfl, by decide⟩ rfl ?_
  refine .cons ⟨by decide, rfl, by decide⟩ rfl ?_
  refine .cons ⟨by decide, rfl, by decide⟩ rfl ?_
  refine .cons ⟨by decide, rfl, by decide⟩ rfl ?_
  refine .cons trivial rfl ?_
  exact ⟨⟨by decide, rfl, by decide⟩, fun t ht ↦ trivial⟩

theorem treeSearch_turnover : ∃ N, ∀ fuel ≥ N,
    ∃ s', Run.exec (Tree.step defaultComparer notFoundPtr fuel) empty turnover = some s' ∧
      treeSearch defaultComparer notFoundPtr fuel s' 5 = some 50 ∧
      treeSearch defaultComparer notFoundPtr fuel s' 3 = some 33 ∧
      treeSearch defaultComparer notFoundPtr fuel s' 4 = some notFoundPtr ∧ s'.len = 3 := by
  obtain ⟨N, hN⟩ := treeSearch_of_allowed (s := empty) totalComparer_default
    rfl rfl turnover
  refine ⟨N + 8, fun fuel hfuel ↦ ?_⟩
  obtain ⟨n, rfl⟩ : ∃ n, fuel = n + 8 := ⟨fuel - 8, by omega⟩
  obtain ⟨s', hexec, hsearch, hlen, -⟩ := hN (n + 8) (by omega) (guarded_turnover n)
  exact ⟨s', hexec, (hsearch 5).trans (by decide), (hsearch 3).trans (by decide),
    (hsearch 4).trans (by decide), hlen.trans (by decide)⟩

end ForgeOS.Tree
