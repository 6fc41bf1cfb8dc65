import ForgeOS.Tree.Iterator
import ForgeOS.Tree.Map

/-!
# Walking over the tree

An iterator goes down to the child on one side and from there all the way to the other side, or, if
there is no such child, up until the way comes from the other side: to the next node of the in-order
list.
-/

namespace ForgeOS.Tree

open BinaryTree Function List Option Heap

variable {K V : Type} {cmp : K → K → ℤ} {notFound : V} {s : Tree K V} {t : Shape K V}
variable {c : List (Frame (Cell K V))} {d : Side} {n m : Ptr} {x : Cell K V} {l r a b : Shape K V}

theorem at_plug : At s c t ↔ At s [] (plug c t) := by
  induction c generalizing t with
  | nil => rfl
  | cons f c ih => rw [at_cons, ih, plug_cons]

theorem At.place (hat : At s c t) (hn : n ∈ addrs t) :
    ∃ c' x l r, x.addr = n ∧ At s c' (.node x l r) ∧ plug c' (.node x l r) = plug c t := by
  induction t generalizing c with
  | nil => simp [addrs] at hn
  | node x l r ihl ihr =>
    rcases (mem_addrs_join (d := .left)).mp hn with rfl | hn | hn
    · exact ⟨c, x, l, r, rfl, hat, rfl⟩
    · exact ihl hat.left hn
    · exact ihr hat.right hn

theorem At.read_core (hat : At s [] t) (hx : x ∈ cores t) :
    ∃ nd, s.heap.read x.addr = some nd ∧ nd.key = x.key ∧ nd.refcount = x.refcount ∧
      nd.delete = x.delete := by
  obtain ⟨y, hy, rfl⟩ := mem_map.mp hx
  obtain ⟨c, z, l, r, hz, hat', hplug⟩ := hat.place (mem_map_of_mem hy)
  have hnd : (addrs t).Nodup := by simpa [addrsAround, BinaryTree.around] using hat.nodup
  have hmem : z ∈ t.inorder := by
    rw [← plug_nil t, ← hplug, inorder_plug]
    simp
  obtain rfl : z = y := inj_on_of_nodup_map hnd hmem hy hz
  exact ⟨_, hat'.rep.1, rfl, rfl, rfl⟩

theorem At.counts_core (hat : At s [] t) (hx : x ∈ cores t) :
    s.counts x.addr = some x.refcount := by
  obtain ⟨nd, hnd, -, hcount, -⟩ := hat.read_core hx
  rw [counts, hnd, map_some, hcount]

variable {u : Shape K V}

theorem Rep.unique {h : Heap Ptr (Node K V)} {p : Ptr} (ht : Rep h p t)
    (hu : Rep h p u) (hptr : ptr t = ptr u) : t = u := by
  induction t generalizing p u with
  | nil => exact (hu.ptr_eq_zero.mp hptr.symm).symm
  | node x l r ihl ihr =>
    cases u with
    | nil => exact absurd hptr (ne_zero_of_read ht.1)
    | node y l' r' =>
      have haddr : x.addr = y.addr := hptr
      have hread := ht.1.symm.trans (haddr ▸ hu.1)
      simp only [Cell.toNode, some.injEq, Node.mk.injEq] at hread
      obtain ⟨hkey, hval, hheight, hcount, hdelete, -, hl, hr⟩ := hread
      obtain rfl : x = y := by
        cases x
        cases y
        simp_all
      rw [ihl ht.2.1 hu.2.1 hl, ihr ht.2.2 hu.2.2 hr]

theorem At.unique (hat : At s [] t) (hat' : At s [] u) : t = u :=
  hat.rep.unique hat'.rep (Eq.trans (Eq.symm hat.around) hat'.around)

def first (xs : List (Cell K V)) : Ptr := (xs.map Cell.addr).headD 0

theorem first_append {xs : List (Cell K V)} (hxs : xs ≠ []) (ys : List (Cell K V)) :
    first (xs ++ ys) = first xs := by
  cases xs with
  | nil => exact absurd rfl hxs
  | cons x xs => rfl

theorem first_listed_mem (d : Side) (ht : t ≠ .nil) : first (listed d t) ∈ addrs t := by
  have hmem : ∀ y ∈ listed d t, y.addr ∈ addrs t := by
    intro y hy
    cases d with
    | left => exact mem_map_of_mem (mem_reverse.mp hy)
    | right => exact mem_map_of_mem hy
  cases hlisted : listed d t with
  | nil => exact absurd (listed_eq_nil.mp hlisted) ht
  | cons y ys => exact hmem y (hlisted ▸ mem_cons_self)

theorem At.descend_returns (d : Side) (hat : At s c t) (ht : t ≠ .nil) :
    Returns (fun fuel ↦ Tree.descend d fuel s (ptr t)) (first (listed d.other t)) := by
  induction hheight : t.height using Nat.strong_induction_on generalizing c t with
  | _ k ih =>
    subst hheight
    obtain ⟨x, a, b, rfl⟩ := exists_join d ht
    have hlisted : listed d.other (join d x a b) = listed d.other a ++ x :: listed d.other b := by
      rw [← listed_join_other, Side.other_other]
    have hturn : ∀ fuel, Tree.descend d (fuel + 1) s (ptr (join d x a b)) =
        if ptr a ≠ 0 then Tree.descend d fuel s (ptr a) else some x.addr := fun fuel ↦ by
      simp only [Tree.descend, ptr_join, hat.read, child_toNode, bind_eq_bind,
        bind_some]
    rw [hlisted]
    by_cases ha : a = .nil
    · subst ha
      rw [listed_eq_nil.mpr rfl]
      exact (Returns.of_eq rfl).turn hturn
    · have hat' : At s (⟨d, x, b⟩ :: c) a := at_cons.mpr hat
      have hlt : a.height < (join d x a b).height := by
        rw [height_join]
        omega
      have ha0 : ptr a ≠ 0 := fun h0 ↦ ha (hat'.rep.ptr_eq_zero.mp h0)
      simp only [if_pos ha0] at hturn
      rw [first_append (listed_eq_nil.not.mpr ha)]
      exact (ih a.height hlt hat' ha rfl).turn hturn

theorem At.ascend_returns (d : Side) (hat : At s c t) (ht : t ≠ .nil) :
    Returns (fun fuel ↦ Tree.ascend d fuel s (ptr t)) (first (ahead d c)) := by
  induction c generalizing t with
  | nil =>
    obtain ⟨x, l, r, rfl⟩ : ∃ x l r, t = .node x l r := exists_join .left ht
    have hx := hat.rep.1
    refine (Returns.of_eq rfl).turn fun fuel ↦ ?_
    simp only [Tree.ascend, ptr_node, hx, toNode_parent, up, if_true, bind_eq_bind,
      bind_some]
    rfl
  | cons f c ih =>
    obtain ⟨x, l, r, rfl⟩ : ∃ x l r, t = .node x l r := exists_join .left ht
    have hx := hat.rep.1
    have hf := hat.around.1
    have hf0 := ne_zero_of_read hf
    have hup : up (f :: c) = f.value.addr := rfl
    have hturn : ∀ fuel, Tree.ascend d (fuel + 1) s (ptr (.node x l r)) =
        if x.addr = (f.value.toNode f.side (up c) x.addr (ptr f.sib)).child d then
          Tree.ascend d fuel s f.value.addr
        else some f.value.addr := fun fuel ↦ by
      simp only [Tree.ascend, ptr_node, hx, toNode_parent, hup, if_neg hf0, hf, bind_eq_bind,
        bind_some]
    by_cases hside : f.side = d
    · subst hside
      have hret := ih (at_cons.mp hat) (by simp)
      rw [ptr_join] at hret
      simp only [child_toNode, if_true] at hturn
      rw [ahead, if_pos rfl]
      exact hret.turn hturn
    · obtain rfl : d = f.side.other := by
        cases d <;> cases hf : f.side <;> first | rfl | exact absurd hf hside
      -- The way comes from the other side.
      have hne : x.addr ≠ ptr f.sib := by
        by_cases hsib : f.sib = .nil
        · rw [hsib]
          exact ne_zero_of_read hx
        · obtain ⟨-, -, -, hdisj, -⟩ := (at_cons.mp hat).disjoint
          intro heq
          exact hdisj (by simp) (heq ▸ ptr_mem_addrs hsib)
      simp only [child_other_toNode, if_neg hne] at hturn
      rw [ahead, if_neg hside]
      exact (Returns.of_eq rfl).turn hturn

theorem At.neighbour_join (hat : At s c (join d x a b)) :
    Returns (fun fuel ↦ Tree.neighbour d fuel s x.addr) (first (listed d a ++ ahead d c)) := by
  have hat' : At s (⟨d, x, b⟩ :: c) a := at_cons.mpr hat
  have hcall : ∀ fuel, Tree.neighbour d fuel s x.addr =
      if ptr a ≠ 0 then Tree.descend d.other fuel s (ptr a) else Tree.ascend d fuel s x.addr :=
    fun fuel ↦ by
      simp only [Tree.neighbour, hat.read, child_toNode, bind_eq_bind, bind_some]
  simp only [hcall]
  by_cases ha : a = .nil
  · have hret := hat.ascend_returns d (by simp)
    rw [ptr_join] at hret
    rw [listed_eq_nil.mpr ha, nil_append]
    simpa only [ha, ptr_nil, ne_eq, not_true_eq_false, if_false] using hret
  · have hret := hat'.descend_returns d.other ha
    have ha0 : ptr a ≠ 0 := fun h0 ↦ ha (hat'.rep.ptr_eq_zero.mp h0)
    rw [Side.other_other] at hret
    rw [first_append (listed_eq_nil.not.mpr ha)]
    simpa only [if_pos ha0] using hret

theorem At.nodup_addrs (hat : At s [] t) : (addrs t).Nodup := by
  simpa [addrsAround, BinaryTree.around] using hat.nodup

variable {as bs : List Ptr}

theorem At.neighbours (hat : At s [] t) (ht : addrs t = as ++ n :: bs) :
    Returns (fun fuel ↦ Tree.neighbour .right fuel s n) (bs.headD 0) ∧
      Returns (fun fuel ↦ Tree.neighbour .left fuel s n) (as.reverse.headD 0) := by
  have hmem : n ∈ addrs t := by simp [ht]
  have hnd := hat.nodup_addrs
  obtain ⟨c, x, l, r, rfl, hat, hplug⟩ := hat.place hmem
  rw [plug_nil] at hplug
  have hsplit : (before c ++ l.inorder).map Cell.addr ++ x.addr :: (r.inorder ++ after c).map Cell.addr
      = as ++ x.addr :: bs := by
    rw [← ht, ← hplug, addrs, inorder_plug]
    simp
  rw [ht] at hnd
  rw [nodup_middle, nodup_cons, mem_append, not_or] at hnd
  obtain ⟨has, -, hbs⟩ := (append_cons_inj_of_notMem hnd.1.1 hnd.1.2).mp hsplit.symm
  have hright := At.neighbour_join (d := .right) hat
  have hleft := At.neighbour_join (d := .left) hat
  rw [ahead_right] at hright
  rw [ahead_left] at hleft
  refine ⟨hbs ▸ hright, ?_⟩
  rw [has, ← map_reverse, reverse_append]
  exact hleft

theorem At.neighbour_returns (d : Side) (hat : At s [] t) (hn : n ∈ addrs t) :
    ∃ m, (m = 0 ∨ m ∈ addrs t) ∧ Returns (fun fuel ↦ Tree.neighbour d fuel s n) m := by
  obtain ⟨as, bs, ht⟩ := append_of_mem hn
  obtain ⟨hright, hleft⟩ := hat.neighbours ht
  cases d with
  | left =>
    refine ⟨_, ?_, hleft⟩
    cases has : as.reverse with
    | nil => exact .inl rfl
    | cons a as' =>
      have hmem : a ∈ as := mem_reverse.mp (has ▸ mem_cons_self)
      exact .inr (by simp [ht, hmem])
  | right =>
    refine ⟨_, ?_, hright⟩
    cases bs with
    | nil => exact .inl rfl
    | cons b bs => exact .inr (by simp [ht])

def withCount (n : Ptr) (g : ℕ → ℕ) (x : Cell K V) : Cell K V :=
  if x.addr = n then { x with refcount := g x.refcount } else x

section WithCount

variable (g : ℕ → ℕ) (y : Cell K V)

@[simp] theorem withCount_key : (withCount n g y).key = y.key := by
  unfold withCount
  split <;> rfl

@[simp] theorem withCount_val : (withCount n g y).val = y.val := by
  unfold withCount
  split <;> rfl

@[simp] theorem withCount_addr : (withCount n g y).addr = y.addr := by
  unfold withCount
  split <;> rfl

@[simp] theorem withCount_delete : (withCount n g y).delete = y.delete := by
  unfold withCount
  split <;> rfl

end WithCount

theorem exact_join {a b : Shape K V} : Tree.Exact (join d x a b) ↔
    x.height = max a.height b.height + 1 ∧ Tree.Exact a ∧ Tree.Exact b := by
  cases d with
  | left => exact .rfl
  | right => rw [Nat.max_comm, and_comm (a := Tree.Exact a)]; exact .rfl

theorem exactBelow_plug_congr {t' : Shape K V} (hheight : t'.height = t.height)
    (hexact : Tree.Exact t → Tree.Exact t') (hbelow : ExactBelow t → ExactBelow t')
    (h : ExactBelow (plug c t)) : ExactBelow (plug c t') := by
  induction c generalizing t t' with
  | nil => exact hbelow h
  | cons f c ih =>
    refine ih ?_ (fun h ↦ ?_) (fun h ↦ ?_) h
    · rw [height_join, height_join, hheight]
    · obtain ⟨hx, ht, hsib⟩ := exact_join.mp h
      exact exact_join.mpr ⟨by rw [hheight, hx], hexact ht, hsib⟩
    · obtain ⟨ht, hsib⟩ := exactBelow_join.mp h
      exact exactBelow_join.mpr ⟨hexact ht, hsib⟩

structure Revised (s s' : Tree K V) (t u : Shape K V) (f : Cell K V → Cell K V) : Prop where
  at_ : At s' [] u
  cores : cores u = (cores t).map f
  below : ExactBelow t → ExactBelow u
  len : s'.len = s.len

variable {g f : Cell K V → Cell K V}

theorem Revised.trans {s' s'' : Tree K V} {u w : Shape K V} (h : Revised s s' t u f)
    (h' : Revised s' s'' u w g) : Revised s s'' t w (g ∘ f) where
  at_ := h'.at_
  cores := by rw [h'.cores, h.cores, List.map_map]
  below hbelow := h'.below (h.below hbelow)
  len := h'.len.trans h.len

def revise (n : Ptr) (g : Cell K V → Cell K V) (y : Cell K V) : Cell K V :=
  if y.addr = n then g y else y

theorem map_revise_of_notMem {ys : List (Cell K V)}
    (hn : ∀ y ∈ ys, y.addr ≠ n) : ys.map (revise n g) = ys :=
  (map_congr_left fun y hy ↦ if_neg (hn y hy)).trans (map_id ys)

theorem At.revise (hat : At s [] t) (hn : n ∈ addrs t) {k : Node K V → Node K V}
    (haddr : ∀ y, (g y).addr = y.addr) (hheight : ∀ y, (g y).height = y.height)
    (hcore : ∀ y, (g y).core = g y.core)
    (hk : ∀ y p a b, k (Cell.toNode y .left p a b) = (g y).toNode .left p a b) :
    ∃ s' u, s.modify n k = some s' ∧ Revised s s' t u (Tree.revise n g) := by
  obtain ⟨c, x, l, r, rfl, hat, hplug⟩ := hat.place hn
  rw [plug_nil] at hplug
  obtain ⟨s', hs', hat', hkeeps⟩ := At.write (d := .left) hat (g x) (haddr x) (hk x _ _ _)
  have hat0 : At s' [] (plug c (.node (g x) l r)) := at_plug.mp hat'
  refine ⟨s', _, hs', hat0, ?_, ?_, hkeeps.len⟩
  · have hself : Tree.revise x.addr g x.core = g x.core := if_pos rfl
    rw [← hplug, cores_plug_node, cores_plug_node, map_append (f := Tree.revise x.addr g),
      map_cons, hself, map_revise_of_notMem hat.addr_notMem.1,
      map_revise_of_notMem hat.addr_notMem.2, hcore]
  · intro hbelow
    rw [← hplug] at hbelow
    refine exactBelow_plug_congr (t := .node x l r) rfl (fun h ↦ ?_) id hbelow
    exact ⟨(hheight x).trans h.1, h.2⟩

theorem At.setRefcount (hat : At s [] t) (hn : n ∈ addrs t) (g : ℕ → ℕ) :
    ∃ s' u, s.modify n (fun nd ↦ { nd with refcount := g nd.refcount }) = some s' ∧
      Revised s s' t u (withCount n g) :=
  hat.revise hn (g := fun y ↦ { y with refcount := g y.refcount }) (fun _ ↦ rfl) (fun _ ↦ rfl)
    (fun _ ↦ rfl) fun _ _ _ _ ↦ rfl

structure KeepsEntries (f : Cell K V → Cell K V) : Prop where
  addr : ∀ y, (f y).addr = y.addr
  key : ∀ y, (f y).key = y.key
  val : ∀ y, (f y).val = y.val

structure OnlyCounts (f : Cell K V → Cell K V) : Prop extends KeepsEntries f where
  delete : ∀ y, (f y).delete = y.delete

theorem onlyCounts_withCount (n : Ptr) (g : ℕ → ℕ) : OnlyCounts (withCount (K := K) (V := V) n g) :=
  ⟨⟨withCount_addr g, withCount_key g, withCount_val g⟩, withCount_delete g⟩

theorem OnlyCounts.comp (hf : OnlyCounts f) (hg : OnlyCounts g) : OnlyCounts (f ∘ g) where
  addr y := (hf.addr _).trans (hg.addr y)
  key y := (hf.key _).trans (hg.key y)
  val y := (hf.val _).trans (hg.val y)
  delete y := (hf.delete _).trans (hg.delete y)

variable {s' : Tree K V} {f : Cell K V → Cell K V}

theorem Revised.addrs (h : Revised s s' t u f) (hf : KeepsEntries f) : addrs u = addrs t := by
  rw [addrs_eq_map_cores, h.cores, addrs_eq_map_cores, List.map_map]
  exact List.map_congr_left fun y _ ↦ hf.addr y

theorem Stores.of_revised (h : Stores cmp notFound s t) (hf : KeepsEntries f)
    (hu : Revised s s' t u f) :
    Stores cmp notFound s' u ∧ bindings (Tree.cores u) = bindings (Tree.cores t) := by
  have hcores := hu.cores
  refine ⟨⟨hu.at_, hu.below h.below, ⟨?_, ?_⟩, ?_⟩, ?_⟩
  · rw [hcores, pairwise_map]
    simpa only [hf.key] using h.ordered.sorted
  · rw [hcores]
    refine forall_mem_map.mpr fun y hy ↦ ?_
    rw [hf.val]
    exact h.ordered.vals y hy
  · rw [hu.len, h.len, hcores, length_map]
  · rw [hcores]
    simp [Tree.bindings, comp_def, hf.key, hf.val]

theorem At.freeNodeIfNeeded (hat : At s [] t) (hn : n ∈ addrs t)
    (hkeep : ∀ x ∈ cores t, x.addr = n → x.delete = true → x.refcount ≠ 0) (fuel : ℕ) :
    Tree.freeNodeIfNeeded fuel s n = some (false, s) := by
  rw [addrs_eq_map_cores] at hn
  obtain ⟨x, hx, rfl⟩ := mem_map.mp hn
  obtain ⟨nd, hnd, -, hcount, hdelete⟩ := hat.read_core hx
  have hnot : ¬ (nd.refcount = 0 ∧ nd.delete = true) := by
    rw [hcount, hdelete]
    exact fun h ↦ hkeep x hx rfl h.2 h.1
  simp only [Tree.freeNodeIfNeeded, hnd, bind_eq_bind, bind_some, if_neg hnot]

theorem At.stepOnto (hat : At s [] t) (hm : m = 0 ∨ m ∈ addrs t) :
    ∃ s' u, s.stepOnto m = some s' ∧ Revised s s' t u (withCount m wordInc) := by
  by_cases hm0 : m = 0
  · subst hm0
    refine ⟨s, t, rfl, hat, ?_, id, rfl⟩
    refine (map_revise_of_notMem fun y hy h0 ↦ hat.notMem_zero ?_).symm
    rw [addrs_eq_map_cores, ← h0]
    exact mem_map_of_mem hy
  · obtain ⟨s', u, hs', hu⟩ := hat.setRefcount (hm.resolve_left hm0) wordInc
    exact ⟨s', u, (if_pos hm0).trans hs', hu⟩

theorem At.leaveFor (hat : At s [] t) (hn : n ∈ addrs t)
    (hneighbour : Returns (fun fuel ↦ Tree.neighbour d fuel s n) m) (hm : m = 0 ∨ m ∈ addrs t)
    (hkeep : ∀ x ∈ cores t, x.addr = n → x.delete = true → wordDec x.refcount ≠ 0) :
    ∃ s' u, Returns (fun fuel ↦ Tree.leaveFor d fuel s n) (m, false, s') ∧
      Revised s s' t u (withCount m wordInc ∘ withCount n wordDec) := by
  obtain ⟨s1, u1, h1, hu1⟩ := hat.setRefcount hn wordDec
  have haddrs := hu1.addrs (onlyCounts_withCount n wordDec).toKeepsEntries
  have hfree : ∀ fuel, Tree.freeNodeIfNeeded fuel s1 n = some (false, s1) := by
    refine hu1.at_.freeNodeIfNeeded (haddrs ▸ hn) ?_
    rw [hu1.cores]
    refine forall_mem_map.mpr fun x hx hxn hdelete ↦ ?_
    rw [withCount_addr] at hxn
    rw [withCount_delete] at hdelete
    have hcount := hkeep x hx hxn hdelete
    simpa [withCount, hxn] using hcount
  obtain ⟨s', u, hs', hu⟩ := hu1.at_.stepOnto (haddrs ▸ hm)
  refine ⟨s', u, ?_, hu1.trans hu⟩
  obtain ⟨N, hN⟩ := hneighbour
  refine ⟨N, fun fuel hfuel ↦ ?_⟩
  have h1' : s.release n = some s1 := h1
  simp only [Tree.leaveFor, hN fuel hfuel, h1', hfree fuel, hs', bind_eq_bind,
    bind_some]

theorem At.treeIterator {s : Iterated K V} {i : Ptr} (hat : At s.tree [] t) (ht : t ≠ .nil)
    (hi : i ≠ 0) (hfree : s.its.read i = none) :
    ∃ tree u, s.tree.retain (first t.inorder) = some tree ∧
      Returns (fun fuel ↦ s.treeIterator fuel i) ⟨tree, s.its.set i ⟨first t.inorder, 0⟩⟩ ∧
      Revised s.tree tree t u (withCount (first t.inorder) wordInc) := by
  have hroot : s.tree.root = ptr t := hat.around
  have hdescend : Returns (fun fuel ↦ Tree.descend .left fuel s.tree s.tree.root)
      (first t.inorder) := hroot ▸ hat.descend_returns .left ht
  obtain ⟨N, hN⟩ := hdescend
  obtain ⟨tree, u, htree, hu⟩ := hat.setRefcount (first_listed_mem .right ht) wordInc
  refine ⟨tree, u, htree, ⟨N, fun fuel hfuel ↦ ?_⟩, hu⟩
  have htree' : s.tree.retain (first t.inorder) = some tree := htree
  simp only [Iterated.treeIterator, alloc_eq hi hfree, hN fuel hfuel, htree', Heap.set_set,
    bind_eq_bind, bind_some]

theorem stepOnto_height {nd : Node K V} (h : s.stepOnto n = some s')
    (hnd : s.heap.read m = some nd) :
    ∃ nd', s'.heap.read m = some nd' ∧ nd'.height = nd.height := by
  rw [Tree.stepOnto] at h
  split at h
  · rw [retain, modify, map_eq_some_iff] at h
    obtain ⟨heap, hheap, rfl⟩ := h
    rw [Heap.modify, map_eq_some_iff] at hheap
    obtain ⟨old, hold, rfl⟩ := hheap
    by_cases hmn : m = n
    · subst hmn
      obtain rfl : old = nd := some.inj (hold.symm.trans hnd)
      exact ⟨_, read_set_self (ne_zero_of_read hnd), rfl⟩
    · exact ⟨nd, (read_set_of_ne hmn).trans hnd, rfl⟩
  · cases h
    exact ⟨nd, hnd, rfl⟩

theorem At.leaveFor_retained {s1 s2 : Tree K V} (hat : At s [] t)
    (hidle : ∀ x ∈ cores t, x.refcount = 0 ∧ x.delete = false) (ht : addrs t = as ++ n :: bs)
    (h1 : s.retain n = some s1) (h2 : s.stepOnto (bs.headD 0) = some s2) :
    Returns (fun fuel ↦ Tree.leaveFor .right fuel s1 n) (bs.headD 0, false, s2) := by
  have hn : n ∈ addrs t := by simp [ht]
  obtain ⟨s', u, hs', hu⟩ := hat.setRefcount hn wordInc
  obtain rfl : s' = s1 := some.inj (hs'.symm.trans h1)
  have haddrs := hu.addrs (onlyCounts_withCount n wordInc).toKeepsEntries
  have hfree : ∀ fuel, Tree.freeNodeIfNeeded fuel s n = some (false, s) :=
    hat.freeNodeIfNeeded hn fun x hx _ hdelete ↦ absurd (hidle x hx).2 (by simp [hdelete])
  have hrelease : s'.release n = some s := by
    rw [addrs_eq_map_cores] at hn
    obtain ⟨x, hx, rfl⟩ := mem_map.mp hn
    obtain ⟨nd, hnd, -, hcount, -⟩ := hat.read_core hx
    have hzero : nd.refcount = 0 := hcount.trans (hidle x hx).1
    rw [modify_eq hnd] at hs'
    cases hs'
    rw [release, modify_eq (read_set_self (ne_zero_of_read hnd)), Heap.set_set, hzero,
      wordDec_wordInc (by decide), ← hzero, set_self hnd]
  obtain ⟨N, hN⟩ := (hu.at_.neighbours (haddrs.trans ht)).1
  refine ⟨N, fun fuel hfuel ↦ ?_⟩
  simp only [Tree.leaveFor, hN fuel hfuel, hrelease, hfree fuel, h2, bind_eq_bind,
    bind_some]

end ForgeOS.Tree
