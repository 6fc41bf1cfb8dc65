import ForgeOS.Tree.Rebalance

/-!
# Removing a node

`remove_node` rotates the node down until it is a leaf, unlinks it, and climbs to the root from
where it was.
-/

namespace ForgeOS.Tree

open BinaryTree List

variable {K V : Type} {s s' : Tree K V} {c : List (Frame (Cell K V))} {d : Side} {x y z : Cell K V}
variable {a b l r t u : Shape K V}

structure ExactAt (s : Tree K V) (c : List (Frame (Cell K V))) (t : Shape K V) : Prop
    extends At s c t where
  below : ExactBelow t
  sibs : ∀ f ∈ c, Exact f.sib

theorem ExactAt.rotate (h : ExactAt s c (join d x a (join d y b r))) :
    ∃ s', Tree.rotate d s x.addr = some s' ∧ ExactAt s' (⟨d, y, r⟩ :: c) (join d x a b) ∧
      Moved s s' c (⟨d, y, r⟩ :: c) (join d x a (join d y b r)) (join d x a b) := by
  obtain ⟨s', h', hat', hm⟩ := h.toAt.rotate_moved
  obtain ⟨ha, hy⟩ := exactBelow_join.mp h.below
  obtain ⟨hb, hr⟩ := exactBelow_join.mp hy.below
  refine ⟨s', h', ⟨hat', exactBelow_join.mpr ⟨ha, hb⟩, ?_⟩, hm⟩
  intro f hf
  rcases mem_cons.mp hf with rfl | hf
  · exact hr
  · exact h.sibs f hf

theorem ExactAt.rotate_rotate (h : ExactAt s c (join d x (join d.other z a l) (join d y b r))) :
    ∃ s1 s2, Tree.rotate d s x.addr = some s1 ∧ Tree.rotate d.other s1 x.addr = some s2 ∧
      ExactAt s2 (⟨d.other, z, l⟩ :: ⟨d, y, r⟩ :: c) (join d.other x b a) ∧
      Moved s s2 c (⟨d.other, z, l⟩ :: ⟨d, y, r⟩ :: c)
        (join d x (join d.other z a l) (join d y b r)) (join d.other x b a) := by
  obtain ⟨s1, h1, hat1, hm1⟩ := h.rotate
  rw [← join_other d x b] at hat1 hm1
  obtain ⟨s2, h2, hat2, hm2⟩ := hat1.rotate
  exact ⟨s1, s2, h1, h2, hat2, hm1.trans hm2⟩

def sunk {α : Type} : BinaryTree α → BinaryTree α → List (Frame α)
  | .nil, .nil => []
  | .nil, .node y b e => sunk .nil b ++ [⟨.left, y, e⟩]
  | .node x a b, .nil => sunk b .nil ++ [⟨.right, x, a⟩]
  | .node x a b, .node y b' e =>
    sunk b b' ++
      if (node x a b).height ≤ (node y b' e).height then
        [⟨.left, y, e⟩, ⟨.right, x, a⟩]
      else [⟨.right, x, a⟩, ⟨.left, y, e⟩]
termination_by l r => l.numNodes + r.numNodes
decreasing_by all_goals simp only [numNodes]; omega

def sinkPath (c : List (Frame (Cell K V))) : Shape K V → List (Frame Unit)
  | .nil => bareFrames c
  | .node _ l r => sunk (bare l) (bare r) ++ bareFrames c

def First (d : Side) (l r : Shape K V) : Prop :=
  match d with
  | .left => r.height < l.height
  | .right => r.height ≤ l.height

theorem sinkPath_of_nil :
    sinkPath (⟨d, y, r⟩ :: c) (join d x .nil b) = sinkPath c (join d x .nil (join d y b r)) := by
  cases d <;> simp [sinkPath, join, bare, BinaryTree.map, sunk, bareFrames]

theorem sinkPath_of_first (hd : First d (join d.other z a l) (join d y b r)) :
    sinkPath (⟨d.other, z, l⟩ :: ⟨d, y, r⟩ :: c) (join d.other x b a) =
      sinkPath c (join d x (join d.other z a l) (join d y b r)) := by
  simp only [First, height_join] at hd
  cases d with
  | left =>
    have hlt : ¬ (node () (bare l) (bare a)).height ≤
        (node () (bare b) (bare r)).height := by
      simp only [height, height_bare]
      omega
    simp only [sinkPath, join, Side.other, bare, BinaryTree.map, sunk, bareFrames] at hlt ⊢
    rw [if_neg hlt]
    simp
  | right =>
    have hle : (node () (bare r) (bare b)).height ≤
        (node () (bare a) (bare l)).height := by
      simp only [height, height_bare]
      omega
    simp only [sinkPath, join, Side.other, bare, BinaryTree.map, sunk, bareFrames] at hle ⊢
    rw [if_pos hle]
    simp

def Sinks (s s' : Tree K V) (c : List (Frame (Cell K V))) (x : Cell K V) (t : Shape K V) : Prop :=
  ∃ c' l r, ExactAt s' c' (.node x l r) ∧ (node x l r).numNodes < t.numNodes ∧
    Moved s s' c c' t (.node x l r) ∧ sinkPath c' (.node x l r) = sinkPath c t

theorem Sinks.of_join {c' : List (Frame (Cell K V))} (h : ExactAt s' c' (join d x a b))
    (hlt : (join d x a b).numNodes < t.numNodes) (hm : Moved s s' c c' t (join d x a b))
    (hpath : sinkPath c' (join d x a b) = sinkPath c t) : Sinks s s' c x t := by
  cases d with
  | left => exact ⟨c', a, b, h, hlt, hm, hpath⟩
  | right => exact ⟨c', b, a, h, hlt, hm, hpath⟩

theorem ExactAt.sinkTurn_of_nil (h : ExactAt s c (join d x .nil r)) (hr : r ≠ .nil) :
    ∃ s', Tree.rotate d s x.addr = some s' ∧ Sinks s s' c x (join d x .nil r) := by
  obtain ⟨y, b, r, rfl⟩ := exists_join d hr
  obtain ⟨s', h', hat', hm⟩ := h.rotate
  refine ⟨s', h', Sinks.of_join hat' ?_ hm sinkPath_of_nil⟩
  simp only [numNodes_join]
  omega

theorem ExactAt.sinkTurn_of_ne_nil (h : ExactAt s c (join d x l r)) (hl : l ≠ .nil) (hr : r ≠ .nil)
    (hd : First d l r) :
    ∃ s1 s', Tree.rotate d s x.addr = some s1 ∧ Tree.rotate d.other s1 x.addr = some s' ∧
      Sinks s s' c x (join d x l r) := by
  obtain ⟨y, b, r, rfl⟩ := exists_join d hr
  obtain ⟨z, a, l, rfl⟩ := exists_join d.other hl
  obtain ⟨s1, s', h1, h', hat', hm⟩ := h.rotate_rotate
  refine ⟨s1, s', h1, h', Sinks.of_join hat' ?_ hm (sinkPath_of_first hd)⟩
  simp only [numNodes_join]
  omega

theorem At.nodeHeight_of_exact (hat : At s c t) (ht : Exact t) :
    ∃ s', s.nodeHeight (ptr t) = some (t.height, s') ∧ At s' c t ∧ Moved s s' c c t t := by
  obtain ⟨s', h', hat', hk⟩ := hat.nodeHeight
  rw [ht.refresh_eq] at h' hat'
  rw [ht.stored] at h'
  exact ⟨s', h', hat', hk.moved rfl⟩

theorem Sinks.of_moved {s0 : Tree K V} (h : Sinks s s' c x t) (hm : Moved s0 s c c t t) :
    Sinks s0 s' c x t := by
  obtain ⟨c', l, r, hat, hlt, hm', hpath⟩ := h
  exact ⟨c', l, r, hat, hlt, hm.trans hm', hpath⟩

theorem ExactAt.sinkTurn (h : ExactAt s c (.node x l r)) (hchild : l ≠ .nil ∨ r ≠ .nil) :
    ∃ s', s.sinkTurn x.addr (ptr l) (ptr r) = some s' ∧ Sinks s s' c x (.node x l r) := by
  obtain ⟨s1, h1, hat1, hm1⟩ := h.toAt.left.nodeHeight_of_exact h.below.1
  have hat1' : At s1 c (.node x l r) := at_cons.mp hat1
  obtain ⟨s2, h2, hat2, hm2⟩ := hat1'.right.nodeHeight_of_exact h.below.2
  have hat2' : ExactAt s2 c (.node x l r) := ⟨at_cons.mp hat2, h.below, h.sibs⟩
  have hm : Moved s s2 c c (.node x l r) (.node x l r) :=
    hm1.of_parent.to_parent.trans hm2.of_parent.to_parent
  simp only [Tree.sinkTurn, h1, h2, Option.bind_eq_bind, Option.bind_some, rotateLeft, rotateRight]
  split
  next hl =>
    obtain rfl := height_eq_zero.mp hl
    have hr : r ≠ .nil := hchild.resolve_left (fun hl ↦ hl rfl)
    obtain ⟨s', h', hs⟩ := ExactAt.sinkTurn_of_nil (d := .left) hat2' hr
    exact ⟨s', h', hs.of_moved hm⟩
  next hl =>
    have hl0 : l ≠ .nil := fun h ↦ hl (height_eq_zero.mpr h)
    split
    next hr =>
      obtain rfl := height_eq_zero.mp hr
      obtain ⟨s', h', hs⟩ := ExactAt.sinkTurn_of_nil (d := .right) hat2' hl0
      exact ⟨s', h', hs.of_moved hm⟩
    next hr =>
      have hr0 : r ≠ .nil := fun h ↦ hr (height_eq_zero.mpr h)
      split
      next hle =>
        obtain ⟨s3, s', h3, h', hs⟩ := ExactAt.sinkTurn_of_ne_nil (d := .right) hat2' hr0 hl0 hle
        refine ⟨s', ?_, hs.of_moved hm⟩
        rw [h3]
        exact h'
      next hle =>
        obtain ⟨s3, s', h3, h', hs⟩ :=
          ExactAt.sinkTurn_of_ne_nil (d := .left) hat2' hl0 hr0 (Nat.lt_of_not_le hle)
        refine ⟨s', ?_, hs.of_moved hm⟩
        rw [h3]
        exact h'

theorem ExactAt.sink (h : ExactAt s c (.node x l r)) :
    ∃ s' c', Returns (fun fuel ↦ Tree.sink fuel s x.addr) s' ∧ ExactAt s' c' (.node x .nil .nil) ∧
      Moved s s' c c' (.node x l r) (.node x .nil .nil) ∧
      bareFrames c' = sinkPath c (.node x l r) := by
  induction hn : (node x l r).numNodes using Nat.strong_induction_on
    generalizing s c l r with
  | _ n ih =>
    subst hn
    have hx := h.rep.1
    have hl := h.rep.2.1.ptr_eq_zero
    have hr := h.rep.2.2.ptr_eq_zero
    by_cases hchild : l ≠ .nil ∨ r ≠ .nil
    · obtain ⟨s1, h1, c1, l1, r1, hat1, hlt, hm1, hpath1⟩ := h.sinkTurn hchild
      obtain ⟨s', c', hret, hat', hm', hpath'⟩ := ih _ hlt hat1 rfl
      refine ⟨s', c', hret.turn fun fuel ↦ ?_, hat', hm1.trans hm', hpath'.trans hpath1⟩
      have hptr : ptr l ≠ 0 ∨ ptr r ≠ 0 := by rwa [Ne, hl, Ne, hr]
      simp only [Tree.sink, hx, Cell.toNode, Option.bind_eq_bind, Option.bind_some, if_pos hptr, h1]
    · have hleaf : l = .nil ∧ r = .nil := by
        simpa only [ne_eq, not_or, not_not] using hchild
      obtain ⟨rfl, rfl⟩ := hleaf
      refine ⟨s, c, (Returns.of_eq rfl).turn fun fuel ↦ ?_, h, .refl s c _, ?_⟩
      · simp [Tree.sink, hx, Cell.toNode]
      · simp [sinkPath, bare, BinaryTree.map, sunk]

theorem climbTurn_of_leaf {p : Ptr} (hx : s.heap.read x.addr = some (x.toNode .left p 0 0)) :
    s.climbTurn x.addr = some s := by
  simp [Tree.climbTurn, Tree.nodeBfactor, Tree.nodeHeight, hx, Cell.toNode]

theorem At.erase (hat : At s c t) {n : Ptr} (ht : n ∉ addrs t) (hc : n ∉ addrsAround c) :
    At { s with heap := s.heap.erase n } c t := by
  have hread : ∀ w, w ≠ n → (s.heap.erase n).read w = s.heap.read w :=
    fun w hw ↦ Heap.read_erase_of_ne hw
  refine ⟨hat.rep.frame fun w hw ↦ hread w ?_, hat.around.frame fun w hw ↦ hread w ?_, hat.nodup⟩
  · rintro rfl
    exact ht hw
  · rintro rfl
    exact hc hw

theorem cores_plug_nil : cores (plug c (.nil : Shape K V)) =
    (before c).map Cell.core ++ (after c).map Cell.core := by
  simp [cores, inorder_plug]

theorem cores_plug_node : cores (plug c (.node x l r)) =
    (before c ++ l.inorder).map Cell.core ++ x.core :: (r.inorder ++ after c).map Cell.core := by
  simp [cores, inorder_plug]

theorem At.addr_notMem (hat : At s c (.node x l r)) :
    (∀ y ∈ (before c ++ l.inorder).map Cell.core, y.addr ≠ x.addr) ∧
      ∀ y ∈ (r.inorder ++ after c).map Cell.core, y.addr ≠ x.addr := by
  have hperm := addrs_perm_plug c (.node x l r)
  have hnd := hperm.symm.nodup hat.nodup
  rw [addrs_eq_map_cores, cores_plug_node, map_append, map_cons, nodup_middle,
    nodup_cons, mem_append, not_or] at hnd
  refine ⟨fun y hy heq ↦ hnd.1.1 ?_, fun y hy heq ↦ hnd.1.2 ?_⟩
  · exact heq ▸ mem_map_of_mem hy
  · exact heq ▸ mem_map_of_mem hy

theorem At.core_notMem (hat : At s c (.node x l r)) :
    x.core ∉ (before c ++ l.inorder).map Cell.core ∧
    x.core ∉ (r.inorder ++ after c).map Cell.core :=
  ⟨fun h ↦ hat.addr_notMem.1 _ h rfl, fun h ↦ hat.addr_notMem.2 _ h rfl⟩

theorem ExactAt.removeNode (h : ExactAt s c (.node x l r)) :
    ∃ s' u, Returns (fun fuel ↦ Tree.removeNode fuel s x.addr) s' ∧ At s' [] u ∧ ExactBelow u ∧
      s'.len = wordDec s.len ∧
      cores u = (before c ++ l.inorder).map Cell.core ++ (r.inorder ++ after c).map Cell.core ∧
      Climbed (sinkPath c (.node x l r)) .nil (bare u) := by
  have h0 : ExactAt { s with len := wordDec s.len } c (.node x l r) :=
    ⟨⟨h.rep, h.around, h.nodup⟩, h.below, h.sibs⟩
  obtain ⟨s1, c', hsink, hat1, hm1, hpath⟩ := h0.sink
  obtain ⟨s2, h2, hat2, hx2, hk2⟩ := hat1.unlink
  have hx0 : x.addr ≠ 0 := Heap.ne_zero_of_read hx2
  have hnotin : x.addr ∉ addrsAround c' := (At.disjoint (d := .left) hat1.toAt).2.2.1
  -- The first turn of the climb is at the node that has been unlinked.
  obtain ⟨s3, u, hclimb, hat3, hbelow3, hm3, hbare3⟩ := hat2.climb_up trivial hat1.sibs
  have hclimb' : Returns (fun fuel ↦ Tree.climb fuel s2 x.addr) s3 := by
    refine hclimb.turn fun fuel ↦ ?_
    simp only [Tree.climb, if_neg hx0, climbTurn_of_leaf hx2, hx2, Option.bind_eq_bind,
      Option.bind_some,
      toNode_parent]
  have hx3 : s3.heap.read x.addr = some (x.toNode .left (up c') 0 0) := by
    rw [hm3.keeps.read x.addr (by simp [addrs]) hnotin, hx2]
  have hxu : x.addr ∉ addrs u := by
    have hperm := addrs_perm_of_cores hm3.cores
    intro hmem
    refine hnotin ?_
    simpa [addrs] using hperm.mem_iff.mp (mem_append_left _ hmem)
  have hfree : (s3.heap.free x.addr).map (fun h ↦ { s3 with heap := h }) =
      some { s3 with heap := s3.heap.erase x.addr } := by
    rw [Heap.free_eq hx3]
    rfl
  refine ⟨{ s3 with heap := s3.heap.erase x.addr }, u, ?_,
    hat3.erase hxu (by simp [addrsAround, around]), hbelow3, ?_, ?_, hpath ▸ hbare3⟩
  · exact hsink.bind ((Returns.of_eq h2).bind (hclimb'.bind (Returns.of_eq hfree)))
  · rw [hm3.keeps.len, hk2.len, hm1.keeps.len]
  · have hu : cores u = cores (plug c' .nil) := hm3.cores
    rw [hu, cores_plug_nil]
    -- The same node, taken out of the same list.
    have hcut := hm1.cores
    rw [cores_plug_node, cores_plug_node] at hcut
    obtain ⟨hbefore, hafter⟩ := h.core_notMem
    obtain ⟨h1, -, h2⟩ := (append_cons_inj_of_notMem hbefore hafter).mp hcut.symm
    rw [h1, h2]
    simp

end ForgeOS.Tree
