import ForgeOS.Tree.Model

/-!
# The shape of a tree in memory

What the heap holds is a binary tree with a place in it, in the sense of `Lib.Zipper`: the node the
program stands at is the root of the subtree at the place, and the nodes on the way to the root are
the frames around it.
-/

namespace ForgeOS.Tree

open BinaryTree List Heap

variable {K V : Type}

structure Cell (K V : Type) where
  addr : Ptr
  key : K
  val : V
  height : ℕ
  refcount : ℕ
  delete : Bool

/-- The node in memory: its parent is `p`, its child on the side `d` is `a`, and the other one `b`.
-/
def Cell.toNode (x : Cell K V) (d : Side) (p a b : Ptr) : Node K V :=
  match d with
  | .left => ⟨x.key, x.val, x.height, x.refcount, x.delete, p, a, b⟩
  | .right => ⟨x.key, x.val, x.height, x.refcount, x.delete, p, b, a⟩

section Fields

variable (x : Cell K V) (d : Side) (p a b q : Ptr)

@[simp] theorem toNode_key : (x.toNode d p a b).key = x.key := by cases d <;> rfl

@[simp] theorem toNode_val : (x.toNode d p a b).val = x.val := by cases d <;> rfl

@[simp] theorem toNode_height : (x.toNode d p a b).height = x.height := by cases d <;> rfl

@[simp] theorem toNode_refcount : (x.toNode d p a b).refcount = x.refcount := by cases d <;> rfl

@[simp] theorem toNode_parent : (x.toNode d p a b).parent = p := by cases d <;> rfl

@[simp] theorem child_toNode : (x.toNode d p a b).child d = a := by cases d <;> rfl

@[simp] theorem child_other_toNode : (x.toNode d p a b).child d.other = b := by cases d <;> rfl

@[simp] theorem setChild_toNode : (x.toNode d p a b).setChild q d = x.toNode d p q b := by
  cases d <;> rfl

@[simp] theorem setChild_other_toNode :
    (x.toNode d p a b).setChild q d.other = x.toNode d p a q := by cases d <;> rfl

@[simp] theorem setParent_toNode :
    { x.toNode d p a b with parent := q } = x.toNode d q a b := by cases d <;> rfl

theorem setHeight_toNode (n : ℕ) :
    { x.toNode d p a b with height := n } = { x with height := n }.toNode d p a b := by
  cases d <;> rfl

theorem setDelete_toNode :
    { x.toNode d p a b with delete := true } = { x with delete := true }.toNode d p a b := by
  cases d <;> rfl

end Fields

abbrev Shape (K V : Type) := BinaryTree (Cell K V)

def ptr : Shape K V → Ptr
  | .nil => 0
  | .node x _ _ => x.addr

@[simp] theorem ptr_nil : ptr (.nil : Shape K V) = 0 := rfl

@[simp] theorem ptr_node (x : Cell K V) (l r : Shape K V) : ptr (.node x l r) = x.addr := rfl

@[simp] theorem ptr_join (d : Side) (x : Cell K V) (a b : Shape K V) :
    ptr (join d x a b) = x.addr := by
  cases d <;> rfl

/-! ## Trees in memory -/

/-- The heap holds the tree, whose root has the parent `p`. -/
def Rep (h : Heap Ptr (Node K V)) : Ptr → Shape K V → Prop
  | _, .nil => True
  | p, .node x l r => h.read x.addr = some (x.toNode .left p (ptr l) (ptr r)) ∧
      Rep h x.addr l ∧ Rep h x.addr r

variable {h h' : Heap Ptr (Node K V)} {p q w n root : Ptr} {d : Side} {x y : Cell K V}
variable {a b m r t : Shape K V} {c : List (Frame (Cell K V))} {f : Frame (Cell K V)}

theorem rep_join : Rep h p (join d x a b) ↔
    h.read x.addr = some (x.toNode d p (ptr a) (ptr b)) ∧ Rep h x.addr a ∧ Rep h x.addr b := by
  cases d with
  | left => exact .rfl
  | right => exact and_congr .rfl and_comm

def up : List (Frame (Cell K V)) → Ptr
  | [] => 0
  | f :: _ => f.value.addr

def RepAround (h : Heap Ptr (Node K V)) (root : Ptr) : Ptr → List (Frame (Cell K V)) → Prop
  | n, [] => root = n
  | n, f :: c => h.read f.value.addr = some (f.value.toNode f.side (up c) n (ptr f.sib)) ∧
      Rep h f.value.addr f.sib ∧ RepAround h root f.value.addr c

def addrs (t : Shape K V) : List Ptr := t.inorder.map Cell.addr

def addrsAround (c : List (Frame (Cell K V))) : List Ptr := (around c).map Cell.addr

attribute [local simp] addrs

@[simp] theorem addrs_node (x : Cell K V) (l r : Shape K V) :
    addrs (.node x l r) = addrs l ++ x.addr :: addrs r := by
  simp

theorem addrs_perm_join (d : Side) (x : Cell K V) (a b : Shape K V) :
    (addrs (join d x a b)).Perm (x.addr :: (addrs a ++ addrs b)) := by
  have hperm := ((perm_join d x a b).trans perm_middle).map Cell.addr
  simpa using hperm

theorem mem_addrs_join {w : Ptr} :
    w ∈ addrs (join d x a b) ↔ w = x.addr ∨ w ∈ addrs a ∨ w ∈ addrs b := by
  rw [(addrs_perm_join d x a b).mem_iff, mem_cons, mem_append]

theorem mem_addrsAround_cons {w : Ptr} :
    w ∈ addrsAround (f :: c) ↔ w = f.value.addr ∨ w ∈ addrs f.sib ∨ w ∈ addrsAround c := by
  simp [addrsAround, around]

theorem Rep.frame (hr : Rep h p t) (heq : ∀ w ∈ addrs t, h'.read w = h.read w) : Rep h' p t := by
  induction t generalizing p with
  | nil => trivial
  | node x l r hl hr' =>
    obtain ⟨hx, hlr⟩ := hr
    refine ⟨?_, hl hlr.1 fun w hw ↦ heq w ?_, hr' hlr.2 fun w hw ↦ heq w ?_⟩
    · rw [heq x.addr (by simp)]
      exact hx
    · exact (mem_addrs_join (d := .left)).mpr (.inr (.inl hw))
    · exact (mem_addrs_join (d := .left)).mpr (.inr (.inr hw))

theorem RepAround.frame (hr : RepAround h root n c)
    (heq : ∀ w ∈ addrsAround c, h'.read w = h.read w) : RepAround h' root n c := by
  induction c generalizing n with
  | nil => exact hr
  | cons f c ih =>
    obtain ⟨hf, hs, hc⟩ := hr
    refine ⟨?_, hs.frame fun w hw ↦ heq w ?_, ih hc fun w hw ↦ heq w ?_⟩
    · rw [heq f.value.addr (mem_addrsAround_cons.mpr (.inl rfl))]
      exact hf
    · exact mem_addrsAround_cons.mpr (.inr (.inl hw))
    · exact mem_addrsAround_cons.mpr (.inr (.inr hw))

theorem Rep.ptr_eq_zero (hr : Rep h p t) : ptr t = 0 ↔ t = .nil := by
  cases t with
  | nil => simp
  | node x l r => simpa [ptr] using ne_zero_of_read hr.1

theorem Rep.read_isSome (hr : Rep h p t) (hw : w ∈ addrs t) : (h.read w).isSome = true := by
  induction t generalizing p with
  | nil => simp at hw
  | node x l r hl hr' =>
    rcases (mem_addrs_join (d := .left)).mp hw with rfl | hw | hw
    · rw [hr.1]
      rfl
    · exact hl hr.2.1 hw
    · exact hr' hr.2.2 hw

theorem RepAround.read_isSome (hr : RepAround h root n c) (hw : w ∈ addrsAround c) :
    (h.read w).isSome = true := by
  induction c generalizing n with
  | nil => simp [addrsAround, around] at hw
  | cons f c ih =>
    rcases mem_addrsAround_cons.mp hw with rfl | hw | hw
    · rw [hr.1]
      rfl
    · exact hr.2.1.read_isSome hw
    · exact ih hr.2.2 hw

structure At (s : Tree K V) (c : List (Frame (Cell K V))) (t : Shape K V) : Prop where
  rep : Rep s.heap (up c) t
  around : RepAround s.heap s.root (ptr t) c
  nodup : (addrs t ++ addrsAround c).Nodup

structure Keeps (s s' : Tree K V) (c : List (Frame (Cell K V))) (t : Shape K V) : Prop where
  len : s'.len = s.len
  read : ∀ w, w ∉ addrs t → w ∉ addrsAround c → s'.heap.read w = s.heap.read w

variable {s s' s'' : Tree K V}

theorem addrs_perm_cons (f : Frame (Cell K V)) (c : List (Frame (Cell K V))) (t : Shape K V) :
    (addrs t ++ addrsAround (f :: c)).Perm
      (addrs (join f.side f.value t f.sib) ++ addrsAround c) := by
  have hperm := ((perm_join f.side f.value t f.sib).map Cell.addr).append_right (addrsAround c)
  refine .trans (.of_eq ?_) hperm.symm
  simp [addrsAround, BinaryTree.around]

theorem at_cons : At s (f :: c) t ↔ At s c (join f.side f.value t f.sib) := by
  have hnodup := addrs_perm_cons f c t
  constructor
  · rintro ⟨hrep, ⟨hf, hs, hc⟩, hnd⟩
    refine ⟨rep_join.mpr ⟨hf, hrep, hs⟩, ?_, hnodup.nodup_iff.mp hnd⟩
    rwa [ptr_join]
  · rintro ⟨hrep, hc, hnd⟩
    obtain ⟨hf, ht, hs⟩ := rep_join.mp hrep
    rw [ptr_join] at hc
    exact ⟨ht, ⟨hf, hs, hc⟩, hnodup.nodup_iff.mpr hnd⟩

theorem Keeps.refl (s : Tree K V) (c : List (Frame (Cell K V))) (t : Shape K V) : Keeps s s c t :=
  ⟨rfl, fun _ _ _ ↦ rfl⟩

theorem Keeps.congr {c' : List (Frame (Cell K V))} {t' : Shape K V} (h : Keeps s s' c t)
    (hperm : (addrs t ++ addrsAround c).Perm (addrs t' ++ addrsAround c')) : Keeps s s' c' t' := by
  refine ⟨h.len, fun w ht hc ↦ ?_⟩
  have hw : w ∉ addrs t ++ addrsAround c := by
    rw [hperm.mem_iff, mem_append]
    exact not_or.mpr ⟨ht, hc⟩
  rw [mem_append, not_or] at hw
  exact h.read w hw.1 hw.2

theorem Keeps.cons (h : Keeps s s' (f :: c) t) : Keeps s s' c (join f.side f.value t f.sib) :=
  h.congr (addrs_perm_cons f c t)

theorem Keeps.trans (h : Keeps s s' c t) (h' : Keeps s' s'' c t) : Keeps s s'' c t :=
  ⟨h'.len.trans h.len, fun w ht hc ↦ (h'.read w ht hc).trans (h.read w ht hc)⟩

variable {nd : Node K V} {g : Node K V → Node K V}

theorem modify_eq (hr : s.heap.read n = some nd) :
    s.modify n g = some { s with heap := s.heap.set n (g nd) } := by
  rw [modify, Heap.modify_eq hr]
  rfl

theorem modify_spec (hr : s.heap.read n = some nd) (g : Node K V → Node K V) :
    ∃ s', s.modify n g = some s' ∧ s'.root = s.root ∧ s'.len = s.len ∧
      s'.heap.read n = some (g nd) ∧ ∀ w ≠ n, s'.heap.read w = s.heap.read w :=
  ⟨_, modify_eq hr, rfl, rfl, read_set_self (ne_zero_of_read hr),
    fun _ hw ↦ read_set_of_ne hw⟩

theorem At.read (hat : At s c (join d x a b)) :
    s.heap.read x.addr = some (x.toNode d (up c) (ptr a) (ptr b)) :=
  (rep_join.mp hat.rep).1

theorem At.disjoint (hat : At s c (join d x a b)) :
    x.addr ∉ addrs a ∧ x.addr ∉ addrs b ∧ x.addr ∉ addrsAround c ∧
    List.Disjoint (addrs a) (addrs b) ∧
      List.Disjoint (addrs a) (addrsAround c) ∧ List.Disjoint (addrs b) (addrsAround c) := by
  have hnd := ((addrs_perm_join d x a b).append_right (addrsAround c)).nodup hat.nodup
  simp only [cons_append, nodup_cons, mem_append, not_or, nodup_append',
    disjoint_append_left] at hnd
  obtain ⟨⟨⟨ha, hb⟩, hc⟩, ⟨-, -, hab⟩, -, hac, hbc⟩ := hnd
  exact ⟨ha, hb, hc, hab, hac, hbc⟩

theorem At.write (hat : At s c (join d x a b)) (x' : Cell K V) (haddr : x'.addr = x.addr)
    (hg : g (x.toNode d (up c) (ptr a) (ptr b)) = x'.toNode d (up c) (ptr a) (ptr b)) :
    ∃ s', s.modify x.addr g = some s' ∧ At s' c (join d x' a b) ∧ Keeps s s' c (join d x a b) := by
  obtain ⟨hx, ha, hb⟩ := rep_join.mp hat.rep
  obtain ⟨hxa, hxb, hxc, -⟩ := hat.disjoint
  have hset : ∀ w, w ≠ x.addr → (s.heap.set x.addr (g (x.toNode d (up c) (ptr a) (ptr b)))).read w =
      s.heap.read w := fun w hw ↦ read_set_of_ne hw
  have hne : ∀ {l : List Ptr}, x.addr ∉ l → ∀ w ∈ l, w ≠ x.addr := by
    rintro l hl w hw rfl
    exact hl hw
  refine ⟨_, modify_eq hx, ⟨rep_join.mpr ⟨?_, ?_, ?_⟩, ?_, ?_⟩, rfl, fun w hw _ ↦ hset w ?_⟩
  · rw [haddr, read_set_self (ne_zero_of_read hx), hg]
  · rw [haddr]
    exact ha.frame fun w hw ↦ hset w (hne hxa w hw)
  · rw [haddr]
    exact hb.frame fun w hw ↦ hset w (hne hxb w hw)
  · rw [ptr_join, haddr]
    have haround := hat.around
    rw [ptr_join] at haround
    exact haround.frame fun w hw ↦ hset w (hne hxc w hw)
  · have hnd := hat.nodup
    have haddrs : addrs (join d x' a b) = addrs (join d x a b) := by
      cases d <;> simp [join, haddr]
    rwa [haddrs]
  · rintro rfl
    exact hw (mem_addrs_join.mpr (.inl rfl))

/-! ## Heights -/

def stored : Shape K V → ℕ
  | .nil => 0
  | .node x _ _ => x.height

def refresh : Shape K V → Shape K V
  | .nil => .nil
  | .node x l r => .node { x with height := max (stored l) (stored r) + 1 } l r

@[simp] theorem ptr_refresh (t : Shape K V) : ptr (refresh t) = ptr t := by
  cases t <;> rfl

@[simp] theorem addrs_refresh (t : Shape K V) : addrs (refresh t) = addrs t := by
  cases t <;> simp [refresh]

theorem At.storedHeight (hat : At s c t) : s.storedHeight (ptr t) = some (stored t) := by
  cases t with
  | nil => simp [Tree.storedHeight, stored]
  | node x l r =>
    have hx := hat.rep.1
    simp [Tree.storedHeight, ptr, stored, hx, ne_zero_of_read hx]

variable {l : Shape K V}

theorem At.left (hat : At s c (.node x l r)) : At s (⟨.left, x, r⟩ :: c) l :=
  at_cons.mpr hat

theorem At.right (hat : At s c (.node x l r)) : At s (⟨.right, x, l⟩ :: c) r :=
  at_cons.mpr hat

theorem At.nodeHeight (hat : At s c t) :
    ∃ s', s.nodeHeight (ptr t) = some (stored (refresh t), s') ∧ At s' c (refresh t) ∧
      Keeps s s' c t := by
  cases t with
  | nil => exact ⟨s, rfl, hat, .refl s c .nil⟩
  | node x l r =>
    have hx := hat.rep.1
    have hl := hat.left.storedHeight
    have hr := hat.right.storedHeight
    have hmax : (if stored l + 1 > stored r + 1 then stored l + 1 else stored r + 1) =
        max (stored l) (stored r) + 1 := by
      split <;> omega
    obtain ⟨s', hs', hat', hk⟩ := At.write (d := .left) hat
      { x with height := max (stored l) (stored r) + 1 }
      (g := fun nd ↦ { nd with height := max (stored l) (stored r) + 1 }) rfl (setHeight_toNode ..)
    refine ⟨s', ?_, hat', hk⟩
    have hne : ptr (.node x l r) ≠ 0 := ne_zero_of_read hx
    rw [Tree.nodeHeight, if_neg hne]
    simp only [ptr_node, hx, Cell.toNode, hl, hr, hmax, hs', Option.bind_eq_bind, Option.bind_some]
    rfl

theorem At.nodeBfactor (hat : At s c (.node x l r)) :
    ∃ s', s.nodeBfactor x.addr = some ((stored (refresh r) : ℤ) - stored (refresh l), s') ∧
      At s' c (.node x (refresh l) (refresh r)) ∧ Keeps s s' c (.node x l r) := by
  obtain ⟨s1, h1, hat1, hk1⟩ := hat.right.nodeHeight
  have hat1' : At s1 c (.node x l (refresh r)) := at_cons.mp hat1
  obtain ⟨s2, h2, hat2, hk2⟩ := hat1'.left.nodeHeight
  refine ⟨s2, ?_, at_cons.mp hat2, hk1.cons.trans (hk2.cons.congr ?_)⟩
  · have hx := hat.rep.1
    simp only [Tree.nodeBfactor, hx, Cell.toNode, h1, h2, Option.bind_eq_bind, Option.bind_some]
  · simp only [join, addrs_node, addrs_refresh]
    exact .refl _

theorem ptr_mem_addrs (h : t ≠ .nil) : ptr t ∈ addrs t := by
  cases t with
  | nil => exact absurd rfl h
  | node x l r => simp [ptr]

/-! ## Links and rotations -/

theorem RepAround.side (hr : RepAround h root n (f :: c)) (hn0 : n ≠ 0)
    (hn : n ∉ addrsAround (f :: c)) :
    (if n = (f.value.toNode f.side (up c) n (ptr f.sib)).left then Side.left else Side.right) =
      f.side := by
  obtain ⟨d, x, sib⟩ := f
  cases d with
  | left => simp [Cell.toNode]
  | right =>
    have hne : n ≠ ptr sib := by
      rintro rfl
      have hnil : sib ≠ .nil := by
        rintro rfl
        exact hn0 rfl
      exact hn (mem_addrsAround_cons.mpr (.inr (.inl (ptr_mem_addrs hnil))))
    simp [Cell.toNode, hne]

theorem RepAround.replaceInParent (hr : RepAround s.heap s.root n c)
    (hn : s.heap.read n = some nd) (hparent : nd.parent = up c) (hnot : n ∉ addrsAround c)
    (hnd : (addrsAround c).Nodup) (q : Ptr) :
    ∃ s', s.replaceInParent n q = some s' ∧ RepAround s'.heap s'.root q c ∧ s'.len = s.len ∧
      ∀ w ∉ addrsAround c, s'.heap.read w = s.heap.read w := by
  cases c with
  | nil =>
    refine ⟨{ s with root := q }, ?_, rfl, rfl, fun _ _ ↦ rfl⟩
    rw [up] at hparent
    simp [Tree.replaceInParent, hn, hparent]
  | cons f c =>
    obtain ⟨hf, hsib, hc⟩ := hr
    have hside := RepAround.side ⟨hf, hsib, hc⟩ (ne_zero_of_read hn) hnot
    have hf0 := ne_zero_of_read hf
    simp only [addrsAround, BinaryTree.around, map_cons, map_append, nodup_cons,
      mem_append, not_or] at hnd
    obtain ⟨⟨hfs, hfc⟩, -⟩ := hnd
    have hset : ∀ w, w ≠ f.value.addr → (s.heap.set f.value.addr
        (f.value.toNode f.side (up c) q (ptr f.sib))).read w = s.heap.read w :=
      fun w hw ↦ read_set_of_ne hw
    refine ⟨{ s with heap := s.heap.set f.value.addr (f.value.toNode f.side (up c) q (ptr f.sib)) },
      ?_, ⟨read_set_self hf0, hsib.frame fun w hw ↦ hset w ?_, hc.frame fun w hw ↦ hset w ?_⟩,
      rfl, fun w hw ↦ hset w ?_⟩
    · rw [up] at hparent
      simp only [Tree.replaceInParent, hn, hparent, hf0, if_false, hf, Option.bind_eq_bind,
        Option.bind_some, hside, modify_eq hf, setChild_toNode]
    · rintro rfl
      exact hfs hw
    · rintro rfl
      exact hfc hw
    · rintro rfl
      exact hw (mem_addrsAround_cons.mpr (.inl rfl))

theorem Rep.reparent (hr : Rep s.heap p m) (hnd : (addrs m).Nodup) (q : Ptr) :
    ∃ s', s.reparent (ptr m) q = some s' ∧ Rep s'.heap q m ∧ s'.root = s.root ∧ s'.len = s.len ∧
      ∀ w ∉ addrs m, s'.heap.read w = s.heap.read w := by
  cases m with
  | nil => exact ⟨s, rfl, trivial, rfl, rfl, fun _ _ ↦ rfl⟩
  | node z l r =>
    obtain ⟨hz, hl, hr⟩ := hr
    have hz0 := ne_zero_of_read hz
    rw [addrs_node, nodup_middle, nodup_cons, mem_append, not_or] at hnd
    obtain ⟨⟨hzl, hzr⟩, -⟩ := hnd
    have hset : ∀ w, w ≠ z.addr → (s.heap.set z.addr (z.toNode .left q (ptr l) (ptr r))).read w =
        s.heap.read w := fun w hw ↦ read_set_of_ne hw
    refine ⟨{ s with heap := s.heap.set z.addr (z.toNode .left q (ptr l) (ptr r)) }, ?_,
      ⟨read_set_self hz0,
      hl.frame fun w hw ↦ hset w ?_, hr.frame fun w hw ↦ hset w ?_⟩, rfl, rfl,
      fun w hw ↦ hset w ?_⟩
    · rw [Tree.reparent, ptr_node, if_pos hz0]
      exact modify_eq hz
    · rintro rfl
      exact hzl hw
    · rintro rfl
      exact hzr hw
    · rintro rfl
      exact hw (by simp)

theorem At.rotate (hat : At s c (join d x a (join d y m r))) :
    ∃ s', Tree.rotate d s x.addr = some s' ∧ At s' (⟨d, y, r⟩ :: c) (join d x a m) ∧
      Keeps s s' c (join d x a (join d y m r)) := by
  obtain ⟨hx, ha, hyr⟩ := rep_join.mp hat.rep
  obtain ⟨hy, hm, hr⟩ := rep_join.mp hyr
  have haround := hat.around
  rw [ptr_join] at hx haround
  -- All the addresses are different.
  have hperm : (addrs (join d x a (join d y m r)) ++ addrsAround c).Perm
      (x.addr :: y.addr :: (addrs a ++ addrs m ++ addrs r ++ addrsAround c)) := by
    refine (((addrs_perm_join ..).trans (((addrs_perm_join d y m r).append_left _).cons _)).append_right
      _).trans ?_
    simp only [cons_append, append_assoc]
    exact perm_middle.cons _
  have hnd := hperm.nodup hat.nodup
  simp only [nodup_cons, mem_cons, mem_append, not_or, nodup_append',
    disjoint_append_left] at hnd
  obtain ⟨⟨hxy, ⟨⟨hxa, hxm⟩, hxr⟩, hxc⟩, ⟨⟨⟨hya, hym⟩, hyr'⟩, hyc⟩,
    ⟨⟨-, hmnd, ham⟩, -, har, hmr⟩, hcnd, ⟨hac, hmc⟩, hrc⟩ := hnd
  have hne : ∀ {l : List Ptr} {w : Ptr}, w ∉ l → ∀ v ∈ l, v ≠ w := by
    rintro l w hl v hv rfl
    exact hl hv
  -- The assignments, one by one.
  obtain ⟨s1, h1, hroot1, hlen1, hx1, hs1⟩ := modify_spec hx fun nd ↦ nd.setChild (ptr m) d.other
  have hm1 : Rep s1.heap y.addr m := hm.frame fun w hw ↦ hs1 w (hne hxm w hw)
  obtain ⟨s2, h2, hm2, hroot2, hlen2, hs2⟩ := hm1.reparent hmnd x.addr
  have hy2 : s2.heap.read y.addr = some (y.toNode d x.addr (ptr m) (ptr r)) := by
    rw [hs2 _ hym, hs1 _ (Ne.symm hxy), hy]
  obtain ⟨s3, h3, hroot3, hlen3, hy3, hs3⟩ := modify_spec hy2 fun yd ↦ { yd with parent := up c }
  have hx3 : s3.heap.read x.addr = some (x.toNode d (up c) (ptr a) (ptr m)) := by
    rw [hs3 _ hxy, hs2 _ hxm, hx1, setChild_other_toNode]
  have haround3 : RepAround s3.heap s3.root x.addr c := by
    rw [hroot3, hroot2, hroot1]
    refine haround.frame fun w hw ↦ ?_
    rw [hs3 w (hne hyc w hw), hs2 w fun hwm ↦ hmc hwm hw, hs1 w (hne hxc w hw)]
  obtain ⟨s4, h4, haround4, hlen4, hs4⟩ := haround3.replaceInParent hx3 (toNode_parent ..)
    hxc hcnd y.addr
  have hy4 : s4.heap.read y.addr = some (y.toNode d (up c) (ptr m) (ptr r)) := by
    rw [hs4 _ hyc, hy3, setParent_toNode]
  obtain ⟨s5, h5, hroot5, hlen5, hy5, hs5⟩ := modify_spec hy4 fun yd ↦ yd.setChild x.addr d
  have hx5 : s5.heap.read x.addr = some (x.toNode d (up c) (ptr a) (ptr m)) := by
    rw [hs5 _ hxy, hs4 _ hxc, hx3]
  obtain ⟨s6, h6, hroot6, hlen6, hx6, hs6⟩ := modify_spec hx5 fun nd ↦ { nd with parent := y.addr }
  -- What the assignments have left alone.
  have hout : ∀ w, w ≠ x.addr → w ≠ y.addr → w ∉ addrsAround c → s6.heap.read w = s2.heap.read w :=
    fun w hwx hwy hwc ↦ by rw [hs6 w hwx, hs5 w hwy, hs4 w hwc, hs3 w hwy]
  have hout' : ∀ w, w ≠ x.addr → w ≠ y.addr → w ∉ addrsAround c → w ∉ addrs m →
      s6.heap.read w = s.heap.read w :=
    fun w hwx hwy hwc hwm ↦ by rw [hout w hwx hwy hwc, hs2 w hwm, hs1 w hwx]
  refine ⟨s6, ?_, ⟨rep_join.mpr ⟨?_, ?_, ?_⟩, ⟨?_, ?_, ?_⟩, ?_⟩, ?_, fun w hw hwc ↦ ?_⟩
  · simp only [Tree.rotate, hx, child_other_toNode, hy, child_toNode, h1, h2, toNode_parent, h3,
      h4, h5,
      h6, Option.bind_eq_bind, Option.bind_some]
  · rw [hx6, setParent_toNode]
    rfl
  · exact ha.frame fun w hw ↦ hout' w (hne hxa w hw) (hne hya w hw) (fun hwc ↦ hac hw hwc)
      fun hwm ↦ ham hw hwm
  · exact hm2.frame fun w hw ↦ hout w (hne hxm w hw) (hne hym w hw) fun hwc ↦ hmc hw hwc
  · rw [ptr_join, hs6 _ (Ne.symm hxy), hy5, setChild_toNode]
  · exact hr.frame fun w hw ↦ hout' w (hne hxr w hw) (hne hyr' w hw) (fun hwc ↦ hrc hw hwc)
      fun hwm ↦ hmr hwm hw
  · have haround6 : RepAround s4.heap s6.root y.addr c := by
      rw [hroot6, hroot5]
      exact haround4
    refine haround6.frame fun w hw ↦ ?_
    rw [hs6 w (hne hxc w hw), hs5 w (hne hyc w hw)]
  · refine (hperm.trans (List.Perm.symm ?_)).nodup hat.nodup
    refine ((addrs_perm_cons ⟨d, y, r⟩ c (join d x a m)).trans
      ((addrs_perm_join ..).append_right _)).trans ?_
    refine (((((addrs_perm_join d x a m).append_right _).cons _).append_right _)).trans ?_
    simpa only [cons_append, append_assoc] using List.Perm.swap ..
  · rw [hlen6, hlen5, hlen4, hlen3, hlen2, hlen1]
  · simp only [mem_addrs_join, not_or] at hw
    exact hout' w hw.1 hw.2.2.1 hwc hw.2.2.2.1

theorem At.link (hat : At s (f :: c) .nil) (hx : s.heap.read x.addr = some (x.toNode .left 0 0 0))
    (hnew : x.addr ∉ addrsAround (f :: c)) :
    ∃ s1 s2, s.modify f.value.addr (fun nd ↦ nd.setChild x.addr f.side) = some s1 ∧
      s1.modify x.addr (fun nd ↦ { nd with parent := f.value.addr }) = some s2 ∧
      At s2 (f :: c) (.node x .nil .nil) ∧ Keeps s s2 (f :: c) (.node x .nil .nil) := by
  obtain ⟨hfr, hsib, hc⟩ := hat.around
  have hnd := hat.nodup
  have hnd' : f.value.addr ∉ addrs f.sib ∧ f.value.addr ∉ addrsAround c := by
    simpa [addrsAround, BinaryTree.around, not_or] using (nodup_cons.mp hnd).1
  obtain ⟨hf, hmem⟩ : x.addr ≠ f.value.addr ∧ x.addr ∉ addrs f.sib ∧ x.addr ∉ addrsAround c := by
    rwa [mem_addrsAround_cons, not_or, not_or] at hnew
  obtain ⟨s1, h1, hroot1, hlen1, hf1, hs1⟩ := modify_spec hfr fun nd ↦ nd.setChild x.addr f.side
  have hx1 : s1.heap.read x.addr = some (x.toNode .left 0 0 0) := by rw [hs1 _ hf, hx]
  obtain ⟨s2, h2, hroot2, hlen2, hx2, hs2⟩ :=
    modify_spec hx1 fun nd ↦ { nd with parent := f.value.addr }
  have hout : ∀ w, w ≠ f.value.addr → w ≠ x.addr → s2.heap.read w = s.heap.read w :=
    fun w hwf hwx ↦ by rw [hs2 w hwx, hs1 w hwf]
  have hne : ∀ {l : List Ptr} {w : Ptr}, w ∉ l → ∀ v ∈ l, v ≠ w := by
    rintro l w hl v hv rfl
    exact hl hv
  refine ⟨s1, s2, h1, h2, ⟨⟨?_, trivial, trivial⟩, ⟨?_, ?_, ?_⟩, ?_⟩, ?_, fun w hw hwc ↦ ?_⟩
  · rw [hx2, setParent_toNode]
    rfl
  · rw [hs2 _ (Ne.symm hf), hf1, setChild_toNode, ptr_node]
  · exact hsib.frame fun w hw ↦ hout w (hne hnd'.1 w hw) (hne hmem.1 w hw)
  · rw [hroot2, hroot1]
    exact hc.frame fun w hw ↦ hout w (hne hnd'.2 w hw) (hne hmem.2 w hw)
  · simpa using ⟨hnew, hnd⟩
  · rw [hlen2, hlen1]
  · refine hout w (fun hwf ↦ hwc (mem_addrsAround_cons.mpr (.inl hwf))) fun hwx ↦ hw ?_
    simp [hwx]

theorem At.unlink (hat : At s c (.node x .nil .nil)) :
    ∃ s', s.replaceInParent x.addr 0 = some s' ∧ At s' c .nil ∧
      s'.heap.read x.addr = some (x.toNode .left (up c) 0 0) ∧
      Keeps s s' c (.node x .nil .nil) := by
  have hx := hat.rep.1
  have hnd := hat.nodup
  have hnd' : x.addr ∉ addrsAround c ∧ (addrsAround c).Nodup := by simpa using hnd
  obtain ⟨s', h', haround, hlen, hs'⟩ :=
    hat.around.replaceInParent hx (toNode_parent ..) hnd'.1 hnd'.2 0
  refine ⟨s', h', ⟨trivial, haround, hnd'.2⟩, ?_, hlen, fun w _ hw ↦ hs' w hw⟩
  rw [hs' _ hnd'.1, hx]
  rfl

end ForgeOS.Tree
