import ForgeOS.Lib.Avl
import ForgeOS.Lib.Fuel
import ForgeOS.Tree.Shape

/-!
# The climb to the root

A node that has been rotated down is followed by its new parent, which is at the same place as
before, so the same place can be visited again and again.
-/

namespace ForgeOS.Tree

open BinaryTree

variable {K V : Type}

def Cell.core (x : Cell K V) : Cell K V := { x with height := 0 }

def cores (t : Shape K V) : List (Cell K V) := t.inorder.map Cell.core

theorem addrs_eq_map_cores (t : Shape K V) : addrs t = (cores t).map Cell.addr := by
  simp [addrs, cores, Cell.core]

variable {t' t : Shape K V}

theorem addrs_eq_of_cores (h : cores t = cores t') : addrs t = addrs t' := by
  rw [addrs_eq_map_cores, h, ← addrs_eq_map_cores]

theorem cores_join {d : Side} {x : Cell K V} {a a' b b' : Shape K V} (ha : cores a = cores a')
    (hb : cores b = cores b') : cores (join d x a b) = cores (join d x a' b') := by
  simp only [cores] at *
  cases d <;> simp [join, ha, hb]

theorem cores_plug {c : List (Frame (Cell K V))} (h : cores t = cores t') :
    cores (plug c t) = cores (plug c t') := by
  simp only [cores] at *
  simp [inorder_plug, h]

theorem cores_rotate (d : Side) (x y : Cell K V) (a b c : Shape K V) :
    cores (join d x a (join d y b c)) = cores (join d y (join d x a b) c) := by
  rw [cores, cores, inorder_rotate]

@[simp] theorem cores_refresh (t : Shape K V) : cores (refresh t) = cores t := by
  cases t <;> simp [refresh, cores, Cell.core]

@[simp] theorem height_refresh (t : Shape K V) : (refresh t).height = t.height := by
  cases t <;> simp [refresh]

def bare (t : Shape K V) : BinaryTree Unit := t.map fun _ ↦ ()

def bareFrames (c : List (Frame (Cell K V))) : List (Frame Unit) :=
  c.map fun f ↦ ⟨f.side, (), bare f.sib⟩

theorem bare_nil : bare (.nil : Shape K V) = .nil := rfl

theorem bare_node (x : Cell K V) (l r : Shape K V) :
    bare (.node x l r) = .node () (bare l) (bare r) := rfl

@[simp] theorem height_bare (t : Shape K V) : (bare t).height = t.height := by
  induction t with
  | nil => rfl
  | node x l r ihl ihr => exact congrArg (· + 1) (congrArg₂ max ihl ihr)

@[simp] theorem bare_join (d : Side) (x : Cell K V) (a b : Shape K V) :
    bare (join d x a b) = join d () (bare a) (bare b) := by
  cases d <;> rfl

@[simp] theorem bare_refresh (t : Shape K V) : bare (refresh t) = bare t := by
  cases t <;> rfl

theorem even_bare (t : Shape K V) : (bare t).Even ↔ t.Even := by
  cases t with
  | nil => exact .rfl
  | node x l r =>
    rw [show bare (.node x l r) = .node () (bare l) (bare r) from rfl, BinaryTree.Even,
      BinaryTree.Even, height_bare, height_bare]

theorem bare_plug (c : List (Frame (Cell K V))) (t : Shape K V) :
    bare (plug c t) = plug (bareFrames c) (bare t) := by
  induction c generalizing t with
  | nil => rfl
  | cons f c ih =>
    rw [plug_cons, ih, bare_join]
    rfl

/-- The nodes have been arranged otherwise, and what is outside the tree is as it was: the subtree
`t` with the surroundings `c` has become `t'` with `c'`. -/
structure Moved (s s' : Tree K V) (c c' : List (Frame (Cell K V))) (t t' : Shape K V) : Prop where
  keeps : Keeps s s' c t
  cores : cores (plug c' t') = cores (plug c t)

theorem addrs_perm_plug (c : List (Frame (Cell K V))) (t : Shape K V) :
    (addrs (plug c t)).Perm (addrs t ++ addrsAround c) := by
  simpa [addrs, addrsAround] using (perm_plug c t).map Cell.addr

variable {c' : List (Frame (Cell K V))}

theorem addrs_perm_of_cores {c : List (Frame (Cell K V))}
    (h : cores (plug c' t') = cores (plug c t)) :
    (addrs t' ++ addrsAround c').Perm (addrs t ++ addrsAround c) := by
  refine (addrs_perm_plug c' t').symm.trans ?_
  rw [addrs_eq_of_cores h]
  exact addrs_perm_plug c t

variable {s' : Tree K V}

theorem Moved.trans {s s'' : Tree K V} {c c'' : List (Frame (Cell K V))} {t'' : Shape K V}
    (h : Moved s s' c c' t t') (h' : Moved s' s'' c' c'' t' t'') : Moved s s'' c c'' t t'' :=
  ⟨h.keeps.trans (h'.keeps.congr (addrs_perm_of_cores h.cores)), h'.cores.trans h.cores⟩

theorem Moved.refl (s : Tree K V) (c : List (Frame (Cell K V))) (t : Shape K V) :
    Moved s s c c t t :=
  ⟨.refl s c t, rfl⟩

theorem Keeps.moved {s : Tree K V} {c : List (Frame (Cell K V))} (h : Keeps s s' c t)
    (hcores : cores t' = cores t) : Moved s s' c c t t' :=
  ⟨h, cores_plug hcores⟩

variable {f : Frame (Cell K V)}

theorem Moved.of_parent {s : Tree K V} {c : List (Frame (Cell K V))}
    (h : Moved s s' (f :: c) c' t t') : Moved s s' c c' (join f.side f.value t f.sib) t' :=
  ⟨h.keeps.cons, h.cores⟩

theorem Moved.to_parent {s : Tree K V} {c : List (Frame (Cell K V))}
    (h : Moved s s' c (f :: c') t t') : Moved s s' c c' t (join f.side f.value t' f.sib) :=
  ⟨h.keeps, h.cores⟩

/-! ## Stored heights -/

def Exact : Shape K V → Prop
  | .nil => True
  | .node x l r => x.height = max l.height r.height + 1 ∧ Exact l ∧ Exact r

def ExactBelow : Shape K V → Prop
  | .nil => True
  | .node _ l r => Exact l ∧ Exact r

def ExactFar : Shape K V → Prop
  | .nil => True
  | .node _ l r => ExactBelow l ∧ ExactBelow r

instance Exact.decidable : (t : Shape K V) → Decidable (Exact t)
  | .nil => isTrue trivial
  | .node x l r =>
    have := Exact.decidable l
    have := Exact.decidable r
    inferInstanceAs (Decidable (x.height = max l.height r.height + 1 ∧ Exact l ∧ Exact r))

instance ExactBelow.decidable : (t : Shape K V) → Decidable (ExactBelow t)
  | .nil => isTrue trivial
  | .node _ l r => inferInstanceAs (Decidable (Exact l ∧ Exact r))

variable {s s' : Tree K V} {c : List (Frame (Cell K V))} {d e : Side} {x y z : Cell K V}
variable {a b l r t u : Shape K V}

theorem exactBelow_join : ExactBelow (join d x a b) ↔ Exact a ∧ Exact b := by
  cases d with
  | left => exact .rfl
  | right => exact and_comm

theorem exactFar_join : ExactFar (join d x a b) ↔ ExactBelow a ∧ ExactBelow b := by
  cases d with
  | left => exact .rfl
  | right => exact and_comm

theorem Exact.below (h : Exact t) : ExactBelow t := by
  cases t with
  | nil => trivial
  | node x l r => exact h.2

theorem Exact.stored (h : Exact t) : stored t = t.height := by
  cases t with
  | nil => rfl
  | node x l r => exact h.1

theorem Exact.refresh_eq (h : Exact t) : refresh t = t := by
  cases t with
  | nil => rfl
  | node x l r =>
    obtain ⟨hx, hl, hr⟩ := h
    rw [refresh, hl.stored, hr.stored, ← hx]

theorem ExactBelow.refresh (h : ExactBelow t) : Exact (refresh t) := by
  cases t with
  | nil => trivial
  | node x l r => exact ⟨by rw [h.1.stored, h.2.stored], h⟩

theorem At.nodeBfactor_of_far (hat : At s c (.node x l r)) (hfar : ExactFar (.node x l r)) :
    ∃ s', s.nodeBfactor x.addr = some ((r.height : ℤ) - l.height, s') ∧
      At s' c (.node x (refresh l) (refresh r)) ∧
      Moved s s' c c (.node x l r) (.node x (refresh l) (refresh r)) := by
  obtain ⟨s', h', hat', hk⟩ := hat.nodeBfactor
  rw [hfar.1.refresh.stored, hfar.2.refresh.stored, height_refresh, height_refresh] at h'
  refine ⟨s', h', hat', hk.moved ?_⟩
  exact cores_join (d := .left) (cores_refresh l) (cores_refresh r)

theorem At.nodeBfactor_of_below (hat : At s c (.node x l r)) (hl : Exact l) (hr : Exact r) :
    ∃ s', s.nodeBfactor x.addr = some ((r.height : ℤ) - l.height, s') ∧ At s' c (.node x l r) ∧
      Moved s s' c c (.node x l r) (.node x l r) := by
  have hfar := hat.nodeBfactor_of_far ⟨hl.below, hr.below⟩
  rwa [hl.refresh_eq, hr.refresh_eq] at hfar

theorem At.rotate_moved (hat : At s c (join d x a (join d y b r))) :
    ∃ s', Tree.rotate d s x.addr = some s' ∧ At s' (⟨d, y, r⟩ :: c) (join d x a b) ∧
      Moved s s' c (⟨d, y, r⟩ :: c) (join d x a (join d y b r)) (join d x a b) := by
  obtain ⟨s', h', hat', hk⟩ := hat.rotate
  exact ⟨s', h', hat', hk, cores_plug (cores_rotate d x y a b r).symm⟩

theorem At.rotateAway (hat : At s c (join e x (join e y a b) r)) :
    ∃ s', Tree.rotate e.other s x.addr = some s' ∧ At s' c (join e y a (join e x b r)) ∧
      (∃ nd, s'.heap.read x.addr = some nd ∧ nd.parent = y.addr) ∧
      Moved s s' c c (join e x (join e y a b) r) (join e y a (join e x b r)) := by
  have heq : join e x (join e y a b) r = join e.other x r (join e.other y b a) := by
    rw [join_other, join_other]
  rw [heq] at hat ⊢
  obtain ⟨s', h', hat', hm⟩ := hat.rotate_moved
  refine ⟨s', h', ?_, ⟨_, hat'.read, toNode_parent ..⟩, hm.keeps, ?_⟩
  · have hup := at_cons.mp hat'
    simpa only [join_other] using hup
  · have hcores := hm.cores
    simpa only [plug_cons, join_other] using hcores

theorem At.rotateTwice (hat : At s c (join e x (join e y a (join e z b l)) r)) :
    ∃ s1 s2, Tree.rotate e s y.addr = some s1 ∧ Tree.rotate e.other s1 x.addr = some s2 ∧
      At s2 c (join e z (join e y a b) (join e x l r)) ∧
      (∃ nd, s2.heap.read x.addr = some nd ∧ nd.parent = z.addr) ∧
      Moved s s2 c c (join e x (join e y a (join e z b l)) r)
        (join e z (join e y a b) (join e x l r)) := by
  have hdown : At s (⟨e, x, r⟩ :: c) (join e y a (join e z b l)) := at_cons.mpr hat
  obtain ⟨s1, h1, hat1, hm1⟩ := hdown.rotate_moved
  have hup : At s1 c (join e x (join e z (join e y a b) l) r) := at_cons.mp (at_cons.mp hat1)
  obtain ⟨s2, h2, hat2, hnd, hm2⟩ := hup.rotateAway
  refine ⟨s1, s2, h1, h2, hat2, hnd, ?_⟩
  exact hm1.of_parent.to_parent.to_parent.trans hm2

/-- The subtree `t` with the root `x`, at a place with the surroundings `c`, has been rebalanced and
is `u` now: `x` is below the new root, and if the height is the same, the new root is balanced. -/
structure Rebalanced (s s' : Tree K V) (c : List (Frame (Cell K V))) (x : Cell K V) (t u : Shape K V) :
    Prop where
  at_ : At s' c u
  moved : Moved s s' c c t u
  parent : ∃ nd, s'.heap.read x.addr = some nd ∧ nd.parent = ptr u
  far : ExactFar u
  ne_nil : u ≠ .nil
  height : u.height < t.height ∨ (u.height = t.height ∧ u.Even)
  bare : bare u = (bare t).rebalance

theorem At.rebalance_single (hat : At s c (join e x (join e y a b) r)) (ha : Exact a) (hb : Exact b)
    (hr : Exact r) (hheavy : r.height + 2 ≤ (join e y a b).height) (hab : b.height ≤ a.height) :
    ∃ s' u, Tree.rotate e.other s x.addr = some s' ∧
      Rebalanced s s' c x (join e x (join e y a b) r) u := by
  obtain ⟨s', h', hat', hnd, hm⟩ := hat.rotateAway
  refine ⟨s', _, h', hat', hm, ?_, ?_, join_ne_nil e y a _, height_rotate hheavy hab, ?_⟩
  · rwa [ptr_join]
  · exact exactFar_join.mpr ⟨ha.below, exactBelow_join.mpr ⟨hb, hr⟩⟩
  · simp only [bare_join]
    rw [BinaryTree.rebalance_single (by simpa using hheavy) (by simpa using hab)]

theorem At.rebalance_double (hat : At s c (join e x (join e y a b) r)) (ha : Exact a) (hb : Exact b)
    (hr : Exact r) (hheavy : r.height + 2 ≤ (join e y a b).height) (hab : a.height < b.height) :
    ∃ s1 s' u, Tree.rotate e s y.addr = some s1 ∧ Tree.rotate e.other s1 x.addr = some s' ∧
      Rebalanced s s' c x (join e x (join e y a b) r) u := by
  have hb0 : b ≠ .nil := by
    rintro rfl
    simp at hab
  obtain ⟨z, b1, b2, rfl⟩ := exists_join e hb0
  obtain ⟨s1, s', h1, h', hat', hnd, hm⟩ := hat.rotateTwice
  obtain ⟨hb1, hb2⟩ := exactBelow_join.mp hb.below
  refine ⟨s1, s', _, h1, h', hat', hm, ?_, ?_, join_ne_nil e z _ _,
    .inl (height_rotate_rotate hheavy hab), ?_⟩
  · rwa [ptr_join]
  · exact exactFar_join.mpr ⟨exactBelow_join.mpr ⟨ha, hb1⟩, exactBelow_join.mpr ⟨hb2, hr⟩⟩
  · simp only [bare_join]
    rw [rebalance_double (by simpa using hheavy) (by simpa using hab)]

theorem Rebalanced.of_moved {s0 : Tree K V} {t0 : Shape K V} (h : Rebalanced s s' c x t u)
    (hm : Moved s0 s c c t0 t) (hbare : Tree.bare t = Tree.bare t0) :
    Rebalanced s0 s' c x t0 u where
  at_ := h.at_
  moved := hm.trans h.moved
  parent := h.parent
  far := h.far
  ne_nil := h.ne_nil
  height := by
    rw [← height_bare t0, ← hbare, height_bare]
    exact h.height
  bare := hbare ▸ h.bare

theorem At.nodeRebalance (hat : At s c (.node x l r)) (hl : Exact l) (hr : Exact r)
    (huneven : ¬ (node x l r).Even) :
    ∃ s' u, s.nodeRebalance x.addr = some s' ∧ Rebalanced s s' c x (.node x l r) u := by
  obtain ⟨s1, h1, hat1, hm1⟩ := hat.nodeBfactor_of_below hl hr
  have hx1 := hat1.rep.1
  by_cases hleft : (r.height : ℤ) - l.height < -1
  · have hheavy : r.height + 2 ≤ l.height := by omega
    have hl0 : l ≠ .nil := by
      rintro rfl
      simp at hheavy
    obtain ⟨y, a, b, rfl⟩ := exists_join .left hl0
    obtain ⟨ha, hb⟩ := hl.below
    obtain ⟨s2, h2, hat2, hm2⟩ := hat1.left.nodeBfactor_of_below ha hb
    have hat2' : At s2 c (join .left x (join .left y a b) r) := at_cons.mp hat2
    have hm := hm1.trans hm2.of_parent.to_parent
    by_cases hab : (b.height : ℤ) - a.height > 0
    · obtain ⟨s3, s', u, h3, h', hreb⟩ := hat2'.rebalance_double ha hb hr hheavy (by omega)
      refine ⟨s', u, ?_, hreb.of_moved hm rfl⟩
      simp only [Tree.nodeRebalance, h1, hx1, Cell.toNode, ptr_join, if_pos hleft, h2, if_pos hab,
        rotateLeft, rotateRight, h3, Option.bind_eq_bind, Option.bind_some]
      exact h'
    · obtain ⟨s', u, h', hreb⟩ := hat2'.rebalance_single ha hb hr hheavy (by omega)
      refine ⟨s', u, ?_, hreb.of_moved hm rfl⟩
      simp only [Tree.nodeRebalance, h1, hx1, Cell.toNode, ptr_join, if_pos hleft, h2, if_neg hab,
        rotateRight, Option.bind_eq_bind, Option.bind_some]
      exact h'
  · have hright : (r.height : ℤ) - l.height > 1 := by
      simp only [BinaryTree.Even] at huneven
      omega
    have hheavy : l.height + 2 ≤ r.height := by omega
    have hr0 : r ≠ .nil := by
      rintro rfl
      simp at hheavy
    obtain ⟨y, a, b, rfl⟩ := exists_join .right hr0
    obtain ⟨hb, ha⟩ := hr.below
    obtain ⟨s2, h2, hat2, hm2⟩ := hat1.right.nodeBfactor_of_below hb ha
    have hat2' : At s2 c (join .right x (join .right y a b) l) := at_cons.mp hat2
    have hm := hm1.trans hm2.of_parent.to_parent
    by_cases hab : (a.height : ℤ) - b.height < 0
    · obtain ⟨s3, s', u, h3, h', hreb⟩ := hat2'.rebalance_double ha hb hl hheavy (by omega)
      refine ⟨s', u, ?_, hreb.of_moved hm rfl⟩
      simp only [Tree.nodeRebalance, h1, hx1, Cell.toNode, ptr_join, if_neg hleft,
        if_pos hright, h2,
        if_pos hab, rotateLeft, rotateRight, h3, Option.bind_eq_bind, Option.bind_some]
      exact h'
    · obtain ⟨s', u, h', hreb⟩ := hat2'.rebalance_single ha hb hl hheavy (by omega)
      refine ⟨s', u, ?_, hreb.of_moved hm rfl⟩
      simp only [Tree.nodeRebalance, h1, hx1, Cell.toNode, ptr_join, if_neg hleft,
        if_pos hright, h2,
        if_neg hab, rotateLeft, Option.bind_eq_bind, Option.bind_some]
      exact h'

theorem At.climbTurn_of_even (hat : At s c (.node x l r)) (hfar : ExactFar (.node x l r))
    (heven : (node x l r).Even) :
    ∃ s', s.climbTurn x.addr = some s' ∧ At s' c (.node x (refresh l) (refresh r)) ∧
      Moved s s' c c (.node x l r) (.node x (refresh l) (refresh r)) := by
  obtain ⟨s', h', hat', hm⟩ := hat.nodeBfactor_of_far hfar
  refine ⟨s', ?_, hat', hm⟩
  have hb : ¬ ((r.height : ℤ) - l.height < -1 ∨ (r.height : ℤ) - l.height > 1) := by
    simp only [BinaryTree.Even] at heven
    omega
  simp only [Tree.climbTurn, h', Option.bind_eq_bind, Option.bind_some, if_neg hb]

theorem At.climbTurn_of_not_even (hat : At s c (.node x l r)) (hfar : ExactFar (.node x l r))
    (huneven : ¬ (node x l r).Even) :
    ∃ s' u, s.climbTurn x.addr = some s' ∧ Rebalanced s s' c x (.node x l r) u := by
  obtain ⟨s1, h1, hat1, hm1⟩ := hat.nodeBfactor_of_far hfar
  have huneven1 : ¬ (node x (refresh l) (refresh r)).Even := by
    simpa only [BinaryTree.Even, height_refresh] using huneven
  obtain ⟨s', u, h', hreb⟩ := hat1.nodeRebalance hfar.1.refresh hfar.2.refresh huneven1
  have hb : (r.height : ℤ) - l.height < -1 ∨ (r.height : ℤ) - l.height > 1 := by
    simp only [BinaryTree.Even] at huneven
    omega
  have hbare : bare (.node x (refresh l) (refresh r)) = bare (.node x l r) := by
    rw [← join, bare_join, bare_refresh, bare_refresh]
    rfl
  refine ⟨s', u, ?_, hreb.of_moved hm1 hbare⟩
  simp only [Tree.climbTurn, h1, Option.bind_eq_bind, Option.bind_some, if_pos hb, h']

/-! ## The climb -/

/-- The climb from the node `n` comes to its end, and leaves the nodes of the tree, of which `t` is
the subtree at a place with the surroundings `c`, in their order, with exact heights below the root.
The shape of the tree is then one with `P`. -/
def Climbs (s : Tree K V) (c : List (Frame (Cell K V))) (t : Shape K V) (n : Ptr)
    (P : BinaryTree Unit → Prop) : Prop :=
  ∃ s' u, Returns (fun fuel ↦ climb fuel s n) s' ∧ At s' [] u ∧ ExactBelow u ∧
    Moved s s' c [] t u ∧ P (bare u)

theorem Climbs.turn {n : Ptr} {nd : Node K V} {P Q : BinaryTree Unit → Prop}
    (h : Climbs s' c u nd.parent P) (hn0 : n ≠ 0) (hturn : s.climbTurn n = some s')
    (hnd : s'.heap.read n = some nd) (hm : Moved s s' c c t u) (hPQ : ∀ v, P v → Q v) :
    Climbs s c t n Q := by
  obtain ⟨s2, u2, hret, hat, hbelow, hm2, hP⟩ := h
  refine ⟨s2, u2, hret.turn fun fuel ↦ ?_, hat, hbelow, hm.trans hm2, hPQ _ hP⟩
  simp only [climb, if_neg hn0, hturn, hnd, Option.bind_eq_bind, Option.bind_some]

section Above

-- What the climb does from the parent of the place on.
variable (habove : ∀ s (u : Shape K V), At s c u → ExactBelow u →
  Climbs s c u (up c) (Climbed (bareFrames c) (bare u)))

include habove

theorem At.climbs_of_even (hat : At s c (.node x l r)) (hfar : ExactFar (.node x l r))
    (heven : (node x l r).Even) :
    Climbs s c (.node x l r) x.addr (Climbed (bareFrames c) (bare (.node x l r))) := by
  obtain ⟨s', h', hat', hm⟩ := hat.climbTurn_of_even hfar heven
  have hup := habove s' _ hat' ⟨hfar.1.refresh, hfar.2.refresh⟩
  refine Climbs.turn hup (Heap.ne_zero_of_read hat.rep.1) h' hat'.rep.1 hm fun v hv ↦ ?_
  rwa [← join, bare_join, bare_refresh, bare_refresh] at hv

theorem At.climbs (hat : At s c t) (ht : t ≠ .nil) (hfar : ExactFar t) :
    Climbs s c t (ptr t) fun v ↦ ∃ m, Settles (bare t) m ∧ Climbed (bareFrames c) m v := by
  induction hheight : t.height using Nat.strong_induction_on generalizing s t with
  | _ n ih =>
    subst hheight
    obtain ⟨x, l, r, rfl⟩ := exists_join .left ht
    by_cases heven : (node x l r).Even
    · obtain ⟨s', u, hret, hat', hbelow, hm, hu⟩ := hat.climbs_of_even habove hfar heven
      exact ⟨s', u, hret, hat', hbelow, hm, _, .even ((even_bare _).mpr heven), hu⟩
    obtain ⟨s', u, hturn, hreb⟩ := At.climbTurn_of_not_even hat hfar heven
    obtain ⟨nd, hnd, hparent⟩ := hreb.parent
    have hne : ¬ (bare (.node x l r)).Even := mt (even_bare _).mp heven
    have hreb' := hreb.bare
    rcases hreb.height with hlt | ⟨-, heven'⟩
    · have hclimbs := ih u.height hlt hreb.at_ hreb.ne_nil hreb.far rfl
      rw [← hparent] at hclimbs
      refine Climbs.turn hclimbs (Heap.ne_zero_of_read hat.rep.1) hturn hnd hreb.moved ?_
      rintro v ⟨m, hm, hv⟩
      exact ⟨m, .turn hne (hreb' ▸ hm), hv⟩
    · have hat' := hreb.at_
      have hfar' := hreb.far
      have hclimbs : Climbs s' c u (ptr u) (Climbed (bareFrames c) (bare u)) := by
        obtain ⟨y, a, b, rfl⟩ := exists_join .left hreb.ne_nil
        exact hat'.climbs_of_even habove hfar' heven'
      rw [← hparent] at hclimbs
      refine Climbs.turn hclimbs (Heap.ne_zero_of_read hat.rep.1) hturn hnd hreb.moved ?_
      intro v hv
      exact ⟨_, .turn hne (hreb' ▸ .even ((even_bare u).mpr heven')), hv⟩

end Above

theorem At.climb_up (hat : At s c t) (hbelow : ExactBelow t) (hc : ∀ f ∈ c, Exact f.sib) :
    Climbs s c t (up c) (Climbed (bareFrames c) (bare t)) := by
  induction c generalizing s t with
  | nil => exact ⟨s, t, (Returns.of_eq rfl).turn fun fuel ↦ rfl, hat, hbelow, .refl s [] t, rfl⟩
  | cons f c ih =>
    have hsib : Exact f.sib := hc f List.mem_cons_self
    have habove : ∀ s (u : Shape K V), At s c u → ExactBelow u →
        Climbs s c u (up c) (Climbed (bareFrames c) (bare u)) :=
      fun s u hat hbelow ↦ ih hat hbelow fun g hg ↦ hc g (List.mem_cons_of_mem f hg)
    have hup := (at_cons.mp hat).climbs habove (join_ne_nil _ _ _ _)
      (exactFar_join.mpr ⟨hbelow, hsib.below⟩)
    rw [ptr_join] at hup
    obtain ⟨s', u, hret, hat', hbelow', hm, m, hm', hu⟩ := hup
    rw [bare_join] at hm'
    exact ⟨s', u, hret, hat', hbelow', ⟨hm.keeps.congr (addrs_perm_cons f c t).symm, hm.cores⟩, m,
      hm', hu⟩

end ForgeOS.Tree
