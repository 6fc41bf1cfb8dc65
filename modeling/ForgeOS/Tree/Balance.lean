import ForgeOS.Tree.Map

/-!
# Insertion keeps the tree balanced

The climb refreshes what it is about to look at, and the node below which it has just linked or
rotated something differs in height by at most one from what stood there, which
`BinaryTree.Avl.climbed` needs.

The main result is `treeInsert_avl`.
-/

namespace ForgeOS.Tree

open BinaryTree List

variable {K V : Type} {cmp : K → K → ℤ} {notFound : V} {s : Tree K V} {t : Shape K V}

theorem avl_bare (t : Shape K V) : (bare t).Avl ↔ t.Avl := by
  induction t with
  | nil => exact .rfl
  | node x l r ihl ihr => exact and_congr (even_bare (.node x l r)) (and_congr ihl ihr)

def store (h : Heap Ptr (Node K V)) : Ptr → Shape K V → Heap Ptr (Node K V)
  | _, .nil => h
  | p, .node x l r =>
    (store (store h x.addr l) x.addr r).set x.addr (x.toNode .left p (ptr l) (ptr r))

def build (t : Shape K V) : Tree K V := ⟨ptr t, (cores t).length, store Heap.empty 0 t⟩

variable {h : Heap Ptr (Node K V)}

theorem read_store {p w : Ptr} (hw : w ∉ addrs t) : (store h p t).read w = h.read w := by
  induction t generalizing h p with
  | nil => rfl
  | node x l r ihl ihr =>
    simp only [addrs_node, mem_append, mem_cons, not_or] at hw
    obtain ⟨hl, hx, hr⟩ := hw
    rw [store, Heap.read_set_of_ne hx, ihr hr, ihl hl]

theorem rep_store {p : Ptr} (hnd : (addrs t).Nodup)
    (h0 : (0 : Ptr) ∉ addrs t) : Rep (store h p t) p t := by
  induction t generalizing h p with
  | nil => trivial
  | node x l r ihl ihr =>
    simp only [addrs_node, mem_append, mem_cons, not_or] at h0
    obtain ⟨hl0, hx0, hr0⟩ := h0
    rw [addrs_node] at hnd
    obtain ⟨hndl, hndr, hdisj⟩ := nodup_append.mp hnd
    obtain ⟨hxr, hndr⟩ := nodup_cons.mp hndr
    have hl : Rep (store h x.addr l) x.addr l := ihl hndl hl0
    have hr : Rep (store (store h x.addr l) x.addr r) x.addr r := ihr hndr hr0
    refine ⟨Heap.read_set_self (Ne.symm hx0), hl.frame fun w hw ↦ ?_, hr.frame fun w hw ↦ ?_⟩
    · have hwx : w ≠ x.addr := hdisj w hw x.addr mem_cons_self
      have hwr : w ∉ addrs r := fun hwr ↦ hdisj w hw w (mem_cons_of_mem _ hwr) rfl
      rw [store, Heap.read_set_of_ne hwx, read_store hwr]
    · have hwx : w ≠ x.addr := by
        rintro rfl
        exact hxr hw
      rw [store, Heap.read_set_of_ne hwx]

theorem at_build (hnd : (addrs t).Nodup) (h0 : (0 : Ptr) ∉ addrs t) : At (build t) [] t :=
  ⟨rep_store hnd h0, rfl, by simpa [addrsAround, BinaryTree.around] using hnd⟩

/-- **Insertion keeps an AVL tree**, whatever height is stored in the root. -/
theorem treeInsert_avl [DecidableEq V] (hcmp : TotalComparer cmp) (hat : At s [] t)
    (hsorted : Sorted cmp t) (havl : t.Avl) (hbelow : ExactBelow t) {a : Ptr} {k : K}
    (hnew : ∀ x ∈ t.inorder, x.key ≠ k) (ha : a ≠ 0) (hfree : s.heap.read a = none) (v : V) :
    ∃ s' u, Returns (fun fuel ↦ treeInsert cmp notFound fuel s a k v) s' ∧ At s' [] u ∧
      u.Avl ∧ ExactBelow u ∧
      ∃ xs ys, cores t = xs ++ ys ∧ cores u = xs ++ newCell a k v :: ys := by
  obtain ⟨s', u, c, hret, hat', hbelow', -, hplug, -, hcores, hclimbed⟩ :=
    hat.treeInsert hcmp hbelow hsorted hnew ha hfree
  refine ⟨s', u, hret, hat', (avl_bare u).mp ?_, hbelow', _, _, cores_linked hplug hcores⟩
  have hold : (plug (bareFrames c) (bare (.nil : Shape K V))).Avl := by
    rw [← bare_plug, hplug]
    exact (avl_bare t).mpr havl
  refine hold.climbed (t := .node () .nil .nil) (by decide) ?_ ?_ hclimbed
  · exact Nat.le_refl 1
  · exact Nat.zero_le 2

def tilted : Shape Ptr Ptr :=
  .node ⟨0x10, 5, 50, 0, 0, false⟩ .nil (.node ⟨0x20, 8, 80, 1, 0, false⟩ .nil .nil)

theorem treeInsert_tilted : ∃ s' u,
    Returns (fun fuel ↦ treeInsert defaultComparer notFoundPtr fuel (build tilted) 0x30 9 90) s' ∧
      At s' [] u ∧ u.Avl ∧ ExactBelow u ∧
      ∃ xs ys, cores tilted = xs ++ ys ∧ cores u = xs ++ newCell 0x30 9 90 :: ys := by
  exact treeInsert_avl totalComparer_default (at_build (by decide) (by decide)) (by decide)
    (by decide) (by decide) (by decide) (by decide) (by decide) 90

end ForgeOS.Tree
