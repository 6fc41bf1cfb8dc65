import ForgeOS.Tree.Balance
import ForgeOS.Tree.Merge

/-!
# Deletion does not always keep the tree balanced

What the two subtrees of the removed node become can have an uneven node inside, which the climb has
passed.

The main result is `treeDelete_avl_iff`.
-/

namespace ForgeOS.Tree

open BinaryTree List

variable {K V : Type} {cmp : K → K → ℤ} {notFound : V} {s : Tree K V} {l r t u : Shape K V}
variable {c : List (Frame (Cell K V))} {x y : Cell K V}

def subtree (cmp : K → K → ℤ) (k : K) : Shape K V → Shape K V
  | .nil => .nil
  | .node x l r =>
    if cmp k x.key = 0 then .node x l r
    else if cmp k x.key < 0 then subtree cmp k l
    else subtree cmp k r

theorem Sorted.of_plug (h : Sorted cmp (plug c t)) : Sorted cmp t := by
  rw [Sorted, inorder_plug] at h
  exact (pairwise_append.mp (pairwise_append.mp h).1).2.1

theorem subtree_plug (hcmp : TotalComparer cmp) (h : Sorted cmp (plug c t)) (hx : x ∈ t.inorder) :
    subtree cmp x.key (plug c t) = subtree cmp x.key t := by
  induction c generalizing t with
  | nil => rfl
  | cons f c ih =>
    obtain ⟨d, y, sib⟩ := f
    have hjoin : x ∈ (join d y t sib).inorder :=
      (perm_join d y t sib).mem_iff.mpr (mem_append_left _ hx)
    have hsorted : Sorted cmp (join d y t sib) := Sorted.of_plug (c := c) h
    rw [plug_cons, ih h hjoin]
    cases d with
    | left =>
      have hlt : cmp x.key y.key < 0 := hsorted.lt_root x hx
      simp only [join, subtree, if_neg hlt.ne, if_pos hlt]
    | right =>
      have hgt : 0 < cmp x.key y.key := hcmp.neg.mp (hsorted.root_lt x hx)
      simp only [join, subtree, if_neg hgt.ne', if_neg hgt.not_gt]

theorem subtree_of_plug (hcmp : TotalComparer cmp) (hsorted : Sorted cmp t)
    (hplug : plug c (.node x l r) = t) : subtree cmp x.key t = .node x l r := by
  rw [← hplug] at hsorted ⊢
  rw [subtree_plug hcmp hsorted (by simp), subtree, if_pos (hcmp.eq_zero.mpr rfl)]

theorem outline_bare (t : Shape K V) : outline (bare t) = outline t := by
  cases t with
  | nil => rfl
  | node x l r =>
    rw [bare_node]
    simp only [outline, child, height, height_bare]

theorem merged_bare (l r : Shape K V) : merged (bare l) (bare r) = merged l r := by
  induction l, r using merged.induct with
  | case1 r =>
    rw [bare_nil, merged_nil_left, merged_nil_left, outline_bare]
  | case2 l =>
    rw [bare_nil, merged_nil_right, merged_nil_right, outline_bare]
  | case3 x a b y c d ih =>
    have hl : (node () (bare a) (bare b)).height = (node x a b).height :=
      height_bare (.node x a b)
    have hr : (node () (bare c) (bare d)).height = (node y c d).height :=
      height_bare (.node y c d)
    rw [bare_node, bare_node, merged, merged, ih, hl, hr, height_bare, height_bare]

theorem avl_of_climbed_iff (havl : (plug c (.node x l r)).Avl)
    (h : Climbed (sinkPath c (.node x l r)) .nil (bare u)) : u.Avl ↔ (merged l r).isSome := by
  rw [sinkPath, climbed_append] at h
  obtain ⟨m, hm, hu⟩ := h
  have hold : (plug (bareFrames c) (bare (.node x l r))).Avl := by
    rw [← bare_plug]
    exact (avl_bare _).mpr havl
  have hnode : (node x l r).Avl := havl.of_plug
  have hmerges := merges_of_climbed ((avl_bare l).mpr hnode.2.1) ((avl_bare r).mpr hnode.2.2) hm
  have hge := hmerges.ge
  have hle := hmerges.le_succ
  have hspec := hmerges.spec
  have hheight : (bare (.node x l r)).height = max l.height r.height + 1 := height_bare _
  rw [height_bare, height_bare] at hge hle
  rw [merged_bare] at hspec
  rw [← avl_bare]
  cases hmerged : merged l r with
  | some o =>
    rw [hmerged] at hspec
    exact iff_of_true (hold.climbed hspec.1 (by omega) (by omega) hu) rfl
  | none =>
    rw [hmerged] at hspec
    exact iff_of_false (hold.not_climbed (not_avl_of_torn hspec) (by omega) (by omega) hu)
      Bool.false_ne_true

/-- **When deletion keeps an AVL tree**: if the call does nothing, or the subtrees of the removed
node can be joined. -/
theorem treeDelete_avl_iff [DecidableEq V] (hcmp : TotalComparer cmp) (hat : At s [] t)
    (hsorted : Sorted cmp t) (havl : t.Avl) (hbelow : ExactBelow t)
    (hidle : ∀ y ∈ t.inorder, y.refcount = 0) (hplug : plug c (.node x l r) = t) :
    ∃ s' u, Returns (fun fuel ↦ treeDelete cmp notFound fuel s x.key) s' ∧ At s' [] u ∧
      ExactBelow u ∧ (u.Avl ↔ s.len = 0 ∨ x.val = notFound ∨ (merged l r).isSome) := by
  have hroot : s.root = ptr t := hat.around
  have hx : x ∈ t.inorder := by
    rw [← hplug, inorder_plug]
    simp
  rcases hat.find hcmp hsorted x.key with ⟨c', y, l', r', hfind, hkey, hat', hplug'⟩ | ⟨-, habsent⟩
  swap
  · exact absurd rfl (habsent x hx)
  have heq : node y l' r' = .node x l r := by
    rw [← subtree_of_plug hcmp hsorted hplug', hkey, subtree_of_plug hcmp hsorted hplug]
  cases heq
  by_cases hunseen : s.len = 0 ∨ x.val = notFound
  · refine ⟨s, t, ⟨t.height + 1, fun fuel hfuel ↦ ?_⟩, hat, hbelow, ?_⟩
    · exact hat'.treeDelete_of_unseen (hroot ▸ hfind fuel hfuel) hunseen
    · exact iff_of_true havl (hunseen.imp_right .inl)
  · obtain ⟨hlen, hval⟩ := not_or.mp hunseen
    obtain ⟨s', u, hret, hatu, hbelow', -, -, -, hclimbed⟩ :=
      hat'.treeDelete hplug' hbelow hroot hfind hlen hval (hidle x hx)
    rw [plug_nil] at hplug'
    rw [← hplug'] at havl
    refine ⟨s', u, hret, hatu, hbelow', ?_⟩
    rw [avl_of_climbed_iff havl hclimbed]
    exact ⟨fun h ↦ .inr (.inr h), fun h ↦ (h.resolve_left hlen).resolve_left hval⟩

def lopsided : Shape Ptr Ptr :=
  .node ⟨0x50, 5, 50, 4, 0, false⟩
    (.node ⟨0x30, 3, 30, 3, 0, false⟩
      (.node ⟨0x20, 2, 20, 2, 0, false⟩ (.node ⟨0x10, 1, 10, 1, 0, false⟩ .nil .nil) .nil)
      (.node ⟨0x40, 4, 40, 1, 0, false⟩ .nil .nil))
    (.node ⟨0x70, 7, 70, 2, 0, false⟩ (.node ⟨0x60, 6, 60, 1, 0, false⟩ .nil .nil) .nil)

/-- The node 7 is left with a left subtree of height 2 and no right one. -/
theorem not_avl_treeDelete_lopsided :
    At (build lopsided) [] lopsided ∧ Sorted defaultComparer lopsided ∧ lopsided.Avl ∧
      ExactBelow lopsided ∧ (∀ y ∈ lopsided.inorder, y.refcount = 0) ∧
      ∃ s' u, Returns (fun fuel ↦ treeDelete defaultComparer notFoundPtr fuel (build lopsided) 5) s' ∧
        At s' [] u ∧ ¬ u.Avl := by
  have hat : At (build lopsided) [] lopsided := at_build (by decide) (by decide)
  have hfind : ∀ fuel, lopsided.height < fuel →
      find defaultComparer fuel (build lopsided) 5 (ptr lopsided) = some 0x50 := by
    intro fuel hfuel
    obtain ⟨n, rfl⟩ : ∃ n, fuel = n + 1 := ⟨fuel - 1, by omega⟩
    rfl
  obtain ⟨s', u, hret, hat', -, -, -, -, hclimbed⟩ : ∃ s' u,
      Returns (fun fuel ↦ treeDelete defaultComparer notFoundPtr fuel (build lopsided) 5) s' ∧ _ :=
    hat.treeDelete rfl (by decide) rfl hfind (by decide) (by decide) rfl
  refine ⟨hat, by decide, by decide, by decide, by decide, s', u, hret, hat', ?_⟩
  rw [avl_of_climbed_iff (by decide) hclimbed]
  decide

theorem treeDelete_avl_tilted : ∃ s' u,
    Returns (fun fuel ↦ treeDelete defaultComparer notFoundPtr fuel (build tilted) 5) s' ∧
      At s' [] u ∧ ExactBelow u ∧ u.Avl := by
  obtain ⟨s', u, hret, hat, hbelow, havl⟩ : ∃ s' u,
      Returns (fun fuel ↦ treeDelete defaultComparer notFoundPtr fuel (build tilted) 5) s' ∧ _ :=
    treeDelete_avl_iff (c := []) totalComparer_default
      (at_build (t := tilted) (by decide) (by decide)) (by decide) (by decide) (by decide)
      (by decide) rfl
  exact ⟨s', u, hret, hat, hbelow, havl.mpr (.inr (.inr (by decide)))⟩

end ForgeOS.Tree
