import ForgeOS.Tree.Shape

/-!
# Searching in key order

The loop of `tree_search` finds the node with a key if there is one (`At.find`), and the loop of
`tree_insert` the empty place between the smaller and the greater keys (`At.attach`).
-/

namespace ForgeOS.Tree

open BinaryTree List Option BinaryTree

variable {K V : Type}

structure TotalComparer (cmp : K → K → ℤ) : Prop where
  eq_zero : ∀ {a b : K}, cmp a b = 0 ↔ a = b
  neg : ∀ {a b : K}, cmp a b < 0 ↔ 0 < cmp b a
  trans : ∀ {a b c : K}, cmp a b < 0 → cmp b c < 0 → cmp a c < 0

theorem totalComparer_default : TotalComparer defaultComparer where
  eq_zero {a b} := by
    simp only [defaultComparer]
    split <;> grind
  neg {a b} := by
    simp only [defaultComparer]
    grind
  trans {a b c} := by
    simp only [defaultComparer]
    grind

def Sorted (cmp : K → K → ℤ) (t : Shape K V) : Prop :=
  t.inorder.Pairwise fun x y ↦ cmp x.key y.key < 0

instance (cmp : K → K → ℤ) (t : Shape K V) : Decidable (Sorted cmp t) :=
  inferInstanceAs (Decidable (t.inorder.Pairwise fun x y ↦ cmp x.key y.key < 0))

variable {cmp : K → K → ℤ} {s : Tree K V} {c : List (Frame (Cell K V))} {x : Cell K V}
variable {l r t : Shape K V}

theorem TotalComparer.ne (hcmp : TotalComparer cmp) {a b : K} (h : cmp a b < 0) : a ≠ b := by
  intro hab
  have hzero := hcmp.eq_zero.mpr hab
  omega

theorem Sorted.left (h : Sorted cmp (.node x l r)) : Sorted cmp l :=
  (pairwise_append.mp h).1

theorem Sorted.right (h : Sorted cmp (.node x l r)) : Sorted cmp r :=
  (pairwise_cons.mp (pairwise_append.mp h).2.1).2

theorem Sorted.lt_root (h : Sorted cmp (.node x l r)) : ∀ y ∈ l.inorder, cmp y.key x.key < 0 :=
  fun y hy ↦ (pairwise_append.mp h).2.2 y hy x mem_cons_self

theorem Sorted.root_lt (h : Sorted cmp (.node x l r)) : ∀ y ∈ r.inorder, cmp x.key y.key < 0 :=
  (pairwise_cons.mp (pairwise_append.mp h).2.1).1

theorem forall_fuel_node {α : Type} {f g : ℕ → α} {v : α} {n m : ℕ}
    (hturn : ∀ fuel, f (fuel + 1) = g fuel) (hle : n < m) (h : ∀ fuel > n, g fuel = v) :
    ∀ fuel > m, f fuel = v := by
  intro fuel hfuel
  obtain ⟨fuel, rfl⟩ : ∃ k, fuel = k + 1 := ⟨fuel - 1, by omega⟩
  rw [hturn]
  exact h fuel (by omega)

theorem At.find_turn (cmp : K → K → ℤ) (hat : At s c (.node x l r)) (k : K) (fuel : ℕ) :
    find cmp (fuel + 1) s k x.addr =
      if cmp k x.key = 0 then some x.addr
      else if cmp k x.key < 0 then find cmp fuel s k (ptr l) else find cmp fuel s k (ptr r) := by
  have hx := hat.rep.1
  simp only [Tree.find, if_neg (Heap.ne_zero_of_read hx), hx, Cell.toNode, bind_eq_bind,
    bind_some]

theorem At.find_returns (cmp : K → K → ℤ) (hat : At s c t) (k : K) :
    ∃ p, (∀ fuel > t.height, find cmp fuel s k (ptr t) = some p) ∧ (p = 0 ∨ p ∈ addrs t) := by
  induction t generalizing c with
  | nil =>
    refine ⟨0, fun fuel hfuel ↦ ?_, .inl rfl⟩
    obtain ⟨fuel, rfl⟩ : ∃ n, fuel = n + 1 := ⟨fuel - 1, by omega⟩
    rfl
  | node x l r ihl ihr =>
    have hturn := hat.find_turn cmp k
    have hl : l.height < (node x l r).height := by simp only [height]; omega
    have hr : r.height < (node x l r).height := by simp only [height]; omega
    by_cases heq : cmp k x.key = 0
    · simp only [if_pos heq] at hturn
      exact ⟨x.addr, forall_fuel_node hturn hl fun _ _ ↦ rfl, .inr (by simp [addrs_node])⟩
    by_cases hlt : cmp k x.key < 0
    · simp only [if_neg heq, if_pos hlt] at hturn
      obtain ⟨p, hp, hmem⟩ := ihl hat.left
      refine ⟨p, forall_fuel_node hturn hl hp, hmem.imp_right fun hmem ↦ ?_⟩
      simp [addrs_node, hmem]
    · simp only [if_neg heq, if_neg hlt] at hturn
      obtain ⟨p, hp, hmem⟩ := ihr hat.right
      refine ⟨p, forall_fuel_node hturn hr hp, hmem.imp_right fun hmem ↦ ?_⟩
      simp [addrs_node, hmem]

theorem At.find (hcmp : TotalComparer cmp) (hat : At s c t) (hsorted : Sorted cmp t) (k : K) :
    (∃ c' x l r, (∀ fuel > t.height, find cmp fuel s k (ptr t) = some x.addr) ∧ x.key = k ∧
      At s c' (.node x l r) ∧ plug c' (.node x l r) = plug c t) ∨
    ((∀ fuel > t.height, find cmp fuel s k (ptr t) = some 0) ∧ ∀ y ∈ t.inorder, y.key ≠ k) := by
  induction t generalizing c with
  | nil =>
    refine .inr ⟨fun fuel hfuel ↦ ?_, by simp⟩
    obtain ⟨fuel, rfl⟩ : ∃ n, fuel = n + 1 := ⟨fuel - 1, by omega⟩
    rfl
  | node x l r ihl ihr =>
    have hturn := hat.find_turn cmp k
    have hl : l.height < (node x l r).height := by simp only [height]; omega
    have hr : r.height < (node x l r).height := by simp only [height]; omega
    rcases lt_trichotomy (cmp k x.key) 0 with hlt | heq | hgt
    · simp only [if_neg hlt.ne, if_pos hlt] at hturn
      rcases ihl hat.left hsorted.left with ⟨c', y, a, b, hfind, hrest⟩ | ⟨hnone, habsent⟩
      · exact .inl ⟨c', y, a, b, forall_fuel_node hturn hl hfind, hrest⟩
      refine .inr ⟨forall_fuel_node hturn hl hnone, fun y hy hyk ↦ ?_⟩
      subst hyk
      rcases mem_append.mp hy with hy | hy
      · exact habsent y hy rfl
      rcases mem_cons.mp hy with rfl | hy
      · exact hcmp.ne hlt rfl
      · exact hcmp.ne (hcmp.trans hlt (hsorted.root_lt y hy)) rfl
    · simp only [if_pos heq] at hturn
      exact .inl ⟨c, x, l, r, forall_fuel_node hturn hl fun _ _ ↦ rfl, (hcmp.eq_zero.mp heq).symm,
        hat, rfl⟩
    · have hnot : ¬ cmp k x.key < 0 := by omega
      simp only [if_neg hgt.ne', if_neg hnot] at hturn
      rcases ihr hat.right hsorted.right with ⟨c', y, a, b, hfind, hrest⟩ | ⟨hnone, habsent⟩
      · exact .inl ⟨c', y, a, b, forall_fuel_node hturn hr hfind, hrest⟩
      refine .inr ⟨forall_fuel_node hturn hr hnone, fun y hy hyk ↦ ?_⟩
      subst hyk
      have hgt' : cmp x.key y.key < 0 := hcmp.neg.mpr hgt
      rcases mem_append.mp hy with hy | hy
      · exact hcmp.ne (hcmp.trans (hsorted.lt_root y hy) hgt') rfl
      rcases mem_cons.mp hy with rfl | hy
      · exact hcmp.ne hgt' rfl
      · exact habsent y hy rfl

theorem Rep.walk {p : Ptr} (hrep : Rep s.heap p t) {fuel : ℕ} (hfuel : t.height < fuel) :
    walk fuel s (ptr t) = some (t.inorder.map Cell.key) := by
  induction t generalizing p fuel with
  | nil =>
    obtain ⟨fuel, rfl⟩ : ∃ n, fuel = n + 1 := ⟨fuel - 1, by omega⟩
    rfl
  | node x l r ihl ihr =>
    obtain ⟨fuel, rfl⟩ : ∃ n, fuel = n + 1 := ⟨fuel - 1, by omega⟩
    obtain ⟨hx, hl, hr⟩ := hrep
    have hx0 : x.addr ≠ 0 := Heap.ne_zero_of_read hx
    simp only [height] at hfuel
    have hwl := ihl hl (show l.height < fuel by omega)
    have hwr := ihr hr (show r.height < fuel by omega)
    simp [Tree.walk, hx0, hx, Cell.toNode, hwl, hwr]

def Fits (cmp : K → K → ℤ) (k : K) (c : List (Frame (Cell K V))) : Prop :=
  (∀ y ∈ before c, cmp y.key k < 0) ∧ ∀ y ∈ after c, cmp k y.key < 0

theorem Fits.left {k : K} (hcmp : TotalComparer cmp) (h : Fits cmp k c)
    (hsorted : Sorted cmp (.node x l r)) (hlt : cmp k x.key < 0) :
    Fits cmp k (⟨.left, x, r⟩ :: c) := by
  refine ⟨h.1, fun y hy ↦ ?_⟩
  rcases mem_append.mp hy with hy | hy
  · rcases mem_cons.mp hy with rfl | hy
    · exact hlt
    · exact hcmp.trans hlt (hsorted.root_lt y hy)
  · exact h.2 y hy

theorem Fits.right {k : K} (hcmp : TotalComparer cmp) (h : Fits cmp k c)
    (hsorted : Sorted cmp (.node x l r)) (hgt : cmp x.key k < 0) :
    Fits cmp k (⟨.right, x, l⟩ :: c) := by
  refine ⟨fun y hy ↦ ?_, h.2⟩
  rcases mem_append.mp hy with hy | hy
  · exact h.1 y hy
  rcases mem_append.mp hy with hy | hy
  · exact hcmp.trans (hsorted.lt_root y hy) hgt
  · rw [mem_singleton.mp hy]
    exact hgt

theorem At.descend (cmp : K → K → ℤ) (k : K) (hat : At s c (.node x l r)) :
    ∃ d a b, node x l r = join d x a b ∧
      (if cmp k x.key < 0 then Side.left else Side.right) = d ∧ At s (⟨d, x, b⟩ :: c) a ∧
      (∀ y ∈ a.inorder, y ∈ (node x l r).inorder) ∧
      a.height < (node x l r).height ∧
      (TotalComparer cmp → Sorted cmp (.node x l r) → x.key ≠ k → Fits cmp k c →
        Sorted cmp a ∧ Fits cmp k (⟨d, x, b⟩ :: c)) := by
  simp only [height]
  by_cases hlt : cmp k x.key < 0
  · refine ⟨.left, l, r, rfl, if_pos hlt, hat.left, fun y hy ↦ mem_append_left _ hy, by omega,
      fun hcmp hsorted _ hfits ↦ ?_⟩
    exact ⟨hsorted.left, hfits.left hcmp hsorted hlt⟩
  · refine ⟨.right, r, l, rfl, if_neg hlt, hat.right,
      fun y hy ↦ mem_append_right _ (mem_cons_of_mem x hy), by omega,
      fun hcmp hsorted habsent hfits ↦ ?_⟩
    have hgt : cmp x.key k < 0 := by
      have hne : cmp k x.key ≠ 0 := fun h ↦ habsent (hcmp.eq_zero.mp h).symm
      exact hcmp.neg.mpr (by omega)
    exact ⟨hsorted.right, hfits.right hcmp hsorted hgt⟩

theorem At.attach {y : Cell K V} (cmp : K → K → ℤ) (hat : At s c t) (ht : t ≠ .nil)
    (hy : s.heap.read y.addr = some (y.toNode .left 0 0 0))
    (hnew : y.addr ∉ addrs t ++ addrsAround c) :
    ∃ c' s', (∀ fuel ≥ t.height, Tree.attach cmp fuel s y.addr y.key (ptr t) = some (up c', s')) ∧
      At s' c' (.node y .nil .nil) ∧ plug c' .nil = plug c t ∧ s'.len = s.len ∧
      (TotalComparer cmp → Sorted cmp t → (∀ x ∈ t.inorder, x.key ≠ y.key) → Fits cmp y.key c →
        Fits cmp y.key c') := by
  induction hheight : t.height using Nat.strong_induction_on generalizing c t with
  | _ n ih =>
    subst hheight
    obtain ⟨x, l, r, rfl⟩ : ∃ x l r, t = .node x l r := exists_join .left ht
    obtain ⟨d, a, b, heq, hd, hat', hsub, hlt, hsorted⟩ := hat.descend cmp y.key
    have hx : s.heap.read x.addr = some (x.toNode d (up c) (ptr a) (ptr b)) := hat'.around.1
    have hnew' : y.addr ∉ addrs a ++ addrsAround (⟨d, x, b⟩ :: c) := by
      have hperm := addrs_perm_cons ⟨d, x, b⟩ c a
      rw [← heq] at hperm
      rwa [hperm.mem_iff]
    have hturn : ∀ fuel, Tree.attach cmp (fuel + 1) s y.addr y.key x.addr =
        if ptr a = 0 then do
          let s ← s.modify x.addr fun nd ↦ nd.setChild y.addr d
          let s ← s.modify y.addr fun ad ↦ { ad with parent := x.addr }
          some (x.addr, s)
        else Tree.attach cmp fuel s y.addr y.key (ptr a) := fun fuel ↦ by
      simp only [Tree.attach, hx, toNode_key, hd, child_toNode, bind_eq_bind,
        bind_some]
    have hfuel : ∀ fuel ≥ (node x l r).height, ∃ m ≥ a.height, fuel = m + 1 :=
      fun fuel hfuel ↦ ⟨fuel - 1, by omega, by omega⟩
    by_cases ha : a = .nil
    · subst ha
      obtain ⟨s1, s', h1, h', hleaf, hk⟩ := hat'.link hy fun hmem ↦
        hnew' (mem_append_right _ hmem)
      refine ⟨⟨d, x, b⟩ :: c, s', fun fuel hge ↦ ?_, hleaf, ?_, hk.len,
        fun hcmp hst habsent hfits ↦ ?_⟩
      · obtain ⟨m, -, rfl⟩ := hfuel fuel hge
        rw [ptr_node, hturn, if_pos ptr_nil, h1]
        simp only [bind_eq_bind, bind_some, h', up]
      · rw [plug_cons, ← heq]
      · exact (hsorted hcmp hst (habsent x (by simp)) hfits).2
    · have ha0 : ptr a ≠ 0 := fun h ↦ ha (hat'.rep.ptr_eq_zero.mp h)
      obtain ⟨c', s', h', hleaf, hplug, hlen, hfits'⟩ := ih a.height hlt hat' ha hnew' rfl
      refine ⟨c', s', fun fuel hge ↦ ?_, hleaf, hplug.trans ?_, hlen,
        fun hcmp hst habsent hfits ↦ ?_⟩
      · obtain ⟨m, hm, rfl⟩ := hfuel fuel hge
        rw [ptr_node, hturn, if_neg ha0]
        exact h' m hm
      · rw [plug_cons, ← heq]
      · obtain ⟨hst', hfits⟩ := hsorted hcmp hst (habsent x (by simp)) hfits
        exact hfits' hcmp hst' (fun x hx ↦ habsent x (hsub x hx)) hfits

end ForgeOS.Tree
