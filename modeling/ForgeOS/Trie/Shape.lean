import ForgeOS.Lib.Arbor
import ForgeOS.Trie.Map

/-!
# Every trie is a tree

Insertions that are not in line put nodes where no search looks for them.  But whatever is inserted,
the trie stays a tree (`Shaped`).
-/

namespace ForgeOS.Trie

open List Str Relation

variable {V : Type}

def Edge (s : Trie V) (n c : Ptr) : Prop := ∃ nd, s.heap.read n = some nd ∧ c ∈ nd.children

def Reachable (s : Trie V) (n : Ptr) : Prop := ReflTransGen s.Edge s.root n

variable [Zero V] {s s' : Trie V} {n a b c p w : Ptr} {N : Set Ptr} {key : CStr} {v : V}

structure Shaped (s : Trie V) (N : Set Ptr) : Prop extends Nodes s N where
  top : ∀ n ∈ N, s.root ∉ (s.get n).children
  nodup : ∀ n ∈ N, (s.get n).children.Nodup
  finite : N.Finite

theorem Live.edge_iff (h : s.Live n) : s.Edge n c ↔ c ∈ (s.get n).children := by
  constructor
  · rintro ⟨nd, hread, hc⟩
    rwa [get_of_read hread]
  · exact fun hc ↦ ⟨s.get n, h, hc⟩

namespace Shaped

theorem mem_of_reachable (h : Shaped s N) (hn : s.Reachable n) : n ∈ N := by
  induction hn with
  | refl => exact h.root_mem
  | tail _ hc ih => exact (h.linked _ ih _ ((h.live _ ih).edge_iff.mp hc)).1

theorem edge_iff (h : Shaped s N) (hn : s.Reachable n) : s.Edge n c ↔ c ∈ (s.get n).children :=
  (h.live n (h.mem_of_reachable hn)).edge_iff

theorem parent_of_edge (h : Shaped s N) (hn : s.Reachable n) (hc : s.Edge n c) :
    (s.get c).parent = n :=
  (h.linked n (h.mem_of_reachable hn) c ((h.edge_iff hn).mp hc)).2

theorem arbor (h : Shaped s N) : Arbor s.root s.Edge where
  unique n m c hn hm hnc hmc := by
    rw [← h.parent_of_edge hn hnc, h.parent_of_edge hm hmc]
  top n hn hc := h.top n (h.mem_of_reachable hn) ((h.edge_iff hn).mp hc)

theorem induction (h : Shaped s N) {P : Ptr → Prop}
    (hP : ∀ n, s.Reachable n → (∀ c ∈ (s.get n).children, P c) → P n) (hn : s.Reachable n) :
    P n := by
  refine h.arbor.induction h.finite (fun n ↦ h.mem_of_reachable) (fun n hn ih ↦ ?_) hn
  exact hP n hn fun c hc ↦ ih c ((h.edge_iff hn).mpr hc)

theorem kept (h : Shaped s N) (hkept : Kept s s' N) : Shaped s' N where
  toNodes := h.toNodes.kept hkept
  top n hn := by
    rw [hkept.root, hkept.children n hn]
    exact h.top n hn
  nodup n hn := by
    rw [hkept.children n hn]
    exact h.nodup n hn
  finite := h.finite

theorem of_relinked (h : Shaped s N) (ha : Loose s N a) (hlink : Relinked s s')
    (hlinked : Linked s' (insert a N)) (htop : ∀ n ∈ insert a N, s.root ∉ (s'.get n).children)
    (hnodup : ∀ n ∈ insert a N, (s'.get n).children.Nodup) : Shaped s' (insert a N) where
  toNodes := h.toNodes.of_relinked ha hlink hlinked
  top := by rwa [hlink.root]
  nodup := hnodup
  finite := h.finite.insert a

theorem hang (h : Shaped s N) (hn : n ∈ N) (ha : Loose s N a) :
    ∃ s', s.addChild n a = some s' ∧ Shaped s' (insert a N) := by
  obtain ⟨s', h', hlink, hcn, hcs, hpa, hps⟩ := addChild_spec (h.live n hn) ha.live
  have han : a ≠ n := by
    rintro rfl
    exact ha.notMem hn
  have hca : (s'.get a).children = [] := by rw [hcs a han, ha.leaf]
  have hchildren : ∀ w ∈ insert a N, (s'.get w).children = [] ∨
      w ∈ N ∧ ((s'.get w).children = (s.get w).children ∨
        (s'.get w).children = (s.get w).children ++ [a]) := by
    rintro w (rfl | hw)
    · exact .inl hca
    by_cases hwn : w = n
    · exact .inr ⟨hw, .inr (hwn ▸ hcn)⟩
    · exact .inr ⟨hw, .inl (hcs w hwn)⟩
  refine ⟨s', h', h.of_relinked ha hlink (h.linked.hang hn ha.notMem hca hcn hcs hpa hps) ?_ ?_⟩
  · intro w hw
    rcases hchildren w hw with heq | ⟨hwN, heq | heq⟩
    · simp [heq]
    · rw [heq]
      exact h.top w hwN
    · rw [heq, mem_append, mem_singleton, not_or]
      exact ⟨h.top w hwN, fun hra ↦ ha.notMem (hra ▸ h.root_mem)⟩
  · intro w hw
    rcases hchildren w hw with heq | ⟨hwN, heq | heq⟩
    · simp [heq]
    · rw [heq]
      exact h.nodup w hwN
    · rw [heq, nodup_append_comm, singleton_append, nodup_cons]
      exact ⟨fun hmem ↦ ha.notMem (h.linked w hwN a hmem).1, h.nodup w hwN⟩

theorem wedge (h : Shaped s N) (hn : n ∈ N) (hp : p ∈ N) (hmem : n ∈ (s.get p).children)
    (ha : Loose s N a) :
    ∃ s', s.wedge n a = some s' ∧ Shaped s' (insert a N) ∧ Relinked s s' ∧
      ∀ w ∉ insert a N, (s'.get w).children = (s.get w).children := by
  have hne : ∀ {w}, w ∈ N → w ≠ a := by
    rintro w hw rfl
    exact ha.notMem hw
  obtain rfl : (s.get n).parent = p := (h.linked p hp n hmem).2
  obtain ⟨s', h', hlink, hcp, hca, hcs, hpa, hpn, hps⟩ :=
    wedge_spec (h.live _ hp) ha.live (h.live n hn) hmem (hne hp).symm (hne hn).symm
  rw [ha.leaf, List.nil_append] at hca
  have hchildren : ∀ w ∈ insert a N, (s'.get w).children = [n] ∨
      w ∈ N ∧ ((s'.get w).children = (s.get w).children ∨
        (s'.get w).children = (s.get w).children.map fun c ↦ if c = n then a else c) := by
    rintro w (rfl | hw)
    · exact .inl hca
    by_cases hwp : w = (s.get n).parent
    · exact .inr ⟨hw, .inr (hwp ▸ hcp)⟩
    · exact .inr ⟨hw, .inl (hcs w hwp (hne hw))⟩
  have hlinked := h.linked.wedge hn ha.notMem hca hcp hcs rfl hpa hpn hps
  refine ⟨s', h', h.of_relinked ha hlink hlinked ?_ ?_, hlink, fun w hw ↦ ?_⟩
  · intro w hw
    rcases hchildren w hw with heq | ⟨hwN, heq | heq⟩
    · rw [heq, mem_singleton]
      rintro rfl
      exact h.top _ hp hmem
    · rw [heq]
      exact h.top w hwN
    · rw [heq, mem_map]
      rintro ⟨c, hc, hroot⟩
      split at hroot
      next => exact hne h.root_mem hroot.symm
      next => exact h.top w hwN (hroot ▸ hc)
  · intro w hw
    rcases hchildren w hw with heq | ⟨hwN, heq | heq⟩
    · simp [heq]
    · rw [heq]
      exact h.nodup w hwN
    · rw [heq]
      refine (h.nodup w hwN).map_on fun c hc d hd hcd ↦ ?_
      have hca := hne (h.linked w hwN c hc).1
      have hda := hne (h.linked w hwN d hd).1
      split at hcd
      next hcn =>
        split at hcd
        next hdn => exact hcn.trans hdn.symm
        next => exact absurd hcd.symm hda
      next =>
        split at hcd
        next => exact absurd hcd hca
        next => exact hcd
  · rw [Set.mem_insert_iff, not_or] at hw
    refine hcs w ?_ hw.1
    rintro rfl
    exact hw.2 hp

def Placed (s : Trie V) (N : Set Ptr) (n : Ptr) : Prop :=
  n ∈ N ∧ (n = s.root ∨ ∃ p ∈ N, n ∈ (s.get p).children)

def Landed (s : Trie V) (N : Set Ptr) : Place → Prop
  | .found c => c ∈ N ∧ c ≠ s.root
  | .missing n => Placed s N n

theorem placed_child (h : Shaped s N) (hn : n ∈ N) (hc : c ∈ (s.get n).children) : Placed s N c :=
  ⟨(h.linked n hn c hc).1, .inr ⟨n, hn, hc⟩⟩

theorem descend (h : Shaped s N) (key : CStr) (hn : s.Reachable n) (hplace : Placed s N n) (i : ℕ) :
    ∃ r, Returns (fun fuel ↦ Trie.descend fuel s key n i) r ∧ Landed s N r := by
  revert hplace i
  refine h.induction (P := fun n ↦ Placed s N n → ∀ i,
    ∃ r, Returns (fun fuel ↦ Trie.descend fuel s key n i) r ∧ Landed s N r) ?_ hn
  intro n hn ih hplace i
  have hread : s.heap.read n = some (s.get n) := h.live n hplace.1
  have hcN : ∀ c ∈ (s.get n).children.drop i, c ∈ N :=
    fun c hc ↦ (h.linked n hplace.1 c (mem_of_mem_drop hc)).1
  rcases scan_spec (fun cd ↦ strcmp cd.pfx key = 0) (fun cd ↦ commonprefix cd.pfx key ≠ 0)
    (fun c hc ↦ h.live c (hcN c hc)) i with
    ⟨hscan, -⟩ | ⟨c, hc, hscan, -⟩ | ⟨j, c, hc, hscan, -⟩
  · refine ⟨.missing n, (Returns.of_eq rfl).turn fun fuel ↦ ?_, hplace⟩
    simp only [Trie.descend, hread, hscan, Option.bind_eq_bind, Option.bind_some]
  · refine ⟨.found c, (Returns.of_eq rfl).turn fun fuel ↦ ?_, hcN c hc, ?_⟩
    · simp only [Trie.descend, hread, hscan, Option.bind_eq_bind, Option.bind_some]
    · rintro rfl
      exact h.top n hplace.1 (mem_of_mem_drop hc)
  · have hmem : c ∈ (s.get n).children := mem_of_mem_drop (mem_of_getElem? hc)
    obtain ⟨r, hret, hr⟩ := ih c hmem (h.placed_child hplace.1 hmem) (i + j)
    refine ⟨r, hret.turn fun fuel ↦ ?_, hr⟩
    simp only [Trie.descend, hread, hscan, Option.bind_eq_bind, Option.bind_some]

theorem link (h : Shaped s N) (hplace : Placed s N n) (ha : Loose s N a) (key : CStr)
    (hb : b ≠ 0) (hfree : s.heap.read b = none) :
    ∃ s' N', s.link n a b key key.length = some s' ∧ Shaped s' N' := by
  obtain ⟨hn, hplace⟩ := hplace
  have hread : s.heap.read n = some (s.get n) := h.live n hn
  have hpfx : (s.get n).pfx = s.word n := rfl
  simp only [Trie.link, hread, Option.bind_eq_bind, Option.bind_some, commonprefix_eq, hpfx]
  by_cases hlt : commonLen (s.word n) key < (s.get n).prefixlen
  swap
  · rw [if_neg hlt]
    obtain ⟨s', h', hs'⟩ := h.hang hn ha
    exact ⟨s', _, h', hs'⟩
  rw [if_pos hlt]
  -- The string of the root is empty, so that `n` has a parent.
  obtain ⟨p, hp, hmem⟩ : ∃ p ∈ N, n ∈ (s.get p).children := by
    refine hplace.resolve_left ?_
    rintro rfl
    rw [h.prefixlen _ hn, h.root_word] at hlt
    exact absurd hlt (Nat.not_lt_zero _)
  by_cases heq : commonLen (s.word n) key = key.length
  · rw [if_pos heq]
    obtain ⟨s', h', hs', -⟩ := h.wedge hn hp hmem ha
    exact ⟨s', _, h', hs'⟩
  rw [if_neg heq, malloc_eq hb hfree, Option.bind_some]
  have hlen := length_fork_pfx s n key
  obtain ⟨hkept, hb1⟩ := h.alloc hb hfree (s.fork n key) rfl hlen.symm
    (hlen ▸ (commonLen_le_left _ _).trans_lt (h.short n hn))
  have hgetN : ∀ w ≠ b, (s.set b (s.fork n key)).get w = s.get w := fun w hw ↦ get_set_of_ne hw
  have hab : a ≠ b := by
    rintro rfl
    have hlive : s.heap.read a = some (s.get a) := ha.live
    rw [hfree] at hlive
    cases hlive
  have hpb : p ≠ b := by
    rintro rfl
    exact hb1.notMem hp
  obtain ⟨s2, hw2, h2, hlink2, hout⟩ := (h.kept hkept).wedge hn hp (by rwa [hgetN p hpb]) hb1
  have ha2 : Loose s2 (insert b N) a := ha.wedged hb hab hlink2 hout
  obtain ⟨s', h', hs'⟩ := h2.hang (.inl rfl) ha2
  refine ⟨s', _, ?_, hs'⟩
  show ((s.set b (s.fork n key)).wedge n b).bind (fun s ↦ s.addChild b a) = some s'
  rw [hw2]
  exact h'

theorem step (h : Shaped s N) {op : Insert V} (hop : Allowed s op) :
    ∃ s', Returns (fun fuel ↦ Trie.step fuel s op) s' ∧ ∃ N', Shaped s' N' := by
  obtain ⟨ha, hb, hab, hfreea, hfreeb, hlen⟩ := hop
  obtain ⟨r, hret, hr⟩ := h.descend op.key .refl ⟨h.root_mem, .inl rfl⟩ 0
  cases r with
  | found c =>
    refine ⟨s.setValue c op.val, hret.bind (Returns.of_eq (modify_eq (h.live c hr.1) _)), N, ?_⟩
    exact h.kept (h.kept_setValue hr.1 fun hroot ↦ absurd hroot hr.2)
  | missing n =>
    obtain ⟨hkept, ha1⟩ := h.alloc ha hfreea op.node rfl rfl (hlen.trans (by decide))
    have hget : ∀ w ∈ N, (s.set op.a op.node).get w = s.get w := by
      intro w hw
      refine get_set_of_ne ?_
      rintro rfl
      exact ha1.notMem hw
    have hplace : Placed (s.set op.a op.node) N n := by
      refine ⟨hr.1, hr.2.imp_right ?_⟩
      rintro ⟨p, hp, hmem⟩
      exact ⟨p, hp, (hget p hp).symm ▸ hmem⟩
    obtain ⟨s', N', h', hs'⟩ := (h.kept hkept).link hplace ha1 op.key hb
      ((read_set_of_ne hab.symm).trans hfreeb)
    refine ⟨s', hret.bind (Returns.of_eq ?_), N', hs'⟩
    simp only [strlen, if_pos hlen, malloc_eq ha hfreea, Option.bind_eq_bind, Option.bind_some]
    exact h'

end Shaped

variable {h : Heap Ptr (Node V)}

theorem shaped_createTrie {r : Ptr} (hs : createTrie h r = some s) : Shaped s {r} := by
  obtain ⟨rfl, hget, hnodes⟩ := nodes_createTrie hs
  refine ⟨hnodes, ?_, ?_, Set.finite_singleton s.root⟩
  all_goals
    rintro n rfl
    simp [hget]

theorem shaped_of_insertions {r : Ptr} (hs : createTrie h r = some s) (ops : List (Insert V)) :
    (∃ F, ∀ fuel ≥ F, ¬ Run.Guarded (step fuel) Allowed s ops) ∨
      ∃ t, Returns (fun fuel ↦ Run.exec (step fuel) s ops) t ∧ ∃ N, Shaped t N := by
  refine Run.returns_of_inv (fun s op hshape hop ↦ ?_) ⟨_, shaped_createTrie hs⟩ ops
  obtain ⟨N, hshape⟩ := hshape
  exact hshape.step hop

end ForgeOS.Trie
