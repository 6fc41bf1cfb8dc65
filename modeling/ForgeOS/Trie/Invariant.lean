import ForgeOS.Lib.Radix
import ForgeOS.Trie.Model

/-!
# A trie in memory

The nodes of a trie that is in order are a radix tree in the sense of `Lib.Radix` (`WF`).
-/

namespace ForgeOS.Trie

open List List Option

variable {V : Type} [Zero V]

def get (s : Trie V) (n : Ptr) : Node V := (s.heap.read n).getD ⟨[], 0, false, 0, [], 0⟩

def set (s : Trie V) (n : Ptr) (nd : Node V) : Trie V := { s with heap := s.heap.set n nd }

variable {s s' : Trie V} {n a c p w : Ptr} {nd : Node V} {N : Set Ptr}

omit [Zero V] in
@[simp] theorem root_set : (s.set n nd).root = s.root := rfl

theorem get_of_read (h : s.heap.read n = some nd) : s.get n = nd := by
  rw [get, h, getD_some]

theorem get_congr (h : s'.heap.read n = s.heap.read n) : s'.get n = s.get n := by
  rw [get, h, get]

omit [Zero V] in
theorem read_set_of_ne (h : w ≠ n) : (s.set n nd).heap.read w = s.heap.read w :=
  Heap.read_set_of_ne h

omit [Zero V] in
theorem read_set_self (h : n ≠ 0) : (s.set n nd).heap.read n = some nd :=
  Heap.read_set_self h

@[simp] theorem get_set_self (h : n ≠ 0) : (s.set n nd).get n = nd :=
  get_of_read (read_set_self h)

@[simp] theorem get_set_of_ne (h : w ≠ n) : (s.set n nd).get w = s.get w :=
  get_congr (read_set_of_ne h)

def Live (s : Trie V) (n : Ptr) : Prop := s.heap.read n = some (s.get n)

theorem Live.ne_zero (h : s.Live n) : n ≠ 0 := Heap.ne_zero_of_read h

theorem live_of_read (h : s.heap.read n = some nd) : s.Live n := by
  rw [Live, get_of_read h, h]

theorem Live.congr (h : s.Live n) (heq : s'.heap.read n = s.heap.read n) : s'.Live n := by
  rw [Live, heq, get_congr heq]
  exact h

theorem Live.set (h : s.Live w) (hn : n ≠ 0) : (s.set n nd).Live w := by
  by_cases hw : w = n
  · subst hw
    exact live_of_read (read_set_self hn)
  · exact h.congr (read_set_of_ne hw)

theorem modify_eq (h : s.Live n) (f : Node V → Node V) :
    s.modify n f = some (s.set n (f (s.get n))) := by
  rw [modify, Heap.modify_eq h]
  rfl

omit [Zero V] in
theorem malloc_eq (ha : a ≠ 0) (hfree : s.heap.read a = none) (nd : Node V) :
    s.malloc a nd = some (s.set a nd) := by
  rw [malloc, Heap.alloc_eq ha hfree]
  rfl

def word (s : Trie V) (n : Ptr) : CStr := (s.get n).pfx

def Kid (s : Trie V) (n c : Ptr) : Prop := c ∈ (s.get n).children ∧ s.word c ≠ []

def Linked (s : Trie V) (N : Set Ptr) : Prop :=
  ∀ n ∈ N, ∀ c ∈ (s.get n).children, c ∈ N ∧ (s.get c).parent = n

/-! ## The invariant -/

/-- What is true of the nodes of every trie. -/
structure Nodes (s : Trie V) (N : Set Ptr) : Prop where
  live : ∀ n ∈ N, s.Live n
  root_mem : s.root ∈ N
  root_word : s.word s.root = []
  root_value : (s.get s.root).value = 0
  prefixlen : ∀ n ∈ N, (s.get n).prefixlen = (s.word n).length
  short : ∀ n ∈ N, (s.word n).length < wordSize
  linked : Linked s N

/-- The nodes are what they were, apart from their values. -/
structure Kept (s s' : Trie V) (N : Set Ptr) : Prop where
  root : s'.root = s.root
  live : ∀ n ∈ N, s'.Live n
  word : ∀ n ∈ N, s'.word n = s.word n
  prefixlen : ∀ n ∈ N, (s'.get n).prefixlen = (s.get n).prefixlen
  children : ∀ n ∈ N, (s'.get n).children = (s.get n).children
  parent : ∀ n ∈ N, (s'.get n).parent = (s.get n).parent
  value : (s'.get s.root).value = 0

theorem Nodes.kept (h : Nodes s N) (hkept : Kept s s' N) : Nodes s' N where
  live := hkept.live
  root_mem := hkept.root ▸ h.root_mem
  root_word := by rw [hkept.root, hkept.word _ h.root_mem, h.root_word]
  root_value := hkept.root ▸ hkept.value
  prefixlen n hn := by rw [hkept.prefixlen n hn, hkept.word n hn, h.prefixlen n hn]
  short n hn := by
    rw [hkept.word n hn]
    exact h.short n hn
  linked n hn c hc := by
    rw [hkept.children n hn] at hc
    obtain ⟨hcN, hparent⟩ := h.linked n hn c hc
    exact ⟨hcN, (hkept.parent c hcN).trans hparent⟩

theorem Nodes.notMem (h : Nodes s N) (hfree : s.heap.read a = none) : a ∉ N := by
  intro hmem
  have hlive : s.heap.read a = some (s.get a) := h.live a hmem
  rw [hfree] at hlive
  cases hlive

/-- The invariant of a trie that is in order. -/
structure WF (s : Trie V) (N : Set Ptr) : Prop extends Nodes s N where
  blank : ∀ n ∈ N, s.word n = [] → n ≠ s.root → (s.get n).children = []
  parent : ∀ n ∈ N, s.word n ≠ [] → (s.get n).parent ∈ N ∧ n ∈ (s.get (s.get n).parent).children
  fan : ∀ n ∈ N, Fan s.word (s.word n) (s.Kid n)

theorem WF.eq_root (h : WF s N) (hn : n ∈ N) (hword : s.word n = []) (hc : s.Kid n c) :
    n = s.root := by
  by_contra hroot
  have hmem := hc.1
  rw [h.blank n hn hword hroot] at hmem
  exact not_mem_nil hmem

theorem WF.kept (h : WF s N) (hkept : Kept s s' N) : WF s' N where
  toNodes := h.toNodes.kept hkept
  blank n hn hw hr := by
    rw [hkept.children n hn]
    exact h.blank n hn (hkept.word n hn ▸ hw) (hkept.root ▸ hr)
  parent n hn hw := by
    rw [hkept.parent n hn]
    obtain ⟨hp, hmem⟩ := h.parent n hn (hkept.word n hn ▸ hw)
    exact ⟨hp, (hkept.children _ hp).symm ▸ hmem⟩
  fan n hn := by
    rw [hkept.word n hn]
    have hkid : ∀ c, s'.Kid n c → c ∈ N ∧ s.Kid n c := by
      rintro c ⟨hc, hne⟩
      rw [hkept.children n hn] at hc
      have hcN := (h.linked n hn c hc).1
      exact ⟨hcN, hc, hkept.word c hcN ▸ hne⟩
    exact (h.fan n hn).congr (fun c hc ↦ (hkid c hc).2) fun c hc ↦ hkept.word c (hkid c hc).1

/-! ## Relinking -/

structure Relinked (s s' : Trie V) : Prop where
  root : s'.root = s.root
  live : ∀ n, s.Live n → s'.Live n
  pfx : ∀ n, (s'.get n).pfx = (s.get n).pfx
  prefixlen : ∀ n, (s'.get n).prefixlen = (s.get n).prefixlen
  value : ∀ n, (s'.get n).value = (s.get n).value

theorem Relinked.trans {s'' : Trie V} (h : Relinked s s') (h' : Relinked s' s'') :
    Relinked s s'' where
  root := h'.root.trans h.root
  live n hn := h'.live n (h.live n hn)
  pfx n := (h'.pfx n).trans (h.pfx n)
  prefixlen n := (h'.prefixlen n).trans (h.prefixlen n)
  value n := (h'.value n).trans (h.value n)

theorem Relinked.word (h : Relinked s s') : s'.word = s.word := funext h.pfx

theorem relinked_set (hn : s.Live n) (cs : List Ptr) (q : Ptr) :
    Relinked s (s.set n { s.get n with children := cs, parent := q }) := by
  refine ⟨rfl, fun w hw ↦ hw.set hn.ne_zero, fun w ↦ ?_, fun w ↦ ?_, fun w ↦ ?_⟩
  all_goals
    by_cases hw : w = n
    · rw [hw, get_set_self hn.ne_zero]
    · rw [get_set_of_ne hw]

theorem modify_children (hn : s.Live n) (f : List Ptr → List Ptr) :
    ∃ s', s.modify n (fun nd ↦ { nd with children := f nd.children }) = some s' ∧ Relinked s s' ∧
      (s'.get n).children = f (s.get n).children ∧ (∀ w ≠ n, (s'.get w).children = (s.get w).children) ∧
      ∀ w, (s'.get w).parent = (s.get w).parent := by
  refine ⟨_, modify_eq hn _, relinked_set hn _ _, ?_, fun w hw ↦ ?_, fun w ↦ ?_⟩
  · rw [get_set_self hn.ne_zero]
  · rw [get_set_of_ne hw]
  · by_cases hw : w = n
    · rw [hw, get_set_self hn.ne_zero]
    · rw [get_set_of_ne hw]

theorem modify_parent (hn : s.Live n) (q : Ptr) :
    ∃ s', s.modify n (fun nd ↦ { nd with parent := q }) = some s' ∧ Relinked s s' ∧
      (s'.get n).parent = q ∧ (∀ w ≠ n, (s'.get w).parent = (s.get w).parent) ∧
      ∀ w, (s'.get w).children = (s.get w).children := by
  refine ⟨_, modify_eq hn _, relinked_set hn _ _, ?_, fun w hw ↦ ?_, fun w ↦ ?_⟩
  · rw [get_set_self hn.ne_zero]
  · rw [get_set_of_ne hw]
  · by_cases hw : w = n
    · rw [hw, get_set_self hn.ne_zero]
    · rw [get_set_of_ne hw]

theorem addChild_spec (hn : s.Live n) (hc : s.Live c) :
    ∃ s', s.addChild n c = some s' ∧ Relinked s s' ∧
      (s'.get n).children = (s.get n).children ++ [c] ∧
      (∀ w ≠ n, (s'.get w).children = (s.get w).children) ∧
      (s'.get c).parent = n ∧ ∀ w ≠ c, (s'.get w).parent = (s.get w).parent := by
  obtain ⟨s1, h1, hlink1, hcn1, hcs1, hp1⟩ := modify_children hn fun cs ↦ cs ++ [c]
  obtain ⟨s2, h2, hlink2, hp, hps, hcs2⟩ := modify_parent (hlink1.live c hc) n
  refine ⟨s2, ?_, hlink1.trans hlink2, ?_, fun w hw ↦ ?_, hp, fun w hw ↦ ?_⟩
  · rw [addChild, h1]
    exact h2
  · rw [hcs2, hcn1]
  · rw [hcs2, hcs1 w hw]
  · rw [hps w hw, hp1]

theorem replaceChild_spec (hp : s.Live p) (ha : s.Live a) (hmem : n ∈ (s.get p).children) :
    ∃ s', s.replaceChild p n a = some s' ∧ Relinked s s' ∧
      (s'.get p).children = (s.get p).children.map (fun c ↦ if c = n then a else c) ∧
      (∀ w ≠ p, (s'.get w).children = (s.get w).children) ∧
      (s'.get a).parent = p ∧ ∀ w ≠ a, (s'.get w).parent = (s.get w).parent := by
  obtain ⟨s1, h1, hlink1, hcp1, hcs1, hp1⟩ :=
    modify_children hp fun cs ↦ cs.map fun c ↦ if c = n then a else c
  obtain ⟨s2, h2, hlink2, hpa, hps, hcs2⟩ := modify_parent (hlink1.live a ha) p
  refine ⟨s2, ?_, hlink1.trans hlink2, ?_, fun w hw ↦ ?_, hpa, fun w hw ↦ ?_⟩
  · have hread : s.heap.read p = some (s.get p) := hp
    simp only [replaceChild, hread, bind_eq_bind, bind_some, if_pos hmem, h1]
    exact h2
  · rw [hcs2, hcp1]
  · rw [hcs2, hcs1 w hw]
  · rw [hps w hw, hp1]

structure Loose (s : Trie V) (N : Set Ptr) (a : Ptr) : Prop where
  notMem : a ∉ N
  live : s.Live a
  leaf : (s.get a).children = []
  prefixlen : (s.get a).prefixlen = (s.word a).length
  short : (s.word a).length < wordSize

theorem Nodes.of_relinked (h : Nodes s N) (ha : Loose s N a) (hlink : Relinked s s')
    (hlinked : Linked s' (insert a N)) : Nodes s' (insert a N) where
  live n hn := hlink.live n (hn.elim (fun hna ↦ hna ▸ ha.live) (h.live n))
  root_mem := hlink.root ▸ Set.mem_insert_of_mem a h.root_mem
  root_word := by rw [hlink.word, hlink.root, h.root_word]
  root_value := by rw [hlink.root, hlink.value, h.root_value]
  prefixlen n hn := by
    rw [hlink.word, hlink.prefixlen]
    rcases hn with rfl | hn
    · exact ha.prefixlen
    · exact h.prefixlen n hn
  short n hn := by
    rw [hlink.word]
    rcases hn with rfl | hn
    · exact ha.short
    · exact h.short n hn
  linked := hlinked

/-- A node is allocated. -/
theorem Nodes.alloc (h : Nodes s N) (ha : a ≠ 0) (hfree : s.heap.read a = none) (nd : Node V)
    (hleaf : nd.children = []) (hlen : nd.prefixlen = nd.pfx.length)
    (hshort : nd.pfx.length < wordSize) : Kept s (s.set a nd) N ∧ Loose (s.set a nd) N a := by
  have hself : (s.set a nd).get a = nd := get_set_self ha
  have hne : ∀ n ∈ N, n ≠ a := by
    rintro n hn rfl
    exact h.notMem hfree hn
  have hget : ∀ n ∈ N, (s.set a nd).get n = s.get n := fun n hn ↦ get_set_of_ne (hne n hn)
  refine ⟨⟨rfl, fun n hn ↦ (h.live n hn).congr (read_set_of_ne (hne n hn)), fun n hn ↦ ?_,
    fun n hn ↦ ?_, fun n hn ↦ ?_, fun n hn ↦ ?_, ?_⟩,
    h.notMem hfree, live_of_read (read_set_self ha), ?_, ?_, ?_⟩
  · rw [word, hget n hn, word]
  · rw [hget n hn]
  · rw [hget n hn]
  · rw [hget n hn]
  · rw [hget _ h.root_mem, h.root_value]
  · rw [hself, hleaf]
  · rw [word, hself, hlen]
  · rwa [word, hself]

theorem Linked.hang (h : Linked s N) (hn : n ∈ N) (ha : a ∉ N) (hca : (s'.get a).children = [])
    (hcn : (s'.get n).children = (s.get n).children ++ [a])
    (hcs : ∀ w ≠ n, (s'.get w).children = (s.get w).children) (hpa : (s'.get a).parent = n)
    (hps : ∀ w ≠ a, (s'.get w).parent = (s.get w).parent) : Linked s' (insert a N) := by
  have hold : ∀ w ∈ N, ∀ c ∈ (s.get w).children, c ∈ insert a N ∧ (s'.get c).parent = w := by
    intro w hw c hc
    obtain ⟨hcN, hparent⟩ := h w hw c hc
    have hca : c ≠ a := by
      rintro rfl
      exact ha hcN
    exact ⟨.inr hcN, by rw [hps c hca, hparent]⟩
  rintro w (rfl | hw) c hc
  · rw [hca] at hc
    exact absurd hc not_mem_nil
  by_cases hwn : w = n
  · subst hwn
    rw [hcn, mem_append, mem_singleton] at hc
    rcases hc with hc | rfl
    · exact hold w hw c hc
    · exact ⟨.inl rfl, hpa⟩
  · rw [hcs w hwn] at hc
    exact hold w hw c hc

theorem Linked.wedge (h : Linked s N) (hn : n ∈ N) (ha : a ∉ N) (hca : (s'.get a).children = [n])
    (hcp : (s'.get p).children = (s.get p).children.map (fun c ↦ if c = n then a else c))
    (hcs : ∀ w ≠ p, w ≠ a → (s'.get w).children = (s.get w).children) (hp : (s.get n).parent = p)
    (hpa : (s'.get a).parent = p) (hpn : (s'.get n).parent = a)
    (hps : ∀ w ≠ a, w ≠ n → (s'.get w).parent = (s.get w).parent) : Linked s' (insert a N) := by
  have hne : ∀ {w}, w ∈ N → w ≠ a := by
    rintro w hw rfl
    exact ha hw
  have hold : ∀ w ∈ N, ∀ c ∈ (s.get w).children, c ≠ n →
      c ∈ insert a N ∧ (s'.get c).parent = w := by
    intro w hw c hc hcn
    obtain ⟨hcN, hparent⟩ := h w hw c hc
    exact ⟨.inr hcN, by rw [hps c (hne hcN) hcn, hparent]⟩
  rintro w (rfl | hw) c hc
  · rw [hca, mem_singleton] at hc
    exact ⟨.inr (hc ▸ hn), hc ▸ hpn⟩
  by_cases hwp : w = p
  · subst hwp
    rw [hcp, List.mem_map] at hc
    obtain ⟨c', hc', rfl⟩ := hc
    split
    next => exact ⟨.inl rfl, hpa⟩
    next hcn => exact hold w hw c' hc' hcn
  · rw [hcs w hwp (hne hw)] at hc
    refine hold w hw c hc ?_
    rintro rfl
    exact hwp ((h w hw c hc).2.symm.trans hp)

theorem WF.of_relinked (h : WF s N) (ha : Loose s N a) (hlink : Relinked s s')
    (hmem : Linked s' (insert a N))
    (hblank : ∀ n ∈ insert a N, s.word n = [] → n ≠ s.root → (s'.get n).children = [])
    (hparent : ∀ n ∈ insert a N, s.word n ≠ [] →
      (s'.get n).parent ∈ insert a N ∧ n ∈ (s'.get (s'.get n).parent).children)
    (hfan : ∀ n ∈ insert a N,
      Fan s.word (s.word n) fun c ↦ c ∈ (s'.get n).children ∧ s.word c ≠ []) :
    WF s' (insert a N) where
  toNodes := h.toNodes.of_relinked ha hlink hmem
  blank n hn := by
    rw [hlink.word, hlink.root]
    exact hblank n hn
  parent n hn := by
    rw [hlink.word]
    exact hparent n hn
  fan n hn := by
    have hKid : s'.Kid n = fun c ↦ c ∈ (s'.get n).children ∧ s.word c ≠ [] := by
      funext c
      rw [Kid, hlink.word]
    rw [hKid, hlink.word]
    exact hfan n hn

theorem Loose.fan (ha : Loose s N a) (cs : List Ptr) (hcs : cs = (s.get a).children) :
    Fan s.word (s.word a) fun c ↦ c ∈ cs ∧ s.word c ≠ [] := by
  rw [hcs, ha.leaf]
  exact (Fan.none _ _).congr (fun c hc ↦ not_mem_nil hc.1) fun _ _ ↦ rfl

theorem WF.hang (h : WF s N) (hn : n ∈ N) (ha : Loose s N a) (hn0 : s.word n = [] → n = s.root)
    (hkey : s.word a ≠ [] → s.word n <+: s.word a ∧ s.word n ≠ s.word a ∧
      ∀ c, s.Kid n c → commonLen (s.word c) (s.word a) ≤ (s.word n).length) :
    ∃ s', s.addChild n a = some s' ∧ WF s' (insert a N) ∧ Relinked s s' := by
  have hne : ∀ {w}, w ∈ N → w ≠ a := by
    rintro w hw rfl
    exact ha.notMem hw
  obtain ⟨s', h', hlink, hcn, hcs, hpa, hps⟩ := addChild_spec (h.live n hn) ha.live
  have hca : (s'.get a).children = [] := by rw [hcs a (hne hn).symm, ha.leaf]
  refine ⟨s', h', h.of_relinked ha hlink ?_ ?_ ?_ ?_, hlink⟩
  · exact h.linked.hang hn ha.notMem hca hcn hcs hpa hps
  · rintro w (rfl | hw) hblank hroot
    · exact hca
    · rw [hcs w fun hwn ↦ hroot (hwn ▸ hn0 (hwn ▸ hblank))]
      exact h.blank w hw hblank hroot
  · rintro w (rfl | hw) hword
    · rw [hpa, hcn]
      exact ⟨.inr hn, by simp⟩
    · obtain ⟨hp, hmem⟩ := h.parent w hw hword
      rw [hps w (hne hw)]
      refine ⟨.inr hp, ?_⟩
      by_cases hpn : (s.get w).parent = n
      · rw [hpn, hcn]
        exact mem_append_left _ (hpn ▸ hmem)
      · rwa [hcs _ hpn]
  · rintro w (rfl | hw)
    · exact ha.fan _ (hca.trans ha.leaf.symm)
    by_cases hwn : w = n
    · subst hwn
      rw [hcn]
      by_cases hword : s.word a = []
      · refine (h.fan w hw).congr (fun c hc ↦ ⟨?_, hc.2⟩) fun _ _ ↦ rfl
        rcases mem_append.mp hc.1 with hmem | hmem
        · exact hmem
        · rw [mem_singleton.mp hmem] at hc
          exact absurd hword hc.2
      · obtain ⟨hpre, hstrict, hapart⟩ := hkey hword
        refine ((h.fan w hw).insert hpre hstrict hapart).congr (fun c hc ↦ ?_) fun _ _ ↦ rfl
        rcases mem_append.mp hc.1 with hmem | hmem
        · exact .inl ⟨hmem, hc.2⟩
        · exact .inr (mem_singleton.mp hmem)
    · rw [hcs w hwn]
      exact h.fan w hw

theorem wedge_spec (hp : s.Live (s.get n).parent) (ha : s.Live a) (hn : s.Live n)
    (hmem : n ∈ (s.get (s.get n).parent).children) (hap : a ≠ (s.get n).parent) (han : a ≠ n) :
    ∃ s', s.wedge n a = some s' ∧ Relinked s s' ∧
      (s'.get (s.get n).parent).children =
        (s.get (s.get n).parent).children.map (fun c ↦ if c = n then a else c) ∧
      (s'.get a).children = (s.get a).children ++ [n] ∧
      (∀ w ≠ (s.get n).parent, w ≠ a → (s'.get w).children = (s.get w).children) ∧
      (s'.get a).parent = (s.get n).parent ∧ (s'.get n).parent = a ∧
      ∀ w ≠ a, w ≠ n → (s'.get w).parent = (s.get w).parent := by
  obtain ⟨s1, h1, hlink1, hcp1, hcs1, hpa1, hps1⟩ := replaceChild_spec hp ha hmem
  obtain ⟨s2, h2, hlink2, hca2, hcs2, hpn2, hps2⟩ :=
    addChild_spec (hlink1.live a ha) (hlink1.live n hn)
  refine ⟨s2, ?_, hlink1.trans hlink2, ?_, ?_, fun w hwp hwa ↦ ?_, ?_, hpn2, fun w hwa hwn ↦ ?_⟩
  · have hread : s.heap.read n = some (s.get n) := hn
    simp only [Trie.wedge, hread, bind_eq_bind, bind_some, h1]
    exact h2
  · rw [hcs2 _ hap.symm, hcp1]
  · rw [hca2, hcs1 a hap]
  · rw [hcs2 w hwa, hcs1 w hwp]
  · rw [hps2 a han, hpa1]
  · rw [hps2 w hwn, hps1 w hwa]

theorem WF.wedge (h : WF s N) (hn : n ∈ N) (ha : Loose s N a) (hpre : s.word a <+: s.word n)
    (hstrict : s.word a ≠ s.word n) (hlen : (s.word (s.get n).parent).length < (s.word a).length) :
    ∃ s', s.wedge n a = some s' ∧ WF s' (insert a N) ∧ Relinked s s' ∧ (s'.get a).children = [n] ∧
      ∀ w ∉ insert a N, (s'.get w).children = (s.get w).children := by
  have hne : ∀ {w}, w ∈ N → w ≠ a := by
    rintro w hw rfl
    exact ha.notMem hw
  have hword : s.word n ≠ [] := by
    intro hnil
    rw [hnil, prefix_nil] at hpre
    rw [hpre] at hlen
    exact absurd hlen (Nat.not_lt_zero _)
  obtain ⟨hp, hmem⟩ := h.parent n hn hword
  have hkid : s.Kid (s.get n).parent n := ⟨hmem, hword⟩
  have hpn : (s.get n).parent ≠ n := by
    intro heq
    have hlt := (h.fan _ hp).length_lt hkid
    rw [heq] at hlt
    exact lt_irrefl _ hlt
  obtain ⟨s', h', hlink, hcp, hca, hcs, hpa, hpn', hps⟩ :=
    wedge_spec (h.live _ hp) ha.live (h.live n hn) hmem (hne hp).symm (hne hn).symm
  rw [ha.leaf, nil_append] at hca
  have hout : ∀ w ∉ insert a N, (s'.get w).children = (s.get w).children := by
    intro w hw
    rw [Set.mem_insert_iff, not_or] at hw
    refine hcs w ?_ hw.1
    rintro rfl
    exact hw.2 hp
  refine ⟨s', h', h.of_relinked ha hlink ?_ ?_ ?_ ?_, hlink, hca, hout⟩
  · exact h.linked.wedge hn ha.notMem hca hcp hcs rfl hpa hpn' hps
  · rintro w (rfl | hw) hblank hroot
    · rw [hblank] at hlen
      exact absurd hlen (Nat.not_lt_zero _)
    · have hnil := h.blank w hw hblank hroot
      rw [hcs w ?_ (hne hw), hnil]
      rintro rfl
      simp [hnil] at hmem
  · rintro w (rfl | hw) hword'
    · rw [hpa, hcp, List.mem_map]
      exact ⟨.inr hp, n, hmem, if_pos rfl⟩
    by_cases hwn : w = n
    · subst hwn
      rw [hpn', hca]
      exact ⟨.inl rfl, by simp⟩
    · obtain ⟨hq, hwq⟩ := h.parent w hw hword'
      rw [hps w (hne hw) hwn]
      refine ⟨.inr hq, ?_⟩
      by_cases hqp : (s.get w).parent = (s.get n).parent
      · rw [hqp] at hwq ⊢
        rw [hcp, List.mem_map]
        exact ⟨w, hwq, if_neg hwn⟩
      · rwa [hcs _ hqp (hne hq)]
  · rintro w (rfl | hw)
    · rw [hca]
      refine ((Fan.none s.word (s.word w)).insert hpre hstrict fun c hc ↦ hc.elim).congr
        (fun c hc ↦ .inr (mem_singleton.mp hc.1)) fun _ _ ↦ rfl
    by_cases hwp : w = (s.get n).parent
    · subst hwp
      rw [hcp]
      refine ((h.fan _ hw).replace hkid hpre hlen).congr (fun c hc ↦ ?_) fun _ _ ↦ rfl
      obtain ⟨c', hc', rfl⟩ := mem_map.mp hc.1
      by_cases hcn : c' = n
      · exact .inr (if_pos hcn)
      · rw [if_neg hcn] at hc ⊢
        exact .inl ⟨⟨hc', hc.2⟩, hcn⟩
    · rw [hcs w hwp (hne hw)]
      exact h.fan w hw

end ForgeOS.Trie
