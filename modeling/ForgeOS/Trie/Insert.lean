import ForgeOS.Trie.Search

/-!
# Insertion into a trie

`trie_insert` goes down the trie with one counter for all levels, so what it follows is child number
`j` of each node.
-/

namespace ForgeOS.Trie

open List Str Option

variable {V : Type}

inductive Aligned (s : Trie V) (key : CStr) (j : ℕ) : Ptr → Prop
  /-- The node has the string. -/
  | here {n : Ptr} {nd : Node V} (hn : s.heap.read n = some nd) (hkey : nd.pfx = key) :
    Aligned s key j n
  /-- Child number `j` has more in common with the string. -/
  | down {n c : Ptr} {nd cd : Node V} (hn : s.heap.read n = some nd) (hj : nd.children[j]? = some c)
    (hc : s.heap.read c = some cd) (hlt : commonprefix nd.pfx key < commonprefix cd.pfx key)
    (hal : Aligned s key j c) : Aligned s key j n
  /-- There is no child number `j`, and no child has more in common with the string. -/
  | last {n : Ptr} {nd : Node V} (hn : s.heap.read n = some nd) (hj : nd.children.length ≤ j)
    (hle : ∀ c ∈ nd.children, ∀ cd, s.heap.read c = some cd →
      commonprefix cd.pfx key ≤ commonprefix nd.pfx key) : Aligned s key j n

/-- The insertion does what it should: the empty string gets the value 0 only, and the children with
the number of the root's child that the string has something in common with are the right ones. -/
def InLine [Zero V] (s : Trie V) (op : Insert V) : Prop :=
  (op.key = [] → op.val = 0) ∧
    ∀ rd, s.heap.read s.root = some rd → ∀ j c cd, rd.children[j]? = some c →
      s.heap.read c = some cd → commonprefix cd.pfx op.key ≠ 0 → Aligned s op.key j c

variable [Zero V] {s s' : Trie V} {n a b c p w : Ptr} {N : Set Ptr} {key q : CStr} {j : ℕ}

structure Spot (s : Trie V) (N : Set Ptr) (key : CStr) (n : Ptr) : Prop where
  mem : n ∈ N
  ne : s.word n ≠ key
  above : n = s.root ∨ (s.word n ≠ [] ∧ s.word (s.get n).parent <+: key ∧
    (s.word (s.get n).parent).length < commonLen (s.word n) key)
  last : ∀ c, s.Kid n c → commonLen (s.word c) key ≤ commonLen (s.word n) key

def Reached (s : Trie V) (N : Set Ptr) (key : CStr) : Place → Prop
  | .found c => c ∈ N ∧ s.word c = key
  | .missing n => Spot s N key n

omit [Zero V] in
theorem drop_of_getElem? {α : Type} {l : List α} {i : ℕ} {x : α} (h : l[i]? = some x) :
    l.drop i = x :: l.drop (i + 1) := by
  obtain ⟨hi, rfl⟩ := List.getElem?_eq_some_iff.mp h
  exact drop_eq_getElem_cons hi

theorem Aligned.descend (h : WF s N) (hal : Aligned s key j n) (hn : n ∈ N) (hne : s.word n ≠ key)
    (hword : s.word n ≠ []) (hpre : s.word (s.get n).parent <+: key)
    (hlt : (s.word (s.get n).parent).length < commonLen (s.word n) key) :
    ∃ r, Returns (fun fuel ↦ descend fuel s key n j) r ∧ Reached s N key r := by
  induction hal with
  | here hread hkey =>
    refine absurd ?_ hne
    rw [word, get_of_read hread, hkey]
  | @down n c nd cd hread hj hread' hmore hal ih =>
    obtain rfl := get_of_read hread
    obtain rfl := get_of_read hread'
    rw [commonprefix_eq, commonprefix_eq] at hmore
    have hmem : c ∈ (s.get n).children := mem_of_getElem? hj
    obtain ⟨hcN, hparent⟩ := h.linked n hn c hmem
    have hpos : commonLen (s.word c) key ≠ 0 := Nat.ne_of_gt (Nat.zero_lt_of_lt hmore)
    have hcword : s.word c ≠ [] := by
      intro hnil
      simp [hnil] at hpos
    have hnpre : s.word n <+: key :=
      prefix_of_commonLen_lt ((h.fan n hn).strict c ⟨hmem, hcword⟩).1 hmore
    by_cases hexact : s.word c = key
    · refine ⟨.found c, (Returns.of_eq rfl).turn fun fuel ↦ ?_, hcN, hexact⟩
      have hscan : strcmp (s.get c).pfx key = 0 := strcmp_eq_zero.mpr hexact
      simp only [Trie.descend, hread, drop_of_getElem? hj, scan, hread', bind_eq_bind,
        bind_some, if_pos hscan]
    · have hnot : ¬ strcmp (s.get c).pfx key = 0 := fun h0 ↦ hexact (strcmp_eq_zero.mp h0)
      have hcommon : commonprefix (s.get c).pfx key ≠ 0 := by rwa [commonprefix_eq]
      have hlen : commonLen (s.word n) key = (s.word n).length := commonLen_eq_length.mpr hnpre
      obtain ⟨r, hret, hr⟩ := ih hcN hexact hcword (hparent.symm ▸ hnpre)
        (by rw [hparent]; exact hlen ▸ hmore)
      refine ⟨r, hret.turn fun fuel ↦ ?_, hr⟩
      simp only [Trie.descend, hread, drop_of_getElem? hj, scan, hread', bind_eq_bind,
        bind_some, if_neg hnot, if_pos hcommon]
  | @last n nd hread hj hle =>
    obtain rfl := get_of_read hread
    refine ⟨.missing n, (Returns.of_eq rfl).turn fun fuel ↦ ?_, hn, hne,
      .inr ⟨hword, hpre, hlt⟩, ?_⟩
    · simp only [Trie.descend, hread, drop_eq_nil_of_le hj, scan, bind_eq_bind,
        bind_some]
    · intro c hc
      have hcommon := hle c hc.1 _ (h.live c (h.linked n hn c hc.1).1)
      rwa [commonprefix_eq, commonprefix_eq] at hcommon

theorem WF.descend_root (h : WF s N) (key : CStr) :
    (Returns (fun fuel ↦ descend fuel s key s.root 0) (.missing s.root) ∧
      ∀ c ∈ (s.get s.root).children, commonprefix (s.get c).pfx key = 0) ∨
    (∃ c ∈ N, Returns (fun fuel ↦ descend fuel s key s.root 0) (.found c) ∧ s.word c = key) ∨
    ∃ j c, (s.get s.root).children[j]? = some c ∧ commonprefix (s.get c).pfx key ≠ 0 ∧
    s.word c ≠ key ∧
      ∀ r, Returns (fun fuel ↦ descend fuel s key c j) r →
        Returns (fun fuel ↦ descend fuel s key s.root 0) r := by
  have hread : s.heap.read s.root = some (s.get s.root) := h.live _ h.root_mem
  have hcN := fun c hc ↦ (h.linked _ h.root_mem c hc).1
  rcases scan_spec (fun cd ↦ strcmp cd.pfx key = 0) (fun cd ↦ commonprefix cd.pfx key ≠ 0)
    (fun c hc ↦ h.live c (hcN c hc)) 0 with
    ⟨hscan, hnone⟩ | ⟨c, hc, hscan, hexact⟩ | ⟨j, c, hc, hscan, hnot, hcommon⟩
  · refine .inl ⟨(Returns.of_eq rfl).turn fun fuel ↦ ?_, fun c hc ↦ not_not.mp (hnone c hc).2⟩
    simp only [Trie.descend, hread, drop_zero, hscan, bind_eq_bind, bind_some]
  · refine .inr (.inl ⟨c, hcN c hc, (Returns.of_eq rfl).turn fun fuel ↦ ?_, strcmp_eq_zero.mp hexact⟩)
    simp only [Trie.descend, hread, drop_zero, hscan, bind_eq_bind, bind_some]
  · refine .inr (.inr ⟨j, c, hc, hcommon, fun heq ↦ hnot (strcmp_eq_zero.mpr heq), fun r hret ↦ ?_⟩)
    refine hret.turn fun fuel ↦ ?_
    simp only [Trie.descend, hread, drop_zero, hscan, bind_eq_bind, bind_some,
      Nat.zero_add]

theorem WF.descend (h : WF s N) {op : Insert V} (hline : InLine s op) (hkey : op.key ≠ []) :
    ∃ r, Returns (fun fuel ↦ descend fuel s op.key s.root 0) r ∧ Reached s N op.key r := by
  have hread : s.heap.read s.root = some (s.get s.root) := h.live _ h.root_mem
  rcases h.descend_root op.key with ⟨hret, hnone⟩ | ⟨c, hc, hret, hword⟩ | ⟨j, c, hj, hcommon, hne,
    hret⟩
  · refine ⟨_, hret, h.root_mem, ?_, .inl rfl, fun c hc ↦ ?_⟩
    · rw [h.root_word]
      exact hkey.symm
    · have hzero := hnone c hc.1
      rw [commonprefix_eq] at hzero
      rw [word, hzero]
      exact Nat.zero_le _
  · exact ⟨_, hret, hc, hword⟩
  · have hmem : c ∈ (s.get s.root).children := mem_of_getElem? hj
    obtain ⟨hcN, hparent⟩ := h.linked _ h.root_mem c hmem
    have hal := hline.2 _ hread j c _ hj (h.live c hcN) hcommon
    rw [commonprefix_eq] at hcommon
    have hcword : s.word c ≠ [] := by
      intro hnil
      rw [← word, hnil] at hcommon
      simp at hcommon
    obtain ⟨r, hr, hreach⟩ :=
      hal.descend h hcN hne hcword (by rw [hparent, h.root_word]; exact nil_prefix)
      (by rw [hparent, h.root_word]; exact Nat.pos_of_ne_zero hcommon)
    exact ⟨r, hret r hr, hreach⟩

theorem Spot.parent (h : WF s N) (hs : Spot s N key n) (hnot : ¬ s.word n <+: key) :
    s.word n ≠ [] ∧ s.word (s.get n).parent <+: key ∧
      (s.word (s.get n).parent).length < commonLen (s.word n) key := by
  refine hs.above.resolve_left fun hroot ↦ hnot ?_
  rw [hroot, h.root_word]
  exact nil_prefix

theorem Spot.below (h : WF s N) (hs : Spot s N key n) : Below s.Kid s.root n := by
  rcases hs.above with rfl | ⟨hword, -⟩
  · exact .refl
  · exact h.below hs.mem hword

theorem Spot.absent_of_not (h : WF s N) (hs : Spot s N key n) (hnot : ¬ s.word n <+: key)
    (hq : q <+: key) (hlen : (s.word (s.get n).parent).length < q.length) :
    ∀ w ∈ N, s.word w ≠ q := by
  obtain ⟨hword, hpre, hlt⟩ := hs.parent h hnot
  obtain ⟨hp, hmem⟩ := h.parent n hs.mem hword
  have hkid : s.Kid (s.get n).parent n := ⟨hmem, hword⟩
  have hbelow : Below s.Kid s.root (s.get n).parent := by
    by_cases hpword : s.word (s.get n).parent = []
    · rw [h.eq_root hp hpword hkid]
      exact .refl
    · exact h.below hp hpword
  refine h.absent hbelow (prefix_of_prefix_length_le hpre hq hlen.le) ?_ fun c hc hcq ↦ ?_
  · rintro rfl
    exact lt_irrefl _ hlen
  · have hckey := hcq.trans hq
    have hfan := h.fan _ hp
    rw [hfan.unique hc hkid (hfan.lt_of_isPrefix hc hckey) hlt] at hckey
    exact hnot hckey

theorem Spot.absent (h : WF s N) (hs : Spot s N key n) : ∀ w ∈ N, s.word w ≠ key := by
  by_cases hpre : s.word n <+: key
  · refine h.absent (hs.below h) hpre hs.ne fun c hc hck ↦ ?_
    have hlt := (h.fan n hs.mem).lt_of_isPrefix hc hck
    have hle := hs.last c hc
    have hle' := commonLen_le_left (s.word n) key
    omega
  · refine hs.absent_of_not h hpre prefix_rfl ?_
    exact (hs.parent h hpre).2.2.trans_le (commonLen_le_right _ _)

end ForgeOS.Trie
