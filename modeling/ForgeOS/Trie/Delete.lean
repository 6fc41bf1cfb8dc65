import Mathlib.Data.List.Find
import ForgeOS.Trie.Shape

/-!
# Deletion from a trie

`trie_delete` goes to the node that `trie_search` finds (`Found`), gives its children to its parent,
and frees it.

The main result is `trieDelete_iff`.
-/

namespace ForgeOS.Trie

open List Str Relation Option Heap

variable {V : Type}

/-- The string of the child is not empty, and the string that is looked for goes on from it. -/
def leads (s : Trie V) (key : CStr) (c : Ptr) : Bool :=
  (s.heap.read c).elim false fun cd ↦ decide (cd.pfx ≠ [] ∧ cd.pfx <+: key)

def next (s : Trie V) (key : CStr) (n : Ptr) : Option Ptr :=
  (s.heap.read n).bind fun nd ↦ nd.children.find? (s.leads key)

inductive Found (s : Trie V) (key : CStr) : Ptr → Ptr → Prop
  | here {n c : Ptr} {cd : Node V} (hnext : s.next key n = some c) (hc : s.heap.read c = some cd)
    (hkey : cd.pfx = key) : Found s key n c
  | down {n c p : Ptr} {cd : Node V} (hnext : s.next key n = some c)
    (hc : s.heap.read c = some cd) (hkey : cd.pfx ≠ key) (hfound : Found s key c p) :
    Found s key n p

/-- There is nothing to delete, or the node is a leaf and the only child of its parent. -/
def Removable (s : Trie V) (key : CStr) : Prop :=
  key = [] ∨ ∀ p, Found s key s.root p → ∃ cd pd, s.heap.read p = some cd ∧ cd.children = [] ∧
    s.heap.read cd.parent = some pd ∧ pd.children = [p]

variable [Zero V]

/-- **The deletion is right**: it returns, the string is no longer found, all other searches return
what they did before, and no node that has been freed can be reached. -/
def Deletes (s : Trie V) (key : CStr) : Prop :=
  ∃ s', Returns (fun fuel ↦ trieDelete fuel s key) s' ∧
    Returns (fun fuel ↦ trieSearch fuel s' key) 0 ∧
    (∀ q ≠ key, ∃ v, Returns (fun fuel ↦ trieSearch fuel s q) v ∧
      Returns (fun fuel ↦ trieSearch fuel s' q) v) ∧
    ∀ n, s.heap.read n ≠ none → s'.heap.read n = none → ¬ s'.Reachable n

variable {s s' : Trie V} {n a c p w x y : Ptr} {N : Set Ptr} {key q : CStr}

theorem leads_iff (h : s.Live c) : s.leads key c = true ↔ s.word c ≠ [] ∧ s.word c <+: key := by
  have hread : s.heap.read c = some (s.get c) := h
  rw [leads, hread, elim_some, decide_eq_true_iff, word]

theorem next_eq (h : s.Live n) : s.next key n = (s.get n).children.find? (s.leads key) := by
  have hread : s.heap.read n = some (s.get n) := h
  rw [next, hread, bind_some]

omit [Zero V] in
theorem Found.unique (hx : Found s key n x) (hy : Found s key n y) : x = y := by
  induction hx with
  | here hnext hc hkey =>
    cases hy with
    | here hnext' => exact some.inj (hnext.symm.trans hnext')
    | down hnext' hc' hkey' =>
      obtain rfl := some.inj (hnext.symm.trans hnext')
      obtain rfl := some.inj (hc.symm.trans hc')
      exact absurd hkey hkey'
  | down hnext hc hkey _ ih =>
    cases hy with
    | here hnext' hc' hkey' =>
      obtain rfl := some.inj (hnext.symm.trans hnext')
      obtain rfl := some.inj (hc.symm.trans hc')
      exact absurd hkey' hkey
    | down hnext' hc' hkey' hfound' =>
      obtain rfl := some.inj (hnext.symm.trans hnext')
      exact ih hfound'

theorem scan_find? (isExact isCommon : Node V → Prop) [DecidablePred isExact]
    [DecidablePred isCommon] {f : Ptr → Bool} {cs : List Ptr} (hlive : ∀ c ∈ cs, s.Live c)
    (hf : ∀ c ∈ cs, f c = true ↔ isExact (s.get c) ∨ isCommon (s.get c)) (i : ℕ) :
    (cs.find? f = none ∧ s.scan isExact isCommon cs i = some .none) ∨
    ∃ c, cs.find? f = some c ∧
      ((isExact (s.get c) ∧ s.scan isExact isCommon cs i = some (.exact c)) ∨
        (¬ isExact (s.get c) ∧ ∃ j, s.scan isExact isCommon cs i = some (.common j c))) := by
  induction cs generalizing i with
  | nil => exact .inl ⟨rfl, rfl⟩
  | cons c cs ih =>
    have hread : s.heap.read c = some (s.get c) := hlive c mem_cons_self
    have hfc := hf c mem_cons_self
    simp only [scan, hread, bind_eq_bind, bind_some]
    by_cases hexact : isExact (s.get c)
    · exact .inr ⟨c, find?_cons_of_pos (hfc.mpr (.inl hexact)), .inl ⟨hexact, if_pos hexact⟩⟩
    rw [if_neg hexact]
    by_cases hcommon : isCommon (s.get c)
    · exact .inr ⟨c, find?_cons_of_pos (hfc.mpr (.inr hcommon)), .inr ⟨hexact, i, if_pos hcommon⟩⟩
    rw [if_neg hcommon, find?_cons_of_neg fun h ↦ (hfc.mp h).elim hexact hcommon]
    exact ih (fun d hd ↦ hlive d (mem_cons_of_mem c hd)) (fun d hd ↦ hf d (mem_cons_of_mem c hd))
      (i + 1)

namespace Shaped

theorem next_mem (h : Shaped s N) (hn : s.Reachable n) (hnext : s.next key n = some c) :
    c ∈ (s.get n).children := by
  rw [next_eq (h.live n (h.mem_of_reachable hn))] at hnext
  exact mem_of_find?_eq_some hnext

theorem find_turn (h : Shaped s N) (hn : s.Reachable n) (hkey : key ≠ []) :
    (s.next key n = none ∧ ∀ fuel, Trie.find (fuel + 1) s key n = some 0) ∨
    ∃ c, s.next key n = some c ∧
      ((s.word c = key ∧ ∀ fuel, Trie.find (fuel + 1) s key n = some c) ∨
        (s.word c ≠ key ∧ ∀ fuel, Trie.find (fuel + 1) s key n = Trie.find fuel s key c)) := by
  have hnN := h.mem_of_reachable hn
  have hread : s.heap.read n = some (s.get n) := h.live n hnN
  have hcN : ∀ c ∈ (s.get n).children, c ∈ N := fun c hc ↦ (h.linked n hnN c hc).1
  have hleads : ∀ c ∈ (s.get n).children, s.leads key c = true ↔
      strcmp key (s.get c).pfx = 0 ∨ strncmp key (s.get c).pfx (s.get c).prefixlen = 0 := by
    intro c hc
    have hcN := hcN c hc
    rw [leads_iff (h.live c hcN), strncmp_word (h.prefixlen c hcN) (h.short c hcN) hkey]
    refine ⟨.inr, Or.rec (fun hexact ↦ ?_) id⟩
    rw [word, ← strcmp_eq_zero.mp hexact]
    exact ⟨hkey, prefix_rfl⟩
  rw [next_eq (h.live n hnN)]
  rcases scan_find? (fun cd ↦ strcmp key cd.pfx = 0)
    (fun cd ↦ strncmp key cd.pfx cd.prefixlen = 0) (fun c hc ↦ h.live c (hcN c hc)) hleads 0 with
    ⟨hnext, hscan⟩ | ⟨c, hnext, ⟨hexact, hscan⟩ | ⟨hnot, j, hscan⟩⟩
  · refine .inl ⟨hnext, fun fuel ↦ ?_⟩
    simp only [Trie.find, hread, hscan, bind_eq_bind, bind_some]
  · refine .inr ⟨c, hnext, .inl ⟨(strcmp_eq_zero.mp hexact).symm, fun fuel ↦ ?_⟩⟩
    simp only [Trie.find, hread, hscan, bind_eq_bind, bind_some]
  · refine .inr ⟨c, hnext, .inr ⟨fun heq ↦ hnot (strcmp_eq_zero.mpr heq.symm), fun fuel ↦ ?_⟩⟩
    simp only [Trie.find, hread, hscan, bind_eq_bind, bind_some]

theorem of_found (h : Shaped s N) (hfound : Found s key n p) (hn : s.Reachable n) :
    ∃ m, s.Reachable m ∧ p ∈ (s.get m).children ∧ s.word p = key := by
  induction hfound with
  | @here n c cd hnext hc hkey =>
    refine ⟨n, hn, h.next_mem hn hnext, ?_⟩
    rw [word, get_of_read hc, hkey]
  | down hnext _ _ _ ih => exact ih (hn.tail ((h.edge_iff hn).mpr (h.next_mem hn hnext)))

theorem find (h : Shaped s N) (hn : s.Reachable n) (hkey : key ≠ []) :
    (Returns (fun fuel ↦ Trie.find fuel s key n) 0 ∧ ∀ p, ¬ Found s key n p) ∨
      ∃ p, Returns (fun fuel ↦ Trie.find fuel s key n) p ∧ Found s key n p := by
  refine h.induction (P := fun n ↦
    (Returns (fun fuel ↦ Trie.find fuel s key n) 0 ∧ ∀ p, ¬ Found s key n p) ∨
      ∃ p, Returns (fun fuel ↦ Trie.find fuel s key n) p ∧ Found s key n p) (fun n hn ih ↦ ?_) hn
  rcases h.find_turn hn hkey with
    ⟨hnext, hturn⟩ | ⟨c, hnext, ⟨hword, hturn⟩ | ⟨hword, hturn⟩⟩
  · refine .inl ⟨(Returns.of_eq rfl).turn hturn, fun p hfound ↦ ?_⟩
    cases hfound with
    | here hnext' => cases hnext.symm.trans hnext'
    | down hnext' => cases hnext.symm.trans hnext'
  · have hmem := h.next_mem hn hnext
    have hlive := h.live c (h.linked n (h.mem_of_reachable hn) c hmem).1
    exact .inr ⟨c, (Returns.of_eq rfl).turn hturn, .here hnext hlive hword⟩
  · have hmem := h.next_mem hn hnext
    have hlive := h.live c (h.linked n (h.mem_of_reachable hn) c hmem).1
    rcases ih c hmem with ⟨hret, hnone⟩ | ⟨p, hret, hfound⟩
    · refine .inl ⟨hret.turn hturn, fun p hfound ↦ ?_⟩
      cases hfound with
      | here hnext' hc' hkey' =>
        obtain rfl := some.inj (hnext.symm.trans hnext')
        refine hword ?_
        rw [word, get_of_read hc', hkey']
      | down hnext' _ _ hfound' =>
        obtain rfl := some.inj (hnext.symm.trans hnext')
        exact hnone p hfound'
    · exact .inr ⟨p, hret.turn hturn, .down hnext hlive hword hfound⟩

theorem trieSearch_nil (h : Shaped s N) : Returns (fun fuel ↦ trieSearch fuel s []) 0 := by
  have hread : s.heap.read s.root = some (s.get s.root) := h.live _ h.root_mem
  refine ⟨0, fun fuel _ ↦ ?_⟩
  show Trie.trieSearch fuel s [] = _
  rw [Trie.trieSearch, if_pos (strcmp_eq_zero.mpr rfl), hread, map_some, h.root_value]

theorem trieSearch (h : Shaped s N) (hkey : key ≠ []) :
    (Returns (fun fuel ↦ trieSearch fuel s key) 0 ∧ ∀ p, ¬ Found s key s.root p) ∨
      ∃ p, Returns (fun fuel ↦ trieSearch fuel s key) (s.get p).value ∧ Found s key s.root p := by
  have hstrcmp : strcmp key [] ≠ 0 := fun h0 ↦ hkey (strcmp_eq_zero.mp h0)
  rcases h.find .refl hkey with ⟨⟨F, hF⟩, hnone⟩ | ⟨p, ⟨F, hF⟩, hfound⟩
  · refine .inl ⟨⟨F, fun fuel hfuel ↦ ?_⟩, hnone⟩
    have hfind : Trie.find fuel s key s.root = some 0 := hF fuel hfuel
    simp only [Trie.trieSearch, if_neg hstrcmp, hfind, bind_eq_bind, bind_some, ne_eq,
      not_true_eq_false, if_false]
  · refine .inr ⟨p, ⟨F, fun fuel hfuel ↦ ?_⟩, hfound⟩
    have hfind : Trie.find fuel s key s.root = some p := hF fuel hfuel
    obtain ⟨m, hm, hmem, -⟩ := h.of_found hfound .refl
    have hread : s.heap.read p = some (s.get p) :=
      h.live p (h.linked m (h.mem_of_reachable hm) p hmem).1
    simp only [Trie.trieSearch, if_neg hstrcmp, hfind, bind_eq_bind, bind_some,
      if_pos (ne_zero_of_read hread), hread, map_some]

end Shaped

/-! ## Removing a node -/

theorem moveChildren_spec (hp : s.Live p) (hpar : s.Live (s.get p).parent)
    (hne : (s.get p).parent ≠ p) (hc : ∀ c ∈ (s.get p).children, s.Live c ∧ c ≠ p) (i : ℕ) :
    ∃ s', Returns (fun fuel ↦ moveChildren fuel s p i) s' ∧ Relinked s s' ∧
      (s'.get (s.get p).parent).children =
        (s.get (s.get p).parent).children ++ (s.get p).children.drop i ∧
      (∀ w ≠ (s.get p).parent, (s'.get w).children = (s.get w).children) ∧
      (s'.get p).parent = (s.get p).parent := by
  induction hk : (s.get p).children.length - i generalizing s i with
  | zero =>
    have hle : (s.get p).children.length ≤ i := by omega
    have hread : s.heap.read p = some (s.get p) := hp
    refine ⟨s, (Returns.of_eq rfl).turn fun fuel ↦ ?_,
      ⟨rfl, fun _ hw ↦ hw, fun _ ↦ rfl, fun _ ↦ rfl, fun _ ↦ rfl⟩, ?_, fun _ _ ↦ rfl, rfl⟩
    · simp only [moveChildren, hread, bind_eq_bind, bind_some,
        getElem?_eq_none_iff.mpr hle]
    · rw [drop_eq_nil_of_le hle, append_nil]
  | succ k ih =>
    have hlt : i < (s.get p).children.length := by omega
    have hread : s.heap.read p = some (s.get p) := hp
    have hget : (s.get p).children[i]? = some (s.get p).children[i] := getElem?_eq_getElem hlt
    obtain ⟨hlive, hcp⟩ := hc _ (getElem_mem hlt)
    obtain ⟨s1, h1, hlink1, hcs1, hcw1, -, hps1⟩ := addChild_spec hpar hlive
    have hchildren : (s1.get p).children = (s.get p).children := hcw1 p hne.symm
    have hparent : (s1.get p).parent = (s.get p).parent := hps1 p hcp.symm
    obtain ⟨s', hret, hlink, hcs, hcw, hp'⟩ := ih (s := s1) (hlink1.live p hp)
      (hparent ▸ hlink1.live _ hpar) (hparent ▸ hne)
      (fun c hmem ↦ ⟨hlink1.live c (hc c (hchildren ▸ hmem)).1, (hc c (hchildren ▸ hmem)).2⟩)
      (i + 1) (by rw [hchildren]; omega)
    refine ⟨s', hret.turn fun fuel ↦ ?_, hlink1.trans hlink, ?_, fun w hw ↦ ?_, hp'.trans hparent⟩
    · simp only [moveChildren, hread, bind_eq_bind, bind_some, hget, h1]
    · rw [hparent] at hcs
      rw [hcs, hcs1, hchildren, drop_eq_getElem_cons hlt, append_assoc, singleton_append]
    · rw [hcw w (hparent ▸ hw), hcw1 w hw]

theorem dropNode_kept (hp : s.Live p) (hpar : s.Live (s.get p).parent)
    (hlen : (s.get (s.get p).parent).children.length > 1) :
    ∃ s', s.dropNode p = some s' ∧ s'.root = s.root ∧ s'.heap.read p = none ∧
      ∀ w ≠ p, s'.heap.read w = s.heap.read w := by
  have hread : s.heap.read p = some (s.get p) := hp
  have hread' : s.heap.read (s.get p).parent = some (s.get (s.get p).parent) := hpar
  let s1 := s.set p { s.get p with isvalue := false, value := 0 }
  have hfree : s1.heap.free p = some (s1.heap.erase p) := free_eq (read_set_self hp.ne_zero)
  refine ⟨{ s1 with heap := s1.heap.erase p }, ?_, rfl, read_erase_self, fun w hw ↦ ?_⟩
  · simp only [dropNode, hread, hread', bind_eq_bind, bind_some, if_pos hlen,
      modify_eq hp]
    rw [hfree, bind_some]
  · exact (read_erase_of_ne hw).trans (read_set_of_ne hw)

structure Removed (s s' : Trie V) (p : Ptr) : Prop where
  root : s'.root = s.root
  freed : s'.heap.read p = none
  parent : s'.heap.read (s.get p).parent = some { s.get (s.get p).parent with children := [] }
  same : ∀ w ≠ p, w ≠ (s.get p).parent → s'.heap.read w = s.heap.read w

theorem dropNode_removed (hp : s.Live p) (hpar : s.Live (s.get p).parent)
    (hne : (s.get p).parent ≠ p) (hlen : ¬ (s.get (s.get p).parent).children.length > 1) :
    ∃ s', s.dropNode p = some s' ∧ Removed s s' p := by
  have hread : s.heap.read p = some (s.get p) := hp
  have hread' : s.heap.read (s.get p).parent = some (s.get (s.get p).parent) := hpar
  let s1 := s.set (s.get p).parent { s.get (s.get p).parent with children := [] }
  have hfree : s1.heap.free p = some (s1.heap.erase p) :=
    free_eq ((read_set_of_ne hne.symm).trans hread)
  refine ⟨{ s1 with heap := s1.heap.erase p }, ?_, rfl, read_erase_self, ?_, fun w hw hwp ↦ ?_⟩
  · simp only [dropNode, hread, hread', bind_eq_bind, bind_some, if_neg hlen,
      modify_eq hpar]
    rw [hfree, bind_some]
  · exact (read_erase_of_ne hne).trans (read_set_self hpar.ne_zero)
  · exact (read_erase_of_ne hw).trans (read_set_of_ne hwp)

theorem moveChildren_leaf (hp : s.Live p) (hleaf : (s.get p).children = []) :
    Returns (fun fuel ↦ moveChildren fuel s p 0) s := by
  have hread : s.heap.read p = some (s.get p) := hp
  refine (Returns.of_eq rfl).turn fun fuel ↦ ?_
  simp only [moveChildren, hread, bind_eq_bind, bind_some, hleaf, getElem?_nil]

namespace Shaped

theorem ne_of_edge (h : Shaped s N) (hn : s.Reachable n) (hc : s.Edge n c) : c ≠ n := by
  rintro rfl
  exact h.arbor.acyclic hn (.single hc)

theorem parent_of_found (h : Shaped s N) (hfound : Found s key s.root p) :
    p ∈ N ∧ s.Reachable (s.get p).parent ∧ s.Edge (s.get p).parent p ∧ s.word p = key := by
  obtain ⟨m, hm, hmem, hword⟩ := h.of_found hfound .refl
  obtain ⟨hpN, rfl⟩ := h.linked m (h.mem_of_reachable hm) p hmem
  exact ⟨hpN, hm, (h.edge_iff hm).mpr hmem, hword⟩

theorem trieDelete_of_found (h : Shaped s N) (hkey : key ≠ []) (hfound : Found s key s.root p)
    {s1 : Trie V} (hmove : Returns (fun fuel ↦ moveChildren fuel s p 0) s1)
    (hdrop : s1.dropNode p = some s') : Returns (fun fuel ↦ trieDelete fuel s key) s' := by
  have hstrcmp : strcmp key [] ≠ 0 := fun h0 ↦ hkey (strcmp_eq_zero.mp h0)
  have hp := h.live p (h.parent_of_found hfound).1
  obtain ⟨F, hF⟩ := hmove
  rcases h.find .refl hkey with ⟨-, hnone⟩ | ⟨p', ⟨F', hF'⟩, hfound'⟩
  · exact absurd hfound (hnone p)
  obtain rfl := hfound.unique hfound'
  refine ⟨max F F', fun fuel hfuel ↦ ?_⟩
  have hfind : Trie.find fuel s key s.root = some p := hF' fuel (by omega)
  have hmove : moveChildren fuel s p 0 = some s1 := hF fuel (by omega)
  simp only [Trie.trieDelete, if_neg hstrcmp, hfind, bind_eq_bind, bind_some,
    if_pos hp.ne_zero, hmove, hdrop]

theorem reachable_of_kept (h : Shaped s N) (hkey : key ≠ []) (hfound : Found s key s.root p)
    (hnot : ¬ ((s.get p).children = [] ∧ (s.get (s.get p).parent).children = [p])) :
    ∃ s', Returns (fun fuel ↦ trieDelete fuel s key) s' ∧ s.heap.read p ≠ none ∧
      s'.heap.read p = none ∧ s'.Reachable p := by
  obtain ⟨hpN, hm, hedge, -⟩ := h.parent_of_found hfound
  have hmN := h.mem_of_reachable hm
  have hmem := (h.edge_iff hm).mp hedge
  have hne := h.ne_of_edge hm hedge
  obtain ⟨s1, hmove, hlink, hcs, hcw, hp1⟩ := moveChildren_spec (h.live p hpN) (h.live _ hmN) hne.symm
    (fun c hc ↦ ⟨h.live c (h.linked p hpN c hc).1,
      h.ne_of_edge (hm.tail hedge) ((h.live p hpN).edge_iff.mpr hc)⟩) 0
  rw [drop_zero] at hcs
  have hlen : (s1.get (s1.get p).parent).children.length > 1 := by
    rw [hp1, hcs, length_append]
    by_contra hle
    refine hnot ?_
    obtain ⟨l, r, heq⟩ := append_of_mem hmem
    rw [heq, length_append, length_cons] at hle
    have hl : l = [] := eq_nil_of_length_eq_zero (by omega)
    have hr : r = [] := eq_nil_of_length_eq_zero (by omega)
    exact ⟨eq_nil_of_length_eq_zero (by omega), by rw [heq, hl, hr, nil_append]⟩
  have hlive1 := hlink.live p (h.live p hpN)
  obtain ⟨s', hdrop, hroot, hread, hsame⟩ :=
    dropNode_kept hlive1 (hp1 ▸ hlink.live _ (h.live _ hmN)) hlen
  have hread0 : s.heap.read p = some (s.get p) := h.live p hpN
  refine ⟨s', h.trieDelete_of_found hkey hfound hmove hdrop, by simp [hread0], hread, ?_⟩
  -- The way from the root to the parent does not go through the node itself.
  have hkept : ∀ w c, s.Reachable w → w ≠ p → s.Edge w c → s'.Edge w c := by
    intro w c hw hwp hc
    have hlive := hlink.live w (h.live w (h.mem_of_reachable hw))
    refine ⟨s1.get w, (hsame w hwp).trans hlive, ?_⟩
    have hmem := (h.edge_iff hw).mp hc
    by_cases hwm : w = (s.get p).parent
    · rw [hwm, hcs]
      exact mem_append_left _ (hwm ▸ hmem)
    · rwa [hcw w hwm]
  have hway : ∀ w, s.Reachable w → ReflTransGen s.Edge w (s.get p).parent → s'.Reachable w := by
    intro w hw
    induction hw with
    | refl =>
      intro _
      rw [← hlink.root, ← hroot]
      exact .refl
    | @tail w c hw hc ih =>
      intro hbelow
      refine (ih (.head hc hbelow)).tail (hkept w c hw ?_ hc)
      rintro rfl
      exact h.arbor.not_above hm hedge (.head hc hbelow)
  exact (hway _ hm .refl).tail (hkept _ p hm hne.symm hedge)

end Shaped

namespace Removed

theorem get_parent (hr : Removed s s' p) :
    s'.get (s.get p).parent = { s.get (s.get p).parent with children := [] } :=
  get_of_read hr.parent

theorem fields (hr : Removed s s' p) (hw : w ≠ p) :
    (s'.get w).pfx = (s.get w).pfx ∧ (s'.get w).prefixlen = (s.get w).prefixlen ∧
      (s'.get w).value = (s.get w).value ∧ (s'.get w).parent = (s.get w).parent := by
  by_cases hwp : w = (s.get p).parent
  · rw [hwp, hr.get_parent]
    exact ⟨rfl, rfl, rfl, rfl⟩
  · rw [get_congr (hr.same w hw hwp)]
    exact ⟨rfl, rfl, rfl, rfl⟩

theorem children (hr : Removed s s' p) (hw : w ≠ p) (hwp : w ≠ (s.get p).parent) :
    (s'.get w).children = (s.get w).children := by
  rw [get_congr (hr.same w hw hwp)]

theorem children_parent (hr : Removed s s' p) : (s'.get (s.get p).parent).children = [] := by
  rw [hr.get_parent]

theorem live (hr : Removed s s' p) (hw : w ≠ p) (h : s.Live w) : s'.Live w := by
  by_cases hwp : w = (s.get p).parent
  · exact live_of_read (hwp ▸ hr.parent)
  · exact h.congr (hr.same w hw hwp)

theorem leads (hr : Removed s s' p) (hc : c ≠ p) (h : s.Live c) : s'.leads q c = s.leads q c := by
  rw [Bool.eq_iff_iff, leads_iff h, leads_iff (hr.live hc h), word, word, (hr.fields hc).1]

end Removed

namespace Shaped

theorem removed (h : Shaped s N) (hp : s.Reachable (s.get p).parent)
    (hedge : s.Edge (s.get p).parent p) (hr : Removed s s' p) : Shaped s' (N \ {p}) := by
  have hroot : s.root ≠ p := by
    rintro rfl
    exact h.arbor.top _ hp hedge
  have hmem : ∀ n ∈ N \ {p}, ∀ c ∈ (s'.get n).children, n ≠ (s.get p).parent ∧
      c ∈ (s.get n).children := by
    intro n hn c hc
    have hnp : n ≠ (s.get p).parent := by
      rintro rfl
      rw [hr.children_parent] at hc
      exact absurd hc not_mem_nil
    rw [hr.children hn.2 hnp] at hc
    exact ⟨hnp, hc⟩
  refine ⟨⟨fun n hn ↦ hr.live hn.2 (h.live n hn.1), ?_, ?_, ?_, fun n hn ↦ ?_, fun n hn ↦ ?_,
    fun n hn c hc ↦ ?_⟩, fun n hn hc ↦ ?_, fun n hn ↦ ?_, h.finite.subset Set.sdiff_subset⟩
  · rw [hr.root]
    exact ⟨h.root_mem, hroot⟩
  · rw [hr.root, word, (hr.fields hroot).1]
    exact h.root_word
  · rw [hr.root, (hr.fields hroot).2.2.1, h.root_value]
  · rw [(hr.fields hn.2).2.1, word, (hr.fields hn.2).1]
    exact h.prefixlen n hn.1
  · rw [word, (hr.fields hn.2).1]
    exact h.short n hn.1
  · obtain ⟨hnp, hc⟩ := hmem n hn c hc
    obtain ⟨hcN, hparent⟩ := h.linked n hn.1 c hc
    have hcp : c ≠ p := by
      rintro rfl
      exact hnp hparent.symm
    exact ⟨⟨hcN, hcp⟩, by rw [(hr.fields hcp).2.2.2, hparent]⟩
  · rw [hr.root] at hc
    exact h.top n hn.1 (hmem n hn _ hc).2
  · by_cases hnp : n = (s.get p).parent
    · rw [hnp, hr.children_parent]
      exact nodup_nil
    · rw [hr.children hn.2 hnp]
      exact h.nodup n hn.1

theorem next_removed (h : Shaped s N) (hr : Removed s s' p) (hn : s.Reachable n) (hnp : n ≠ p)
    (hne : n ≠ (s.get p).parent) : s'.next q n = s.next q n := by
  have hnN := h.mem_of_reachable hn
  have hlive := h.live n hnN
  rw [next_eq hlive, next_eq (hr.live hnp hlive), hr.children hnp hne]
  refine find?_congr fun c hc ↦ ?_
  obtain ⟨hcN, hparent⟩ := h.linked n hnN c hc
  refine hr.leads ?_ (h.live c hcN)
  rintro rfl
  exact hne hparent.symm

theorem found_of_removed (h : Shaped s N) (hr : Removed s s' p) (hfound : Found s' q n x)
    (hn : s.Reachable n) (hnp : n ≠ p) : Found s q n x := by
  have hturn : ∀ {n c}, s.Reachable n → n ≠ p → s'.next q n = some c →
      s.next q n = some c ∧ s.Edge n c ∧ c ≠ p := by
    intro n c hn hnp hnext
    have hnN := h.mem_of_reachable hn
    have hne : n ≠ (s.get p).parent := by
      rintro rfl
      rw [next_eq (hr.live hnp (h.live _ hnN)), hr.children_parent] at hnext
      cases hnext
    rw [h.next_removed hr hn hnp hne] at hnext
    have hmem := h.next_mem hn hnext
    refine ⟨hnext, (h.edge_iff hn).mpr hmem, ?_⟩
    rintro rfl
    exact hne (h.linked n hnN c hmem).2.symm
  induction hfound with
  | @here n c cd hnext hc hkey =>
    obtain ⟨hnext, hedge, hcp⟩ := hturn hn hnp hnext
    refine .here hnext (h.live c (h.mem_of_reachable (hn.tail hedge))) ?_
    rw [← (hr.fields hcp).1, get_of_read hc, hkey]
  | @down n c x cd hnext hc hkey _ ih =>
    obtain ⟨hnext, hedge, hcp⟩ := hturn hn hnp hnext
    refine .down hnext (h.live c (h.mem_of_reachable (hn.tail hedge))) ?_ (ih (hn.tail hedge) hcp)
    rwa [← (hr.fields hcp).1, get_of_read hc]

theorem removed_of_found (h : Shaped s N) (hr : Removed s s' p) (hleaf : (s.get p).children = [])
    (honly : (s.get (s.get p).parent).children = [p]) (hfound : Found s q n x) (hxp : x ≠ p)
    (hn : s.Reachable n) (hnp : n ≠ p) : Found s' q n x := by
  induction hfound with
  | @here n c cd hnext hc hkey =>
    have hmem := h.next_mem hn hnext
    have hne : n ≠ (s.get p).parent := by
      rintro rfl
      rw [honly, mem_singleton] at hmem
      exact hxp hmem
    rw [← h.next_removed hr hn hnp hne] at hnext
    refine .here hnext (hr.live hxp (live_of_read hc)) ?_
    rw [(hr.fields hxp).1, get_of_read hc, hkey]
  | @down n c x cd hnext hc hkey hfound ih =>
    have hmem := h.next_mem hn hnext
    have hcp : c ≠ p := by
      rintro rfl
      -- There is nothing below the leaf.
      have hnone : s.next q c = none := by
        rw [next_eq (live_of_read hc), hleaf, find?_nil]
      cases hfound with
      | here hnext' => cases hnone.symm.trans hnext'
      | down hnext' => cases hnone.symm.trans hnext'
    have hne : n ≠ (s.get p).parent := by
      rintro rfl
      rw [honly, mem_singleton] at hmem
      exact hcp hmem
    rw [← h.next_removed hr hn hnp hne] at hnext
    refine .down hnext (hr.live hcp (live_of_read hc)) ?_
      (ih hxp (hn.tail ((h.edge_iff hn).mpr hmem)) hcp)
    rwa [(hr.fields hcp).1, get_of_read hc]

theorem trieSearch_removed (h : Shaped s N) (hkey : key ≠ []) (hfound : Found s key s.root p)
    (hr : Removed s s' p) (hleaf : (s.get p).children = [])
    (honly : (s.get (s.get p).parent).children = [p]) :
    Returns (fun fuel ↦ Trie.trieSearch fuel s' key) 0 ∧
      ∀ q ≠ key, ∃ v, Returns (fun fuel ↦ Trie.trieSearch fuel s q) v ∧
        Returns (fun fuel ↦ Trie.trieSearch fuel s' q) v := by
  obtain ⟨-, hm, hedge, hword⟩ := h.parent_of_found hfound
  have h' := h.removed hm hedge hr
  have hroot : s.root ≠ p := by
    rintro rfl
    exact h.arbor.top _ hm hedge
  have hback : ∀ {q x}, Found s' q s'.root x → Found s q s.root x := by
    intro q x hx
    rw [hr.root] at hx
    exact h.found_of_removed hr hx .refl hroot
  have hne : ∀ {q x}, Found s' q s'.root x → x ≠ p := by
    rintro q x hx rfl
    exact (h'.parent_of_found hx).1.2 rfl
  refine ⟨?_, fun q hq ↦ ?_⟩
  · rcases h'.trieSearch hkey with ⟨hret, -⟩ | ⟨x, -, hx⟩
    · exact hret
    · exact absurd ((hback hx).unique hfound) (hne hx)
  by_cases hnil : q = []
  · subst hnil
    exact ⟨0, h.trieSearch_nil, h'.trieSearch_nil⟩
  rcases h.trieSearch hnil with ⟨hret, hnone⟩ | ⟨x, hret, hx⟩
  · refine ⟨0, hret, ?_⟩
    rcases h'.trieSearch hnil with ⟨hret', -⟩ | ⟨x, -, hx⟩
    · exact hret'
    · exact absurd (hback hx) (hnone x)
  · have hxp : x ≠ p := by
      rintro rfl
      exact hq ((h.parent_of_found hx).2.2.2.symm.trans hword)
    refine ⟨_, hret, ?_⟩
    have hx' := h.removed_of_found hr hleaf honly hx hxp .refl hroot
    rw [← hr.root] at hx'
    rcases h'.trieSearch hnil with ⟨-, hnone⟩ | ⟨y, hret', hy⟩
    · exact absurd hx' (hnone x)
    · rw [hx'.unique hy, ← (hr.fields (hne hy)).2.2.1]
      exact hret'

theorem trieSearch_returns (h : Shaped s N) (q : CStr) :
    ∃ v, Returns (fun fuel ↦ Trie.trieSearch fuel s q) v := by
  by_cases hq : q = []
  · exact ⟨0, hq ▸ h.trieSearch_nil⟩
  rcases h.trieSearch hq with ⟨hret, -⟩ | ⟨x, hret, -⟩
  · exact ⟨_, hret⟩
  · exact ⟨_, hret⟩

theorem deletes_of_same (h : Shaped s N) (hret : Returns (fun fuel ↦ trieDelete fuel s key) s)
    (hsearch : Returns (fun fuel ↦ Trie.trieSearch fuel s key) 0) : Deletes s key := by
  refine ⟨s, hret, hsearch, fun q _ ↦ ?_, fun n hn hn' ↦ absurd hn' hn⟩
  obtain ⟨v, hv⟩ := h.trieSearch_returns q
  exact ⟨v, hv, hv⟩

theorem deletes_iff (h : Shaped s N) (key : CStr) : Deletes s key ↔ Removable s key := by
  by_cases hkey : key = []
  · subst hkey
    refine iff_of_true (h.deletes_of_same ⟨0, fun fuel _ ↦ ?_⟩ h.trieSearch_nil) (.inl rfl)
    exact if_pos (strcmp_eq_zero.mpr rfl)
  rcases h.find .refl hkey with ⟨⟨F, hF⟩, hnone⟩ | ⟨p, -, hfound⟩
  · refine iff_of_true (h.deletes_of_same ⟨F, fun fuel hfuel ↦ ?_⟩ ?_)
      (.inr fun p hp ↦ absurd hp (hnone p))
    · have hfind : Trie.find fuel s key s.root = some 0 := hF fuel hfuel
      simp only [trieDelete, if_neg fun h0 ↦ hkey (strcmp_eq_zero.mp h0), hfind,
        bind_eq_bind, bind_some, ne_eq, not_true_eq_false, if_false]
    · rcases h.trieSearch hkey with ⟨hret, -⟩ | ⟨x, -, hx⟩
      · exact hret
      · exact absurd hx (hnone x)
  obtain ⟨hpN, hm, hedge, -⟩ := h.parent_of_found hfound
  have hp := h.live p hpN
  have hpar := h.live _ (h.mem_of_reachable hm)
  constructor
  · rintro ⟨s', hret, -, -, hfreed⟩
    refine .inr fun p' hfound' ↦ ?_
    obtain rfl := hfound.unique hfound'
    by_contra hnot
    obtain ⟨s'', hret', hread, hread', hreach⟩ := h.reachable_of_kept hkey hfound fun hand ↦
      hnot ⟨_, _, hp, hand.1, hpar, hand.2⟩
    obtain rfl := hret.unique hret'
    exact hfreed p hread hread' hreach
  · intro hrem
    obtain ⟨cd, pd, hcd, hleaf, hpd, honly⟩ := hrem.resolve_left hkey p hfound
    obtain rfl := get_of_read hcd
    obtain rfl := get_of_read hpd
    obtain ⟨s', hdrop, hr⟩ := dropNode_removed hp hpar (h.ne_of_edge hm hedge).symm
      (by rw [honly]; exact lt_irrefl 1)
    obtain ⟨hsearch, hother⟩ := h.trieSearch_removed hkey hfound hr hleaf honly
    refine ⟨s', h.trieDelete_of_found hkey hfound (moveChildren_leaf hp hleaf) hdrop, hsearch, hother,
      fun n _ hfreed hreach ↦ ?_⟩
    have h' := h.removed hm hedge hr
    have hread : s'.heap.read n = some (s'.get n) := h'.live n (h'.mem_of_reachable hreach)
    rw [hfreed] at hread
    cases hread

end Shaped

/-! ## The outcome -/

/-- **Deletion from every trie that insertions build** is right iff there is nothing to delete, or
the node is a leaf and the only child of its parent. -/
theorem trieDelete_iff {h : Heap Ptr (Node V)} {r : Ptr} (hs : createTrie h r = some s)
    (ops : List (Insert V)) :
    ∃ F, ∀ fuel ≥ F, Run.Guarded (step fuel) Allowed s ops →
      ∃ t, Run.exec (step fuel) s ops = some t ∧ ∀ key, Deletes t key ↔ Removable t key := by
  rcases shaped_of_insertions hs ops with ⟨F, hF⟩ | ⟨t, ⟨F, hF⟩, N, hshape⟩
  · exact ⟨F, fun fuel hfuel hg ↦ absurd hg (hF fuel hfuel)⟩
  · exact ⟨F, fun fuel hfuel _ ↦ ⟨t, hF fuel hfuel, fun key ↦ hshape.deletes_iff key⟩⟩

def nested : List (Insert Ptr) :=
  [⟨0x10, 0x18, ofChars ['h', 'e', 'l', 'l', 'o'], 1⟩,
    ⟨0x20, 0x28, ofChars ['h', 'e', 'l', 'l'], 2⟩]

theorem guarded_nested (n : ℕ) : Run.Guarded (step (n + 8)) Allowed fresh nested := by
  refine .cons ⟨by decide, by decide, by decide, rfl, rfl, by decide⟩ rfl ?_
  exact ⟨⟨by decide, by decide, by decide, rfl, rfl, by decide⟩, fun _ _ ↦ trivial⟩

theorem trieDelete_nested : createTrie empty 8 = some fresh ∧ ∃ F, ∀ fuel ≥ F,
    Run.Guarded (step fuel) Allowed fresh nested ∧
    ∃ t, Run.exec (step fuel) fresh nested = some t ∧
      Deletes t (ofChars ['h', 'e', 'l', 'l', 'o']) := by
  obtain ⟨F, hF⟩ := trieDelete_iff (s := fresh) (h := empty) (r := 8) rfl nested
  refine ⟨rfl, F + 8, fun fuel hfuel ↦ ?_⟩
  obtain ⟨n, rfl⟩ : ∃ n, fuel = n + 8 := ⟨fuel - 8, by omega⟩
  obtain ⟨t, hexec, hiff⟩ := hF (n + 8) (by omega) (guarded_nested n)
  refine ⟨guarded_nested n, t, hexec, (hiff _).mpr (.inr fun p hfound ↦ ?_)⟩
  obtain rfl := some.inj hexec
  cases hfound with
  | here hnext hc hkey =>
    obtain rfl := some.inj hnext
    obtain rfl := some.inj hc
    exact absurd hkey (by decide)
  | down hnext _ _ hfound =>
    obtain rfl := some.inj hnext
    cases hfound with
    | here hnext =>
      obtain rfl := some.inj hnext
      exact ⟨_, _, rfl, rfl, rfl, rfl⟩
    | down hnext hc hkey =>
      obtain rfl := some.inj hnext
      obtain rfl := some.inj hc
      exact absurd rfl hkey

def siblings : List (Insert Ptr) :=
  [⟨0x10, 0x18, ofChars ['a'], 1⟩, ⟨0x20, 0x28, ofChars ['b'], 2⟩]

/-- **After the deletion of "a"** the search for "b" reads its freed node. -/
theorem not_deletes_siblings : createTrie empty 8 = some fresh ∧
    ∀ n, Run.Guarded (step (n + 8)) Allowed fresh siblings ∧
      ∃ t t', Run.exec (step (n + 8)) fresh siblings = some t ∧
        trieDelete (n + 8) t (ofChars ['a']) = some t' ∧
        t.heap.read 0x10 ≠ none ∧ t'.heap.read 0x10 = none ∧ t'.Reachable 0x10 ∧
        trieSearch (n + 8) t (ofChars ['b']) = some 2 ∧
        trieSearch (n + 8) t' (ofChars ['b']) = none := by
  refine ⟨rfl, fun n ↦ ⟨?_, ?_⟩⟩
  · refine .cons ⟨by decide, by decide, by decide, rfl, rfl, by decide⟩ rfl ?_
    exact ⟨⟨by decide, by decide, by decide, rfl, rfl, by decide⟩, fun _ _ ↦ trivial⟩
  · refine ⟨_, _, rfl, rfl, ?_, rfl, .single ⟨_, rfl, ?_⟩, rfl, rfl⟩
    · exact some_ne_none _
    · exact mem_cons_self

end ForgeOS.Trie
