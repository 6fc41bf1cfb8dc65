import ForgeOS.Lib.Fuel
import ForgeOS.Trie.Invariant

/-!
# Searching in a trie

In a trie that is in order, `trie_search` goes on to the first child whose string is a prefix of the
one it looks for, and there is only one such child.
-/

namespace ForgeOS.Trie

open List Str List Option

variable {V : Type} [Zero V] {s s' : Trie V} {n a c p w : Ptr} {N : Set Ptr} {key q : CStr}

omit [Zero V] in
theorem commonprefix_eq : ∀ s1 s2 : CStr, commonprefix s1 s2 = commonLen s1 s2
  | [], _ => by simp [ commonprefix]
  | _ :: _, [] => by simp [ commonprefix]
  | a :: s1, b :: s2 => by simp only [ commonprefix, commonLen, commonprefix_eq s1 s2]

theorem WF.mem_of_below (h : WF s N) (hn : n ∈ N) (hw : Below s.Kid n w) : w ∈ N := by
  induction hw with
  | refl => exact hn
  | tail _ hc ih => exact (h.linked _ ih _ hc.1).1

theorem WF.isRadix (h : WF s N) : IsRadix s.root s.word s.Kid :=
  fun n hn ↦ h.fan n (h.mem_of_below h.root_mem hn)

theorem WF.below (h : WF s N) (hn : n ∈ N) (hword : s.word n ≠ []) : Below s.Kid s.root n := by
  induction hlen : (s.word n).length using Nat.strong_induction_on generalizing n with
  | _ k ih =>
    subst hlen
    obtain ⟨hp, hmem⟩ := h.parent n hn hword
    have hkid : s.Kid (s.get n).parent n := ⟨hmem, hword⟩
    by_cases hpword : s.word (s.get n).parent = []
    · exact .single (h.eq_root hp hpword hkid ▸ hkid)
    · exact (ih _ ((h.fan _ hp).length_lt hkid) hp hpword rfl).tail hkid

theorem WF.absent (h : WF s N) (hn : Below s.Kid s.root n) (hpre : s.word n <+: q)
    (hne : s.word n ≠ q) (hno : ∀ c, s.Kid n c → ¬ s.word c <+: q) : ∀ w ∈ N, s.word w ≠ q := by
  rintro w hw rfl
  have hword : s.word w ≠ [] := by
    intro hnil
    rw [hnil, prefix_nil] at hpre
    exact hne (hpre.trans hnil.symm)
  obtain ⟨c, hc, hcw⟩ := h.isRadix.exists_child hn (h.below hw hword) hpre hne
  exact hno c hc hcw

theorem scan_spec (isExact isCommon : Node V → Prop) [DecidablePred isExact]
    [DecidablePred isCommon] {cs : List Ptr} (hlive : ∀ c ∈ cs, s.Live c) (i : ℕ) :
    (s.scan isExact isCommon cs i = some .none ∧
      ∀ c ∈ cs, ¬ isExact (s.get c) ∧ ¬ isCommon (s.get c)) ∨
    (∃ c ∈ cs, s.scan isExact isCommon cs i = some (.exact c) ∧ isExact (s.get c)) ∨
    ∃ k c, cs[k]? = some c ∧ s.scan isExact isCommon cs i = some (.common (i + k) c) ∧
      ¬ isExact (s.get c) ∧ isCommon (s.get c) := by
  induction cs generalizing i with
  | nil => exact .inl ⟨rfl, by simp⟩
  | cons c cs ih =>
    have hread : s.heap.read c = some (s.get c) := hlive c mem_cons_self
    simp only [scan, hread, bind_eq_bind, bind_some]
    by_cases hexact : isExact (s.get c)
    · exact .inr (.inl ⟨c, mem_cons_self, if_pos hexact, hexact⟩)
    rw [if_neg hexact]
    by_cases hcommon : isCommon (s.get c)
    · exact .inr (.inr ⟨0, c, rfl, if_pos hcommon, hexact, hcommon⟩)
    rw [if_neg hcommon]
    rcases ih (fun d hd ↦ hlive d (mem_cons_of_mem c hd)) (i + 1) with
      ⟨hscan, hnone⟩ | ⟨d, hd, hscan, hd'⟩ | ⟨k, d, hd, hscan, hd'⟩
    · exact .inl ⟨hscan, forall_mem_cons.mpr ⟨⟨hexact, hcommon⟩, hnone⟩⟩
    · exact .inr (.inl ⟨d, mem_cons_of_mem c hd, hscan, hd'⟩)
    · refine .inr (.inr ⟨k + 1, d, hd, ?_, hd'⟩)
      rw [hscan, Nat.add_assoc, Nat.add_comm 1]

theorem strncmp_word (hlen : (s.get c).prefixlen = (s.word c).length)
    (hshort : (s.word c).length < wordSize) (hq : q ≠ []) :
    strncmp q (s.get c).pfx (s.get c).prefixlen = 0 ↔ s.word c ≠ [] ∧ s.word c <+: q := by
  rw [hlen]
  by_cases hnil : s.word c = []
  · have hpfx : (s.get c).pfx = [] := hnil
    rw [hpfx]
    exact iff_of_false (strncmp_nil_ne_zero hq _) fun hand ↦ hand.1 hnil
  · rw [← word, strncmp_length_eq_zero hnil hshort]
    exact ⟨fun hpre ↦ ⟨hnil, hpre⟩, And.right⟩

theorem WF.strncmp_iff (h : WF s N) (hc : c ∈ N) (hq : q ≠ []) :
    strncmp q (s.get c).pfx (s.get c).prefixlen = 0 ↔ s.word c ≠ [] ∧ s.word c <+: q :=
  strncmp_word (h.prefixlen c hc) (h.short c hc) hq

theorem WF.find (h : WF s N) (hn : Below s.Kid s.root n) (hpre : s.word n <+: q)
    (hne : s.word n ≠ q) :
    ∃ p, Returns (fun fuel ↦ find fuel s q n) p ∧
      ((p ∈ N ∧ s.word p = q) ∨ (p = 0 ∧ ∀ w ∈ N, s.word w ≠ q)) := by
  have hq : q ≠ [] := by
    rintro rfl
    exact hne (prefix_nil.mp hpre)
  induction hlen : q.length - (s.word n).length using Nat.strong_induction_on generalizing n with
  | _ k ih =>
    subst hlen
    have hnN := h.mem_of_below h.root_mem hn
    have hread : s.heap.read n = some (s.get n) := h.live n hnN
    have hcN := fun c hc ↦ (h.linked n hnN c hc).1
    rcases scan_spec (fun cd ↦ strcmp q cd.pfx = 0) (fun cd ↦ strncmp q cd.pfx cd.prefixlen = 0)
      (fun c hc ↦ h.live c (hcN c hc)) 0 with
      ⟨hscan, hnone⟩ | ⟨c, hc, hscan, hexact⟩ | ⟨j, c, hc, hscan, hnot, hcommon⟩
    · refine ⟨0, (Returns.of_eq rfl).turn fun fuel ↦ ?_, .inr ⟨rfl, h.absent hn hpre hne ?_⟩⟩
      · simp only [Trie.find, hread, hscan, bind_eq_bind, bind_some]
      · intro c hc hcq
        exact (hnone c hc.1).2 ((h.strncmp_iff (hcN c hc.1) hq).mpr ⟨hc.2, hcq⟩)
    · refine ⟨c, (Returns.of_eq rfl).turn fun fuel ↦ ?_, .inl ⟨hcN c hc, ?_⟩⟩
      · simp only [Trie.find, hread, hscan, bind_eq_bind, bind_some]
      · exact (strcmp_eq_zero.mp hexact).symm
    · have hmem := mem_of_getElem? hc
      obtain ⟨hword, hcq⟩ := (h.strncmp_iff (hcN c hmem) hq).mp hcommon
      have hkid : s.Kid n c := ⟨hmem, hword⟩
      have hlt := (h.fan n hnN).length_lt hkid
      have hle := hcq.length_le
      have hcne : s.word c ≠ q := fun heq ↦ hnot (strcmp_eq_zero.mpr heq.symm)
      obtain ⟨p, hret, hp⟩ := ih (q.length - (s.word c).length) (by omega) (hn.tail hkid)
        hcq hcne rfl
      refine ⟨p, hret.turn fun fuel ↦ ?_, hp⟩
      simp only [Trie.find, hread, hscan, bind_eq_bind, bind_some]

structure Means (s : Trie V) (N : Set Ptr) (m : CStr → V) : Prop where
  value : ∀ n ∈ N, s.word n ≠ [] → m (s.word n) = (s.get n).value
  absent : ∀ q ≠ [], (∀ n ∈ N, s.word n ≠ q) → m q = 0
  nil : m [] = 0

theorem WF.trieSearch {m : CStr → V} (h : WF s N) (hm : Means s N m) (q : CStr) :
    Returns (fun fuel ↦ trieSearch fuel s q) (m q) := by
  by_cases hq : q = []
  · have hread : s.heap.read s.root = some (s.get s.root) := h.live _ h.root_mem
    refine ⟨0, fun fuel _ ↦ ?_⟩
    show Trie.trieSearch fuel s q = _
    rw [Trie.trieSearch, if_pos (strcmp_eq_zero.mpr hq), hread, map_some, h.root_value, hq,
      hm.nil]
  have hne : s.word s.root ≠ q := by
    rw [h.root_word]
    exact Ne.symm hq
  have hpre : s.word s.root <+: q := by
    rw [h.root_word]
    exact nil_prefix
  have hstrcmp : strcmp q [] ≠ 0 := fun h0 ↦ hq (strcmp_eq_zero.mp h0)
  obtain ⟨p, ⟨F, hF⟩, hp⟩ := h.find .refl hpre hne
  refine ⟨F, fun fuel hfuel ↦ ?_⟩
  have hfind : Trie.find fuel s q s.root = some p := hF fuel hfuel
  simp only [Trie.trieSearch, if_neg hstrcmp, hfind, bind_eq_bind, bind_some]
  rcases hp with ⟨hpN, rfl⟩ | ⟨rfl, habsent⟩
  · have hread : s.heap.read p = some (s.get p) := h.live p hpN
    rw [if_pos (h.live p hpN).ne_zero, hread, map_some, hm.value p hpN hq]
  · rw [if_neg (not_not.mpr rfl), hm.absent q hq habsent]

end ForgeOS.Trie
