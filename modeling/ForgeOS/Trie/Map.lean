import ForgeOS.Trie.Insert

/-!
# When the trie is a map

After "hello" and "hell", the string "help" has something in common with both; `trie_insert` goes
down to "hello" and puts a new node "hel" there, below "hell", where no search for "help" looks.

The main result is `trieSearch_of_inLine`.
-/

namespace ForgeOS.Trie

open List Str Function Option

variable {V : Type} [Zero V] {s s' : Trie V} {n a b w : Ptr} {N : Set Ptr} {key : CStr} {m : CStr → V}
variable {v : V}

theorem Means.congr (hm : Means s N m) (hword : ∀ n ∈ N, s'.word n = s.word n)
    (hvalue : ∀ n ∈ N, (s'.get n).value = (s.get n).value) : Means s' N m where
  value n hn hne := by
    rw [hword n hn] at hne ⊢
    rw [hvalue n hn, hm.value n hn hne]
  absent q hq hno := hm.absent q hq fun n hn ↦ hword n hn ▸ hno n hn
  nil := hm.nil

theorem Means.relinked (hm : Means s N m) (hlink : Relinked s s') : Means s' N m :=
  hm.congr (fun n _ ↦ hlink.pfx n) fun n _ ↦ hlink.value n

theorem Means.add (hm : Means s N m) (ha : s.word a ≠ []) (hnew : ∀ n ∈ N, s.word n ≠ s.word a) :
    Means s (insert a N) (update m (s.word a) (s.get a).value) where
  value n hn hne := by
    rcases hn with rfl | hn
    · exact update_self ..
    · rw [update_of_ne (hnew n hn), hm.value n hn hne]
  absent q hq hno := by
    rw [update_of_ne (hno a (.inl rfl)).symm]
    exact hm.absent q hq fun n hn ↦ hno n (.inr hn)
  nil := by rw [update_of_ne ha.symm, hm.nil]

theorem Means.add_blank (hm : Means s N m) (ha : s.word a = []) : Means s (insert a N) m where
  value n hn hne := by
    rcases hn with rfl | hn
    · exact absurd ha hne
    · exact hm.value n hn hne
  absent q hq hno := hm.absent q hq fun n hn ↦ hno n (.inr hn)
  nil := hm.nil

def Ok (s : Trie V) (m : CStr → V) : Prop := ∃ N, WF s N ∧ Means s N m

theorem Loose.wedged (ha : Loose s N a) {nd : Node V} (hb : b ≠ 0) (hab : a ≠ b)
    (hlink : Relinked (s.set b nd) s')
    (hout : ∀ w ∉ insert b N, (s'.get w).children = ((s.set b nd).get w).children) :
    Loose s' (insert b N) a := by
  have hget : (s.set b nd).get a = s.get a := get_set_of_ne hab
  have hnotMem : a ∉ insert b N := by
    rw [Set.mem_insert_iff, not_or]
    exact ⟨hab, ha.notMem⟩
  have hword : s'.word a = s.word a := by rw [hlink.word, word, hget, word]
  refine ⟨hnotMem, hlink.live a (ha.live.set hb), ?_, ?_, ?_⟩
  · rw [hout a hnotMem, hget, ha.leaf]
  · rw [hlink.prefixlen, hget, ha.prefixlen, hword]
  · rw [hword]
    exact ha.short

theorem Spot.congr (h : WF s N) (hs : Spot s N key n) (hroot : s'.root = s.root)
    (hread : ∀ w ∈ N, s'.heap.read w = s.heap.read w) : Spot s' N key n := by
  have hget : ∀ w ∈ N, s'.get w = s.get w := fun w hw ↦ get_congr (hread w hw)
  have hword : ∀ w ∈ N, s'.word w = s.word w := fun w hw ↦ by rw [word, hget w hw, word]
  refine ⟨hs.mem, hword n hs.mem ▸ hs.ne, ?_, fun c hc ↦ ?_⟩
  · rcases hs.above with heq | ⟨hne, hpre, hlt⟩
    · exact .inl (heq.trans hroot.symm)
    · have hp := (h.parent n hs.mem hne).1
      refine .inr ?_
      rw [hword n hs.mem, hget n hs.mem, hword _ hp]
      exact ⟨hne, hpre, hlt⟩
  · have hmem := hc.1
    rw [hget n hs.mem] at hmem
    have hcN := (h.linked n hs.mem c hmem).1
    rw [hword c hcN, hword n hs.mem]
    exact hs.last c ⟨hmem, hword c hcN ▸ hc.2⟩

/-! ## Insertion -/

def fork (s : Trie V) (n : Ptr) (key : CStr) : Node V :=
  ⟨strncpy (s.word n) (commonLen (s.word n) key), commonLen (s.word n) key, false, 0, [], 0⟩

theorem fork_pfx (s : Trie V) (n : Ptr) (key : CStr) :
    (s.fork n key).pfx = key.take (commonLen (s.word n) key) :=
  (le_commonLen.mp le_rfl).2.2

theorem length_fork_pfx (s : Trie V) (n : Ptr) (key : CStr) :
    (s.fork n key).pfx.length = commonLen (s.word n) key :=
  length_take_of_le (commonLen_le_left _ _)

theorem link_fork (h : WF s N) (hm : Means s N m) (hs : Spot s N key n) (hb : b ≠ 0)
    (hfree : s.heap.read b = none) (hnot : ¬ s.word n <+: key) :
    ∃ s', (s.set b (s.fork n key)).wedge n b = some s' ∧ WF s' (insert b N) ∧
    Means s' (insert b N) m ∧
      Relinked (s.set b (s.fork n key)) s' ∧ (s'.get b).children = [n] ∧
      ∀ w ∉ insert b N, (s'.get w).children = ((s.set b (s.fork n key)).get w).children := by
  obtain ⟨hword, hppre, hplt⟩ := hs.parent h hnot
  have hp := (h.parent n hs.mem hword).1
  have hlen : commonLen (s.word n) key < (s.word n).length :=
    lt_of_le_of_ne (commonLen_le_left _ _) fun heq ↦ hnot (commonLen_eq_length.mp heq)
  have hstrict : (s.fork n key).pfx ≠ s.word n := by
    intro heq
    have heqlen := length_fork_pfx s n key
    rw [heq] at heqlen
    omega
  obtain ⟨hkept, hb1⟩ := h.alloc hb hfree (s.fork n key) rfl (length_fork_pfx s n key).symm
    (by rw [length_fork_pfx]; exact hlen.trans (h.short n hs.mem))
  have hget1 : ∀ w ∈ N, (s.set b (s.fork n key)).get w = s.get w := by
    intro w hw
    refine get_set_of_ne ?_
    rintro rfl
    exact hb1.notMem hw
  have hword1 := hkept.word
  have hwordb : (s.set b (s.fork n key)).word b = (s.fork n key).pfx := by
    rw [word, get_set_self hb]
  obtain ⟨s', h', hwf, hlink, hchildren, hout⟩ := (h.kept hkept).wedge hs.mem hb1
    (by rw [hwordb, hword1 n hs.mem]; exact take_prefix _ _)
    (by rw [hwordb, hword1 n hs.mem]; exact hstrict)
    (by rw [hwordb, hget1 n hs.mem, hword1 _ hp, length_fork_pfx]; exact hplt)
  refine ⟨s', h', hwf, Means.relinked ?_ hlink, hlink, hchildren, hout⟩
  have habsent : ∀ w ∈ N, s.word w ≠ (s.fork n key).pfx := by
    refine hs.absent_of_not h hnot ?_ ?_
    · rw [fork_pfx]
      exact take_prefix _ _
    · rw [length_fork_pfx]
      exact hplt
  have hne : (s.fork n key).pfx ≠ [] := by
    intro hnil
    have hzero := length_fork_pfx s n key
    rw [hnil, length_nil] at hzero
    omega
  have hm1 : Means (s.set b (s.fork n key)) N m :=
    hm.congr hword1 fun w hw ↦ by rw [hget1 w hw]
  have hm2 := hm1.add (hwordb ▸ hne) fun w hw ↦ by
    rw [hword1 w hw, hwordb]
    exact habsent w hw
  rw [hwordb, get_set_self hb] at hm2
  have hzero : update m (s.fork n key).pfx (s.fork n key).value = m := by
    rw [update_eq_self_iff]
    exact (hm.absent _ hne habsent).symm
  rwa [hzero] at hm2

section Link

variable (h : WF s N) (hm : Means s N m) (hs : Spot s N key n) (ha : Loose s N a)
  (hword : s.word a = key) (hvalue : (s.get a).value = v) (hkey : key ≠ [])

include h hm hs ha hword hvalue hkey

theorem link_below (hpre : s.word n <+: key) :
    ∃ s', s.addChild n a = some s' ∧ Ok s' (update m key v) := by
  have hfan : s.word n <+: s.word a ∧ s.word n ≠ s.word a ∧
      ∀ c, s.Kid n c → commonLen (s.word c) (s.word a) ≤ (s.word n).length := by
    rw [hword]
    exact ⟨hpre, hs.ne, fun c hc ↦ (hs.last c hc).trans (commonLen_le_left _ _)⟩
  obtain ⟨s', h', hwf, hlink⟩ := h.hang hs.mem ha
    (fun hnil ↦ hs.above.resolve_right fun hand ↦ hand.1 hnil) fun _ ↦ hfan
  refine ⟨s', h', insert a N, hwf, Means.relinked ?_ hlink⟩
  rw [← hword, ← hvalue]
  exact hm.add (hword ▸ hkey) fun w hw ↦ hword ▸ hs.absent h w hw

theorem link_above (hnot : ¬ s.word n <+: key) (hpre : key <+: s.word n) :
    ∃ s', s.wedge n a = some s' ∧ Ok s' (update m key v) := by
  have hlen : commonLen (s.word n) key = key.length := by
    rw [commonLen_comm]
    exact commonLen_eq_length.mpr hpre
  obtain ⟨s', h', hwf, hlink, -⟩ := h.wedge hs.mem ha (hword ▸ hpre) (hword ▸ hs.ne.symm)
    (by rw [hword, ← hlen]; exact (hs.parent h hnot).2.2)
  refine ⟨s', h', insert a N, hwf, Means.relinked ?_ hlink⟩
  rw [← hword, ← hvalue]
  exact hm.add (hword ▸ hkey) fun w hw ↦ hword ▸ hs.absent h w hw

theorem link_beside (hb : b ≠ 0) (hfree : s.heap.read b = none) (hnot : ¬ s.word n <+: key)
    (hnot' : ¬ key <+: s.word n) :
    ∃ s1 s', (s.set b (s.fork n key)).wedge n b = some s1 ∧ s1.addChild b a = some s' ∧
      Ok s' (update m key v) := by
  obtain ⟨s1, h1, hwf1, hm1, hlink1, hchildren, hout⟩ := link_fork h hm hs hb hfree hnot
  have hlen : commonLen (s.word n) key < key.length := by
    refine lt_of_le_of_ne (commonLen_le_right _ _) fun heq ↦ hnot' ?_
    rw [commonLen_comm] at heq
    exact commonLen_eq_length.mp heq
  have hab : a ≠ b := by
    rintro rfl
    have hlive : s.heap.read a = some (s.get a) := ha.live
    rw [hfree] at hlive
    cases hlive
  have hgeta : (s.set b (s.fork n key)).get a = s.get a := get_set_of_ne hab
  have hworda : s1.word a = key := by rw [hlink1.word, word, hgeta, ← word, hword]
  have hwordb : s1.word b = (s.fork n key).pfx := by rw [hlink1.word, word, get_set_self hb]
  have hwordN : ∀ w ∈ N, s1.word w = s.word w := by
    intro w hw
    rw [hlink1.word, word, get_set_of_ne, ← word]
    rintro rfl
    exact h.notMem hfree hw
  have ha1 : Loose s1 (insert b N) a := ha.wedged hb hab hlink1 hout
  have hfan : s1.word b <+: s1.word a ∧ s1.word b ≠ s1.word a ∧
      ∀ c, s1.Kid b c → commonLen (s1.word c) (s1.word a) ≤ (s1.word b).length := by
    rw [hworda, hwordb]
    refine ⟨?_, ?_, fun c hc ↦ ?_⟩
    · rw [fork_pfx]
      exact take_prefix _ _
    · intro heq
      rw [← length_fork_pfx, heq] at hlen
      exact lt_irrefl _ hlen
    · have hcn := hc.1
      rw [hchildren, mem_singleton] at hcn
      rw [hcn, hwordN n hs.mem, length_fork_pfx]
  have hnil : s1.word b ≠ [] := by
    intro hnil
    have hzero := length_fork_pfx s n key
    rw [← hwordb, hnil, length_nil] at hzero
    have hpos := (hs.parent h hnot).2.2
    omega
  obtain ⟨s', h', hwf', hlink'⟩ := hwf1.hang (.inl rfl) ha1 (fun h0 ↦ absurd h0 hnil) fun _ ↦ hfan
  refine ⟨s1, s', h1, h', _, hwf', Means.relinked ?_ hlink'⟩
  have hvalue1 : (s1.get a).value = v := by rw [hlink1.value, hgeta, hvalue]
  rw [← hvalue1, ← hworda]
  refine hm1.add (hworda ▸ hkey) ?_
  rintro w (rfl | hw)
  · exact hfan.2.1
  · rw [hwordN w hw, hworda]
    exact hs.absent h w hw

theorem link_ok (hb : b ≠ 0) (hfree : s.heap.read b = none) :
    ∃ s', s.link n a b key key.length = some s' ∧ Ok s' (update m key v) := by
  have hread : s.heap.read n = some (s.get n) := h.live n hs.mem
  have hlt : commonLen (s.word n) key < (s.get n).prefixlen ↔ ¬ s.word n <+: key := by
    rw [h.prefixlen n hs.mem, ← commonLen_eq_length]
    exact ⟨ne_of_lt, lt_of_le_of_ne (commonLen_le_left _ _)⟩
  have heq : commonLen (s.word n) key = key.length ↔ key <+: s.word n := by
    rw [commonLen_comm, commonLen_eq_length]
  have hpfx : (s.get n).pfx = s.word n := rfl
  simp only [link, hread, bind_eq_bind, bind_some, commonprefix_eq, hpfx]
  by_cases hpre : s.word n <+: key
  · rw [if_neg fun h0 ↦ hlt.mp h0 hpre]
    exact link_below h hm hs ha hword hvalue hkey hpre
  rw [if_pos (hlt.mpr hpre)]
  by_cases hpre' : key <+: s.word n
  · rw [if_pos (heq.mpr hpre')]
    exact link_above h hm hs ha hword hvalue hkey hpre hpre'
  · rw [if_neg fun h0 ↦ hpre' (heq.mp h0)]
    obtain ⟨s1, s', h1, h', hok⟩ := link_beside h hm hs ha hword hvalue hkey hb hfree hpre hpre'
    refine ⟨s', ?_, hok⟩
    rw [malloc_eq hb hfree, bind_some]
    show ((s.set b (s.fork n key)).wedge n b).bind (fun s ↦ s.addChild b a) = some s'
    rw [h1]
    exact h'

end Link

def setValue (s : Trie V) (c : Ptr) (v : V) : Trie V :=
  s.set c { s.get c with isvalue := true, value := v }

variable {c : Ptr}

theorem Nodes.kept_setValue (h : Nodes s N) (hc : c ∈ N) (hv : c = s.root → v = 0) :
    Kept s (s.setValue c v) N := by
  have hc0 := (h.live c hc).ne_zero
  refine ⟨rfl, fun w hw ↦ (h.live w hw).set hc0, fun w _ ↦ ?_, fun w _ ↦ ?_, fun w _ ↦ ?_,
    fun w _ ↦ ?_, ?_⟩
  on_goal 5 =>
    by_cases hroot : s.root = c
    · rw [hroot, setValue, get_set_self hc0]
      exact hv hroot.symm
    · rw [setValue, get_set_of_ne hroot, h.root_value]
  all_goals
    by_cases hw : w = c
    · simp only [hw, word, setValue, get_set_self hc0]
    · simp only [word, setValue, get_set_of_ne hw]

theorem WF.kept_setValue (h : WF s N) (hc : c ∈ N) (hv : s.word c = [] → v = 0) :
    Kept s (s.setValue c v) N :=
  h.toNodes.kept_setValue hc fun hroot ↦ hv (hroot ▸ h.root_word)

theorem Means.setValue (h : WF s N) (hm : Means s N m) (hc : c ∈ N)
    (hv : s.word c = [] → v = 0) : Means (s.setValue c v) N (update m (s.word c) v) := by
  have hc0 := (h.live c hc).ne_zero
  have hword := (h.kept_setValue hc hv).word
  refine ⟨fun n hn hne ↦ ?_, fun q hq hno ↦ ?_, ?_⟩
  · rw [hword n hn] at hne ⊢
    by_cases hnc : n = c
    · rw [hnc, update_self, Trie.setValue, get_set_self hc0]
    · have hwne : s.word n ≠ s.word c := by
        intro heq
        exact hnc (h.isRadix.word_injective (h.below hn hne) (h.below hc (heq ▸ hne)) heq)
      rw [update_of_ne hwne, Trie.setValue, get_set_of_ne hnc, hm.value n hn hne]
  · have hqc : q ≠ s.word c := by
      rintro rfl
      exact hno c hc (hword c hc)
    rw [update_of_ne hqc]
    exact hm.absent q hq fun n hn ↦ hword n hn ▸ hno n hn
  · by_cases hnil : s.word c = []
    · rw [hnil, update_self, hv hnil]
    · rw [update_of_ne (Ne.symm hnil), hm.nil]

variable {op : Insert V}

theorem Ok.insert_found (h : WF s N) (hm : Means s N m)
    (hret : Returns (fun fuel ↦ descend fuel s op.key s.root 0) (.found c)) (hc : c ∈ N)
    (hword : s.word c = op.key) (hnil : op.key = [] → op.val = 0) :
    ∃ s', Returns (fun fuel ↦ step fuel s op) s' ∧ Ok s' (update m op.key op.val) := by
  refine ⟨s.setValue c op.val, hret.bind (Returns.of_eq (modify_eq (h.live c hc) _)), N, ?_⟩
  rw [← hword] at hnil ⊢
  exact ⟨h.kept (h.kept_setValue hc hnil), hm.setValue h hc hnil⟩

def Insert.node (op : Insert V) : Node V := ⟨op.key, op.key.length, true, op.val, [], 0⟩

theorem Ok.insert_missing (h : WF s N) (hm : Means s N m) (hop : Allowed s op)
    (hret : Returns (fun fuel ↦ descend fuel s op.key s.root 0) (.missing n))
    (hlink : ∀ s1, WF s1 N → Means s1 N m → s1.root = s.root →
      (∀ w ∈ N, s1.heap.read w = s.heap.read w) → Loose s1 N op.a → s1.word op.a = op.key →
      (s1.get op.a).value = op.val → s1.heap.read op.b = none →
      ∃ s', s1.link n op.a op.b op.key op.key.length = some s' ∧
        Ok s' (update m op.key op.val)) :
    ∃ s', Returns (fun fuel ↦ step fuel s op) s' ∧ Ok s' (update m op.key op.val) := by
  obtain ⟨ha, hb, hab, hfreea, hfreeb, hlen⟩ := hop
  obtain ⟨hkept, hloose⟩ := h.alloc ha hfreea op.node rfl rfl (hlen.trans (by decide))
  have hget : (s.set op.a op.node).get op.a = op.node := get_set_self ha
  have hread : ∀ w ≠ op.a, (s.set op.a op.node).heap.read w = s.heap.read w :=
    fun w hw ↦ read_set_of_ne hw
  have hreadN : ∀ w ∈ N, (s.set op.a op.node).heap.read w = s.heap.read w :=
    fun w hw ↦ hread w fun heq ↦ hloose.notMem (heq ▸ hw)
  have hm1 : Means (s.set op.a op.node) N m :=
    hm.congr hkept.word fun w hw ↦ by rw [get_congr (hreadN w hw)]
  obtain ⟨s', h', hok⟩ := hlink _ (h.kept hkept) hm1 rfl hreadN hloose (congrArg Node.pfx hget)
    (congrArg Node.value hget) ((hread _ hab.symm).trans hfreeb)
  refine ⟨s', hret.bind (Returns.of_eq ?_), hok⟩
  simp only [strlen, if_pos hlen, malloc_eq ha hfreea, bind_eq_bind, bind_some]
  exact h'

/-! ## Whole runs -/

theorem Ok.step (h : Ok s m) (hop : Allowed s op) (hline : InLine s op) :
    ∃ s', Returns (fun fuel ↦ step fuel s op) s' ∧ Ok s' (update m op.key op.val) := by
  obtain ⟨N, hwf, hm⟩ := h
  by_cases hkey : op.key = []
  · -- The empty string: a blank node below the root.
    rcases hwf.descend_root op.key with ⟨hret, -⟩ | ⟨c, hc, hret, hword⟩ | ⟨j, c, -, hcommon, -⟩
    · refine Ok.insert_missing hwf hm hop hret fun s1 hwf1 hm1 hroot _ ha hword hvalue _ ↦ ?_
      obtain ⟨s', h', hwf', hlink⟩ := hwf1.hang hwf1.root_mem ha (fun _ ↦ rfl)
        fun hne ↦ absurd (hword.trans hkey) hne
      have hread : s1.heap.read s1.root = some (s1.get s1.root) := hwf1.live _ hwf1.root_mem
      have hpfx : (s1.get s1.root).pfx = [] := hwf1.root_word
      have hlen : (s1.get s1.root).prefixlen = 0 := by
        rw [hwf1.prefixlen _ hwf1.root_mem, hwf1.root_word, length_nil]
      refine ⟨s', ?_, insert op.a N, hwf', ?_⟩
      · rw [← hroot]
        simp only [link, hread, bind_eq_bind, bind_some, hlen, Nat.not_lt_zero,
          if_false]
        exact h'
      · rw [hkey, hline.1 hkey, update_eq_self_iff.mpr hm.nil.symm]
        exact (hm1.add_blank (hword.trans hkey)).relinked hlink
    · exact Ok.insert_found hwf hm hret hc hword hline.1
    · rw [commonprefix_eq, hkey, commonLen_nil_right] at hcommon
      exact absurd rfl hcommon
  · obtain ⟨r, hret, hreach⟩ := hwf.descend hline hkey
    cases r with
    | found c => exact Ok.insert_found hwf hm hret hreach.1 hreach.2 hline.1
    | missing n =>
      refine Ok.insert_missing hwf hm hop hret fun s1 hwf1 hm1 hroot hread ha hword hvalue hfree ↦ ?_
      exact link_ok hwf1 hm1 (hreach.congr hwf hroot hread) ha hword hvalue hkey hop.2.1 hfree

theorem nodes_createTrie {h : Heap Ptr (Node V)} {r : Ptr} (hs : createTrie h r = some s) :
    s.root = r ∧ s.get r = ⟨[], 0, false, 0, [], 0⟩ ∧ Nodes s {r} := by
  have hr : r ≠ 0 ∧ (h.read r).isNone = true := by
    by_contra hnot
    rw [createTrie, malloc, Heap.alloc, if_neg hnot] at hs
    cases hs
  rw [createTrie, malloc_eq hr.1 (isNone_iff_eq_none.mp hr.2)] at hs
  obtain rfl := some.inj hs
  have hget : (set ⟨r, h⟩ r ⟨[], 0, false, 0, [], 0⟩ : Trie V).get r = ⟨[], 0, false, 0, [], 0⟩ :=
    get_set_self hr.1
  have hword : (set ⟨r, h⟩ r ⟨[], 0, false, 0, [], 0⟩ : Trie V).word r = [] := congrArg Node.pfx hget
  refine ⟨rfl, hget, ?_, rfl, hword, congrArg Node.value hget, ?_, ?_, ?_⟩
  all_goals rintro n rfl
  · exact live_of_read (read_set_self hr.1)
  · rw [hget, hword]
    rfl
  · rw [hword]
    decide
  · simp [hget]

theorem ok_createTrie {h : Heap Ptr (Node V)} {r : Ptr} (hs : createTrie h r = some s) :
    Ok s fun _ ↦ 0 := by
  obtain ⟨rfl, hget, hnodes⟩ := nodes_createTrie hs
  refine ⟨{s.root}, ⟨hnodes, ?_, ?_, ?_⟩, ?_, fun _ _ _ ↦ rfl, rfl⟩
  all_goals rintro n rfl
  · exact fun _ hne ↦ absurd rfl hne
  · exact fun hne ↦ absurd hnodes.root_word hne
  · exact (Fan.none _ _).congr (fun c hc ↦ by simp [Kid, hget] at hc) fun _ _ ↦ rfl
  · exact fun hne ↦ absurd hnodes.root_word hne

def lastInserted (ops : List (Insert V)) : CStr → V :=
  ops.foldl (fun m op ↦ update m op.key op.val) fun _ ↦ 0

/-- **In line, the trie is a map**: a search returns the value of the last insertion, or 0. -/
theorem trieSearch_of_inLine {h : Heap Ptr (Node V)} {r : Ptr} (hs : createTrie h r = some s)
    (ops : List (Insert V)) (q : CStr) :
    ∃ F, ∀ fuel ≥ F,
      Run.Guarded (Trie.step fuel) (fun s op ↦ Allowed s op ∧ InLine s op) s ops →
      ∃ s', Run.exec (Trie.step fuel) s ops = some s' ∧
        trieSearch fuel s' q = some (lastInserted ops q) := by
  have hstep : ∀ (s : Trie V) m op, Ok s m → Allowed s op ∧ InLine s op →
      ∃ s', Returns (fun fuel ↦ Trie.step fuel s op) s' ∧ Ok s' (update m op.key op.val) :=
    fun s m op hok hop ↦ hok.step hop.1 hop.2
  rcases Run.returns_of_guarded hstep (ok_createTrie hs) ops with
    ⟨F, hF⟩ | ⟨s', ⟨F, hF⟩, N, hwf, hm⟩
  · exact ⟨F, fun fuel hfuel hg ↦ absurd hg (hF fuel hfuel)⟩
  · obtain ⟨F', hF'⟩ := hwf.trieSearch hm q
    exact ⟨max F F', fun fuel hfuel _ ↦ ⟨s', hF fuel (by omega), hF' fuel (by omega)⟩⟩

theorem inLine_single {rd : Node V} (hroot : s.heap.read s.root = some rd)
    (hchildren : rd.children = [c]) (hkey : op.key ≠ []) (hal : Aligned s op.key 0 c) :
    InLine s op := by
  refine ⟨fun hnil ↦ absurd hnil hkey, fun rd' hread j c' cd hj _ _ ↦ ?_⟩
  rw [hroot] at hread
  obtain rfl := some.inj hread
  rw [hchildren] at hj
  cases j with
  | zero => exact some.inj hj ▸ hal
  | succ j => simp at hj

def fresh : Trie Ptr := ⟨8, Heap.empty.set 8 ⟨[], 0, false, 0, [], 0⟩⟩

def grove : List (Insert Ptr) :=
  [⟨0x10, 0x18, ofChars ['a', 'b'], 1⟩, ⟨0x20, 0x28, ofChars ['a', 'c'], 2⟩,
    ⟨0x30, 0x38, ofChars ['a'], 3⟩, ⟨0x30, 0x38, ofChars ['a', 'b', 'c'], 4⟩]

theorem guarded_grove (n : ℕ) :
    Run.Guarded (Trie.step (n + 8)) (fun s op ↦ Allowed s op ∧ InLine s op) fresh grove := by
  refine ⟨⟨⟨by decide, by decide, by decide, rfl, rfl, by decide⟩, by decide, fun rd hrd j c cd hj ↦ ?_⟩,
    fun t ht ↦ ?_⟩
  · obtain rfl := some.inj hrd
    simp at hj
  obtain rfl := some.inj ht
  refine ⟨⟨⟨by decide, by decide, by decide, rfl, rfl, by decide⟩, ?_⟩, fun t ht ↦ ?_⟩
  · refine inLine_single rfl rfl (by decide) (.last rfl (Nat.zero_le _) ?_)
    simp
  obtain rfl := some.inj ht
  refine ⟨⟨⟨by decide, by decide, by decide, rfl, rfl, by decide⟩, ?_⟩, fun t ht ↦ ?_⟩
  · exact inLine_single rfl rfl (by decide) (.here rfl rfl)
  obtain rfl := some.inj ht
  refine ⟨⟨⟨by decide, by decide, by decide, rfl, rfl, by decide⟩, ?_⟩, fun t ht ↦ trivial⟩
  refine inLine_single rfl rfl (by decide)
    (.down rfl rfl rfl (by decide) (.last rfl (Nat.zero_le _) ?_))
  simp

theorem trieSearch_grove : createTrie Heap.empty 8 = some fresh ∧ ∃ F, ∀ fuel ≥ F,
    ∃ s', Run.exec (Trie.step fuel) fresh grove = some s' ∧
      trieSearch fuel s' (ofChars ['a', 'c']) = some 2 := by
  refine ⟨rfl, ?_⟩
  obtain ⟨F, hF⟩ := trieSearch_of_inLine (s := fresh) (h := Heap.empty) (r := 8) rfl grove
    (ofChars ['a', 'c'])
  refine ⟨F + 8, fun fuel hfuel ↦ ?_⟩
  obtain ⟨n, rfl⟩ : ∃ n, fuel = n + 8 := ⟨fuel - 8, by omega⟩
  obtain ⟨s', hexec, hsearch⟩ := hF (n + 8) (by omega) (guarded_grove n)
  exact ⟨s', hexec, hsearch.trans (by decide)⟩

def misled : List (Insert Ptr) :=
  [⟨0x10, 0x18, ofChars ['h', 'e', 'l', 'l', 'o'], 1⟩,
    ⟨0x20, 0x28, ofChars ['h', 'e', 'l', 'l'], 2⟩,
    ⟨0x30, 0x38, ofChars ['h', 'e', 'l', 'p'], 3⟩]

theorem guarded_misled (n : ℕ) : Run.Guarded (Trie.step (n + 8)) Allowed fresh misled := by
  refine .cons ⟨by decide, by decide, by decide, rfl, rfl, by decide⟩ rfl ?_
  refine .cons ⟨by decide, by decide, by decide, rfl, rfl, by decide⟩ rfl ?_
  exact ⟨⟨by decide, by decide, by decide, rfl, rfl, by decide⟩, fun _ _ ↦ trivial⟩

/-- **A string that has just been inserted is not found.** -/
theorem not_trieSearch_misled : createTrie Heap.empty 8 = some fresh ∧
    ∀ n, Run.Guarded (Trie.step (n + 8)) Allowed fresh misled ∧
      ∃ s', Run.exec (Trie.step (n + 8)) fresh misled = some s' ∧
        trieSearch (n + 8) s' (ofChars ['h', 'e', 'l', 'p']) = some 0 ∧
        lastInserted misled (ofChars ['h', 'e', 'l', 'p']) = 3 := by
  refine ⟨rfl, fun n ↦ ⟨guarded_misled n, ?_⟩⟩
  have hsearch : (Run.exec (Trie.step (n + 8)) fresh misled).bind
      (fun s' ↦ trieSearch (n + 8) s' (ofChars ['h', 'e', 'l', 'p'])) = some 0 := rfl
  obtain ⟨s', hexec, hsearch⟩ := bind_eq_some_iff.mp hsearch
  exact ⟨s', hexec, hsearch, by decide⟩

end ForgeOS.Trie
