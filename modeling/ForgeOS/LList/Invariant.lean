import ForgeOS.LList.Model

/-!
# When the list stays doubly linked

`InsertOk` is the exact condition under which one insertion keeps the list `Linked`, and
`always_linked_iff` the one for whole runs.
-/

namespace ForgeOS.LList

open List Option Heap

variable {α : Type}

def Linked (l : LList α) : Prop :=
  ∃ ns : List Ptr, Seg Node.next l.heap l.head ns 0 ∧ l.len = ns.length ∧
    l.tail = ns.getLastD 0 ∧
    ∀ n ∈ ns, n ≠ l.tail → ∃ nd nd', l.heap.read n = some nd ∧
      l.heap.read nd.next = some nd' ∧ nd'.prev = n

/-- The condition under which an insertion keeps the list well formed: into an empty list, that
the junk in the new node ends the list; at the front, that the old first node already points back
to the address `malloc` returns; elsewhere, that the node goes to the end. -/
def InsertOk (l : LList α) (a : Ptr) (junk : Node α) (index : ℕ) : Prop :=
  if l.len = 0 then junk.next = 0
  else if index = 0 then (l.heap.read l.head).map Node.prev = some a
  else l.len - 1 ≤ index

def StepOk (l : LList α) : Op α → Prop
  | .insert a junk _ index => InsertOk l a junk index
  | .remove _ => True

structure Rep (l : LList α) (ns : List Ptr) : Prop where
  /-- The nodes form one doubly linked segment; what the first one points back to is not said. -/
  links : ∃ p, DSeg Node.next Node.prev l.heap p l.head ns 0
  len : l.len = ns.length
  tail : l.tail = ns.getLastD 0

theorem Rep.seg {l : LList α} {ns : List Ptr} (hr : Rep l ns) :
    Seg Node.next l.heap l.head ns 0 := by
  obtain ⟨p, hp⟩ := hr.links
  exact hp.seg

theorem getLastD_append_cons (s t : List Ptr) (y d : Ptr) :
    (s ++ y :: t).getLastD d = t.getLastD y := by
  simp [getLast?_append, getLast?_cons]

theorem ne_getLastD_of_infix {x y d : Ptr} {s t : List Ptr} (hnd : (s ++ x :: y :: t).Nodup) :
    x ≠ (s ++ x :: y :: t).getLastD d := by
  have hmem : (s ++ x :: y :: t).getLastD d ∈ y :: t := by
    rw [getLastD_append_cons, getLastD_cons]
    exact getLastD_mem_cons
  intro hx
  exact (nodup_cons.mp (nodup_append.mp hnd).2.1).1 (hx ▸ hmem)

theorem linked_iff {l : LList α} : Linked l ↔ ∃ ns, Rep l ns := by
  constructor
  · rintro ⟨ns, hs, hlen, htail, hback⟩
    refine ⟨ns, ?_, hlen, htail⟩
    cases ns with
    | nil => exact ⟨0, hs⟩
    | cons b ns =>
      obtain ⟨n, hn⟩ := hs.read_isSome (x := l.head) (by simp [hs.eq_head])
      refine ⟨n.prev, hs.dseg (fun k hk ↦ ?_) fun x y k hxy hk ↦ ?_⟩
      · rw [some.inj (hn.symm.trans hk)]
      · obtain ⟨nx, hnx, rfl⟩ := hs.next_of_infix hxy
        obtain ⟨s, t, hst⟩ := hxy
        rw [append_assoc, cons_append, singleton_append] at hst
        rw [← hst] at hs htail hback
        obtain ⟨nd, nd', hnd, hnd', hprev⟩ :=
          hback x (by simp) (htail ▸ ne_getLastD_of_infix hs.nodup)
        obtain rfl : nd = nx := some.inj (hnd.symm.trans hnx)
        rw [← some.inj (hnd'.symm.trans hk)]
        exact hprev
  · rintro ⟨ns, ⟨p, hp⟩, hlen, htail⟩
    refine ⟨ns, hp.seg, hlen, htail, fun n hn hne ↦ ?_⟩
    obtain ⟨s, t, rfl⟩ := append_of_mem hn
    cases t with
    | nil => exact absurd (htail.trans getLastD_concat).symm hne
    | cons y t =>
      obtain ⟨nd, nd', hnd, rfl, hnd', hprev⟩ := hp.back (x := n) (y := y) ⟨s, t, by simp⟩
      exact ⟨nd, nd', hnd, hnd', hprev⟩

/-! ## Insertion

One lemma for each way a new node is linked in, for a node `a` that is not in use. -/

section Insert

variable {l : LList α} {a : Ptr} {junk : Node α} {data : α} {index : ℕ} {ns : List Ptr}

theorem Rep.ne_of_fresh (hr : Rep l ns) (ha : l.heap.read a = none) {x : Ptr} (hx : x ∈ ns) :
    x ≠ a := by
  rintro rfl
  obtain ⟨n, hn⟩ := hr.seg.read_isSome hx
  rw [ha] at hn
  exact absurd hn (by simp)

theorem Rep.wordInc_len (hr : Rep l ns) (h0 : a ≠ 0) (ha : l.heap.read a = none) :
    wordInc l.len = ns.length + 1 := by
  have hnd : (a :: ns).Nodup :=
    nodup_cons.mpr ⟨fun hmem ↦ hr.ne_of_fresh ha hmem rfl, hr.seg.nodup⟩
  have hz : (0 : Ptr) ∉ a :: ns := by
    rw [mem_cons, not_or]
    exact ⟨h0.symm, fun hmem ↦ hr.seg.ne_zero hmem rfl⟩
  rw [hr.len]
  exact wordInc_of_lt (length_lt_wordSize hnd hz)

theorem listInsert_empty (hlen : l.len = 0) (h0 : a ≠ 0) (ha : l.heap.read a = none) :
    listInsert l a junk data index = some ⟨1, a, a, l.heap.set a { junk with p := data }⟩ := by
  have hinc : wordInc 0 = 1 := by decide
  simp [listInsert, link, alloc_eq h0 ha, hlen, hinc]

theorem listInsert_front (hlen : l.len ≠ 0) (ht : l.tail ≠ 0) (h0 : a ≠ 0)
    (ha : l.heap.read a = none) :
    listInsert l a junk data 0 =
      some ⟨wordInc l.len, a, l.tail, l.heap.set a ⟨data, l.head, 0⟩⟩ := by
  simp [listInsert, link, alloc_eq h0 ha, hlen, ht,
    modify_eq (read_set_self h0)]

theorem listInsert_back {t : Node α} (hlen : l.len ≠ 0) (hidx : index ≠ 0)
    (hback : l.len - 1 ≤ index) (hr : l.heap.read l.tail = some t) (h0 : a ≠ 0)
    (ha : l.heap.read a = none) :
    listInsert l a junk data index =
      some ⟨wordInc l.len, l.head, a,
        (l.heap.set l.tail { t with next := a }).set a ⟨data, 0, l.tail⟩⟩ := by
  have hta : l.tail ≠ a := fun h ↦ by rw [h, ha] at hr; exact absurd hr (by simp)
  have hr' : (l.heap.set a { junk with p := data }).read l.tail = some t := by
    rw [read_set_of_ne hta, hr]
  have hra : ((l.heap.set a { junk with p := data }).set l.tail { t with next := a }).read a =
      some { junk with p := data } := by
    rw [read_set_of_ne hta.symm, read_set_self h0]
  simp [listInsert, link, alloc_eq h0 ha, hlen, hidx, hback, modify_eq hr',
    modify_eq hra, h0, set_set_comm hta]

theorem linked_empty_iff (h0 : a ≠ 0) :
    Linked (⟨1, a, a, l.heap.set a { junk with p := data }⟩ : LList α) ↔ junk.next = 0 := by
  have hra : (l.heap.set a { junk with p := data }).read a = some { junk with p := data } :=
    read_set_self h0
  constructor
  · rintro ⟨ns, hs, hlen, -, -⟩
    obtain ⟨b, rfl⟩ := length_eq_one_iff.mp hlen.symm
    obtain ⟨-, n, hn, hnext⟩ := hs
    obtain rfl := some.inj (hra.symm.trans hn)
    exact hnext
  · intro hnext
    refine ⟨[a], ⟨rfl, _, hra, hnext⟩, rfl, rfl, fun n hn hne ↦ ?_⟩
    exact absurd (mem_singleton.mp hn) hne

theorem linked_front_iff (hr : Rep l ns) (hne : ns ≠ []) (h0 : a ≠ 0) (ha : l.heap.read a = none) :
    Linked (⟨wordInc l.len, a, l.tail, l.heap.set a ⟨data, l.head, 0⟩⟩ : LList α) ↔
      (l.heap.read l.head).map Node.prev = some a := by
  obtain ⟨b, ns, rfl⟩ := exists_cons_of_ne_nil hne
  have hb : l.head = b := hr.seg.eq_head
  have hmem : l.head ∈ b :: ns := by simp [hb]
  have hra : (l.heap.set a ⟨data, l.head, 0⟩).read a = some ⟨data, l.head, 0⟩ :=
    read_set_self h0
  have hrb : (l.heap.set a ⟨data, l.head, 0⟩).read l.head = l.heap.read l.head :=
    read_set_of_ne (hr.ne_of_fresh ha hmem)
  have hta : l.tail ≠ a := by
    rw [hr.tail, getLastD_cons]
    exact hr.ne_of_fresh ha getLastD_mem_cons
  constructor
  · rintro ⟨ms, hs, -, -, hback⟩
    have hams : a ∈ ms := by
      cases ms with
      | nil => exact absurd (seg_nil.mp hs) h0
      | cons c ms =>
        obtain rfl : a = c := hs.eq_head
        exact mem_cons_self
    obtain ⟨nd, nd', hnd, hnd', hprev⟩ := hback a hams hta.symm
    obtain rfl := some.inj (hra.symm.trans hnd)
    rw [← hrb, hnd', map_some, hprev]
  · intro hprev
    obtain ⟨n, hn, hp⟩ := map_eq_some_iff.mp hprev
    obtain ⟨p, hd⟩ := hr.links
    obtain rfl : p = a := by
      obtain ⟨-, n', hn', rfl, -⟩ := hd
      rw [← hp, some.inj (hn.symm.trans hn')]
    refine linked_iff.mpr ⟨p :: b :: ns, ⟨0, rfl, _, hra, rfl, ?_⟩, ?_, ?_⟩
    · refine hd.frame fun x hx ↦ read_set_of_ne (hr.ne_of_fresh ha hx)
    · exact hr.wordInc_len h0 ha
    · simpa using hr.tail

theorem Rep.back {t : Node α} (hr : Rep l ns) (hne : ns ≠ []) (ht : l.heap.read l.tail = some t)
    (h0 : a ≠ 0) (ha : l.heap.read a = none) :
    Rep (⟨wordInc l.len, l.head, a,
      (l.heap.set l.tail { t with next := a }).set a ⟨data, 0, l.tail⟩⟩ : LList α) (ns ++ [a]) := by
  rcases eq_nil_or_concat' ns with rfl | ⟨s, c, rfl⟩
  · exact absurd rfl hne
  have hc : l.tail = c := hr.tail.trans getLastD_concat
  have hca : c ≠ a := hr.ne_of_fresh ha (by simp)
  have hnd := (nodup_append.mp hr.seg.nodup).2.2
  obtain ⟨p, hd⟩ := hr.links
  obtain ⟨m, hs, rfl, n, hn, hnp, hnext⟩ := dseg_append.mp hd
  obtain rfl : n = t := by
    rw [hc, hn] at ht
    exact some.inj ht
  refine ⟨⟨p, ?_⟩, by simpa using hr.wordInc_len h0 ha, getLastD_concat.symm⟩
  rw [append_assoc, dseg_append]
  refine ⟨m, hs.frame fun x hx ↦ ?_, rfl, { n with next := a }, ?_, hnp, rfl, _,
    read_set_self h0, ?_, rfl⟩
  · have hxa : x ≠ a := hr.ne_of_fresh ha (mem_append_left _ hx)
    rw [read_set_of_ne hxa, read_set_of_ne (hc ▸ hnd x hx m (by simp))]
  · rw [read_set_of_ne hca, hc, read_set_self (hr.seg.ne_zero (by simp))]
  · exact hc

theorem exists_cut_two (ns : List Ptr) (k : ℕ) (hk : k + 1 < ns.length) :
    ∃ s x y t, ns = s ++ x :: y :: t ∧ s.length = k := by
  refine ⟨ns.take k, ns[k], ns[k + 1], ns.drop (k + 2), ?_, by simp; omega⟩
  rw [← drop_eq_getElem_cons, ← drop_eq_getElem_cons, take_append_drop]

theorem Rep.walk_inner (hr : Rep l ns) (index : ℕ) {h : Heap Ptr (Node α)}
    (hh : ∀ x ∈ ns, h.read x = l.heap.read x) (hmid : index < l.len - 1) :
    ∃ s x y t, ns = s ++ x :: y :: t ∧
      s.length = (if l.len / 2 < index then index - 1 else index) ∧
      seek l h index = some x := by
  obtain ⟨p, hd⟩ := hr.links
  have hlen := hr.len
  rw [seek]
  split
  · obtain ⟨s, x, y, t, rfl, hs⟩ := exists_cut_two ns (index - 1) (by omega)
    refine ⟨s, x, y, t, rfl, hs, ?_⟩
    have hcut : s ++ x :: y :: t = (s ++ [x]) ++ y :: t := by simp
    rw [hcut] at hd
    obtain ⟨m, -, hm⟩ := dseg_append.mp hd
    have hframe : ∀ z ∈ y :: t, h.read z = l.heap.read z := fun z hz ↦ hh z (by simp at hz ⊢; tauto)
    have hw := walk_prev (hm.frame hframe)
    have htail : (y :: t).getLastD ((s ++ [x]).getLastD p) = l.tail := by
      rw [hr.tail, hcut, getLastD_cons, getLastD_append_cons]
    have hturns : (y :: t).length = l.len - index := by
      simp only [length_append, length_cons] at hlen ⊢
      omega
    rwa [htail, hturns, getLastD_concat] at hw
  · obtain ⟨s, x, y, t, rfl, hs⟩ := exists_cut_two ns index (by omega)
    refine ⟨s, x, y, t, rfl, hs, ?_⟩
    obtain ⟨m, hm, hx⟩ := seg_append.mp hd.seg
    obtain rfl : m = x := hx.eq_head
    rw [← hs]
    exact walk_next (hm.frame fun z hz ↦ hh z (by simp [hz]))

theorem listInsert_middle {x : Ptr} {nx : Node α} (hlen : l.len ≠ 0) (hidx : index ≠ 0)
    (hmid : ¬ l.len - 1 ≤ index) (ht : l.tail ≠ 0) (h0 : a ≠ 0) (ha : l.heap.read a = none)
    (hwalk : seek l (l.heap.set a { junk with p := data }) index = some x)
    (hx : l.heap.read x = some nx) :
    listInsert l a junk data index =
      some ⟨wordInc l.len, l.head, l.tail,
        (l.heap.set a ⟨data, nx.next, x⟩).set x { nx with next := a }⟩ := by
  have hxa : x ≠ a := fun h ↦ by rw [h, ha] at hx; exact absurd hx (by simp)
  have hr : ∀ v, (l.heap.set a v).read x = some nx := fun v ↦ by
    rw [read_set_of_ne hxa, hx]
  have hra : ∀ v, (l.heap.set a v).read a = some v := fun v ↦ read_set_self h0
  simp [listInsert, link, alloc_eq h0 ha, hlen, hidx, hmid, hwalk, modify_eq (hra _),
    modify_eq (hr _), hr, ht]

theorem not_linked_middle (hr : Rep l ns) (hlen : l.len ≠ 0) (hidx : index ≠ 0)
    (hmid : ¬ l.len - 1 ≤ index) (h0 : a ≠ 0) (ha : l.heap.read a = none) {l' : LList α}
    (hl' : listInsert l a junk data index = some l') : ¬ Linked l' := by
  obtain ⟨s, x, y, t, rfl, -, hwalk⟩ :=
    hr.walk_inner index (h := l.heap.set a { junk with p := data })
    (fun z hz ↦ read_set_of_ne (hr.ne_of_fresh ha hz)) (by omega)
  obtain ⟨p, hd⟩ := hr.links
  obtain ⟨nx, ny, hnx, rfl, hny, hprev⟩ := hd.back (x := x) (y := y) ⟨s, t, by simp⟩
  have hnd := hr.seg.nodup
  have hxa : x ≠ a := hr.ne_of_fresh ha (by simp)
  have hya : nx.next ≠ a := hr.ne_of_fresh ha (by simp)
  have hxy : nx.next ≠ x := by
    have hcons := (nodup_append.mp hnd).2.1
    exact fun h ↦ (nodup_cons.mp hcons).1 (by simp [h])
  have hta : l.tail ∈ s ++ x :: nx.next :: t := by
    rw [hr.tail, getLastD_append_cons]
    exact mem_append_right _ getLastD_mem_cons
  rw [listInsert_middle hlen hidx hmid (hr.seg.ne_zero hta) h0 ha hwalk hnx] at hl'
  obtain rfl := some.inj hl'
  rintro ⟨ms, hs, -, -, hback⟩
  have hra : ((l.heap.set a ⟨data, nx.next, x⟩).set x { nx with next := a }).read a =
      some ⟨data, nx.next, x⟩ := by
    rw [read_set_of_ne hxa.symm, read_set_self h0]
  have hrx : ((l.heap.set a ⟨data, nx.next, x⟩).set x { nx with next := a }).read x =
      some { nx with next := a } := read_set_self (ne_zero_of_read hnx)
  -- the new node is on the list: everything up to `x` is unchanged and `x` points to it
  have hams : a ∈ ms := by
    obtain ⟨m, hsm, hm⟩ := seg_append.mp hd.seg
    obtain rfl : m = x := hm.eq_head
    have hfrom : Seg Node.next ((l.heap.set a ⟨data, nx.next, m⟩).set m { nx with next := a })
        l.head (s ++ [m]) a := by
      refine seg_append.mpr ⟨m, hsm.frame fun z hz ↦ ?_, rfl, _, hrx, rfl⟩
      have hzm : z ≠ m := (nodup_append.mp hnd).2.2 z hz m (by simp)
      rw [read_set_of_ne hzm, read_set_of_ne (hr.ne_of_fresh ha (by simp [hz]))]
    exact hfrom.mem_of_ne_zero hs h0
  obtain ⟨nd, nd', hnd, hnd', hp⟩ := hback a hams fun h ↦ hr.ne_of_fresh ha hta h.symm
  obtain rfl := some.inj (hra.symm.trans hnd)
  rw [read_set_of_ne hxy, read_set_of_ne hya, hny] at hnd'
  obtain rfl := some.inj hnd'
  exact hxa (hprev.symm.trans hp)

end Insert

/-! ## Removal

The node is unlinked on one of three paths, all of which leave a doubly linked list. -/

section Remove

variable {l : LList α} {x : Ptr} {s t : List Ptr}

theorem Rep.wordDec_len (hr : Rep l (s ++ x :: t)) : wordDec l.len = (s ++ t).length := by
  have hlen := hr.len
  rw [length_append, length_cons] at hlen
  rw [wordDec_of_pos (by omega) (hr.len ▸ hr.seg.length_lt), length_append]
  omega

theorem Rep.remove_only (hr : Rep l [x]) : ∃ l', listRemove l 0 = some l' ∧ Rep l' [] := by
  obtain ⟨rfl, n, hn, -⟩ := hr.seg
  have ht : l.head = l.tail := hr.tail.symm
  refine ⟨⟨wordDec l.len, 0, 0, l.heap.erase l.head⟩, ?_, ⟨0, rfl⟩, hr.wordDec_len (s := []), rfl⟩
  simp [listRemove, unlink, ← ht, free_eq hn]

theorem Rep.remove_first {c : Ptr} (hr : Rep l (x :: c :: t)) :
    ∃ l', listRemove l 0 = some l' ∧ Rep l' (c :: t) := by
  have hnd := hr.seg.nodup
  obtain ⟨p, rfl, n, hn, -, rfl, m, hm, -, ht⟩ := hr.links
  have hxc : n.next ≠ l.head := fun h ↦ (nodup_cons.mp hnd).1 (by simp [h])
  have htail : l.head ≠ l.tail := by
    rw [hr.tail, getLastD_cons, getLastD_cons]
    exact fun h ↦ (nodup_cons.mp hnd).1 (h ▸ getLastD_mem_cons)
  have hfree : (l.heap.set n.next { m with prev := 0 }).read l.head = some n := by
    rw [read_set_of_ne hxc.symm, hn]
  refine ⟨⟨wordDec l.len, n.next, l.tail,
    (l.heap.set n.next { m with prev := 0 }).erase l.head⟩, ?_,
    ⟨0, rfl, { m with prev := 0 }, ?_, rfl, ht.frame fun z hz ↦ ?_⟩, hr.wordDec_len (s := []), ?_⟩
  · simp [listRemove, unlink, htail, hn, modify_eq hm, free_eq hfree]
  · rw [read_erase_of_ne hxc, read_set_self (ne_zero_of_read hm)]
  · have hzx : z ≠ l.head := fun h ↦ (nodup_cons.mp hnd).1 (h ▸ mem_cons_of_mem _ hz)
    have hzc : z ≠ n.next := fun h ↦
      (nodup_cons.mp (nodup_cons.mp hnd).2).1 (h ▸ hz)
    rw [read_erase_of_ne hzx, read_set_of_ne hzc]
  · rw [hr.tail, getLastD_cons]
    rfl

theorem Rep.remove_last {u : Ptr} {index : ℕ} (hr : Rep l (s ++ u :: [x])) (hidx : index ≠ 0)
    (hlast : wordDec l.len ≤ index) : ∃ l', listRemove l index = some l' ∧ Rep l' (s ++ [u]) := by
  have hnd := hr.seg.nodup
  have hcut : s ++ u :: [x] = (s ++ [u]) ++ [x] := by simp
  obtain ⟨p, hd⟩ := hr.links
  obtain ⟨m, hs, rfl, n, hn, hnp, rfl, k, hk, hkp, -⟩ := dseg_append.mp hd
  have htail : l.tail = n.next := by rw [hr.tail, hcut, getLastD_concat]
  have hxu : n.next ≠ m := fun h ↦
    (nodup_cons.mp (nodup_append.mp hnd).2.1).1 (by simp [h])
  have hfree : (l.heap.set m { n with next := 0 }).read n.next = some k := by
    rw [read_set_of_ne hxu, hk]
  refine ⟨⟨wordDec l.len, l.head, m, (l.heap.set m { n with next := 0 }).erase n.next⟩, ?_,
    ⟨p, dseg_append.mpr ⟨m, hs.frame fun z hz ↦ ?_, rfl, { n with next := 0 }, ?_, hnp, rfl⟩⟩, ?_,
    getLastD_concat.symm⟩
  · simp [listRemove, unlink, hidx, hlast, htail, hk, hkp, modify_eq hn, free_eq hfree]
  · have hdisj := (nodup_append.mp hnd).2.2 z hz
    rw [read_erase_of_ne (hdisj _ (by simp)), read_set_of_ne (hdisj _ (by simp))]
  · rw [read_erase_of_ne hxu.symm, read_set_self (ne_zero_of_read hn)]
  · have hdec := Rep.wordDec_len (t := []) (hcut ▸ hr)
    rwa [append_nil] at hdec

theorem Rep.remove_inner {u w : Ptr} (hr : Rep l (s ++ u :: x :: w :: t)) :
    ∃ l', listRemove l (s.length + 1) = some l' ∧ Rep l' (s ++ u :: w :: t) := by
  have hnd := hr.seg.nodup
  have hlen := hr.len
  have hcut : s ++ u :: x :: w :: t = (s ++ [u]) ++ x :: w :: t := by simp
  have hdec := Rep.wordDec_len (hcut ▸ hr)
  have hin : ¬ wordDec l.len ≤ s.length + 1 := by rw [hdec]; simp
  obtain ⟨p, hd⟩ := hr.links
  have hwalk : walk l.heap false (s.length + 1) l.head = some x := by
    have hseg := hd.seg
    rw [hcut, seg_append] at hseg
    obtain ⟨m, hm, hx⟩ := hseg
    rw [hx.eq_head] at hm
    simpa using walk_next hm
  obtain ⟨m, hs, rfl, n, hn, hnp, rfl, k, hk, hkp, rfl, j, hj, hjp, ht⟩ := dseg_append.mp hd
  have hnd' := nodup_cons.mp (nodup_append.mp hnd).2.1
  have hxu : n.next ≠ m := fun h ↦ hnd'.1 (by simp [h])
  have hwu : k.next ≠ m := fun h ↦ hnd'.1 (by simp [h])
  have hwx : k.next ≠ n.next := fun h ↦ (nodup_cons.mp hnd'.2).1 (by simp [h])
  have hx : (l.heap.set m { n with next := k.next }).read n.next = some k := by
    rw [read_set_of_ne hxu, hk]
  have hw : (l.heap.set m { n with next := k.next }).read k.next = some j := by
    rw [read_set_of_ne hwu, hj]
  have hfree : ((l.heap.set m { n with next := k.next }).set k.next { j with prev := m }).read
      n.next = some k := by
    rw [read_set_of_ne hwx.symm, hx]
  refine ⟨⟨wordDec l.len, l.head, l.tail,
    ((l.heap.set m { n with next := k.next }).set k.next { j with prev := m }).erase n.next⟩, ?_,
    ⟨p, dseg_append.mpr ⟨m, hs.frame fun z hz ↦ ?_, rfl, { n with next := k.next }, ?_, hnp, rfl,
      { j with prev := m }, ?_, rfl, ht.frame fun z hz ↦ ?_⟩⟩, ?_, ?_⟩
  · simp [listRemove, unlink, hin, hwalk, hk, hkp, modify_eq hn, hx, modify_eq hw,
      free_eq hfree]
  · have hdisj := (nodup_append.mp hnd).2.2 z hz
    rw [read_erase_of_ne (hdisj _ (by simp)), read_set_of_ne (hdisj _ (by simp)),
      read_set_of_ne (hdisj _ (by simp))]
  · rw [read_erase_of_ne hxu.symm, read_set_of_ne hwu.symm,
      read_set_self (ne_zero_of_read hn)]
  · rw [read_erase_of_ne hwx, read_set_self (ne_zero_of_read hj)]
  · have hzu : z ≠ m := fun h ↦ hnd'.1 (by simp [← h, hz])
    have hzx : z ≠ n.next := fun h ↦ (nodup_cons.mp hnd'.2).1 (by simp [← h, hz])
    have hzw : z ≠ k.next := fun h ↦
      (nodup_cons.mp (nodup_cons.mp hnd'.2).2).1 (h ▸ hz)
    rw [read_erase_of_ne hzx, read_set_of_ne hzw, read_set_of_ne hzu]
  · simpa using hdec
  · rw [hr.tail, getLastD_append_cons, getLastD_append_cons, getLastD_cons,
      getLastD_cons, getLastD_cons]

theorem Rep.remove (hr : Rep l (s ++ x :: t)) :
    ∃ l', listRemove l s.length = some l' ∧ Rep l' (s ++ t) := by
  rcases eq_nil_or_concat' s with rfl | ⟨s, u, rfl⟩
  · cases t with
    | nil => exact hr.remove_only
    | cons c t => exact hr.remove_first
  · rw [append_assoc, singleton_append] at hr
    have hidx : (s ++ [u]).length = s.length + 1 := by simp
    rw [hidx, append_assoc, singleton_append]
    cases t with
    | nil =>
      refine hr.remove_last (by omega) ?_
      have hcut : s ++ u :: [x] = (s ++ [u]) ++ [x] := by simp
      rw [Rep.wordDec_len (hcut ▸ hr)]
      simp
    | cons w t => exact hr.remove_inner

end Remove

instance (l : LList α) : (op : Op α) → Decidable (Allowed l op)
  | .insert a _ _ _ => inferInstanceAs (Decidable (a ≠ 0 ∧ (l.heap.read a).isNone))
  | .remove index => inferInstanceAs (Decidable (index < l.len))

instance (l : LList α) : (op : Op α) → Decidable (StepOk l op)
  | .insert a junk _ index => inferInstanceAs (Decidable (if l.len = 0 then junk.next = 0
      else if index = 0 then (l.heap.read l.head).map Node.prev = some a else l.len - 1 ≤ index))
  | .remove _ => inferInstanceAs (Decidable True)

theorem linked_createList : Linked (createList : LList α) :=
  ⟨[], rfl, rfl, rfl, fun _ hn ↦ absurd hn not_mem_nil⟩

theorem linked_insert_iff {l : LList α} (hl : Linked l) {a : Ptr} {junk : Node α} {data : α}
    {index : ℕ} (h0 : a ≠ 0) (ha : l.heap.read a = none) :
    (∃ l' ∈ listInsert l a junk data index, Linked l') ↔ InsertOk l a junk index := by
  obtain ⟨ns, hr⟩ := linked_iff.mp hl
  rw [InsertOk]
  split
  · next hlen =>
    rw [listInsert_empty hlen h0 ha]
    simpa using linked_empty_iff h0
  · next hlen =>
    have hne : ns ≠ [] := fun h ↦ hlen (hr.len.trans (h ▸ rfl))
    have htail : l.tail ∈ ns := by
      obtain ⟨b, ns, rfl⟩ := exists_cons_of_ne_nil hne
      rw [hr.tail, getLastD_cons]
      exact getLastD_mem_cons
    split
    · next hidx =>
      rw [hidx, listInsert_front hlen (hr.seg.ne_zero htail) h0 ha]
      simpa using linked_front_iff hr hne h0 ha
    · next hidx =>
      constructor
      · rintro ⟨l', hl', hlinked⟩
        by_contra hmid
        exact not_linked_middle hr hlen hidx hmid h0 ha hl' hlinked
      · intro hback
        obtain ⟨t, ht⟩ := hr.seg.read_isSome htail
        exact ⟨_, listInsert_back hlen hidx hback ht h0 ha,
          linked_iff.mpr ⟨_, hr.back hne ht h0 ha⟩⟩

theorem linked_remove {l : LList α} (hl : Linked l) {index : ℕ} (hidx : index < l.len) :
    ∃ l' ∈ listRemove l index, Linked l' := by
  obtain ⟨ns, hr⟩ := linked_iff.mp hl
  rw [hr.len] at hidx
  have hcut : ns = ns.take index ++ ns[index] :: ns.drop (index + 1) := by
    rw [← drop_eq_getElem_cons, take_append_drop]
  obtain ⟨l', hl', hr'⟩ := Rep.remove (hcut ▸ hr)
  rw [length_take_of_le hidx.le] at hl'
  exact ⟨l', hl', linked_iff.mpr ⟨_, hr'⟩⟩

theorem linked_step_iff {l : LList α} (hl : Linked l) {op : Op α} (hop : Allowed l op) :
    (∃ l' ∈ step l op, Linked l') ↔ StepOk l op := by
  cases op with
  | insert a junk data index => exact linked_insert_iff hl hop.1 (isNone_iff_eq_none.mp hop.2)
  | remove index => exact ⟨fun _ ↦ trivial, fun _ ↦ linked_remove hl hop⟩

theorem always_iff_of_linked {l : LList α} (hl : Linked l) {ops : List (Op α)}
    (hops : Run.Guarded step Allowed l ops) :
    Run.Always step Linked l ops ↔ Run.Guarded step StepOk l ops :=
  Run.always_iff_guarded (fun _ _ hl hop ↦ linked_step_iff hl hop) hl hops

/-- **When a list stays well formed**, along a run of calls on a fresh list. -/
theorem always_linked_iff (ops : List (Op α)) (hops : Run.Guarded step Allowed createList ops) :
    Run.Always step Linked (createList : LList α) ops ↔ Run.Guarded step StepOk createList ops :=
  always_iff_of_linked linked_createList hops

/-- Two nodes put at the end of the list, the first one into cleared memory, and the first one
taken away again. -/
def appendTwice : List (Op ℕ) :=
  [.insert 0x1000 ⟨0, 0, 0⟩ 1 0, .insert 0x2000 ⟨7, 0x5000, 0x5000⟩ 2 4, .remove 0]

theorem always_linked_appendTwice :
    Run.Guarded step Allowed createList appendTwice ∧
      Run.Guarded step StepOk createList appendTwice ∧
      Run.Always step Linked createList appendTwice :=
  ⟨by decide, by decide, (always_linked_iff appendTwice (by decide)).mpr (by decide)⟩

/-- Two nodes inserted at the front, both into cleared memory. -/
def frontTwice : List (Op ℕ) := [.insert 0x1000 ⟨0, 0, 0⟩ 1 0, .insert 0x2000 ⟨0, 0, 0⟩ 2 0]

/-- **The list does not stay well formed**: the old first node does not point back to the new
one. -/
theorem not_always_linked_frontTwice :
    Run.Guarded step Allowed createList frontTwice ∧
      ¬ Run.Always step Linked createList frontTwice := by
  have hops : Run.Guarded step Allowed createList frontTwice := by decide
  refine ⟨hops, fun h ↦ ?_⟩
  exact absurd ((always_iff_of_linked linked_createList hops).mp h) (by decide)

end ForgeOS.LList
