import ForgeOS.LList.Front

/-!
# Which position an operation is about

In `list_insert` the walk from the head stops *at* the node with the index and the walk from the
tail *before* it, but both link the new node in after it; and the index of the last node is taken
for the end of the list.

The main results are `listInsert_position_iff` and `listRemove_iff`.
-/

namespace ForgeOS.LList

open List Option Prod

variable {α : Type} {l l' : LList α} {h h' h'' : Heap Ptr (Node α)} {es : List (Ptr × α)}
  {xs ys : List α} {ns : List Ptr} {a : Ptr}

/-- **What is read of a list**: `list_len` and `list_at` return the data `xs`. -/
def Reads (l : LList α) (xs : List α) : Prop :=
  l.len = xs.length ∧ ∀ k, l.listAt k = some xs[k]?

theorem Reads.unique (hx : Reads l xs) (hy : Reads l ys) : xs = ys := by
  refine ext_getElem? fun k ↦ ?_
  exact some.inj ((hx.2 k).symm.trans (hy.2 k))

theorem Reads.toList (hx : Reads l xs) : l.toList = xs := by
  refine Eq.trans ?_ (filterMap_range_getElem? xs)
  rw [LList.toList, hx.1]
  refine filterMap_congr fun k _ ↦ ?_
  rw [hx.2, join_some]

theorem Front.reads (hl : Front l es) : Reads l (es.map snd) := by
  refine ⟨hl.len.trans (length_map _).symm, fun k ↦ ?_⟩
  rw [hl.listAt k, getElem?_map]

def Stored (h : Heap Ptr (Node α)) (es : List (Ptr × α)) : Prop :=
  ∀ e ∈ es, ∃ n, h.read e.1 = some n ∧ n.p = e.2

theorem Stored.fwd (hst : Stored h es) {q : Ptr} (hs : Seg Node.next h a (es.map fst) q) :
    Fwd h a es := by
  induction es generalizing a with
  | nil => trivial
  | cons e es ih =>
    obtain ⟨b, x⟩ := e
    obtain ⟨rfl, n, hn, hs⟩ := hs
    obtain ⟨n', hn', rfl⟩ := hst _ (mem_cons_self ..)
    obtain rfl := some.inj (hn.symm.trans hn')
    exact ⟨rfl, n, hn, rfl, fun _ ↦ ih (fun e he ↦ hst e (mem_cons_of_mem _ he)) hs⟩

theorem Rep.front (hr : Rep l (es.map fst)) (hst : Stored l.heap es) : Front l es :=
  ⟨hst.fwd hr.seg, hr.len.trans (length_map _), fun _ ↦ hr.tail, hr.seg.nodup⟩

theorem Rep.exists_stored (hr : Rep l ns) : ∃ es, es.map fst = ns ∧ Stored l.heap es := by
  have hread : ∀ b ∈ ns, ∃ n, l.heap.read b = some n := fun b hb ↦ hr.seg.read_isSome hb
  clear hr
  induction ns with
  | nil => exact ⟨[], rfl, fun e he ↦ absurd he not_mem_nil⟩
  | cons b ns ih =>
    obtain ⟨n, hn⟩ := hread b (mem_cons_self ..)
    obtain ⟨es, rfl, hst⟩ := ih fun c hc ↦ hread c (mem_cons_of_mem _ hc)
    refine ⟨(b, n.p) :: es, rfl, fun e he ↦ ?_⟩
    rcases mem_cons.mp he with rfl | he
    · exact ⟨n, hn, rfl⟩
    · exact hst e he

theorem Linked.exists_front (hl : Linked l) (hx : Reads l xs) :
    ∃ es, es.map snd = xs ∧ Rep l (es.map fst) ∧ Stored l.heap es := by
  obtain ⟨ns, hr⟩ := linked_iff.mp hl
  obtain ⟨es, rfl, hst⟩ := hr.exists_stored
  exact ⟨es, (hr.front hst).reads.unique hx, hr, hst⟩

def landing (n index : ℕ) : ℕ :=
  if n = 0 ∨ index = 0 then 0
  else if n - 1 ≤ index then n
  else if n / 2 < index then index
  else index + 1

theorem insertIdx_length_append (s t : List α) (x : α) :
    (s ++ t).insertIdx s.length x = s ++ x :: t := by
  induction s with
  | nil => rfl
  | cons y s ih => rw [cons_append, length_cons, insertIdx_succ_cons, ih,
      cons_append]

variable {index : ℕ}

theorem Front.insert_middle (hl : Front l es) (hr : Rep l (es.map fst)) (h0 : a ≠ 0)
    (ha : l.heap.read a = none) (junk : Node α) (x : α) (hidx : index ≠ 0)
    (hmid : index + 1 < es.length) :
    ∃ l' s e t, listInsert l a junk x index = some l' ∧ es = s ++ e :: t ∧
      s.length + 1 = landing es.length index ∧ Front l' (s ++ e :: (a, x) :: t) := by
  have hlen := hl.len
  obtain ⟨s, b, c, t, hcut, hs, hseek⟩ :=
    hr.walk_inner index (h := l.heap.set a { junk with p := x })
      (fun z hz ↦ Heap.read_set_of_ne (hr.ne_of_fresh ha hz)) (by omega)
  obtain ⟨s, u, rfl, rfl, hu⟩ := map_eq_append_iff.mp hcut
  obtain ⟨e, t, rfl, rfl, ht⟩ := map_eq_cons_iff.mp hu
  obtain ⟨f, t, rfl, rfl, -⟩ := map_eq_cons_iff.mp ht
  obtain ⟨l', hl', hf'⟩ := hl.insert_after h0 ha junk x hidx hmid hseek
  refine ⟨l', s, e, f :: t, hl', rfl, ?_, hf'⟩
  rw [length_map, hlen] at hs
  rw [landing, if_neg (by omega), if_neg (by omega), hs]
  split <;> omega

theorem Linked.listInsert (hl : Linked l) (hx : Reads l xs) (h0 : a ≠ 0)
    (ha : l.heap.read a = none) (junk : Node α) (d : α) (index : ℕ) :
    ∃ l', listInsert l a junk d index = some l' ∧
      Reads l' (xs.insertIdx (landing xs.length index) d) := by
  obtain ⟨es, rfl, hr, hst⟩ := hl.exists_front hx
  have hf := hr.front hst
  rw [length_map]
  by_cases hfront : es.length = 0 ∨ index = 0
  · rw [landing, if_pos hfront]
    have hzero : LList.listInsert l a junk d index = LList.listInsert l a junk d 0 := by
      rcases hfront with hlen | rfl
      · rw [listInsert_empty (hf.len.trans hlen) h0 ha, listInsert_empty (hf.len.trans hlen) h0 ha]
      · rfl
    obtain ⟨l', hl', hf'⟩ := hf.insert h0 ha junk d
    exact ⟨l', hzero.trans hl', hf'.reads⟩
  · obtain ⟨hlen, hidx⟩ := not_or.mp hfront
    by_cases hback : es.length - 1 ≤ index
    · rw [landing, if_neg hfront, if_pos hback]
      rcases eq_nil_or_concat' es with rfl | ⟨s, e, rfl⟩
      · exact absurd rfl hlen
      obtain ⟨l', hl', hf'⟩ := hf.insert_back h0 ha junk d hidx (by simpa using hback)
      refine ⟨l', hl', ?_⟩
      rw [← length_map (f := snd), insertIdx_length_self]
      simpa using hf'.reads
    · obtain ⟨l', s, e, t, hl', rfl, hs, hf'⟩ :=
        hf.insert_middle hr h0 ha junk d hidx (by omega)
      refine ⟨l', hl', ?_⟩
      have hplace : ((s ++ e :: t).map snd).insertIdx (s.length + 1) d =
          (s ++ e :: (a, d) :: t).map snd := by
        simpa using insertIdx_length_append ((s ++ [e]).map snd) (t.map snd) d
      rw [← hs, hplace]
      exact hf'.reads

theorem insertIdx_succ_eq_iff {i : ℕ} (hi : i < xs.length) (d : α) :
    xs.insertIdx (i + 1) d = xs.insertIdx i d ↔ xs[i]? = some d := by
  induction xs generalizing i with
  | nil => exact absurd hi (Nat.not_lt_zero i)
  | cons x xs ih =>
    cases i with
    | zero => simp [eq_comm]
    | succ i =>
      rw [insertIdx_succ_cons, insertIdx_succ_cons, cons_inj_right,
        getElem?_cons_succ]
      exact ih (Nat.lt_of_succ_lt_succ hi)

/-- The insertions that go where they are asked to: at the front, at or behind the end, between two
nodes of the second half; and those where going one too far cannot be seen. -/
def InPlace (xs : List α) (d : α) (index : ℕ) : Prop :=
  index = 0 ∨ xs.length ≤ index ∨ (xs.length / 2 < index ∧ index + 1 < xs.length) ∨
    xs[index]? = some d

/-- **Which insertions go where they are asked to**: to the position given, or to the end if the
list is shorter. -/
theorem listInsert_position_iff (hl : Linked l) (hx : Reads l xs) (h0 : a ≠ 0)
    (ha : l.heap.read a = none) (junk : Node α) (d : α) (index : ℕ) :
    (∃ l' ∈ listInsert l a junk d index, Reads l' (xs.insertIdx (min index xs.length) d)) ↔
      InPlace xs d index := by
  obtain ⟨l', hl', hx'⟩ := hl.listInsert hx h0 ha junk d index
  have hreads : (∃ l' ∈ listInsert l a junk d index,
      Reads l' (xs.insertIdx (min index xs.length) d)) ↔
      xs.insertIdx (landing xs.length index) d = xs.insertIdx (min index xs.length) d := by
    rw [hl']
    constructor
    · rintro ⟨m, hm, hy⟩
      rw [← some.inj hm] at hy
      exact hx'.unique hy
    · exact fun heq ↦ ⟨l', rfl, heq ▸ hx'⟩
  rw [hreads, InPlace]
  by_cases hgood : index = 0 ∨ xs.length ≤ index ∨ (xs.length / 2 < index ∧ index + 1 < xs.length)
  · have hland : landing xs.length index = min index xs.length := by
      rw [landing]
      repeat' split
      all_goals omega
    rw [hland]
    exact ⟨fun _ ↦ by tauto, fun _ ↦ rfl⟩
  · have hlt : index < xs.length := by omega
    have hland : landing xs.length index = index + 1 := by
      rw [landing]
      repeat' split
      all_goals omega
    rw [hland, Nat.min_eq_left hlt.le, insertIdx_succ_eq_iff hlt]
    tauto

def pair : LList ℕ :=
  ⟨2, 0x1000, 0x2000,
    (Heap.empty.set 0x1000 ⟨10, 0x2000, 0⟩).set 0x2000 ⟨20, 0, 0x1000⟩⟩

theorem rep_pair : Rep pair [0x1000, 0x2000] :=
  ⟨⟨0, rfl, ⟨10, 0x2000, 0⟩, by decide, rfl, rfl, ⟨20, 0, 0x1000⟩, by decide, rfl, rfl⟩, rfl, rfl⟩

theorem reads_pair : Reads pair [10, 20] := by
  have hst : Stored pair.heap [(0x1000, 10), (0x2000, 20)] := by
    intro e he
    simp only [mem_cons, not_mem_nil, or_false] at he
    rcases he with rfl | rfl
    · exact ⟨⟨10, 0x2000, 0⟩, by decide, rfl⟩
    · exact ⟨⟨20, 0, 0x1000⟩, by decide, rfl⟩
  have hfront : Front pair [(0x1000, 10), (0x2000, 20)] := Rep.front rep_pair hst
  exact hfront.reads

theorem listInsert_position_pair :
    Linked pair ∧ InPlace [10, 20] 5 2 ∧
      ∃ l' ∈ listInsert pair 0x3000 ⟨0, 0, 0⟩ 5 2, Reads l' [10, 20, 5] :=
  ⟨linked_iff.mpr ⟨_, rep_pair⟩, .inr (.inl le_rfl),
    (listInsert_position_iff (linked_iff.mpr ⟨_, rep_pair⟩) reads_pair (by decide) (by decide)
      ⟨0, 0, 0⟩ 5 2).mpr (.inr (.inl le_rfl))⟩

/-- **The index of the last node is taken for the end**: inserted at position 1 of two, 5 comes to
position 2. -/
theorem not_listInsert_position_pair :
    Linked pair ∧ Reads pair [10, 20] ∧
      ¬ ∃ l' ∈ listInsert pair 0x3000 ⟨0, 0, 0⟩ 5 1, Reads l' [10, 5, 20] := by
  have hl : Linked pair := linked_iff.mpr ⟨_, rep_pair⟩
  refine ⟨hl, reads_pair, ?_⟩
  rintro ⟨m, hm, hy⟩
  obtain ⟨l', hl', hx'⟩ :=
    hl.listInsert reads_pair (a := 0x3000) (by decide) (by decide) ⟨0, 0, 0⟩ 5 1
  rw [← some.inj (hl'.symm.trans hm)] at hy
  exact absurd (hx'.unique hy) (by decide)

def DataFrom (h h' : Heap Ptr (Node α)) : Prop :=
  ∀ b n', h'.read b = some n' → ∃ n, h.read b = some n ∧ n'.p = n.p

theorem DataFrom.trans (hd : DataFrom h h') (hd' : DataFrom h' h'') : DataFrom h h'' := by
  intro b n'' hn''
  obtain ⟨n', hn', hp'⟩ := hd' b n'' hn''
  obtain ⟨n, hn, hp⟩ := hd b n' hn'
  exact ⟨n, hn, hp'.trans hp⟩

theorem dataFrom_modify {f : Node α → Node α} (hm : h.modify a f = some h')
    (hf : ∀ n, (f n).p = n.p) : DataFrom h h' := by
  obtain ⟨n, hn, rfl⟩ := map_eq_some_iff.mp hm
  intro b n' hn'
  by_cases hba : b = a
  · subst hba
    rw [Heap.read_set_self (Heap.ne_zero_of_read hn)] at hn'
    rw [← some.inj hn']
    exact ⟨n, hn, hf n⟩
  · rw [Heap.read_set_of_ne hba] at hn'
    exact ⟨n', hn', rfl⟩

theorem dataFrom_free (hm : h.free a = some h') : DataFrom h h' := by
  intro b n' hn'
  refine ⟨n', ?_, rfl⟩
  rw [Heap.free] at hm
  split at hm
  · rwa [some.inj hm]
  · obtain ⟨n, hn, rfl⟩ := map_eq_some_iff.mp hm
    rw [Heap.read_erase] at hn'
    split at hn'
    · cases hn'
    · exact hn'

theorem dataFrom_unlink {b : Ptr} (hu : unlink l index = some (b, l')) :
    DataFrom l.heap l'.heap := by
  have hkeep : DataFrom l.heap l.heap := fun b n hn ↦ ⟨n, hn, rfl⟩
  rw [unlink] at hu
  split at hu
  · split at hu
    · obtain ⟨rfl, rfl⟩ := Prod.mk.inj (some.inj hu)
      exact hkeep
    · obtain ⟨n, -, hu⟩ := bind_eq_some_iff.mp hu
      obtain ⟨h, hm, hu⟩ := bind_eq_some_iff.mp hu
      obtain ⟨rfl, rfl⟩ := Prod.mk.inj (some.inj hu)
      exact dataFrom_modify hm fun _ ↦ rfl
  · split at hu
    · obtain ⟨n, -, hu⟩ := bind_eq_some_iff.mp hu
      obtain ⟨h, hm, hu⟩ := bind_eq_some_iff.mp hu
      obtain ⟨rfl, rfl⟩ := Prod.mk.inj (some.inj hu)
      exact dataFrom_modify hm fun _ ↦ rfl
    · obtain ⟨c, -, hu⟩ := bind_eq_some_iff.mp hu
      obtain ⟨n, -, hu⟩ := bind_eq_some_iff.mp hu
      obtain ⟨h, hm, hu⟩ := bind_eq_some_iff.mp hu
      obtain ⟨m, -, hu⟩ := bind_eq_some_iff.mp hu
      obtain ⟨h', hm', hu⟩ := bind_eq_some_iff.mp hu
      obtain ⟨rfl, rfl⟩ := Prod.mk.inj (some.inj hu)
      exact (dataFrom_modify hm fun _ ↦ rfl).trans (dataFrom_modify hm' fun _ ↦ rfl)

theorem dataFrom_listRemove (hl' : listRemove l index = some l') : DataFrom l.heap l'.heap := by
  obtain ⟨⟨b, m⟩, hu, hl'⟩ := bind_eq_some_iff.mp hl'
  obtain ⟨h, hfree, hl'⟩ := bind_eq_some_iff.mp hl'
  obtain rfl := some.inj hl'
  exact (dataFrom_unlink hu).trans (dataFrom_free hfree)

theorem Rep.listRemove (hr : Rep l (es.map fst)) (hst : Stored l.heap es)
    (hidx : index < es.length) :
    ∃ l', listRemove l index = some l' ∧ Rep l' ((es.eraseIdx index).map fst) ∧
      Stored l'.heap (es.eraseIdx index) := by
  obtain ⟨s, e, t, rfl, rfl⟩ : ∃ s e t, es = s ++ e :: t ∧ s.length = index := by
    refine ⟨es.take index, es[index], es.drop (index + 1), ?_, length_take_of_le hidx.le⟩
    rw [← drop_eq_getElem_cons, take_append_drop]
  have herase : (s ++ e :: t).eraseIdx s.length = s ++ t := by
    rw [eraseIdx_append_of_length_le le_rfl, Nat.sub_self, eraseIdx_cons_zero]
  rw [map_append, map_cons] at hr
  obtain ⟨l', hl', hr'⟩ := hr.remove
  rw [length_map] at hl'
  rw [← map_append] at hr'
  rw [herase]
  refine ⟨l', hl', hr', fun f hf ↦ ?_⟩
  obtain ⟨n', hn'⟩ := hr'.seg.read_isSome (mem_map_of_mem hf)
  obtain ⟨n, hn, hp⟩ := dataFrom_listRemove hl' f.1 n' hn'
  have hmem : f ∈ s ++ e :: t :=
    mem_append.mpr ((mem_append.mp hf).imp_right (mem_cons_of_mem e))
  obtain ⟨m, hm, hval⟩ := hst f hmem
  obtain rfl := some.inj (hn.symm.trans hm)
  exact ⟨n', hn', hp.trans hval⟩

theorem Linked.listRemove (hl : Linked l) (hx : Reads l xs) (hidx : index < l.len) :
    ∃ l', listRemove l index = some l' ∧ Linked l' ∧ Reads l' (xs.eraseIdx index) := by
  obtain ⟨es, rfl, hr, hst⟩ := hl.exists_front hx
  rw [hr.len, length_map] at hidx
  obtain ⟨l', hl', hr', hst'⟩ := hr.listRemove hst hidx
  refine ⟨l', hl', linked_iff.mpr ⟨_, hr'⟩, ?_⟩
  rw [eraseIdx_map]
  exact (hr'.front hst').reads

theorem listRemove_of_empty (hl : Linked l) (hlen : l.len = 0)
    (hl' : listRemove l index = some l') : index = 0 ∧ l'.len = wordDec 0 := by
  obtain ⟨ns, hr⟩ := linked_iff.mp hl
  obtain rfl : ns = [] := eq_nil_of_length_eq_zero (hr.len.symm.trans hlen)
  have hhead : l.head = 0 := hr.seg
  have htail : l.tail = 0 := hr.tail
  obtain ⟨⟨b, m⟩, hu, hl'⟩ := bind_eq_some_iff.mp hl'
  obtain ⟨h, -, hl'⟩ := bind_eq_some_iff.mp hl'
  obtain rfl := some.inj hl'
  rw [unlink, hhead, htail] at hu
  split at hu
  next hidx =>
    rw [if_pos rfl] at hu
    obtain ⟨rfl, rfl⟩ := Prod.mk.inj (some.inj hu)
    exact ⟨hidx, congrArg wordDec hlen⟩
  next hidx =>
    obtain ⟨k, rfl⟩ := Nat.exists_eq_succ_of_ne_zero hidx
    split at hu
    · simp at hu
    · simp [walk] at hu

/-- **Removal works on every list but the empty one.** -/
theorem listRemove_iff (hl : Linked l) (hx : Reads l xs) (index : ℕ) :
    ((index < l.len →
        ∃ l' ∈ listRemove l index, Linked l' ∧ Reads l' (xs.eraseIdx index)) ∧
      (l.len = 0 → ∃ l' ∈ listRemove l index, Linked l' ∧ Reads l' [])) ↔ l.len ≠ 0 := by
  constructor
  · rintro ⟨-, hempty⟩ hlen
    obtain ⟨l', hl', -, hlen', -⟩ := hempty hlen
    rw [(listRemove_of_empty hl hlen hl').2, length_nil] at hlen'
    exact absurd hlen' (by decide)
  · intro hlen
    exact ⟨fun hidx ↦ hl.listRemove hx hidx, fun h0 ↦ absurd h0 hlen⟩

theorem listRemove_pair :
    pair.len ≠ 0 ∧
      (0 < pair.len → ∃ l' ∈ listRemove pair 0, Linked l' ∧ Reads l' ([10, 20].eraseIdx 0)) ∧
      (pair.len = 0 → ∃ l' ∈ listRemove pair 0, Linked l' ∧ Reads l' []) :=
  ⟨by decide, (listRemove_iff (linked_iff.mpr ⟨_, rep_pair⟩) reads_pair 0).mpr (by decide)⟩

/-- **Removing from an empty list leaves one of length 4294967295.** -/
theorem not_listRemove_createList :
    Linked (createList : LList ℕ) ∧ Reads (createList : LList ℕ) [] ∧
      (∃ l' ∈ listRemove (createList : LList ℕ) 0, l'.len = 0xFFFFFFFF) ∧
      ¬ ∃ l' ∈ listRemove (createList : LList ℕ) 0, Linked l' ∧ Reads l' [] := by
  refine ⟨linked_createList, front_createList.reads, ⟨_, rfl, by decide⟩, ?_⟩
  rintro ⟨l', hl', -, hlen', -⟩
  rw [(listRemove_of_empty linked_createList rfl hl').2, length_nil] at hlen'
  exact absurd hlen' (by decide)

end ForgeOS.LList
