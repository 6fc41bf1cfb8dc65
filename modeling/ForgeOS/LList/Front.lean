import ForgeOS.LList.Invariant

/-!
# A list that is read forwards only

`list_insert` at the front does not keep the list linked backwards, but the forward links are right,
up to the last node, and `list_at` follows no others.
-/

namespace ForgeOS.LList

open List Option Prod Heap

variable {α : Type} {l : LList α} {h h' : Heap Ptr (Node α)} {es : List (Ptr × α)}

def Fwd (h : Heap Ptr (Node α)) : Ptr → List (Ptr × α) → Prop
  | _, [] => True
  | a, (b, x) :: es => a = b ∧ ∃ n, h.read b = some n ∧ n.p = x ∧ (es ≠ [] → Fwd h n.next es)

structure Front (l : LList α) (es : List (Ptr × α)) : Prop where
  fwd : Fwd l.heap l.head es
  len : l.len = es.length
  tail : es ≠ [] → l.tail = (es.map fst).getLastD 0
  nodup : (es.map fst).Nodup

theorem front_createList : Front (createList : LList α) [] :=
  ⟨trivial, rfl, fun h ↦ absurd rfl h, nodup_nil⟩

variable {a : Ptr}

theorem Fwd.frame (hf : Fwd h a es) (hh : ∀ b ∈ es.map fst, ∀ n, h.read b = some n →
      ∃ n', h'.read b = some n' ∧ n'.p = n.p ∧ n'.next = n.next) : Fwd h' a es := by
  induction es generalizing a with
  | nil => trivial
  | cons e es ih =>
    obtain ⟨b, x⟩ := e
    obtain ⟨rfl, n, hn, rfl, hnext⟩ := hf
    obtain ⟨n', hn', hp, hnx⟩ := hh a (mem_cons_self ..) n hn
    refine ⟨rfl, n', hn', hp, fun hne ↦ ?_⟩
    rw [hnx]
    exact ih (hnext hne) fun b hb ↦ hh b (mem_cons_of_mem _ hb)

theorem Fwd.read (hf : Fwd h a es) : ∀ e ∈ es, ∃ n, h.read e.1 = some n ∧ n.p = e.2 := by
  induction es generalizing a with
  | nil =>
    intro e he
    exact absurd he not_mem_nil
  | cons e es ih =>
    obtain ⟨b, x⟩ := e
    obtain ⟨rfl, n, hn, rfl, hnext⟩ := hf
    intro e he
    rcases mem_cons.mp he with rfl | hmem
    · exact ⟨n, hn, rfl⟩
    · exact ih (hnext (ne_nil_of_mem hmem)) e hmem

variable {e : Ptr × α}

theorem Fwd.walk (hf : Fwd h a es) {i : ℕ} (he : es[i]? = some e) :
    LList.walk h false i a = some e.1 := by
  induction es generalizing a i with
  | nil => simp at he
  | cons d es ih =>
    obtain ⟨b, x⟩ := d
    obtain ⟨rfl, n, hn, rfl, hnext⟩ := hf
    cases i with
    | zero =>
      rw [getElem?_cons_zero] at he
      rw [← some.inj he, LList.walk]
    | succ i =>
      rw [getElem?_cons_succ] at he
      have hne : es ≠ [] := by
        rintro rfl
        simp at he
      rw [LList.walk, hn, bind_some]
      exact ih (hnext hne) he

theorem Front.ne_zero (hl : Front l es) : (0 : Ptr) ∉ es.map fst := by
  intro hmem
  obtain ⟨e, he, h0⟩ := mem_map.mp hmem
  obtain ⟨n, hn, -⟩ := hl.fwd.read e he
  rw [h0, read_zero] at hn
  cases hn

theorem Front.lt_wordSize (hl : Front l es) : l.len < wordSize := by
  rw [hl.len, ← length_map (f := fst)]
  exact length_lt_wordSize hl.nodup hl.ne_zero

theorem Front.listAt (hl : Front l es) (i : ℕ) : l.listAt i = some (es[i]?.map snd) := by
  rw [LList.listAt]
  have hlen := hl.len
  by_cases hi : l.len ≤ i
  · rw [if_pos hi, getElem?_eq_none (by omega), map_none]
  · rw [if_neg hi]
    obtain ⟨e, he⟩ : ∃ e, es[i]? = some e := ⟨_, getElem?_eq_getElem (by omega)⟩
    obtain ⟨n, hn, hp⟩ := hl.fwd.read e (mem_of_getElem? he)
    have hseek : (if i = 0 then some l.head else if wordDec l.len ≤ i then some l.tail
        else LList.walk l.heap false i l.head) = some e.1 := by
      split
      next h0 =>
        subst h0
        exact hl.fwd.walk he
      · split
        next hlast =>
          rw [wordDec_of_pos (by omega) hl.lt_wordSize] at hlast
          have hne : es ≠ [] := ne_nil_of_mem (mem_of_getElem? he)
          have hend : (es.map fst)[(es.map fst).length - 1]? = some e.1 := by
            rw [length_map, getElem?_map, show es.length - 1 = i by omega, he,
              map_some]
          rw [hl.tail hne, getLastD_eq_getLast?, getLast?_eq_getElem?, hend,
            getD_some]
        · exact hl.fwd.walk he
    rw [hseek, he]
    rw [bind_some, hn, map_some, hp, map_some]

theorem filterMap_range_getElem? {β : Type} (l : List β) :
    (List.range l.length).filterMap (fun i ↦ l[i]?) = l := by
  induction l with
  | nil => rfl
  | cons a l ih =>
    have hhead : (a :: l)[0]? = some a := getElem?_cons_zero
    rw [length_cons, range_succ_eq_map, filterMap_cons_some hhead,
      filterMap_map]
    exact congrArg (a :: ·) ih

def toList (l : LList α) : List α := (List.range l.len).filterMap fun i ↦ (l.listAt i).join

theorem getLastD_map_cons_cons (d e : Ptr × α) (es : List (Ptr × α)) :
    ((d :: e :: es).map fst).getLastD 0 = ((e :: es).map fst).getLastD 0 := by
  simp only [map_cons, getLastD_cons]

theorem Front.tail_mem (hl : Front l (e :: es)) : l.tail ∈ (e :: es).map fst := by
  rw [hl.tail (cons_ne_nil e es), map_cons, getLastD_cons]
  exact getLastD_mem_cons

theorem Front.notMem (hl : Front l es) (ha : l.heap.read a = none) : a ∉ es.map fst := by
  intro hmem
  obtain ⟨e, he, rfl⟩ := mem_map.mp hmem
  obtain ⟨n, hn, -⟩ := hl.fwd.read e he
  rw [ha] at hn
  cases hn

theorem Front.insert (hl : Front l es) (h0 : a ≠ 0) (ha : l.heap.read a = none) (junk : Node α)
    (x : α) : ∃ l', listInsert l a junk x 0 = some l' ∧ Front l' ((a, x) :: es) := by
  have hfresh := hl.notMem ha
  have hnd : (((a, x) :: es).map fst).Nodup := nodup_cons.mpr ⟨hfresh, hl.nodup⟩
  cases es with
  | nil =>
    refine ⟨_, listInsert_empty hl.len h0 ha, ?_, rfl, fun _ ↦ rfl, hnd⟩
    exact ⟨rfl, { junk with p := x }, read_set_self h0, rfl, fun hne ↦ absurd rfl hne⟩
  | cons e es =>
    have hlen : l.len ≠ 0 := by
      rw [hl.len]
      exact Nat.succ_ne_zero _
    have ht : l.tail ≠ 0 := fun hzero ↦ hl.ne_zero (hzero ▸ hl.tail_mem)
    refine ⟨_, listInsert_front hlen ht h0 ha, ?_, ?_, ?_, hnd⟩
    · refine ⟨rfl, ⟨x, l.head, 0⟩, read_set_self h0, rfl, fun _ ↦ hl.fwd.frame ?_⟩
      intro b hb n hn
      have hne : b ≠ a := fun hba ↦ hfresh (hba ▸ hb)
      exact ⟨n, by rw [read_set_of_ne hne, hn], rfl, rfl⟩
    · have hz : (0 : Ptr) ∉ ((a, x) :: e :: es).map fst := by
        rw [map_cons, mem_cons, not_or]
        exact ⟨h0.symm, hl.ne_zero⟩
      have hlt := length_lt_wordSize hnd hz
      rw [length_map, length_cons] at hlt
      show wordInc l.len = _
      rw [hl.len, wordInc_of_lt hlt]
      rfl
    · intro _
      show l.tail = _
      rw [getLastD_map_cons_cons, hl.tail (cons_ne_nil e es)]

theorem Fwd.insert_after {a b p q : Ptr} {fs : List (Ptr × α)} {t : Node α}
    {x : α} (hf : Fwd h a (es ++ e :: fs)) (ht : h.read e.1 = some t)
    (hnd : ((es ++ e :: fs).map fst).Nodup) (hq : fs ≠ [] → q = t.next)
    (hb : h'.read b = some ⟨x, q, p⟩) (he : h'.read e.1 = some { t with next := b })
    (hh : ∀ c ∈ (es ++ e :: fs).map fst, c ≠ e.1 → h'.read c = h.read c) :
    Fwd h' a (es ++ e :: (b, x) :: fs) := by
  induction es generalizing a with
  | nil =>
    obtain ⟨c, y⟩ := e
    obtain ⟨rfl, n, hn, rfl, hnext⟩ := hf
    rw [hn] at ht
    obtain rfl := some.inj ht
    refine ⟨rfl, _, he, rfl, fun _ ↦ ⟨rfl, _, hb, rfl, fun hne ↦ ?_⟩⟩
    rw [hq hne]
    refine (hnext hne).frame fun c hc m hm ↦ ⟨m, ?_, rfl, rfl⟩
    have hca : c ≠ a := fun hca ↦ (nodup_cons.mp hnd).1 (hca ▸ hc)
    rw [hh c (mem_cons_of_mem _ hc) hca, hm]
  | cons d es ih =>
    obtain ⟨c, y⟩ := d
    obtain ⟨rfl, n, hn, rfl, hnext⟩ := hf
    obtain ⟨hc, hnd⟩ := nodup_cons.mp hnd
    have hae : a ≠ e.1 := fun hae ↦
      hc (mem_map.mpr ⟨e, mem_append_right es (mem_cons_self ..), hae.symm⟩)
    refine ⟨rfl, n, ?_, rfl, fun _ ↦ ih (hnext (by simp)) hnd ?_⟩
    · rw [hh a (mem_cons_self ..) hae, hn]
    · exact fun c hc ↦ hh c (mem_cons_of_mem _ hc)

variable {index : ℕ}

theorem Front.insert_back (hl : Front l (es ++ [e])) (h0 : a ≠ 0) (ha : l.heap.read a = none)
    (junk : Node α) (x : α) (hidx : index ≠ 0) (hback : es.length ≤ index) :
    ∃ l', listInsert l a junk x index = some l' ∧ Front l' (es ++ [e, (a, x)]) := by
  have hlen := hl.len
  rw [length_append, length_singleton] at hlen
  have htail : l.tail = e.1 := by
    rw [hl.tail (by simp), map_append, map_singleton, getLastD_concat]
  obtain ⟨t, ht, -⟩ := hl.fwd.read e (by simp)
  have hfresh := hl.notMem ha
  have hsnoc : es ++ [e, (a, x)] = (es ++ [e]) ++ [(a, x)] := by simp
  have hmap : (es ++ [e, (a, x)]).map fst = (es ++ [e]).map fst ++ [a] := by simp
  have hnd : ((es ++ [e, (a, x)]).map fst).Nodup := by
    rw [hmap, ← concat_eq_append]
    exact hl.nodup.concat hfresh
  refine ⟨_, listInsert_back (by omega) hidx (by omega) (htail ▸ ht) h0 ha, ?_, ?_, ?_, hnd⟩
  · have hea : e.1 ≠ a := fun hea ↦ hfresh (by simp [← hea])
    rw [htail]
    refine hl.fwd.insert_after ht hl.nodup (fun hne ↦ absurd rfl hne) (read_set_self h0) ?_
      fun c hc hce ↦ ?_
    · rw [read_set_of_ne hea, read_set_self (ne_zero_of_read ht)]
    · have hca : c ≠ a := fun hca ↦ hfresh (hca ▸ hc)
      rw [read_set_of_ne hca, read_set_of_ne hce]
  · have hz : (0 : Ptr) ∉ (es ++ [e, (a, x)]).map fst := by
      rw [hmap, mem_append, not_or, mem_singleton]
      exact ⟨hl.ne_zero, h0.symm⟩
    have hlt := length_lt_wordSize hnd hz
    rw [length_map, hsnoc, length_append, length_singleton, ← hl.len] at hlt
    show wordInc l.len = _
    rw [hsnoc, length_append, length_singleton, ← hl.len, wordInc_of_lt hlt]
  · intro _
    rw [hmap, getLastD_concat]

theorem Front.insert_after {s t : List (Ptr × α)} {e f : Ptr × α} (hl : Front l (s ++ e :: f :: t))
    (h0 : a ≠ 0) (ha : l.heap.read a = none) (junk : Node α) (x : α) (hidx : index ≠ 0)
    (hmid : index + 1 < (s ++ e :: f :: t).length)
    (hseek : seek l (l.heap.set a { junk with p := x }) index = some e.1) :
    ∃ l', listInsert l a junk x index = some l' ∧ Front l' (s ++ e :: (a, x) :: f :: t) := by
  have hlen := hl.len
  have hfresh := hl.notMem ha
  obtain ⟨n, hn, -⟩ := hl.fwd.read e (by simp)
  have htail : l.tail ≠ 0 := by
    intro hzero
    refine hl.ne_zero (hzero ▸ ?_)
    rw [hl.tail (by simp), map_append, map_cons, getLastD_append_cons]
    exact mem_append_right _ getLastD_mem_cons
  have hperm : ((s ++ e :: (a, x) :: f :: t).map fst).Perm
      (a :: (s ++ e :: f :: t).map fst) := by
    have hcut : s ++ e :: (a, x) :: f :: t = (s ++ [e]) ++ (a, x) :: f :: t := by simp
    rw [hcut, map_append, map_cons]
    refine perm_middle.trans ?_
    simp
  have hnd : (a :: (s ++ e :: f :: t).map fst).Nodup :=
    nodup_cons.mpr ⟨hfresh, hl.nodup⟩
  refine ⟨_, listInsert_middle (by omega) hidx (by omega) htail h0 ha hseek hn, ?_, ?_, ?_,
    hperm.nodup_iff.mpr hnd⟩
  · have hea : e.1 ≠ a := fun hea ↦ hfresh (by simp [← hea])
    refine hl.fwd.insert_after (p := e.1) hn hl.nodup (fun _ ↦ rfl) ?_
      (read_set_self (ne_zero_of_read hn)) fun d hd hde ↦ ?_
    · rw [read_set_of_ne hea.symm, read_set_self h0]
    · have hda : d ≠ a := fun hda ↦ hfresh (hda ▸ hd)
      rw [read_set_of_ne hde, read_set_of_ne hda]
  · have hz : (0 : Ptr) ∉ a :: (s ++ e :: f :: t).map fst := by
      rw [mem_cons, not_or]
      exact ⟨h0.symm, hl.ne_zero⟩
    have hlt := length_lt_wordSize hnd hz
    rw [length_cons, length_map, ← hlen] at hlt
    show wordInc l.len = _
    rw [wordInc_of_lt hlt, hlen]
    simp only [length_append, length_cons]
    omega
  · intro _
    show l.tail = _
    rw [hl.tail (by simp)]
    simp only [map_append, map_cons, getLastD_append_cons, getLastD_cons]

theorem Front.insert_forward (hl : Front l es) (h0 : a ≠ 0) (ha : l.heap.read a = none)
    (junk : Node α) (x : α) (hidx : index ≠ 0) (hhalf : index ≤ es.length / 2)
    (hmid : index + 1 < es.length) : ∃ l', listInsert l a junk x index = some l' ∧
      Front l' (es.take (index + 1) ++ (a, x) :: es.drop (index + 1)) := by
  have hcut : es = es.take index ++ es[index] :: es[index + 1] :: es.drop (index + 2) := by
    rw [← drop_eq_getElem_cons, ← drop_eq_getElem_cons, take_append_drop]
  have hfwd : Fwd (l.heap.set a { junk with p := x }) l.head es := by
    refine hl.fwd.frame fun b hb n hn ↦ ⟨n, ?_, rfl, rfl⟩
    have hne : b ≠ a := fun hba ↦ hl.notMem ha (hba ▸ hb)
    rw [read_set_of_ne hne, hn]
  have hseek : seek l (l.heap.set a { junk with p := x }) index = some es[index].1 := by
    rw [seek, if_neg (by rw [hl.len]; omega)]
    exact hfwd.walk (getElem?_eq_getElem (by omega))
  have hfront := hl
  rw [hcut] at hfront
  obtain ⟨l', hl', hf'⟩ := hfront.insert_after h0 ha junk x hidx (by rw [← hcut]; exact hmid) hseek
  refine ⟨l', hl', ?_⟩
  rw [take_add_one, getElem?_eq_getElem (by omega), toList_some, append_assoc,
    singleton_append, drop_eq_getElem_cons hmid]
  exact hf'

theorem Front.remove {b : Ptr} {x : α} (hl : Front l ((b, x) :: es)) :
    ∃ l', listRemove l 0 = some l' ∧ Front l' es := by
  obtain ⟨hhead, n, hn, -, hnext⟩ := hl.fwd
  obtain ⟨hb, hnd⟩ := nodup_cons.mp hl.nodup
  have htail := hl.tail (cons_ne_nil _ _)
  have hdec : wordDec l.len = es.length := by
    rw [wordDec_of_pos (by rw [hl.len]; exact Nat.succ_pos _) hl.lt_wordSize, hl.len,
      length_cons, Nat.add_sub_cancel]
  cases es with
  | nil =>
    have hends : l.head = l.tail := hhead.trans htail.symm
    have hfree : l.heap.free b = some (l.heap.erase b) := free_eq hn
    refine ⟨⟨wordDec l.len, 0, 0, l.heap.erase b⟩, ?_, trivial, hdec, fun hne ↦ absurd rfl hne, hnd⟩
    simp [listRemove, unlink, ← hends, hfree, hhead]
  | cons e es =>
    obtain ⟨c, y⟩ := e
    obtain ⟨rfl, m, hm, -, -⟩ := hnext (cons_ne_nil _ _)
    rw [getLastD_map_cons_cons] at htail
    have hlast : l.tail ∈ ((n.next, y) :: es).map fst := by
      rw [htail, map_cons, getLastD_cons]
      exact getLastD_mem_cons
    have hends : l.head ≠ l.tail := by
      intro heq
      rw [← heq, hhead] at hlast
      exact hb hlast
    have hbc : b ≠ n.next := fun heq ↦ hb (heq ▸ mem_cons_self ..)
    refine ⟨⟨wordDec l.len, n.next, l.tail, (l.heap.set n.next { m with prev := 0 }).erase b⟩,
      ?_, ?_,
      hdec, ?_, hnd⟩
    · have hfree : (l.heap.set n.next { m with prev := 0 }).free b =
          some ((l.heap.set n.next { m with prev := 0 }).erase b) := by
        refine free_eq (v := n) ?_
        rw [read_set_of_ne hbc, hn]
      rw [listRemove, unlink, if_pos rfl, if_neg hends, hhead, hn]
      simp [modify_eq hm, hfree]
    · refine (hnext (cons_ne_nil _ _)).frame fun d hd k hk ↦ ?_
      have hdb : d ≠ b := fun heq ↦ hb (heq ▸ hd)
      rw [read_erase_of_ne hdb]
      by_cases hdc : d = n.next
      · subst hdc
        rw [hm] at hk
        obtain rfl := some.inj hk
        exact ⟨_, read_set_self (ne_zero_of_read hm), rfl, rfl⟩
      · exact ⟨k, by rw [read_set_of_ne hdc, hk], rfl, rfl⟩
    · intro _
      exact htail

end ForgeOS.LList
