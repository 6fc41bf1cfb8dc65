import ForgeOS.LList.Position

/-!
# A list that is filled at its end

`list_insert` does not initialise the first node of an empty list, but the link of an only node is
followed by nobody, and the next insertion at the end overwrites it.
-/

namespace ForgeOS.LList

open List Option

variable {α : Type} {l : LList α} {es : List (Ptr × α)} {a : Ptr} {junk : Node α} {x : α}
  {index : ℕ}

/-- The list has the nodes and data `es`.  If there is just one node, what it links to is not
said. -/
structure Back (l : LList α) (es : List (Ptr × α)) : Prop where
  front : Front l es
  rep : es.length ≠ 1 → Rep l (es.map Prod.fst)

theorem back_createList : Back (createList : LList α) [] :=
  ⟨front_createList, fun _ ↦ ⟨⟨0, rfl⟩, rfl, rfl⟩⟩

theorem Front.rep_second {e : Ptr × α} {t : Node α} (hl : Front l [e])
    (ht : l.heap.read l.tail = some t) (h0 : a ≠ 0) (ha : l.heap.read a = none) :
    Rep (⟨wordInc l.len, l.head, a,
      (l.heap.set l.tail { t with next := a }).set a ⟨x, 0, l.tail⟩⟩ : LList α) [e.1, a] := by
  have hhead : l.head = e.1 := hl.fwd.1
  have htail : l.tail = e.1 := hl.tail (cons_ne_nil e [])
  have hinc : wordInc l.len = 2 := by
    rw [hl.len, length_singleton]
    decide
  have hea : e.1 ≠ a := by
    rintro rfl
    rw [htail, ha] at ht
    cases ht
  rw [htail] at ht ⊢
  refine ⟨⟨t.prev, hhead, { t with next := a }, ?_, rfl, rfl, ⟨x, 0, e.1⟩, ?_, hhead.symm, rfl⟩,
    hinc, rfl⟩
  · rw [hhead, Heap.read_set_of_ne hea, Heap.read_set_self (Heap.ne_zero_of_read ht)]
  · exact Heap.read_set_self h0

theorem Back.insert (hl : Back l es) (h0 : a ≠ 0) (ha : l.heap.read a = none) (junk : Node α)
    (x : α) (hidx : index ≠ 0) (hback : es.length ≤ index + 1) :
    ∃ l', listInsert l a junk x index = some l' ∧ Back l' (es ++ [(a, x)]) := by
  rcases eq_nil_or_concat' es with rfl | ⟨s, e, rfl⟩
  · obtain ⟨l', hl', hf⟩ := hl.front.insert h0 ha junk x
    rw [listInsert_empty hl.front.len h0 ha] at hl'
    refine ⟨l', (listInsert_empty hl.front.len h0 ha).trans hl', hf, fun hone ↦ absurd rfl hone⟩
  have hne : (s ++ [e]).map Prod.fst ≠ [] := by simp
  have hlen := hl.front.len
  rw [length_append, length_singleton] at hlen hback
  obtain ⟨t, ht⟩ : ∃ t, l.heap.read l.tail = some t := by
    obtain ⟨t, ht, -⟩ := hl.front.fwd.read e (by simp)
    refine ⟨t, ?_⟩
    rw [hl.front.tail (by simp), map_append, map_singleton, getLastD_concat, ht]
  obtain ⟨l', hl', hf⟩ := hl.front.insert_back h0 ha junk x hidx (by omega)
  have hsnoc : (s ++ [e]) ++ [(a, x)] = s ++ [e, (a, x)] := by simp
  refine ⟨l', hl', hsnoc ▸ hf, fun _ ↦ ?_⟩
  rw [listInsert_back (by omega) hidx (by omega) ht h0 ha] at hl'
  obtain rfl := some.inj hl'
  rw [map_append]
  by_cases hone : (s ++ [e]).length = 1
  · -- the list had one node, about whose link nothing is known
    obtain rfl : s = [] := by simpa using hone
    exact hl.front.rep_second ht h0 ha
  · exact (hl.rep hone).back hne ht h0 ha

theorem Back.remove (hl : Back l es) (hidx : index < es.length) :
    ∃ l', listRemove l index = some l' ∧ Back l' (es.eraseIdx index) := by
  by_cases hone : es.length = 1
  · obtain ⟨⟨b, y⟩, rfl⟩ := length_eq_one_iff.mp hone
    obtain rfl : index = 0 := by simpa using hidx
    obtain ⟨rfl, n, hn, -, -⟩ := hl.front.fwd
    have htail : l.tail = l.head := hl.front.tail (cons_ne_nil _ _)
    obtain ⟨l', hl', hf⟩ := hl.front.remove
    refine ⟨l', hl', hf, fun _ ↦ ?_⟩
    have heq : listRemove l 0 = some ⟨wordDec l.len, 0, 0, l.heap.erase l.head⟩ := by
      simp [listRemove, unlink, htail, Heap.free_eq hn]
    obtain rfl := some.inj (heq.symm.trans hl')
    exact ⟨⟨0, rfl⟩, hf.len, rfl⟩
  · obtain ⟨l', hl', hr', hst'⟩ := (hl.rep hone).listRemove hl.front.fwd.read hidx
    exact ⟨l', hl', hr'.front hst', fun _ ↦ hr'⟩

end ForgeOS.LList
