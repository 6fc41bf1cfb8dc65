import ForgeOS.LList.Front
import ForgeOS.Mmio.Model

/-!
# The list of the regions

Only the last region of the pool is ever free, so `list_insert` is only called for a position past
the end, where it appends.
-/

namespace ForgeOS.MmioPool

open List Heap

structure Entry where
  node : Ptr
  ptr : Ptr
  region : Region

structure Lists (s : MmioPool) (es : List Entry) : Prop where
  front : s.freelist.Front (es.map fun e ↦ (e.node, e.ptr))
  read : ∀ e ∈ es, s.regions.read e.ptr = some e.region
  nodup : (es.map Entry.ptr).Nodup

structure Holds (s : MmioPool) (es : List Entry) (e : Entry) : Prop where
  lists : s.Lists (es ++ [e])
  taken : ∀ x ∈ es, x.region.allocated = true

variable {s : MmioPool} {es : List Entry} {e : Entry} {i : ℕ} {size : UInt32}

theorem Lists.len (h : s.Lists es) : s.freelist.len = es.length := by
  rw [h.front.len, length_map]

theorem Lists.listAt (h : s.Lists es) (i : ℕ) :
    s.freelist.listAt i = some (es[i]?.map Entry.ptr) := by
  rw [h.front.listAt, getElem?_map, Option.map_map]
  rfl

theorem Lists.regionAt (h : s.Lists es) (i : ℕ) : s.regionAt i = es[i]?.map Entry.region := by
  rw [MmioPool.regionAt, h.listAt, Option.bind_some]
  cases he : es[i]? with
  | none => rfl
  | some e => exact h.read e (mem_of_getElem? he)

theorem Lists.find_succ (h : s.Lists es) (he : es[i]? = some e) (k : ℕ) :
    s.find size (k + 1) i =
      if e.region.allocated ∨ e.region.len < size then s.find size k (i + 1)
      else some (some (i + 1, e.ptr, e.region)) := by
  simp only [find, h.listAt, he, h.read e (mem_of_getElem? he), Option.map_some,
    Option.bind_eq_bind, Option.bind_some]

theorem Holds.find (h : s.Holds es e) (size : UInt32) :
    s.find size s.freelist.len 0 =
      some (if e.region.allocated ∨ e.region.len < size then none
        else some (es.length + 1, e.ptr, e.region)) := by
  -- By induction on the number of positions to go, all of which but the last are skipped.
  have hfrom : ∀ k i, i + k = es.length → s.find size (k + 1) i =
      some (if e.region.allocated ∨ e.region.len < size then none
        else some (es.length + 1, e.ptr, e.region)) := by
    intro k
    induction k with
    | zero =>
      rintro i rfl
      rw [h.lists.find_succ (getElem?_concat_length ..)]
      split <;> rfl
    | succ k ih =>
      intro i hi
      obtain ⟨x, hx⟩ : ∃ x, es[i]? = some x := ⟨_, getElem?_eq_getElem (by omega)⟩
      have hx' : (es ++ [e])[i]? = some x := by
        rw [getElem?_append_left (by omega), hx]
      rw [h.lists.find_succ hx', if_pos (.inl (h.taken x (mem_of_getElem? hx))),
        ih (i + 1) (by omega)]
  rw [h.lists.len, length_append, length_singleton]
  exact hfrom es.length 0 (by omega)

theorem Lists.update {ts : List Entry} (h : s.Lists (es ++ e :: ts)) (r : Region) :
    ({ s with regions := s.regions.set e.ptr r } : MmioPool).Lists
      (es ++ { e with region := r } :: ts) where
  front := by
    have hfront := h.front
    rw [map_append, map_cons] at hfront ⊢
    exact hfront
  read := by
    have hread : s.regions.read e.ptr = some e.region := h.read e (by simp)
    have hother : ∀ x, x ∈ es ∨ x ∈ ts →
        (s.regions.set e.ptr r).read x.ptr = some x.region := by
      intro x hx
      have hne : x.ptr ≠ e.ptr := by
        have hnd := h.nodup
        rw [map_append, map_cons, nodup_middle, nodup_cons,
          ← map_append] at hnd
        exact fun heq ↦ hnd.1 (mem_map.mpr ⟨x, mem_append.mpr hx, heq⟩)
      rw [read_set_of_ne hne]
      refine h.read x ?_
      rcases hx with hx | hx
      · exact mem_append_left _ hx
      · exact mem_append_right _ (mem_cons_of_mem _ hx)
    intro x hx
    rcases mem_append.mp hx with hx | hx
    · exact hother x (.inl hx)
    · rcases mem_cons.mp hx with rfl | hx
      · exact read_set_self (ne_zero_of_read hread)
      · exact hother x (.inr hx)
  nodup := by
    have hnd := h.nodup
    rw [map_append, map_cons] at hnd ⊢
    exact hnd

variable {op : Op}

theorem Lists.append (h : s.Lists (es ++ [e])) (hfresh : s.Fresh op) (r : Region) :
    ∃ l, s.freelist.listInsert op.c op.junk op.a (es.length + 1) = some l ∧
      ({ s with freelist := l, regions := s.regions.set op.a r } : MmioPool).Lists
        (es ++ [e, ⟨op.c, op.a, r⟩]) := by
  obtain ⟨ha, hafree, hc, hcfree⟩ := hfresh
  have hfront := h.front
  rw [map_append, map_singleton] at hfront
  obtain ⟨l, hl, hfront'⟩ := hfront.insert_back hc hcfree op.junk op.a (Nat.succ_ne_zero es.length)
    (by rw [length_map]; omega)
  have hnew : op.a ∉ (es ++ [e]).map Entry.ptr := by
    intro hmem
    obtain ⟨x, hx, hxa⟩ := mem_map.mp hmem
    have hread := h.read x hx
    rw [hxa, hafree] at hread
    cases hread
  refine ⟨l, hl, ?_, fun x hx ↦ ?_, ?_⟩
  · rw [map_append]
    exact hfront'
  · have hcases : x ∈ es ++ [e] ∨ x = ⟨op.c, op.a, r⟩ := by
      simpa [or_assoc] using hx
    rcases hcases with hx | rfl
    · have hne : x.ptr ≠ op.a := fun heq ↦ hnew (heq ▸ mem_map_of_mem hx)
      exact (read_set_of_ne hne).trans (h.read x hx)
    · exact read_set_self ha
  · have hsnoc : (es ++ [e, ⟨op.c, op.a, r⟩]).map Entry.ptr =
        (es ++ [e]).map Entry.ptr ++ [op.a] := by
      simp
    rw [hsnoc, ← concat_eq_append]
    exact h.nodup.concat hnew

def rest (op : Op) (r : Region) (size : UInt32) : List Entry :=
  if r.len ≠ size then [⟨op.c, op.a, ⟨r.base + size, r.len - size, false⟩⟩] else []

theorem Holds.split (h : s.Holds es e) (hfresh : s.Fresh op) (size : UInt32) :
    ∃ s', s.split op.a op.c op.junk e.region size (es.length + 1) = some s' ∧
      s'.Lists (es ++ e :: rest op e.region size) ∧ s'.space = s.space ∧ s'.grants = s.grants := by
  unfold MmioPool.split rest
  split
  · obtain ⟨l, hl, hlists⟩ := h.lists.append hfresh ⟨e.region.base + size, e.region.len - size,
      false⟩
    refine ⟨_, ?_, hlists, rfl, rfl⟩
    simp only [alloc_eq hfresh.1 hfresh.2.1, hl, Option.bind_eq_bind, Option.bind_some]
  · exact ⟨s, rfl, h.lists, rfl, rfl⟩

theorem Holds.claim_none (h : s.Holds es e) (hno : e.region.allocated ∨ e.region.len < size)
    (op : Op) : s.claim op.a op.c op.junk size = some (none, s) := by
  simp only [claim, h.find, if_pos hno, Option.bind_eq_bind, Option.bind_some]

theorem Holds.claim_some (h : s.Holds es e) (hfresh : s.Fresh op)
    (hyes : ¬ (e.region.allocated ∨ e.region.len < size)) :
    ∃ s', s.claim op.a op.c op.junk size = some (some e.region.base, s') ∧
      s'.Lists (es ++ { e with region := ⟨e.region.base, size, true⟩ } :: rest op e.region size) ∧
      s'.space = s.space ∧ s'.grants = s.grants := by
  obtain ⟨s1, hsplit, hlists, hspace, hgrants⟩ := h.split hfresh size
  have hread : s1.regions.read e.ptr = some e.region := hlists.read e (by simp)
  refine ⟨{ s1 with regions := s1.regions.set e.ptr ⟨e.region.base, size, true⟩ }, ?_,
    hlists.update ⟨e.region.base, size, true⟩, hspace, hgrants⟩
  simp only [claim, h.find, if_neg hyes, hsplit, modify_eq hread, Option.bind_eq_bind,
    Option.bind_some]

theorem Holds.call_none (h : s.Holds es e)
    (hno : e.region.allocated ∨ e.region.len < pageLen op.len op.tophys) :
    s.call op = some (0, s) := by
  simp only [call, mmiopoolAlloc, h.claim_none hno, Option.bind_eq_bind, Option.bind_some]

theorem Holds.call_some (h : s.Holds es e) (hfresh : s.Fresh op)
    (hyes : ¬ (e.region.allocated ∨ e.region.len < pageLen op.len op.tophys)) :
    ∃ s', s.call op = some (e.region.base, s') ∧
      s'.Lists (es ++ { e with region := ⟨e.region.base, pageLen op.len op.tophys, true⟩ } ::
        rest op e.region (pageLen op.len op.tophys)) ∧
      s'.space = mapPages s.space e.region.base (physBase op.tophys)
        ((pageLen op.len op.tophys).toNat / 0x1000) ∧
      s'.grants = ⟨e.region.base, op.len, op.tophys⟩ :: s.grants := by
  obtain ⟨s1, hclaim, hlists, hspace, hgrants⟩ := h.claim_some hfresh hyes
  refine ⟨{ s1 with
    space := mapPages s1.space e.region.base (physBase op.tophys)
      ((pageLen op.len op.tophys).toNat / 0x1000)
    grants := ⟨e.region.base, op.len, op.tophys⟩ :: s1.grants }, ?_,
    ⟨hlists.front, hlists.read, hlists.nodup⟩, by rw [hspace], by rw [hgrants]⟩
  simp only [call, mmiopoolAlloc, hclaim, Option.bind_eq_bind, Option.bind_some]

theorem Holds.next {s' : MmioPool} {e' : Entry} {size : UInt32} (h : s.Holds es e)
    (halloc : e'.region.allocated = true) (hlists : s'.Lists (es ++ e' :: rest op e.region size)) :
    (e.region.len = size ∧ s'.Holds es e') ∨
      (e.region.len ≠ size ∧
        s'.Holds (es ++ [e']) ⟨op.c, op.a,
        ⟨e.region.base + size, e.region.len - size, false⟩⟩) := by
  unfold rest at hlists
  by_cases hsize : e.region.len = size
  · rw [if_neg (not_not.mpr hsize)] at hlists
    exact .inl ⟨hsize, hlists, h.taken⟩
  · rw [if_pos hsize] at hlists
    refine .inr ⟨hsize, by rwa [append_assoc], fun x hx ↦ ?_⟩
    rcases mem_append.mp hx with hx | hx
    · exact h.taken x hx
    · rw [mem_singleton.mp hx, halloc]

theorem holds_initMmiopool (space : Vmem.Space) {a c : Ptr} (mmiobase maxsz : UInt32) (ha : a ≠ 0)
    (hc : c ≠ 0) (junk : LList.Node Ptr) :
    ∃ s, initMmiopool space a c junk mmiobase maxsz = some s ∧
      s.Holds [] ⟨c, a, ⟨mmiobase, maxsz, false⟩⟩ ∧ s.grants = [] := by
  obtain ⟨l, hl, hfront⟩ := LList.front_createList.insert hc (read_empty c) junk a
  refine ⟨⟨l, empty.set a ⟨mmiobase, maxsz, false⟩, space, []⟩, ?_,
    ⟨⟨hfront, ?_, ?_⟩, ?_⟩, rfl⟩
  · simp only [initMmiopool, alloc_eq ha (read_empty a), hl, Option.bind_eq_bind,
      Option.bind_some]
  · intro x hx
    obtain rfl := mem_singleton.mp hx
    exact read_set_self ha
  · exact nodup_singleton a
  · exact fun x hx ↦ absurd hx not_mem_nil

end ForgeOS.MmioPool
