import ForgeOS.Cache.Model
import ForgeOS.Tree.Map

/-!
# The blocks of a cache

In the abstract a cache is the list of its blocks, in the order in which they were made (`Entry`).

The main result is `coherent_of_stepOk`.
-/

namespace ForgeOS.Cache

open ForgeOS.Tree BinaryTree Function List Option Prod Vmem

/-- **The blocks of a cache whose pool has `n` pages from `base` on.** -/
structure Coherent (base n : ℕ) (s : Cache) : Prop where
  /-- The same offset always yields the same block. -/
  same : ∀ o b b', (o, b) ∈ s.started → (o, b') ∈ s.started → b = b'
  /-- A block is inside the pool, and its count is that of its starts without its dones. -/
  block : ∀ o b, (o, b) ∈ s.started → ∃ bd, s.blocks.read b = some bd ∧ base ≤ bd.addr ∧
    bd.addr + 0x1000 ≤ base + 0x1000 * n ∧
    bd.refcount + s.finished.count b = (s.started.map snd).count b
  /-- Different offsets have buffers that do not overlap. -/
  apart : ∀ o b o' b', (o, b) ∈ s.started → (o', b') ∈ s.started → o ≠ o' →
    ∀ bd bd', s.blocks.read b = some bd → s.blocks.read b' = some bd' →
      bd.addr + 0x1000 ≤ bd'.addr ∨ bd'.addr + 0x1000 ≤ bd.addr
  /-- The offsets that have been started are cached, and no others. -/
  cached : ∀ o, Returns (fun fuel ↦ cacheIscached fuel s o)
    (if o ∈ s.started.map fst then 1 else 0)

/-- The calls of `cache_startblock` are for the offsets in a set, and those of `cache_doneblock` are
balanced; nothing is evicted.  `malloc` returns memory that is not in use, and so does `pmem_alloc`
unless there is none.  Bytes are written where there is memory. -/
def Allowed (offsets : Finset Ptr) (s : Cache) : Op → Prop
  | .start offset b a frames =>
    offset ∈ offsets ∧ (b ≠ 0 ∧ b ≠ notFoundPtr ∧ s.blocks.read b = none) ∧
      (a ≠ 0 ∧ s.blockdata.tree.heap.read a = none) ∧
      ((frames 0).1 ≠ 0 → IsFrame (frames 0).1) ∧
      ((frames 0).2 ≠ 0 → s.pool.vmem.Unused (frames 0).2)
  | .done b => s.finished.count b < (s.started.map snd).count b
  | .write p _ => s.pool.vmem.archVmemIsmapped p = some true
  | .evict _ _ => False

structure Room (s : Cache) (frames : ℕ → UInt64 × UInt64) : Prop where
  /-- The bitmap has a word for the next page. -/
  word : s.pool.book.allocCount / 32 < s.pool.book.bitmap.length
  /-- The page is below the window. -/
  low : s.pool.book.base + (s.pool.book.allocCount + 1) * 0x1000 ≤ 0xFFC00000
  /-- There is memory for it. -/
  memory : s.pool.vmem.archVmemIsmapped
      (UInt32.ofNat (s.pool.book.base + s.pool.book.allocCount * 0x1000)) = some true ∨
    (frames 0).1 ≠ 0 ∧ (frames 0).2 ≠ 0
  /-- The length of the tree does not become 0. -/
  len : wordInc s.blockdata.tree.len ≠ 0

def StepOk (s : Cache) : Op → Prop
  | .start offset _ _ frames =>
    (∀ b bd, (offset, b) ∈ s.started → s.blocks.read b = some bd → bd.refcount + 1 < wordSize) ∧
      (offset ∉ s.started.map fst → s.Room frames)
  | _ => True

structure Entry where
  offset : Ptr
  block : Ptr
  node : Ptr
  deriving DecidableEq

def Entry.ofCell (x : Cell Ptr Ptr) : Entry := ⟨x.key, x.val, x.addr⟩

/-! ## The index -/

structure Indexed (tree : Tree Ptr Ptr) (t : Shape Ptr Ptr) (es : List Entry) : Prop where
  at_ : At tree [] t
  below : ExactBelow t
  ordered : Ordered defaultComparer notFoundPtr (cores t)
  len : t ≠ .nil → tree.len ≠ 0
  nodes : ∀ a, tree.counts a ≠ none → a ∈ addrs t
  entries : ((cores t).map Entry.ofCell).Perm es

variable {tree : Tree Ptr Ptr} {t : Shape Ptr Ptr} {es : List Entry} {e e' : Entry} {o b a : Ptr}

theorem Indexed.offset_nodup (h : Indexed tree t es) : (es.map Entry.offset).Nodup := by
  have hkeys : ((cores t).map Cell.key).Nodup :=
    List.pairwise_map.mpr (h.ordered.sorted.imp fun hlt ↦ totalComparer_default.ne hlt)
  rw [← (h.entries.map Entry.offset).nodup_iff, List.map_map]
  exact hkeys

theorem Indexed.eq_of_offset (h : Indexed tree t es) (he : e ∈ es) (he' : e' ∈ es)
    (heq : e.offset = e'.offset) : e = e' :=
  inj_on_of_nodup_map h.offset_nodup he he' heq

theorem Indexed.node_mem (h : Indexed tree t es) (ha : tree.heap.read a ≠ none) :
    a ∈ es.map Entry.node := by
  have hmem : a ∈ addrs t := by
    refine h.nodes a fun hcounts ↦ ha ?_
    rwa [counts, Option.map_eq_none_iff] at hcounts
  rw [addrs_eq_map_cores] at hmem
  rwa [← (h.entries.map Entry.node).mem_iff, List.map_map]

theorem Indexed.search (h : Indexed tree t es) (o : Ptr) :
    (∃ e ∈ es, e.offset = o ∧ e.block ≠ notFoundPtr ∧
      Returns (fun fuel ↦ treeSearch defaultComparer notFoundPtr fuel tree o) e.block) ∨
    (∀ e ∈ es, e.offset ≠ o) ∧
      Returns (fun fuel ↦ treeSearch defaultComparer notFoundPtr fuel tree o) notFoundPtr := by
  have hroot : tree.root = ptr t := h.at_.around
  rcases h.at_.find totalComparer_default h.ordered.shape o with
    ⟨c, x, l, r, hfind, rfl, hat, hplug⟩ | ⟨hfind, habsent⟩
  · have hx : x.core ∈ cores t := by
      rw [← plug_nil t, ← hplug, cores_plug_node]
      simp
    have ht : t ≠ .nil := by
      rintro rfl
      simp [cores] at hx
    refine .inl ⟨Entry.ofCell x.core, h.entries.mem_iff.mp (mem_map_of_mem hx), rfl,
      h.ordered.vals _ hx, t.height + 1, fun fuel hfuel ↦ ?_⟩
    exact hat.treeSearch_of_find (h.len ht) (hroot ▸ hfind fuel (by omega))
  · refine .inr ⟨fun e he heq ↦ ?_, t.height + 1, fun fuel hfuel ↦ ?_⟩
    · obtain ⟨y, hy, rfl⟩ := mem_map.mp (h.entries.mem_iff.mpr he)
      obtain ⟨z, hz, rfl⟩ := mem_map.mp hy
      exact habsent z hz heq
    · exact h.at_.treeSearch_of_absent totalComparer_default h.ordered.shape habsent (by omega)

theorem Indexed.insert (h : Indexed tree t es) (ho : ∀ e ∈ es, e.offset ≠ o) (hb : b ≠ notFoundPtr)
    (ha : a ≠ 0) (hfree : tree.heap.read a = none) (hlen : wordInc tree.len ≠ 0) :
    ∃ tree' u, Returns (fun fuel ↦ treeInsert defaultComparer notFoundPtr fuel tree a o b) tree' ∧
      Indexed tree' u (es ++ [⟨o, b, a⟩]) ∧ tree'.len = wordInc tree.len := by
  have habsent : ∀ x ∈ t.inorder, x.key ≠ o := fun x hx ↦
    ho (Entry.ofCell x.core) (h.entries.mem_iff.mp (mem_map_of_mem (mem_map_of_mem hx)))
  obtain ⟨tree', u, c, hret, hat, hbelow, hlen', hplug, hfits, hcores, -⟩ :=
    h.at_.treeInsert (v := b) totalComparer_default h.below h.ordered.shape habsent ha hfree
  obtain ⟨hordered, xs, ys, ht, hu⟩ :=
    h.ordered.linked (y := newCell a o b) hplug hfits hb hcores
  refine ⟨tree', u, hret, ⟨hat, hbelow, hordered, fun _ ↦ hlen' ▸ hlen, fun w hw ↦ ?_, ?_⟩, hlen'⟩
  · obtain ⟨N, hN⟩ := hret
    have haddrs : ∀ w, w = a ∨ w ∈ addrs t → w ∈ addrs u := by
      intro w hw
      rw [addrs_eq_map_cores, ht] at hw
      rw [addrs_eq_map_cores, hu, map_append, map_cons, perm_middle.mem_iff,
        ← map_append]
      exact mem_cons.mpr hw
    refine haddrs w ?_
    rcases treeInsert_counts (hN N le_rfl) with hsame | ⟨-, hcounts⟩
    · exact .inr (h.nodes w (hsame ▸ hw))
    · by_cases hwa : w = a
      · exact .inl hwa
      · rw [hcounts, update_of_ne hwa] at hw
        exact .inr (h.nodes w hw)
  · have hperm : ((cores u).map Entry.ofCell).Perm (⟨o, b, a⟩ :: (cores t).map Entry.ofCell) := by
      rw [hu, ht, map_append, map_cons, map_append]
      exact perm_middle
    exact hperm.trans ((h.entries.cons _).trans (perm_append_singleton _ _).symm)

variable {base total n : ℕ} {s s' : Cache} {bd : Block} {frames : ℕ → UInt64 × UInt64}

theorem accessible_page (hbase : 0x1000 ∣ base) {pool : Pool.Paged} (h : pool.Stocked base total n)
    {i : ℕ} (hi : i < n) : accessible pool.vmem (base + i * 0x1000) = some () := by
  obtain ⟨k, rfl⟩ := hbase
  have hlow := h.low.resolve_right (by omega)
  have hpage : page (UInt32.ofNat (0x1000 * k + i * 0x1000 + 0xFFF)) =
      page (UInt32.ofNat (0x1000 * k + i * 0x1000)) := by
    rw [page_ofNat_eq_iff (by omega) (by omega)]
    omega
  rw [accessible, h.wf.archVmemIsmapped, h.wf.archVmemIsmapped, hpage, h.mapped i hi]
  rfl

/-! ## The blocks held -/

structure Held (base total : ℕ) (s : Cache) (t : Shape Ptr Ptr) (es : List Entry) : Prop where
  index : Indexed s.blockdata.tree t es
  stock : s.pool.Stocked base total es.length
  nodup : (es.map Entry.block).Nodup
  owned : ∀ b, s.blocks.read b ≠ none → b ∈ es.map Entry.block
  block : ∀ i e, es[i]? = some e → ∃ bd, s.blocks.read e.block = some bd ∧
    bd.addr = base + i * 0x1000 ∧ bd.refcount < wordSize ∧
    bd.refcount + s.finished.count e.block = (s.started.map snd).count e.block
  started : ∀ p ∈ s.started, ∃ e ∈ es, (e.offset, e.block) = p
  finished : ∀ b ∈ s.finished, b ∈ es.map Entry.block

theorem Held.block_of_mem (h : Held base total s t es) (he : e ∈ es) :
    ∃ i bd, es[i]? = some e ∧ i < es.length ∧ s.blocks.read e.block = some bd ∧
      bd.addr = base + i * 0x1000 ∧ bd.refcount < wordSize ∧
      bd.refcount + s.finished.count e.block = (s.started.map snd).count e.block := by
  obtain ⟨i, hi⟩ := mem_iff_getElem?.mp he
  obtain ⟨bd, hbd⟩ := h.block i e hi
  exact ⟨i, bd, hi, (List.getElem?_eq_some_iff.mp hi).1, hbd⟩

theorem Held.eq_of_block (h : Held base total s t es) (he : e ∈ es) (he' : e' ∈ es)
    (heq : e.block = e'.block) : e = e' :=
  inj_on_of_nodup_map h.nodup he he' heq

theorem held_createCache (earlier : List UInt32) (cachesz : UInt32) (len : ℕ) {vmem : Vmem}
    (hwf : WF vmem) (mem : Memory) :
    Held (poolBase earlier) (numPages cachesz) (createCache earlier cachesz len vmem mem) .nil [] where
  index :=
    { at_ := ⟨trivial, rfl, by simp [addrs, addrsAround, BinaryTree.around]⟩
      below := trivial
      ordered := ⟨List.Pairwise.nil, by simp [cores]⟩
      len := fun hnil ↦ absurd rfl hnil
      nodes := fun a ha ↦ absurd rfl ha
      entries := List.Perm.nil }
  stock := Pool.Paged.stocked_createPoolAt hwf _ _
  nodup := nodup_nil
  owned b hb := absurd rfl hb
  block i e hi := by simp at hi
  started p hp := by simp [createCache] at hp
  finished b hb := by simp [createCache] at hb

theorem useBlock_eq (hbd : s.blocks.read b = some bd)
    (hacc : accessible s.pool.vmem bd.addr = some ()) :
    s.useBlock b = some { s with blocks := s.blocks.set b { bd with
      refcount := wordInc bd.refcount, hash := dohash s.mem (UInt32.ofNat bd.addr) } } := by
  have hb0 : b ≠ 0 := Heap.ne_zero_of_read hbd
  simp only [useBlock, Heap.modify_eq hbd, bind_eq_bind, bind_some,
    Heap.read_set_self hb0, hacc, Heap.modify_eq (Heap.read_set_self hb0), Heap.set_set]

theorem Held.update (h : Held base total s t es) (he : e ∈ es)
    (hbd : s.blocks.read e.block = some bd) (bd' : Block) (haddr : bd'.addr = bd.addr)
    {started : List (Ptr × Ptr)} {finished : List Ptr}
    (hstarted : ∀ p ∈ started, p ∈ s.started ∨ p = (e.offset, e.block))
    (hfinished : ∀ w ∈ finished, w ∈ s.finished ∨ w = e.block) (hlt : bd'.refcount < wordSize)
    (hcount : bd'.refcount + finished.count e.block = (started.map snd).count e.block)
    (hothers : ∀ w ≠ e.block, finished.count w = s.finished.count w ∧
      (started.map snd).count w = (s.started.map snd).count w) :
    Held base total { s with
      blocks := s.blocks.set e.block bd', started := started, finished := finished } t es := by
  have hb0 : e.block ≠ 0 := Heap.ne_zero_of_read hbd
  refine ⟨h.index, h.stock, h.nodup, fun w hw ↦ ?_, fun i e' hi ↦ ?_, fun p hp ↦ ?_, fun w hw ↦ ?_⟩
  · by_cases hwe : w = e.block
    · exact hwe ▸ mem_map_of_mem he
    · exact h.owned w (Heap.read_set_of_ne hwe ▸ hw)
  · have he' : e' ∈ es := mem_of_getElem? hi
    obtain ⟨bd0, hbd0, haddr0, hlt0, hcount0⟩ := h.block i e' hi
    by_cases hee : e'.block = e.block
    · obtain rfl := h.eq_of_block he' he hee
      rw [hbd] at hbd0
      cases hbd0
      exact ⟨bd', Heap.read_set_self hb0, haddr.trans haddr0, hlt, hcount⟩
    · obtain ⟨hfin, hst⟩ := hothers e'.block hee
      refine ⟨bd0, (Heap.read_set_of_ne hee).trans hbd0, haddr0, hlt0, ?_⟩
      rw [hfin, hst]
      exact hcount0
  · rcases hstarted p hp with hp | rfl
    · exact h.started p hp
    · exact ⟨e, he, rfl⟩
  · rcases hfinished w hw with hw | rfl
    · exact h.finished w hw
    · exact mem_map_of_mem he

theorem Held.useBlock (hbase : 0x1000 ∣ base) (h : Held base total s t es) (he : e ∈ es)
    (hlt : ∀ bd, s.blocks.read e.block = some bd → bd.refcount + 1 < wordSize) :
    ∃ s', s.useBlock e.block = some s' ∧
      Held base total { s' with started := (e.offset, e.block) :: s'.started } t es ∧
      s'.started = s.started ∧ s'.pool = s.pool ∧ s'.blockdata = s.blockdata := by
  obtain ⟨i, bd, -, hi, hbd, haddr, -, hcount⟩ := h.block_of_mem he
  have hacc : accessible s.pool.vmem bd.addr = some () := by
    rw [haddr]
    exact accessible_page hbase h.stock hi
  have hinc : wordInc bd.refcount = bd.refcount + 1 := wordInc_of_lt (hlt bd hbd)
  refine ⟨_, useBlock_eq hbd hacc, ?_, rfl, rfl, rfl⟩
  refine h.update he hbd { bd with
    refcount := wordInc bd.refcount, hash := dohash s.mem (UInt32.ofNat bd.addr) } rfl
    (fun p hp ↦ ?_) (fun w hw ↦ .inl hw) ?_ ?_ fun w hw ↦ ⟨rfl, ?_⟩
  · exact (mem_cons.mp hp).symm
  · exact hinc ▸ hlt bd hbd
  · show wordInc bd.refcount + s.finished.count e.block = (e.block :: s.started.map snd).count _
    rw [hinc, count_cons_self]
    omega
  · exact count_cons_of_ne hw.symm

theorem Held.cacheDoneblock (h : Held base total s t es)
    (hb : s.finished.count b < (s.started.map snd).count b) :
    ∃ s', s.cacheDoneblock b = some s' ∧ Held base total s' t es ∧ s'.started = s.started := by
  have hmem : b ∈ s.started.map snd := count_pos_iff.mp (Nat.zero_lt_of_lt hb)
  obtain ⟨p, hp, rfl⟩ := mem_map.mp hmem
  obtain ⟨e, he, rfl⟩ := h.started p hp
  obtain ⟨i, bd, -, -, hbd, -, hlt, hcount⟩ := h.block_of_mem he
  have hb' : s.finished.count e.block < (s.started.map snd).count e.block := hb
  have hpos : 0 < bd.refcount := by omega
  have hdec : wordDec bd.refcount = bd.refcount - 1 := wordDec_of_pos hpos hlt
  have hcall : s.cacheDoneblock e.block = some { s with
      blocks := s.blocks.set e.block { bd with refcount := wordDec bd.refcount }
      finished := e.block :: s.finished } := by
    simp only [Cache.cacheDoneblock, if_neg (Heap.ne_zero_of_read hbd), Heap.modify_eq hbd,
      bind_eq_bind, bind_some]
  refine ⟨_, hcall, ?_, rfl⟩
  refine h.update he hbd { bd with refcount := wordDec bd.refcount } rfl (fun p hp ↦ .inl hp)
    (fun w hw ↦ ?_) ?_ ?_ fun w hw ↦ ⟨?_, rfl⟩
  · exact (mem_cons.mp hw).symm
  · show wordDec bd.refcount < wordSize
    omega
  · show wordDec bd.refcount + (e.block :: s.finished).count e.block = _
    rw [hdec, count_cons_self]
    omega
  · exact count_cons_of_ne hw.symm

theorem Held.allocBlock (hbase : 0x1000 ∣ base) (h : Held base total s t es)
    (hn : es.length ≠ total) (hroom : s.Room frames) (hb0 : b ≠ 0) (hfree : s.blocks.read b = none)
    (hpage : (frames 0).1 ≠ 0 → IsFrame (frames 0).1)
    (htable : (frames 0).2 ≠ 0 → s.pool.vmem.Unused (frames 0).2) (o : Ptr) :
    ∃ pool mem, s.allocBlock o b frames = some { s with
        pool := pool
        blocks := s.blocks.set b ⟨base + es.length * 0x1000, o, 0, 0⟩
        mem := mem } ∧
      pool.Stocked base total (es.length + 1) ∧
      pool.book.bitmap.length = s.pool.book.bitmap.length ∧
      (s.pool.vmem.archVmemIsmapped (UInt32.ofNat (base + es.length * 0x1000)) = some true →
        pool.vmem = s.pool.vmem) := by
  have hword := hroom.word
  have hlow := hroom.low
  have hmemory := hroom.memory
  rw [h.stock.count] at hword hlow hmemory
  rw [h.stock.base_eq] at hlow hmemory
  obtain ⟨pool, hpool, hstock, hlength, hsame⟩ := h.stock.poolAlloc hn hword hlow
    (hmemory.imp_right fun hne ↦ ⟨⟨hne.1, hpage hne.1⟩, hne.2, htable hne.2⟩)
  refine ⟨pool, s.mem.fill (UInt32.ofNat (base + es.length * 0x1000)) 0x1000 0, ?_, hstock, hlength,
    hsame⟩
  simp only [Cache.allocBlock, Heap.alloc_eq hb0 hfree, hpool, Heap.modify_eq (Heap.read_set_self hb0),
    Heap.set_set, accessible_page hbase hstock (Nat.lt_succ_self _), bind_eq_bind,
    bind_some]

theorem Held.count_new (h : Held base total s t es) (hfree : s.blocks.read b = none) :
    (∀ e ∈ es, e.block ≠ b) ∧ s.finished.count b = 0 ∧ (s.started.map snd).count b = 0 := by
  have hnew : ∀ e ∈ es, e.block ≠ b := by
    rintro e he rfl
    obtain ⟨i, bd, -, -, hbd, -⟩ := h.block_of_mem he
    rw [hfree] at hbd
    cases hbd
  refine ⟨hnew, count_eq_zero.mpr fun hmem ↦ ?_, count_eq_zero.mpr fun hmem ↦ ?_⟩
  · obtain ⟨e, he, heq⟩ := mem_map.mp (h.finished b hmem)
    exact hnew e he heq
  · obtain ⟨p, hp, rfl⟩ := mem_map.mp hmem
    obtain ⟨e, he, rfl⟩ := h.started p hp
    exact hnew e he rfl

theorem Held.append (h : Held base total s t es) {u : Shape Ptr Ptr} {tree : Tree Ptr Ptr}
    {pool : Pool.Paged} (mem : Memory) (hfree : s.blocks.read b = none) (hb0 : b ≠ 0)
    (hindex : Indexed tree u (es ++ [⟨o, b, a⟩]))
    (hstock : pool.Stocked base total (es.length + 1)) :
    Held base total { s with
      pool := pool
      blockdata := { s.blockdata with tree := tree }
      blocks := s.blocks.set b ⟨base + es.length * 0x1000, o, 0, 0⟩
      mem := mem } u (es ++ [⟨o, b, a⟩]) := by
  obtain ⟨hnew, hfinished, hstarted⟩ := h.count_new hfree
  refine ⟨hindex, by simpa using hstock, ?_, fun w hw ↦ ?_, fun i e hi ↦ ?_, fun p hp ↦ ?_,
    fun w hw ↦ ?_⟩
  · rw [map_append, map_singleton, nodup_append]
    refine ⟨h.nodup, nodup_singleton _, fun w hw w' hw' ↦ ?_⟩
    obtain ⟨e, he, rfl⟩ := mem_map.mp hw
    exact mem_singleton.mp hw' ▸ hnew e he
  · rw [map_append, mem_append]
    by_cases hwb : w = b
    · exact .inr (mem_singleton.mpr hwb)
    · exact .inl (h.owned w (Heap.read_set_of_ne hwb ▸ hw))
  · rcases Nat.lt_trichotomy i es.length with hlt | rfl | hgt
    · rw [getElem?_append_left hlt] at hi
      obtain ⟨bd, hbd, hrest⟩ := h.block i e hi
      exact ⟨bd, (Heap.read_set_of_ne (hnew e (mem_of_getElem? hi))).trans hbd, hrest⟩
    · rw [getElem?_concat_length] at hi
      cases hi
      refine ⟨_, Heap.read_set_self hb0, rfl, Nat.two_pow_pos 32, ?_⟩
      show 0 + s.finished.count b = (s.started.map snd).count b
      rw [hfinished, hstarted]
    · rw [getElem?_eq_none (by simp; omega)] at hi
      cases hi
  · obtain ⟨e, he, heq⟩ := h.started p hp
    exact ⟨e, mem_append_left _ he, heq⟩
  · rw [map_append]
    exact mem_append_left _ (h.finished w hw)

theorem Held.start_new (hbase : 0x1000 ∣ base) (h : Held base total s t es)
    (ho : ∀ e ∈ es, e.offset ≠ o) (hn : es.length ≠ total) (hroom : s.Room frames)
    (hb : b ≠ 0 ∧ b ≠ notFoundPtr ∧ s.blocks.read b = none)
    (ha : a ≠ 0 ∧ s.blockdata.tree.heap.read a = none)
    (hpage : (frames 0).1 ≠ 0 → IsFrame (frames 0).1)
    (htable : (frames 0).2 ≠ 0 → s.pool.vmem.Unused (frames 0).2) :
    ∃ s' u, Returns (fun fuel ↦ step fuel s (.start o b a frames)) s' ∧
      Held base total s' u (es ++ [⟨o, b, a⟩]) ∧ s'.started = (o, b) :: s.started ∧
      s'.blockdata.tree.len = wordInc s.blockdata.tree.len ∧
      s'.pool.book.bitmap.length = s.pool.book.bitmap.length ∧
      (s.pool.vmem.archVmemIsmapped (UInt32.ofNat (base + es.length * 0x1000)) = some true →
        s'.pool.vmem = s.pool.vmem) := by
  obtain ⟨hb0, hbnot, hbfree⟩ := hb
  obtain ⟨-, hsearch⟩ := (h.index.search o).resolve_left fun ⟨e, he, heq, _⟩ ↦ ho e he heq
  obtain ⟨pool, mem, halloc, hstock, hlength, hsame⟩ :=
    h.allocBlock hbase hn hroom hb0 hbfree hpage htable o
  obtain ⟨tree, u, hinsert, hindex, hlen⟩ := h.index.insert ho hbnot ha.1 ha.2 hroom.len
  have hheld := h.append mem hbfree hb0 hindex hstock
  have hlast : (⟨o, b, a⟩ : Entry) ∈ es ++ [⟨o, b, a⟩] := by simp
  obtain ⟨s', huse, hheld', hstarted, hpool, hdata⟩ := hheld.useBlock hbase hlast fun bd hbd ↦ by
    rw [Heap.read_set_self hb0] at hbd
    cases hbd
    exact Nat.one_lt_two_pow (by decide)
  obtain ⟨N, hN⟩ := hsearch
  obtain ⟨M, hM⟩ := hinsert
  refine ⟨_, u, ⟨max N M, fun fuel hfuel ↦ ?_⟩, hheld', congrArg _ hstarted,
    (congrArg (·.tree.len) hdata).trans hlen, (congrArg (·.book.bitmap.length) hpool).trans hlength,
    fun hmapped ↦ (congrArg (·.vmem) hpool).trans (hsame hmapped)⟩
  have hfound : Cache.search fuel s o = some notFoundPtr := hN fuel (by omega)
  have htree : treeInsert defaultComparer notFoundPtr fuel s.blockdata.tree a o b = some tree :=
    hM fuel (by omega)
  simp only [step, cacheStartblock, hfound, halloc, Cache.insertBlock, htree, map_some,
    bind_eq_bind, bind_some, if_true]
  rw [huse]
  rfl

theorem Held.start_old (hbase : 0x1000 ∣ base) (h : Held base total s t es) (he : e ∈ es)
    (hlt : ∀ bd, s.blocks.read e.block = some bd → bd.refcount + 1 < wordSize) (b a : Ptr)
    (frames : ℕ → UInt64 × UInt64) :
    ∃ s', Returns (fun fuel ↦ step fuel s (.start e.offset b a frames)) s' ∧
      Held base total s' t es ∧ s'.started = (e.offset, e.block) :: s.started := by
  obtain ⟨e', he', heq, hnot, hsearch⟩ := (h.index.search e.offset).resolve_right
    fun habsent ↦ habsent.1 e he rfl
  obtain rfl := h.index.eq_of_offset he' he heq
  obtain ⟨s', huse, hheld, hstarted, -⟩ := h.useBlock hbase he hlt
  obtain ⟨N, hN⟩ := hsearch
  refine ⟨_, ⟨N, fun fuel hfuel ↦ ?_⟩, hheld, congrArg _ hstarted⟩
  have hfound : Cache.search fuel s e'.offset = some e'.block := hN fuel hfuel
  simp only [step, cacheStartblock, hfound, if_neg hnot, huse, map_some, bind_eq_bind,
    bind_some]

/-! ## Whole runs -/

def Sound (base total : ℕ) (offsets : Finset Ptr) (s : Cache) : Prop :=
  ∃ t es, Held base total s t es ∧ (∀ e ∈ es, (e.offset, e.block) ∈ s.started) ∧
    ∀ e ∈ es, e.offset ∈ offsets

variable {offsets : Finset Ptr} {op : Op}

theorem Held.length_lt (h : Held base total s t es) (htotal : offsets.card ≤ total)
    (hes : ∀ e ∈ es, e.offset ∈ offsets) (ho : o ∈ offsets) (hnew : ∀ e ∈ es, e.offset ≠ o) :
    es.length < total := by
  have hsub : insert o (es.map Entry.offset).toFinset ⊆ offsets := by
    refine Finset.insert_subset ho fun w hw ↦ ?_
    obtain ⟨e, he, rfl⟩ := mem_map.mp (mem_toFinset.mp hw)
    exact hes e he
  have hnotMem : o ∉ (es.map Entry.offset).toFinset := by
    rw [List.mem_toFinset, List.mem_map]
    rintro ⟨e, he, heq⟩
    exact hnew e he heq
  have hcard := Finset.card_le_card hsub
  rw [Finset.card_insert_of_notMem hnotMem, toFinset_card_of_nodup h.index.offset_nodup,
    length_map] at hcard
  omega

theorem Sound.step (hbase : 0x1000 ∣ base) (htotal : offsets.card ≤ total)
    (h : Sound base total offsets s) (hop : s.Allowed offsets op) (hok : s.StepOk op) :
    ∃ s', Returns (fun fuel ↦ Cache.step fuel s op) s' ∧ Sound base total offsets s' := by
  obtain ⟨t, es, hheld, hall, hes⟩ := h
  cases op with
  | start o b a frames =>
    obtain ⟨ho, hb, ha, hpage, htable⟩ := hop
    obtain ⟨hlt, hroom⟩ := hok
    by_cases hnew : ∀ e ∈ es, e.offset ≠ o
    · have hroom' : s.Room frames := hroom fun hmem ↦ by
        obtain ⟨p, hp, rfl⟩ := mem_map.mp hmem
        obtain ⟨e, he, rfl⟩ := hheld.started p hp
        exact hnew e he rfl
      have hn := hheld.length_lt htotal hes ho hnew
      obtain ⟨s', u, hret, hheld', hstarted, -⟩ :=
        hheld.start_new hbase hnew hn.ne hroom' hb ha hpage htable
      refine ⟨s', hret, u, _, hheld', fun e he ↦ ?_, fun e he ↦ ?_⟩
      · rw [hstarted]
        rcases mem_append.mp he with he | he
        · exact mem_cons_of_mem _ (hall e he)
        · cases mem_singleton.mp he
          exact mem_cons_self
      · rcases mem_append.mp he with he | he
        · exact hes e he
        · cases mem_singleton.mp he
          exact ho
    · push Not at hnew
      obtain ⟨e, he, rfl⟩ := hnew
      obtain ⟨s', hret, hheld', hstarted⟩ := hheld.start_old hbase he
        (fun bd hbd ↦ hlt e.block bd (hall e he) hbd) b a frames
      exact ⟨s', hret, t, es, hheld', fun e he ↦ hstarted ▸ mem_cons_of_mem _ (hall e he), hes⟩
  | done b =>
    obtain ⟨s', hcall, hheld', hstarted⟩ := hheld.cacheDoneblock hop
    exact ⟨s', Returns.of_eq hcall, t, es, hheld', hstarted ▸ hall, hes⟩
  | write p v =>
    have hmapped : s.pool.vmem.archVmemIsmapped p = some true := hop
    refine ⟨{ s with mem := s.mem.fill p 1 v }, ⟨0, fun fuel _ ↦ ?_⟩, t, es, ?_, hall, hes⟩
    · simp only [Cache.step, hmapped, bind_eq_bind, bind_some, if_true]
    · exact ⟨hheld.index, hheld.stock, hheld.nodup, hheld.owned, hheld.block, hheld.started,
        hheld.finished⟩
  | evict it numpages => exact hop.elim

theorem Sound.coherent (h : Sound base total offsets s) : Coherent base total s := by
  obtain ⟨t, es, hheld, hall, -⟩ := h
  have hentry : ∀ o b, (o, b) ∈ s.started → ∃ e ∈ es, e.offset = o ∧ e.block = b := by
    intro o b hmem
    obtain ⟨e, he, heq⟩ := hheld.started _ hmem
    exact ⟨e, he, congrArg fst heq, congrArg snd heq⟩
  refine ⟨fun o b b' hb hb' ↦ ?_, fun o b hb ↦ ?_, fun o b o' b' hb hb' hne bd bd' hbd hbd' ↦ ?_,
    fun o ↦ ?_⟩
  · obtain ⟨e, he, rfl, rfl⟩ := hentry o b hb
    obtain ⟨e', he', heq, rfl⟩ := hentry _ b' hb'
    rw [hheld.index.eq_of_offset he' he heq]
  · obtain ⟨e, he, rfl, rfl⟩ := hentry o b hb
    obtain ⟨i, bd, -, hi, hbd, haddr, -, hcount⟩ := hheld.block_of_mem he
    have hle : es.length ≤ total := by
      have hinv := hheld.stock.inv.count
      rwa [hheld.stock.count, hheld.stock.total_eq] at hinv
    exact ⟨bd, hbd, by omega, by omega, hcount⟩
  · obtain ⟨e, he, rfl, rfl⟩ := hentry o b hb
    obtain ⟨e', he', rfl, rfl⟩ := hentry o' b' hb'
    obtain ⟨i, bd1, hi, -, hbd1, haddr, -⟩ := hheld.block_of_mem he
    obtain ⟨j, bd2, hj, -, hbd2, haddr', -⟩ := hheld.block_of_mem he'
    obtain rfl : bd1 = bd := some.inj (hbd1.symm.trans hbd)
    obtain rfl : bd2 = bd' := some.inj (hbd2.symm.trans hbd')
    have hij : i ≠ j := by
      rintro rfl
      rw [hi] at hj
      exact hne (congrArg Entry.offset (some.inj hj))
    omega
  · rcases hheld.index.search o with ⟨e, he, rfl, hnot, hret⟩ | ⟨hnew, hret⟩
    · rw [if_pos (mem_map.mpr ⟨_, hall e he, rfl⟩)]
      exact hret.map (if_pos hnot)
    · rw [if_neg]
      · exact hret.map (if_neg (not_not.mpr rfl))
      · intro hmem
        obtain ⟨p, hp, rfl⟩ := mem_map.mp hmem
        obtain ⟨e, he, rfl⟩ := hheld.started p hp
        exact hnew e he rfl

theorem dvd_poolBase (sizes : List UInt32) : 0x1000 ∣ poolBase sizes := by
  have hfold : ∀ base, 0x1000 ∣ base → 0x1000 ∣ sizes.foldl
      (fun base cachesz ↦ (base + 0x1000 * numPages cachesz) % wordSize) base := by
    induction sizes with
    | nil => exact fun base hbase ↦ hbase
    | cons cachesz sizes ih =>
      refine fun base hbase ↦ ih _ ((Nat.dvd_mod_iff (by decide)).mpr ?_)
      exact Nat.dvd_add hbase (Nat.dvd_mul_right _ _)
  exact hfold _ (by decide)

/-- **The blocks are coherent** in every run whose calls meet the condition and are for no more
offsets than the pool has pages. -/
theorem coherent_of_stepOk (earlier : List UInt32) (cachesz : UInt32) (len : ℕ) {vmem : Vmem}
    (hwf : WF vmem) (mem : Memory) {offsets : Finset Ptr}
    (hoffsets : offsets.card ≤ numPages cachesz) (ops : List Op) :
    ∃ F, ∀ fuel ≥ F, Run.Guarded (step fuel) (fun s op ↦ s.Allowed offsets op ∧ s.StepOk op)
        (createCache earlier cachesz len vmem mem) ops →
      ∃ s, Run.exec (step fuel) (createCache earlier cachesz len vmem mem) ops = some s ∧
        Coherent (poolBase earlier) (numPages cachesz) s := by
  have hinit : Sound (poolBase earlier) (numPages cachesz) offsets
      (createCache earlier cachesz len vmem mem) :=
    ⟨_, [], held_createCache earlier cachesz len hwf mem, by simp, by simp⟩
  have hstep : ∀ s op, Sound (poolBase earlier) (numPages cachesz) offsets s →
      s.Allowed offsets op ∧ s.StepOk op → ∃ s', Returns (fun fuel ↦ step fuel s op) s' ∧
        Sound (poolBase earlier) (numPages cachesz) offsets s' :=
    fun s op hs hop ↦ hs.step (dvd_poolBase earlier) hoffsets hop.1 hop.2
  rcases Run.returns_of_inv hstep hinit ops with ⟨N, hN⟩ | ⟨s, ⟨N, hN⟩, hs⟩
  · exact ⟨N, fun fuel hfuel hg ↦ absurd hg (hN fuel hfuel)⟩
  · exact ⟨N, fun fuel hfuel _ ↦ ⟨s, hN fuel hfuel, hs.coherent⟩⟩

/-! ## A cache filled to the end -/

def odd : Cache := createCache [] 0x21000 0 populated fun _ ↦ 0

def nth (i : ℕ) : Entry :=
  ⟨UInt32.ofNat i, UInt32.ofNat (0x1000 + 0x10 * i), UInt32.ofNat (0x4000 + 0x20 * i)⟩

def startNth (i : ℕ) : Op := .start (nth i).offset (nth i).block (nth i).node fun _ ↦ (0, 0)

def starts (k : ℕ) : List Op := (List.range k).map startNth

def oddOffsets : Finset Ptr := (Finset.range 33).image UInt32.ofNat

theorem ofNat_eq_iff {i j : ℕ} (hi : i < 2 ^ 32) (hj : j < 2 ^ 32) :
    UInt32.ofNat i = UInt32.ofNat j ↔ i = j := by
  rw [← UInt32.toNat_inj, UInt32.toNat_ofNat_of_lt' hi, UInt32.toNat_ofNat_of_lt' hj]

structure Filled (k : ℕ) (s : Cache) : Prop where
  held : ∃ t, Held 0xE0000000 33 s t ((List.range k).map nth)
  vmem : s.pool.vmem = populated
  word : s.pool.book.bitmap.length = 1
  len : s.blockdata.tree.len = k

variable {k : ℕ}

theorem Filled.allowed (h : Filled k s) (hk : k < 33) : s.Allowed oddOffsets (startNth k) := by
  obtain ⟨t, hheld⟩ := h.held
  have hne : ∀ i ∈ range k, (nth i).block ≠ (nth k).block ∧ (nth i).node ≠ (nth k).node := by
    intro i hi
    have hlt := mem_range.mp hi
    simp only [nth, ne_eq]
    rw [ofNat_eq_iff (by omega) (by omega), ofNat_eq_iff (by omega) (by omega)]
    omega
  refine ⟨Finset.mem_image_of_mem _ (Finset.mem_range.mpr hk), ⟨?_, ?_, ?_⟩, ⟨?_, ?_⟩,
    fun h0 ↦ absurd rfl h0, fun h0 ↦ absurd rfl h0⟩
  · show UInt32.ofNat _ ≠ UInt32.ofNat 0
    rw [ne_eq, ofNat_eq_iff (by omega) (by decide)]
    omega
  · show UInt32.ofNat _ ≠ UInt32.ofNat 0xFFFFFFFF
    rw [ne_eq, ofNat_eq_iff (by omega) (by decide)]
    omega
  · by_contra hread
    obtain ⟨e, he, heq⟩ := mem_map.mp (hheld.owned _ hread)
    obtain ⟨i, hi, rfl⟩ := mem_map.mp he
    exact (hne i hi).1 heq
  · show UInt32.ofNat _ ≠ UInt32.ofNat 0
    rw [ne_eq, ofNat_eq_iff (by omega) (by decide)]
    omega
  · by_contra hread
    obtain ⟨e, he, heq⟩ := mem_map.mp (hheld.index.node_mem hread)
    obtain ⟨i, hi, rfl⟩ := mem_map.mp he
    exact (hne i hi).2 heq

theorem offset_nth_ne (hk : k < 33) : ∀ e ∈ (List.range k).map nth, e.offset ≠ (nth k).offset := by
  intro e he
  obtain ⟨i, hi, rfl⟩ := mem_map.mp he
  have hlt := mem_range.mp hi
  show UInt32.ofNat i ≠ UInt32.ofNat k
  rw [ne_eq, ofNat_eq_iff (by omega) (by omega)]
  omega

theorem mapped_populated : ∀ k < 33, populated.archVmemIsmapped
    (UInt32.ofNat (0xE0000000 + k * 0x1000)) = some true := by decide

theorem Filled.room (h : Filled k s) (hk : k < 32) : s.Room fun _ ↦ (0, 0) := by
  obtain ⟨t, hheld⟩ := h.held
  have hcount := hheld.stock.count
  rw [length_map, length_range] at hcount
  refine ⟨?_, ?_, .inl ?_, ?_⟩
  · rw [hcount, h.word]
    omega
  · rw [hheld.stock.base_eq, hcount]
    omega
  · rw [h.vmem, hheld.stock.base_eq, hcount]
    exact mapped_populated k (by omega)
  · rw [h.len, wordInc_of_lt (lt_trans (show k + 1 < 33 by omega) (by decide))]
    omega

theorem Filled.stepOk (h : Filled k s) (hk : k < 32) : s.StepOk (startNth k) := by
  refine ⟨fun b bd hmem _ ↦ ?_, fun _ ↦ h.room hk⟩
  obtain ⟨t, hheld⟩ := h.held
  obtain ⟨e, he, heq⟩ := hheld.started _ hmem
  exact absurd (congrArg fst heq) (offset_nth_ne (by omega) e he)

theorem Filled.start (h : Filled k s) (hk : k < 32) :
    ∃ s', Returns (fun fuel ↦ step fuel s (startNth k)) s' ∧ Filled (k + 1) s' := by
  obtain ⟨t, hheld⟩ := h.held
  obtain ⟨-, hb, ha, hpage, htable⟩ := h.allowed (by omega)
  have hlength : ((range k).map nth).length = k := by simp
  obtain ⟨s', u, hret, hheld', -, hlen, hword, hsame⟩ := hheld.start_new (by decide)
    (offset_nth_ne (by omega)) (by omega) (h.room hk) hb ha hpage htable
  refine ⟨s', hret, ⟨u, ?_⟩, ?_, hword.trans h.word, ?_⟩
  · rw [range_succ, map_append, map_singleton]
    exact hheld'
  · rw [hlength, h.vmem] at hsame
    exact hsame (mapped_populated k (by omega))
  · rw [hlen, h.len, wordInc_of_lt (lt_trans (show k + 1 < 33 by omega) (by decide))]

theorem Filled.start_fails (h : Filled 32 s) : Fails fun fuel ↦ step fuel s (startNth 32) := by
  obtain ⟨t, hheld⟩ := h.held
  obtain ⟨-, hb, -⟩ := h.allowed (by omega)
  have hcount : s.pool.book.allocCount = 32 := hheld.stock.count
  have htotal : s.pool.book.bufferCount = 33 := hheld.stock.total_eq
  have hpool : s.pool.poolAlloc (fun _ ↦ (0, 0)) = none := by
    have hword : s.pool.book.bitmap[32 / 32]? = none := getElem?_eq_none h.word.le
    rw [Pool.Paged.poolAlloc, Pool.Book.poolAlloc, hcount, htotal, if_neg (by decide), hword]
    rfl
  have halloc : s.allocBlock (nth 32).offset (nth 32).block (fun _ ↦ (0, 0)) = none := by
    simp only [Cache.allocBlock, Heap.alloc_eq hb.1 hb.2.2, hpool, bind_eq_bind,
      bind_some, bind_none]
  obtain ⟨-, N, hN⟩ := (hheld.index.search (nth 32).offset).resolve_left (by
    rintro ⟨e, he, heq, -⟩
    exact offset_nth_ne (by decide) e he heq)
  refine ⟨N, fun fuel hfuel ↦ ?_⟩
  have hfound : Cache.search fuel s (nth 32).offset = some notFoundPtr := hN fuel hfuel
  simp only [step, startNth, cacheStartblock, hfound, halloc, bind_eq_bind, bind_some,
    if_true, bind_none, map_none]

theorem filled_odd : Filled 0 odd where
  held := ⟨_, held_createCache [] 0x21000 0 wf_populated fun _ ↦ 0⟩
  vmem := rfl
  word := rfl
  len := rfl

theorem filled_starts (hk : k ≤ 32) : ∃ s, Filled k s ∧ ∃ F, ∀ fuel ≥ F,
    Run.exec (step fuel) odd (starts k) = some s ∧
      Run.Guarded (step fuel) (fun s op ↦ s.Allowed oddOffsets op ∧ s.StepOk op) odd (starts k) := by
  induction k with
  | zero => exact ⟨odd, filled_odd, 0, fun _ _ ↦ ⟨rfl, trivial⟩⟩
  | succ k ih =>
    obtain ⟨s, hs, F, hF⟩ := ih (by omega)
    obtain ⟨s', ⟨N, hN⟩, hs'⟩ := hs.start (by omega)
    refine ⟨s', hs', max F N, fun fuel hfuel ↦ ?_⟩
    obtain ⟨hexec, hg⟩ := hF fuel (by omega)
    have hstep : step fuel s (startNth k) = some s' := hN fuel (by omega)
    rw [starts, range_succ, map_append, map_singleton]
    refine ⟨Run.exec_snoc_eq_some.mpr ⟨s, hexec, hstep⟩, hg.snoc fun t ht ↦ ?_⟩
    obtain rfl : s = t := some.inj (hexec.symm.trans ht)
    exact ⟨hs.allowed (by omega), hs.stepOk (by omega)⟩

theorem coherent_odd : oddOffsets.card ≤ numPages 0x21000 ∧ ∃ F, ∀ fuel ≥ F,
    ∃ s, Run.exec (step fuel) odd (starts 32) = some s ∧ Coherent 0xE0000000 33 s := by
  have hcard : oddOffsets.card ≤ numPages 0x21000 := Finset.card_image_le
  obtain ⟨N, hN⟩ := coherent_of_stepOk [] 0x21000 0 wf_populated (fun _ ↦ 0) hcard (starts 32)
  obtain ⟨s, -, F, hF⟩ := filled_starts le_rfl
  exact ⟨hcard, max N F, fun fuel hfuel ↦ hN fuel (by omega) (hF fuel (by omega)).2⟩

/-- **A pool of 33 pages has bits for 32 of them**, and the last call reads past the end of the
bitmap. -/
theorem not_coherent_odd : oddOffsets.card ≤ numPages 0x21000 ∧ ∃ F, ∀ fuel ≥ F,
    Run.Guarded (step fuel) (Allowed oddOffsets) odd (starts 33) ∧
      Run.exec (step fuel) odd (starts 33) = none := by
  obtain ⟨s, hs, F, hF⟩ := filled_starts le_rfl
  obtain ⟨N, hN⟩ := hs.start_fails
  refine ⟨Finset.card_image_le, max F N, fun fuel hfuel ↦ ?_⟩
  obtain ⟨hexec, hg⟩ := hF fuel (by omega)
  have hnone : step fuel s (startNth 32) = none := hN fuel (by omega)
  have hsplit : starts 33 = starts 32 ++ [startNth 32] := by
    rw [starts, range_succ, map_append, map_singleton, starts]
  rw [hsplit]
  refine ⟨(hg.mono fun s op hop ↦ hop.1).snoc fun t ht ↦ ?_, ?_⟩
  · obtain rfl : s = t := some.inj (hexec.symm.trans ht)
    exact hs.allowed (by decide)
  · rw [Run.exec_append, hexec, bind_some, Run.exec, hnone, bind_none]

end ForgeOS.Cache
