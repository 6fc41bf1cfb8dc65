import ForgeOS.Lib.Word
import ForgeOS.Pmem.Boot
import ForgeOS.Stack.Model

/-!
# The physical page allocator, one call after another

With one processor a call is a function of the memory.  A heap that grows inside `pmem_dealloc`
calls `pmem_alloc` before the page is pushed: that is a call of its own.

The main result is `lawful_iff`.
-/

namespace ForgeOS

open List Option Heap Run

/-- The memory of the allocator.  `pageStack` is the `head` of `page_stack`, if that has been
created. -/
structure PageAllocator where
  pageStack : Option Ptr
  nodes : Heap Ptr (Stack.Node Ptr Ptr)
  pages : Heap Ptr UInt64
  freeKiB : UInt64

namespace PageAllocator

def start : PageAllocator := ⟨none, .empty, .empty, 0⟩

/-- `stack_push`, where `malloc_nolock` returns `n` and `junk` is what is in `n->next`.  The result
is the new head, with the nodes. -/
def stackPush (nodes : Heap Ptr (Stack.Node Ptr Ptr)) (head n junk data : Ptr) :
    Option (Ptr × Heap Ptr (Stack.Node Ptr Ptr)) := do
  let nodes ← nodes.alloc n ⟨junk, data⟩
  if head = junk then some (n, nodes)
  else
    -- The link is set to the head, and the second attempt finds it there.
    let nodes ← nodes.modify n fun nd ↦ { nd with next := head }
    some (n, nodes)

def stackPop (nodes : Heap Ptr (Stack.Node Ptr Ptr)) (head : Ptr) :
    Option (Ptr × Ptr × Heap Ptr (Stack.Node Ptr Ptr)) := do
  let top ← nodes.read head
  let nodes ← nodes.free head
  some (top.p, top.next, nodes)

/-- `pmem_dealloc`, where `malloc_nolock` returns `page` for the `struct phys_page`. -/
def pmemDealloc (s : PageAllocator) (p : UInt64) (page n junk : Ptr) : Option PageAllocator := do
  let pages ← s.pages.alloc page p
  let (head, nodes) ← stackPush s.nodes (s.pageStack.getD 0) n junk page
  some ⟨some head, nodes, pages, s.freeKiB + 0x1000 / 1024⟩

def pmemAlloc (s : PageAllocator) : Option (UInt64 × PageAllocator) :=
  match s.pageStack with
  | none => some (0, s)
  | some head => do
    let (page, head, nodes) ← stackPop s.nodes head
    if page = 0 then some (0, { s with pageStack := some head, nodes := nodes })
    else
      let ret ← s.pages.read page
      let pages ← s.pages.free page
      some (ret, ⟨some head, nodes, pages, s.freeKiB - 0x1000 / 1024⟩)

structure Item where
  node : Ptr
  page : Ptr
  addr : UInt64

structure Holds (s : PageAllocator) (head : Ptr) (l : List Item) : Prop where
  chain : Seg Stack.Node.next s.nodes head (l.map Item.node) 0
  points : ∀ x ∈ l, ∃ nd, s.nodes.read x.node = some nd ∧ nd.p = x.page
  pages : ∀ x ∈ l, s.pages.read x.page = some x.addr
  nodup : (l.map Item.page).Nodup

structure Represents (s : PageAllocator) (m : PhysMem) (l : List Item) : Prop where
  holds : s.Holds (s.pageStack.getD 0) l
  stack : m.pageStack = s.pageStack.map fun _ ↦ l.map Item.addr
  freeKiB : m.freeKiB = s.freeKiB

variable {s : PageAllocator} {m : PhysMem} {l : List Item} {p : UInt64}

theorem represents_start : start.Represents .empty [] where
  holds := ⟨rfl, by simp, by simp, nodup_nil⟩
  stack := rfl
  freeKiB := rfl

theorem Represents.freePages (h : s.Represents m l) : m.freePages = l.map Item.addr := by
  rw [PhysMem.freePages, h.stack]
  cases hs : s.pageStack with
  | some head => rfl
  | none =>
    have hchain := h.holds.chain
    rw [hs, getD_none] at hchain
    rw [map_eq_nil_iff.mp hchain.eq_nil_of_zero]
    rfl

theorem stackPush_eq {nodes : Heap Ptr (Stack.Node Ptr Ptr)} {head n junk data : Ptr} (hn : n ≠ 0)
    (hfree : nodes.read n = none) :
    stackPush nodes head n junk data = some (n, nodes.set n ⟨head, data⟩) := by
  rw [stackPush, alloc_eq hn hfree]
  simp only [bind_eq_bind, bind_some]
  split
  next hjunk => rw [hjunk]
  next => rw [modify_eq (read_set_self hn), bind_some, Heap.set_set]

theorem Represents.pmemDealloc (h : s.Represents m l) {page n : Ptr} (hpage : page ≠ 0)
    (hpageFree : s.pages.read page = none) (hn : n ≠ 0) (hnFree : s.nodes.read n = none)
    (junk : Ptr) :
    ∃ s', s.pmemDealloc p page n junk = some s' ∧
      s'.Represents (m.pushPage p) (⟨n, page, p⟩ :: l) := by
  have hnodes : ∀ x ∈ l, x.node ≠ n := by
    rintro x hx rfl
    obtain ⟨nd, hnd, -⟩ := h.holds.points x hx
    exact absurd (hnFree.symm.trans hnd) nofun
  have hpages : ∀ x ∈ l, x.page ≠ page := by
    rintro x hx rfl
    exact absurd (hpageFree.symm.trans (h.holds.pages x hx)) nofun
  refine ⟨⟨some n, s.nodes.set n ⟨s.pageStack.getD 0, page⟩, s.pages.set page p,
    s.freeKiB + 0x1000 / 1024⟩, ?_, ?_, ?_, ?_⟩
  · rw [PageAllocator.pmemDealloc, alloc_eq hpage hpageFree, stackPush_eq hn hnFree]
    rfl
  · refine ⟨⟨rfl, _, read_set_self hn, h.holds.chain.frame fun x hx ↦ ?_⟩, fun x hx ↦ ?_,
      fun x hx ↦ ?_, ?_⟩
    · obtain ⟨y, hy, rfl⟩ := mem_map.mp hx
      exact read_set_of_ne (hnodes y hy)
    · rcases mem_cons.mp hx with rfl | hx
      · exact ⟨_, read_set_self hn, rfl⟩
      · rw [read_set_of_ne (hnodes x hx)]
        exact h.holds.points x hx
    · rcases mem_cons.mp hx with rfl | hx
      · exact read_set_self hpage
      · rw [read_set_of_ne (hpages x hx)]
        exact h.holds.pages x hx
    · refine nodup_cons.mpr ⟨fun hmem ↦ ?_, h.holds.nodup⟩
      obtain ⟨x, hx, heq⟩ := mem_map.mp hmem
      exact hpages x hx heq
  · rw [PhysMem.pushPage, h.freePages]
    rfl
  · exact congrArg (· + 0x1000 / 1024) h.freeKiB

theorem Represents.pmemAlloc (h : s.Represents m l) :
    (s.pageStack = none ∧ s.pmemAlloc = some (0, s) ∧ m.pmemAlloc = some (0, m)) ∨
      (l = [] ∧ s.pageStack ≠ none ∧ s.pmemAlloc = none ∧ m.pmemAlloc = none) ∨
      ∃ x l' s' m', l = x :: l' ∧ s.pmemAlloc = some (x.addr, s') ∧
        m.pmemAlloc = some (x.addr, m') ∧ s'.Represents m' l' ∧
        s'.freeKiB = s.freeKiB - 0x1000 / 1024 := by
  obtain ⟨hholds, hstack, hfree⟩ := h
  cases hs : s.pageStack with
  | none =>
    rw [hs] at hstack
    exact .inl ⟨rfl, by rw [PageAllocator.pmemAlloc, hs], by rw [PhysMem.pmemAlloc, hstack]; rfl⟩
  | some head =>
    rw [hs, getD_some] at hholds
    rw [hs, map_some] at hstack
    refine .inr ?_
    cases l with
    | nil =>
      obtain rfl : head = 0 := hholds.chain
      refine .inl ⟨rfl, some_ne_none _, ?_, ?_⟩
      · simp [PageAllocator.pmemAlloc, hs, stackPop]
      · simp [PhysMem.pmemAlloc, hstack, PhysMem.stackPop]
    | cons x l =>
      obtain ⟨rfl, nd, hnd, hchain⟩ := hholds.chain
      obtain ⟨nd', hnd', hp⟩ := hholds.points x mem_cons_self
      obtain rfl : nd = nd' := some.inj (hnd.symm.trans hnd')
      have hread := hholds.pages x mem_cons_self
      have hpage : nd.p ≠ 0 := hp ▸ ne_zero_of_read hread
      have hnodes := (nodup_cons.mp hholds.chain.nodup).1
      have hpages := (nodup_cons.mp hholds.nodup).1
      have hnode : ∀ y ∈ l, y.node ≠ x.node := fun y hy heq ↦
        hnodes (heq ▸ mem_map_of_mem hy)
      refine .inr ⟨x, l, ⟨some nd.next, s.nodes.erase x.node, s.pages.erase x.page,
        s.freeKiB - 0x1000 / 1024⟩, { m with
          pageStack := some (l.map Item.addr), freeKiB := m.freeKiB - 0x1000 / 1024 }, rfl, ?_, ?_,
        ⟨⟨?_, fun y hy ↦ ?_, fun y hy ↦ ?_, ?_⟩, ?_, ?_⟩, rfl⟩
      · simp [PageAllocator.pmemAlloc, hs, stackPop, hnd, free_eq hnd, hp ▸ hpage, hp, hread,
          free_eq hread]
      · rw [PhysMem.pmemAlloc, hstack]
        rfl
      · refine hchain.frame fun y hy ↦ ?_
        obtain ⟨z, hz, rfl⟩ := mem_map.mp hy
        exact read_erase_of_ne (hnode z hz)
      · rw [read_erase_of_ne (hnode y hy)]
        exact hholds.points y (mem_cons_of_mem _ hy)
      · have hy' : y.page ≠ x.page := fun heq ↦ hpages (heq ▸ mem_map_of_mem hy)
        rw [read_erase_of_ne hy']
        exact hholds.pages y (mem_cons_of_mem _ hy)
      · exact (nodup_cons.mp hholds.nodup).2
      · rfl
      · exact congrArg (· - 0x1000 / 1024) hfree

/-- A call, with what `malloc_nolock` returns in it. -/
inductive Call where
  | dealloc (p : UInt64) (page n junk : Ptr)
  | alloc

structure Account where
  mem : PageAllocator
  free : Finset UInt64

namespace Account

def start : Account := ⟨.start, ∅⟩

def step (a : Account) : Call → Option Account
  | .dealloc p page n junk => (a.mem.pmemDealloc p page n junk).map fun mem ↦ ⟨mem, insert p a.free⟩
  | .alloc => a.mem.pmemAlloc.map fun (p, mem) ↦ ⟨mem, a.free.erase p⟩

/-- A page is freed while it is not free, and `malloc_nolock` returns memory that is not in use. -/
def Allowed (a : Account) : Call → Prop
  | .dealloc p page n _ => p ∉ a.free ∧ page ≠ 0 ∧ a.mem.pages.read page = none ∧ n ≠ 0 ∧
      a.mem.nodes.read n = none
  | .alloc => True

/-- What a call should do: `pmem_dealloc` returns, and `pmem_alloc` returns a page that is free, or
0 and changes nothing if there is none. -/
def Lawful (a : Account) : Call → Prop
  | .dealloc p page n junk => ∃ mem, a.mem.pmemDealloc p page n junk = some mem
  | .alloc => if a.free = ∅ then a.mem.pmemAlloc = some (0, a.mem)
      else ∃ p ∈ a.free, ∃ mem, a.mem.pmemAlloc = some (p, mem)

/-- `pmem_alloc` is called while there is a free page, or before the first page was freed. -/
def Served (a : Account) : Call → Prop
  | .dealloc _ _ _ _ => True
  | .alloc => a.free ≠ ∅ ∨ a.mem.pageStack = none

structure Inv (a : Account) (m : PhysMem) (l : List Item) : Prop where
  represents : a.mem.Represents m l
  nodup : (l.map Item.addr).Nodup
  free : ∀ p, p ∈ a.free ↔ p ∈ l.map Item.addr
  freeKiB : a.mem.freeKiB = UInt64.ofNat (4 * l.length)

variable {a b : Account}

theorem inv_start : start.Inv .empty [] where
  represents := represents_start
  nodup := nodup_nil
  free := by simp [start]
  freeKiB := rfl

theorem Inv.card (h : a.Inv m l) : a.free.card = l.length := by
  have heq : a.free = (l.map Item.addr).toFinset := by
    ext p
    rw [h.free, List.mem_toFinset]
  rw [heq, toFinset_card_of_nodup h.nodup, length_map]

theorem Inv.freek (h : a.Inv m l) : a.mem.freeKiB.toNat = 4 * a.free.card := by
  have hlen := h.represents.holds.chain.length_lt
  rw [length_map, wordSize] at hlen
  rw [h.freeKiB, h.card, UInt64.toNat_ofNat', Nat.mod_eq_of_lt (by omega)]

theorem Inv.dealloc (h : a.Inv m l) {page n junk : Ptr} (hv : a.Allowed (.dealloc p page n junk)) :
    ∃ mem m' l', a.mem.pmemDealloc p page n junk = some mem ∧ Inv ⟨mem, insert p a.free⟩ m' l' := by
  obtain ⟨hp, hpage, hpageFree, hn, hnFree⟩ := hv
  obtain ⟨mem, hmem, hrep⟩ := h.represents.pmemDealloc (p := p) hpage hpageFree hn hnFree junk
  refine ⟨mem, _, _, hmem, hrep, ?_, fun q ↦ ?_, ?_⟩
  · exact nodup_cons.mpr ⟨fun hmem ↦ hp ((h.free p).mpr hmem), h.nodup⟩
  · rw [Finset.mem_insert, h.free, map_cons, mem_cons]
  · have hfree : mem.freeKiB = a.mem.freeKiB + 4 := by
      rw [← hrep.freeKiB, ← h.represents.freeKiB]
      rfl
    rw [hfree, h.freeKiB, length_cons, Nat.mul_add, UInt64.ofNat_add]
    rfl

theorem Inv.alloc (h : a.Inv m l) :
    (a.Lawful .alloc ↔ a.Served .alloc) ∧
      ∀ q mem, a.mem.pmemAlloc = some (q, mem) → ∃ m' l', Inv ⟨mem, a.free.erase q⟩ m' l' := by
  have hempty : a.free = ∅ ↔ l = [] := by
    rw [← Finset.card_eq_zero, h.card, length_eq_zero_iff]
  rcases h.represents.pmemAlloc with
    ⟨hnone, hs, -⟩ | ⟨rfl, hsome, hs, -⟩ | ⟨x, l', s', m', rfl, hs, -, hrep, hfree⟩
  · -- There is no stack yet.
    have hl : l = [] := by
      have hchain := h.represents.holds.chain
      rw [hnone, getD_none] at hchain
      exact map_eq_nil_iff.mp hchain.eq_nil_of_zero
    refine ⟨?_, fun q mem hq ↦ ⟨m, l, ?_⟩⟩
    · rw [Lawful, if_pos (hempty.mpr hl)]
      exact iff_of_true hs (.inr hnone)
    · obtain ⟨rfl, rfl⟩ := Prod.mk.inj (some.inj (hs.symm.trans hq))
      rw [hempty.mpr hl, Finset.erase_empty, ← hempty.mpr hl]
      exact h
  · -- The stack is empty.
    refine ⟨?_, fun q mem hq ↦ absurd (hs.symm.trans hq) nofun⟩
    rw [Lawful, if_pos (hempty.mpr rfl), hs]
    exact iff_of_false nofun fun hserved ↦ hserved.elim (fun hne ↦ hne (hempty.mpr rfl)) hsome
  · have hne : a.free ≠ ∅ := fun heq ↦ cons_ne_nil _ _ (hempty.mp heq)
    have hmem : x.addr ∈ a.free := (h.free _).mpr mem_cons_self
    obtain ⟨hx, hnodup⟩ := nodup_cons.mp h.nodup
    refine ⟨?_, fun q mem hq ↦ ⟨m', l', ?_⟩⟩
    · rw [Lawful, if_neg hne]
      exact iff_of_true ⟨_, hmem, _, hs⟩ (.inl hne)
    · obtain ⟨rfl, rfl⟩ := Prod.mk.inj (some.inj (hs.symm.trans hq))
      refine ⟨hrep, hnodup, fun p ↦ ?_, ?_⟩
      · rw [Finset.mem_erase, h.free, map_cons, mem_cons]
        constructor
        · rintro ⟨hne, rfl | hp⟩
          · exact absurd rfl hne
          · exact hp
        · intro hp
          exact ⟨fun heq ↦ hx (heq ▸ hp), .inr hp⟩
      · rw [hfree, h.freeKiB, length_cons, Nat.mul_add, UInt64.ofNat_add]
        exact UInt64.add_sub_cancel _ _

theorem inv_step {c : Call} (h : ∃ m l, a.Inv m l) (hv : a.Allowed c) (hb : a.step c = some b) :
    ∃ m l, b.Inv m l := by
  obtain ⟨m, l, h⟩ := h
  cases c with
  | dealloc p page n junk =>
    obtain ⟨mem, m', l', hmem, hinv⟩ := h.dealloc hv
    rw [step, hmem, map_some] at hb
    exact ⟨m', l', some.inj hb ▸ hinv⟩
  | alloc =>
    rw [step, map_eq_some_iff] at hb
    obtain ⟨⟨q, mem⟩, hq, rfl⟩ := hb
    exact h.alloc.2 q mem hq

theorem lawful_step {c : Call} (h : ∃ m l, a.Inv m l) (hv : a.Allowed c) :
    a.Lawful c ↔ a.Served c := by
  obtain ⟨m, l, h⟩ := h
  cases c with
  | dealloc p page n junk =>
    obtain ⟨mem, -, -, hmem, -⟩ := h.dealloc hv
    exact iff_of_true ⟨mem, hmem⟩ trivial
  | alloc => exact h.alloc.1

/-- **The allocator, one call after another**: all calls do what they should exactly if `pmem_alloc`
is only called while there is a free page, or before the first one was freed. -/
theorem lawful_iff {calls : List Call} (hv : Guarded step Allowed start calls) :
    (∀ a, exec step start calls = some a → a.mem.freeKiB.toNat = 4 * a.free.card) ∧
      (Guarded step Lawful start calls ↔ Guarded step Served start calls) := by
  have hstart : ∃ m l, start.Inv m l := ⟨_, _, inv_start⟩
  refine ⟨fun a ha ↦ ?_, ?_⟩
  · obtain ⟨m, l, hinv⟩ :=
      inv_of_guarded (fun _ _ _ h hv hb ↦ inv_step h hv hb) hstart hv ha
    exact hinv.freek
  · exact guarded_congr (fun _ _ _ h hv hb ↦ inv_step h hv hb)
      (fun _ _ h hv ↦ lawful_step h hv) hstart hv

def onePage : List Call := [.dealloc 0x1000 0x10 0x20 0x30, .alloc]

theorem allowed_onePage : Guarded step Allowed start onePage :=
  ⟨⟨Finset.notMem_empty _, by decide, rfl, by decide, rfl⟩, fun _ _ ↦ ⟨trivial, fun _ _ ↦ trivial⟩⟩

theorem lawful_onePage : Guarded step Lawful start onePage := by
  refine (lawful_iff allowed_onePage).2.mpr ⟨trivial, fun a ha ↦ ⟨.inl ?_, fun _ _ ↦ trivial⟩⟩
  cases ha
  exact Finset.insert_ne_empty _ _

/-- **The second allocation faults**: `stack_pop` follows the head of the empty stack. -/
theorem not_lawful_onePage :
    Guarded step Allowed start (onePage ++ [.alloc]) ∧
      (∃ a, exec step start onePage = some a ∧ a.free = ∅ ∧ a.mem.pmemAlloc = none) ∧
      ¬ Guarded step Lawful start (onePage ++ [.alloc]) := by
  have hexec : ∃ a, exec step start onePage = some a ∧ a.free = ∅ ∧ a.mem.pmemAlloc = none :=
    ⟨_, rfl, rfl, rfl⟩
  refine ⟨?_, hexec, fun h ↦ ?_⟩
  · exact guarded_append.mpr ⟨allowed_onePage, fun _ _ ↦ ⟨trivial, fun _ _ ↦ trivial⟩⟩
  · obtain ⟨a, ha, hfree, hnone⟩ := hexec
    have hlaw := ((guarded_append.mp h).2 a ha).1
    rw [Lawful, if_pos hfree, hnone] at hlaw
    cases hlaw

end Account
end PageAllocator
end ForgeOS
