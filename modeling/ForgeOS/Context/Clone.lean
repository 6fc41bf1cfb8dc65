import ForgeOS.Context.Switch
import ForgeOS.Pool.Live

/-!
# The clone of a context

`clone_context` copies a context and the stack of its thread, and moves the pointers into the stack
by the distance of the two stacks.

The main result is `clones_iff`.
-/

namespace ForgeOS.Context

open X86 Memory Option UInt32

/-- The assignments of `clone_context`, with the stack that `pool_alloc` has returned. -/
def copyOut (mem : Memory) (old new stack : UInt32) : Memory :=
  let mem := mem.copy stack (mem.load (old + 28)) poolStackSz.toNat
  let mem := mem.store (new + 28) stack
  let ebpDiff := mem.load (old + 16) - mem.load (old + 28)
  let espDiff := mem.load (old + 16) - mem.load (old + 28)
  let mem := mem.store (new + 12) (mem.load (new + 28) + ebpDiff)
  mem.store (new + 16) (mem.load (new + 28) + espDiff)

/-- `clone_context`.  The memory is what the addresses hold once the stack is there.  A `none`
result is a failed assertion, or a fault in `pool_alloc`. -/
def cloneContext (stackpool : Pool) (frames : ℕ → UInt64 × UInt64) (mem : Memory)
    (old new : UInt32) : Option (Pool × Memory) :=
  let mem := mem.copy new old 36
  if mem.load (old + 32) = 0 then none
  else (stackpool.poolAlloc frames).map fun r ↦ (r.2, copyOut mem old new (.ofNat r.1))

def stackAt (mem : Memory) (ctx : UInt32) : Set UInt32 :=
  bytes (mem.load (ctx + 28)) poolStackSz.toNat

def stackRange : Set UInt32 := bytes 0xFBBFC000 0x4000000

/-- The context at `old` is that of a thread with a pool stack, in which its stack pointer and its
frame pointer are, and at `new` there is room for another context. -/
structure PoolStack (stackpool : Pool) (mem : Memory) (old new : UInt32) : Prop where
  reached : ∃ vmem ops,
    Run.Guarded Pool.step (fun s op ↦ s.book.Allowed op.book) (initContext vmem) ops ∧
      Run.exec Pool.step (initContext vmem) ops = some stackpool
  flag : mem.load (old + 32) ≠ 0
  live : (mem.load (old + 28)).toNat ∈ stackpool.live
  esp : mem.load (old + 16) ∈ stackAt mem old
  ebp : mem.load (old + 12) ∈ stackAt mem old
  old_apart : Disjoint (bytes old 36) stackRange
  new_apart : Disjoint (bytes new 36) stackRange
  apart : Disjoint (bytes new 36) (bytes old 36)

/-- After `clone_context` the context at `new` is the one at `old`, moved to a stack of its own. -/
structure Clones (stackpool stackpool' : Pool) (mem mem' : Memory) (old new : UInt32) : Prop where
  fields : ∀ i ∈ [0, 4, 8, 20, 24, 32], mem'.load (new + i) = mem.load (old + i)
  relocated : ∀ i ∈ [12, 16, 28], mem'.load (new + i) =
    mem.load (old + i) + (mem'.load (new + 28) - mem.load (old + 28))
  copied : ∀ i : UInt32, i.toNat < poolStackSz.toNat →
    mem' (mem'.load (new + 28) + i) = mem (mem.load (old + 28) + i)
  handed : (mem'.load (new + 28)).toNat ∈ stackpool'.live
  own : ∀ p ∈ stackpool.live, Disjoint (stackAt mem' new) (bytes (.ofNat p) poolStackSz.toNat)
  inside : bytes (mem'.load (new + 16)) 4 ⊆ stackAt mem' new ∧
    mem'.load (new + 12) ∈ stackAt mem' new
  resumes : ∀ lock m, Resumes mem' (stackAt mem' new) new lock m →
    let m' := restoreThreadContext.run m
    m'.reg .esp = mem'.load (new + 16) + 4 ∧ m'.reg .ebp = mem'.load (new + 12) ∧
      Set.EqOn m'.mem m.mem (stackAt mem' new ∪ if lock = 0 then ∅ else bytes lock 4)ᶜ

variable {stackpool stackpool' : Pool} {mem mem' : Memory} {old new stack : UInt32} {p q : ℕ}

structure Stacked (s : Pool) : Prop where
  sound : s.book.Sound
  base : s.base = 0xFBBFC000
  size : s.bufferSize = 0x4000
  count : s.bufferCount = 0x1000

theorem stacked_initContext (vmem : Vmem) : Stacked (initContext vmem) where
  sound := @Pool.Book.sound_createPoolAt 0x4000 0x1000 0xFBBFC000 (by decide) (.inr (by decide))
    (by decide)
  base := rfl
  size := rfl
  count := rfl

theorem Stacked.step {s s' : Pool} {op : Pool.Op} (h : Stacked s) (hs : s.step op = some s')
    (hop : s.book.Allowed op.book) : Stacked s' := by
  have hbook := Pool.step_book h.sound.toInv hs
  have hsame := Pool.Book.samePool_step hbook
  obtain ⟨b, hb, hsound⟩ := h.sound.step hop
  obtain rfl : b = s'.book := some.inj ((mem_def.mp hb).symm.trans hbook)
  exact ⟨hsound, hsame.base.trans h.base, hsame.bufferSize.trans h.size,
    hsame.bufferCount.trans h.count⟩

theorem PoolStack.stacked (h : PoolStack stackpool mem old new) : Stacked stackpool := by
  obtain ⟨vmem, ops, hops, hrun⟩ := h.reached
  exact Run.inv_of_guarded (fun s op t hs hop ht ↦ hs.step ht hop) (stacked_initContext vmem) hops
    hrun

theorem Stacked.bounds (h : Stacked stackpool) (hp : p ∈ stackpool.live) :
    0xFBBFC000 ≤ p ∧ p + 0x4000 ≤ 0xFFBFC000 := by
  have hin := h.sound.separate.inside p hp
  simpa only [Pool.book, h.base, h.size, h.count] using hin

theorem toNat_ofNat_stack (h : p + 0x4000 ≤ 0xFFBFC000) : (ofNat p).toNat = p := by
  rw [toNat_ofNat']
  exact Nat.mod_eq_of_lt (by omega)

theorem Stacked.subset (h : Stacked stackpool) (hp : p ∈ stackpool.live) :
    bytes (.ofNat p) poolStackSz.toNat ⊆ stackRange := by
  obtain ⟨hlo, hhi⟩ := h.bounds hp
  have hadd : ofNat p = 0xFBBFC000 + (ofNat p - 0xFBBFC000) := by grind
  have hoff : (ofNat p - 0xFBBFC000).toNat = p - 0xFBBFC000 := by
    have hword := toNat_ofNat_stack hhi
    rw [UInt32.toNat_sub_of_le _ _ (le_iff_toNat_le.mpr (by rw [hword]; exact hlo)), hword]
    rfl
  rw [hadd, stackRange]
  refine bytes_add_subset ?_
  rw [hoff]
  show p - 0xFBBFC000 + 0x4000 ≤ 0x4000000
  omega

theorem disjoint_stacks (hp : p + 0x4000 ≤ q) (hq : q + 0x4000 ≤ 0xFFBFC000) :
    Disjoint (bytes (.ofNat p) poolStackSz.toNat) (bytes (.ofNat q) poolStackSz.toNat) := by
  have hp' := toNat_ofNat_stack (show p + 0x4000 ≤ 0xFFBFC000 by omega)
  have hq' := toNat_ofNat_stack hq
  have hoff : (ofNat q - ofNat p).toNat = q - p := by
    rw [UInt32.toNat_sub_of_le _ _ (le_iff_toNat_le.mpr (by omega)), hp', hq']
  refine disjoint_bytes ?_ ?_
  · rw [hoff]
    show 0x4000 ≤ q - p
    omega
  · rw [hoff]
    show q - p + 0x4000 ≤ 2 ^ 32
    omega

variable {frames : ℕ → UInt64 × UInt64}

theorem Stacked.poolAlloc (h : Stacked stackpool)
    (hcount : stackpool.allocCount ≠ stackpool.bufferCount)
    (hcall : stackpool.poolAlloc frames = some (q, stackpool')) :
    Stacked stackpool' ∧ q ∈ stackpool'.live ∧
      ∀ p ∈ stackpool.live, Disjoint (bytes (.ofNat q) poolStackSz.toNat)
        (bytes (.ofNat p) poolStackSz.toNat) := by
  have hbook := Pool.book_poolAlloc h.sound.toInv hcall
  have hstep : stackpool.step (.alloc frames) = some stackpool' := by rw [Pool.step, hcall]; rfl
  have hnext := h.step hstep trivial
  rcases Pool.Book.poolAlloc_cases hbook with ⟨hfull, -⟩ | ⟨-, w, hw, rfl, hout⟩
  · exact absurd hfull hcount
  have hlive : stackpool'.live = stackpool.book.bufferAddr (stackpool.book.nextIdx w) ::
      stackpool.live := congrArg Pool.Book.live hout
  refine ⟨hnext, hlive ▸ List.mem_cons_self, fun p hp ↦ ?_⟩
  have hsep := hnext.sound.separate.apart
  have hq := hnext.bounds (hlive ▸ List.mem_cons_self)
  have hp' := h.bounds hp
  rw [show stackpool'.book.live = _ from hlive, List.pairwise_cons] at hsep
  have happart := hsep.1 p hp
  rw [show stackpool'.book.bufferSize = _ from hnext.size] at happart
  rcases happart with hle | hle
  · exact disjoint_stacks hle hp'.2
  · exact (disjoint_stacks hle hq.2).symm

theorem copyOut_stackbase : (copyOut mem old new stack).load (new + 28) = stack := by
  simp (disch := decide) only [copyOut, load_store_field, load_store_self]

theorem copyOut_apply (hnew : Disjoint (bytes new 36) (bytes stack poolStackSz.toNat)) {i : UInt32}
    (hi : i.toNat < poolStackSz.toNat) :
    copyOut mem old new stack (stack + i) = mem (mem.load (old + 28) + i) := by
  have hmem : stack + i ∈ bytes stack poolStackSz.toNat := by
    rwa [mem_bytes, UInt32.add_comm, UInt32.add_sub_cancel]
  have hfield : ∀ i : UInt32, i.toNat + 4 ≤ 36 →
      Disjoint (bytes (new + i) 4) (bytes stack poolStackSz.toNat) :=
    fun i hi ↦ field_disjoint hnew hi
  rw [copyOut, store_eqOn_of_disjoint (hfield 16 (by decide)) hmem,
    store_eqOn_of_disjoint (hfield 12 (by decide)) hmem,
    store_eqOn_of_disjoint (hfield 28 (by decide)) hmem, copy_apply hi]

variable (mem) in
theorem copyOut_pointers (hstack : Disjoint (bytes stack poolStackSz.toNat) (bytes old 36))
    (hnew : Disjoint (bytes new 36) (bytes old 36)) : let mem' := copyOut mem old new stack
    let sp := stack + (mem.load (old + 16) - mem.load (old + 28))
    mem'.load (new + 12) = sp ∧ mem'.load (new + 16) = sp := by
  have hold : ∀ i : UInt32, i.toNat + 4 ≤ 36 →
      ((mem.copy stack (mem.load (old + 28)) poolStackSz.toNat).store (new + 28) stack).load
        (old + i) = mem.load (old + i) := fun i hi ↦ load_congr <|
    (store_eqOn_of_disjoint (field_disjoint (hnew.mono_right (bytes_add_subset hi))
      (by decide))).trans (copy_eqOn_of_disjoint (hstack.mono_right (bytes_add_subset hi)))
  simp (disch := decide) only [copyOut, load_store_field, load_store_self, hold, and_self]

theorem field_apart {i : UInt32} (hi : i ∈ [0, 4, 8, 20, 24, 32]) :
    i.toNat + 4 ≤ 36 ∧ ∀ j ∈ [(16 : UInt32), 12, 28],
      j.toNat + 4 ≤ i.toNat ∧ i.toNat + 4 ≤ 2 ^ 32 ∨
        i.toNat + 4 ≤ j.toNat ∧ j.toNat + 4 ≤ 2 ^ 32 := by
  simp only [List.mem_cons, List.not_mem_nil, or_false] at hi
  rcases hi with rfl | rfl | rfl | rfl | rfl | rfl <;> simp

theorem copyOut_field (hstack : Disjoint (bytes stack poolStackSz.toNat) (bytes new 36))
    {i : UInt32} (hi : i ∈ [0, 4, 8, 20, 24, 32]) :
    (copyOut mem old new stack).load (new + i) = mem.load (new + i) := by
  obtain ⟨hsize, hapart⟩ := field_apart hi
  simp only [List.forall_mem_cons] at hapart
  obtain ⟨hesp, hebp, hbase, -⟩ := hapart
  rw [copyOut, load_store_field hesp, load_store_field hebp, load_store_field hbase]
  exact load_congr (copy_eqOn_of_disjoint (hstack.mono_right (bytes_add_subset hsize)))

theorem cloneContext_eq
    (hclone : cloneContext stackpool frames mem old new = some (stackpool', mem')) :
    ∃ q, stackpool.poolAlloc frames = some (q, stackpool') ∧
      mem' = copyOut (mem.copy new old 36) old new (.ofNat q) := by
  obtain ⟨-, hclone⟩ := ite_none_left_eq_some.mp hclone
  obtain ⟨⟨q, s⟩, hcall, heq⟩ := map_eq_some_iff.mp hclone
  obtain ⟨rfl, rfl⟩ := Prod.mk.inj heq
  exact ⟨q, hcall, rfl⟩

structure Cloned (stackpool' : Pool) (mem mem' : Memory) (old new : UInt32) (q : ℕ) : Prop where
  stacked : Stacked stackpool'
  live : q ∈ stackpool'.live
  stackbase : mem'.load (new + 28) = .ofNat q
  ebp : mem'.load (new + 12) = .ofNat q + (mem.load (old + 16) - mem.load (old + 28))
  esp : mem'.load (new + 16) = .ofNat q + (mem.load (old + 16) - mem.load (old + 28))
  fields : ∀ i ∈ [0, 4, 8, 20, 24, 32], mem'.load (new + i) = mem.load (old + i)
  copied : ∀ i : UInt32, i.toNat < poolStackSz.toNat →
    mem' (.ofNat q + i) = mem (mem.load (old + 28) + i)

theorem PoolStack.cloned (h : PoolStack stackpool mem old new)
    (hcount : stackpool.allocCount ≠ stackpool.bufferCount)
    (hcall : stackpool.poolAlloc frames = some (q, stackpool')) :
    Cloned stackpool' mem (copyOut (mem.copy new old 36) old new (.ofNat q)) old new q := by
  obtain ⟨hnext, hlive, -⟩ := h.stacked.poolAlloc hcount hcall
  have hsub := hnext.subset hlive
  have hold : ∀ i : UInt32, i.toNat + 4 ≤ 36 →
      (mem.copy new old 36).load (old + i) = mem.load (old + i) := fun i hi ↦
    load_congr (copy_eqOn_of_disjoint (h.apart.mono_right (bytes_add_subset hi)))
  obtain ⟨hebp, hesp⟩ := copyOut_pointers (mem.copy new old 36)
    (h.old_apart.mono_right hsub).symm h.apart
  rw [hold 16 (by decide), hold 28 (by decide)] at hebp hesp
  refine ⟨hnext, hlive, copyOut_stackbase, hebp, hesp, fun i hi ↦ ?_, fun i hi ↦ ?_⟩
  · rw [copyOut_field (h.new_apart.mono_right hsub).symm hi,
      load_copy (by decide) (field_apart hi).1]
  · have hbase := h.stacked.subset h.live
    rw [UInt32.ofNat_toNat] at hbase
    have hmem : mem.load (old + 28) + i ∈ stackRange := hbase (by
      rwa [mem_bytes, UInt32.add_comm, UInt32.add_sub_cancel])
    rw [copyOut_apply (h.new_apart.mono_right hsub) hi, hold 28 (by decide),
      copy_eqOn_of_disjoint h.new_apart hmem]

theorem resumes_inside {lock : UInt32} {m : Machine}
    (hsp : bytes (mem'.load (new + 16)) 4 ⊆ stackAt mem' new)
    (h : Resumes mem' (stackAt mem' new) new lock m) : let m' := restoreThreadContext.run m
    m'.reg .esp = mem'.load (new + 16) + 4 ∧ m'.reg .ebp = mem'.load (new + 12) ∧
      Set.EqOn m'.mem m.mem (stackAt mem' new ∪ if lock = 0 then ∅ else bytes lock 4)ᶜ := by
  have hload : ∀ i : UInt32, i.toNat + 4 ≤ 36 → m.mem.load (new + i) = mem'.load (new + i) :=
    fun i hi ↦ load_congr (h.kept.mono ((bytes_add_subset hi).trans Set.subset_union_left))
  obtain ⟨hmem, hesp, -⟩ := run_restoreThreadContext h
  obtain ⟨-, -, -, -, -, hebp⟩ := run_restore_regs h.ctx_arg h.lock_arg
  rw [hload 16 (by decide)] at hmem hesp
  refine ⟨hesp, hebp.trans (hload 12 (by decide)), ?_⟩
  rw [hmem]
  refine (store_eqOn_of_disjoint ?_).trans ?_
  · exact disjoint_compl_right.mono_left (hsp.trans Set.subset_union_left)
  split
  · exact Set.eqOn_refl _ _
  · exact store_eqOn_of_disjoint
      (disjoint_compl_right.mono_left Set.subset_union_right)

/-- **A clone has the right frame pointer only if it is the stack pointer**, and a stack of its own
only if the pool has one left. -/
theorem clones_iff {frames : ℕ → UInt64 × UInt64} (h : PoolStack stackpool mem old new)
    (hclone : cloneContext stackpool frames mem old new = some (stackpool', mem')) :
    Clones stackpool stackpool' mem mem' old new ↔
      stackpool.allocCount ≠ stackpool.bufferCount ∧ mem.load (old + 12) = mem.load (old + 16) ∧
        bytes (mem.load (old + 16)) 4 ⊆ stackAt mem old := by
  obtain ⟨q, hcall, rfl⟩ := cloneContext_eq hclone
  by_cases hcount : stackpool.allocCount = stackpool.bufferCount
  · -- The clone has the stack at the null pointer.
    refine iff_of_false (fun hc ↦ ?_) fun hcond ↦ hcond.1 hcount
    rw [Pool.poolAlloc, if_pos hcount] at hcall
    obtain ⟨rfl, rfl⟩ := Prod.mk.inj (some.inj hcall)
    have hhanded := hc.handed
    rw [copyOut_stackbase] at hhanded
    exact absurd (h.stacked.bounds hhanded).1 (by decide)
  have hown := (h.stacked.poolAlloc hcount hcall).2.2
  have hc := h.cloned hcount hcall
  generalize copyOut (mem.copy new old 36) old new (.ofNat q) = mem' at hc ⊢
  have hsize : poolStackSz.toNat < 2 ^ 32 := by decide
  have hroom : bytes (mem'.load (new + 16)) 4 ⊆ stackAt mem' new ↔
      bytes (mem.load (old + 16)) 4 ⊆ stackAt mem old := by
    rw [stackAt, stackAt, word_subset_iff hsize, word_subset_iff hsize, hc.esp, hc.stackbase,
      UInt32.add_comm, UInt32.add_sub_cancel]
  constructor
  · intro hclones
    refine ⟨hcount, ?_, hroom.mp hclones.inside.1⟩
    have hebp := hclones.relocated 12 (by decide)
    rw [hc.ebp, hc.stackbase] at hebp
    grind
  · rintro ⟨-, heq, hsub⟩
    have hsp := hroom.mpr hsub
    refine ⟨hc.fields, ?_, ?_, ?_, ?_, ⟨hsp, ?_⟩, fun lock m hm ↦ resumes_inside hsp hm⟩
    · simp only [List.forall_mem_cons, hc.ebp, hc.esp, hc.stackbase, heq]
      refine ⟨by grind, by grind, by grind, by simp⟩
    · rw [hc.stackbase]
      exact hc.copied
    · rw [hc.stackbase, toNat_ofNat_stack (hc.stacked.bounds hc.live).2]
      exact hc.live
    · rw [stackAt, hc.stackbase]
      exact hown
    · rw [hc.ebp, ← hc.esp]
      exact hsp (self_mem_bytes (by decide))

def onePool : Pool :=
  { initContext ⟨⟨0x1000, fun _ _ ↦ 0x1003⟩, 0⟩ with
    bitmap := (List.replicate 128 (0 : UInt32)).set 0 1
    allocCount := 1
    live := [0xFBBFC000] }

def idleThread (ebp : UInt32) : Memory :=
  (layOut (fun _ ↦ 0) 0x2000 0x1234 0xFBBFC000 0x4000 0 0x1000 1).store 0x200C ebp

def idleClone (ebp : UInt32) : Memory :=
  copyOut ((idleThread ebp).copy 0x3000 0x2000 36) 0x2000 0x3000 0xFBC00000

theorem cloneContext_idleThread {ebp : UInt32} (h : ebp = 0xFBBFFFF8 ∨ ebp = 0xFBBFFFFC) :
    PoolStack onePool (idleThread ebp) 0x2000 0x3000 ∧
      ∃ pool, cloneContext onePool (fun _ ↦ (0, 0)) (idleThread ebp) 0x2000 0x3000 =
        some (pool, idleClone ebp) := by
  have hreached : ∃ vmem ops,
      Run.Guarded Pool.step (fun s op ↦ s.book.Allowed op.book) (initContext vmem) ops ∧
        Run.exec Pool.step (initContext vmem) ops = some onePool :=
    ⟨onePool.vmem, [.alloc fun _ ↦ (0, 0)], ⟨trivial, fun _ _ ↦ trivial⟩, rfl⟩
  rcases h with rfl | rfl
  all_goals
    refine ⟨⟨hreached, by decide, by decide, ?_, ?_, disjoint_bytes (by decide) (by decide),
      disjoint_bytes (by decide) (by decide), (disjoint_bytes (by decide) (by decide)).symm⟩,
      _, rfl⟩
    · rw [stackAt]
      decide
    · rw [stackAt]
      decide

/-- A thread without a frame is cloned as it should be. -/
theorem clones_iff_noFrame : ∃ pool, PoolStack onePool (idleThread 0xFBBFFFF8) 0x2000 0x3000 ∧
    Clones onePool pool (idleThread 0xFBBFFFF8) (idleClone 0xFBBFFFF8) 0x2000 0x3000 := by
  obtain ⟨h, pool, hclone⟩ := cloneContext_idleThread (.inl rfl)
  refine ⟨pool, h, (clones_iff h hclone).mpr ⟨by decide, by decide, ?_⟩⟩
  rw [stackAt, word_subset_iff (by decide)]
  decide

/-- **The clone of a new thread has a frame pointer that is off by a word.** -/
theorem not_clones_created : ∃ pool, PoolStack onePool (idleThread 0xFBBFFFFC) 0x2000 0x3000 ∧
    cloneContext onePool (fun _ ↦ (0, 0)) (idleThread 0xFBBFFFFC) 0x2000 0x3000 =
      some (pool, idleClone 0xFBBFFFFC) ∧
    (idleClone 0xFBBFFFFC).load (0x3000 + 28) = 0xFBC00000 ∧
    (idleClone 0xFBBFFFFC).load (0x3000 + 12) = 0xFBC03FF8 ∧
    ¬ Clones onePool pool (idleThread 0xFBBFFFFC) (idleClone 0xFBBFFFFC) 0x2000 0x3000 := by
  obtain ⟨h, pool, hclone⟩ := cloneContext_idleThread (.inr rfl)
  have hbase : (idleClone 0xFBBFFFFC).load (0x3000 + 28) = 0xFBC00000 := by decide
  have hebp : (idleClone 0xFBBFFFFC).load (0x3000 + 12) = 0xFBC03FF8 := by decide
  refine ⟨pool, h, hclone, hbase, hebp, fun hc ↦ ?_⟩
  have hmoved := hc.relocated 12 (by decide)
  rw [hbase, hebp] at hmoved
  exact absurd hmoved (by decide)

end ForgeOS.Context
