import ForgeOS.Context.Model
import ForgeOS.Pool.Freed

/-!
# What a new thread finds on its stack

A C function expects its return address at `esp` and its first argument in the word above.

The main result is `received_iff`.
-/

namespace ForgeOS.Context

open X86 Memory Option

def ownStack (stack stackPtr stacksz : UInt32) : Set UInt32 :=
  bytes stackPtr (if stack ≠ 0 then stackSize stacksz else poolStackSz).toNat

/-- A call of `restore_thread_context` with the context `ctx` and the lock `lock`, for the first
time since the memory was `mem`: nothing has written to the context or the stack. -/
structure Resumes (mem : Memory) (own : Set UInt32) (ctx lock : UInt32) (m : Machine) : Prop where
  ctx_arg : m.mem.load (m.reg .esp + 4) = ctx
  lock_arg : m.mem.load (m.reg .esp + 8) = lock
  kept : Set.EqOn m.mem mem (bytes ctx 36 ∪ own)
  lock_apart : lock ≠ 0 → Disjoint (bytes lock 4) (bytes ctx 36 ∪ own)

/-- The state in which a function is entered that expects one argument and returns to
`threadReturn`. -/
structure Received (own : Set UInt32) (start threadReturn param : UInt32) (m : Machine) : Prop where
  entry : m.eip = start
  ret : m.mem.load (m.reg .esp) = threadReturn
  arg : m.mem.load (m.reg .esp + 4) = param
  ret_inside : bytes (m.reg .esp) 4 ⊆ own
  arg_inside : bytes (m.reg .esp + 4) 4 ⊆ own

section

variable (m : Machine)

theorem run_nolock_mem :
    (nolock.run m).mem = m.mem.store (m.reg .esp - 4) (m.mem.load (m.reg .eax + 24)) := by
  simp [nolock, Code.run, Instr.step]

theorem run_nolock_esp : (nolock.run m).reg .esp = m.reg .esp := by
  simp [nolock, Code.run, Instr.step]

theorem run_nolock_eip : (nolock.run m).eip = (nolock.run m).mem.load (m.reg .eax + 20) := by
  simp [nolock, Code.run, Instr.step]

end

variable {mem mem' : Memory} {own : Set UInt32} {ctx lock : UInt32} {m : Machine}

theorem run_restoreThreadContext (h : Resumes mem own ctx lock m) :
    let m' := restoreThreadContext.run m
    let sp := m.mem.load (ctx + 16)
    let unlocked := if lock = 0 then m.mem else m.mem.store lock (m.mem.load lock - 1)
    m'.mem = unlocked.store sp (unlocked.load (ctx + 24)) ∧ m'.reg .esp = sp + 4 ∧
      m'.eip = m'.mem.load (ctx + 20) := by
  have hctx := h.ctx_arg
  have hlock := h.lock_arg
  by_cases hzero : lock = 0 <;>
    simp [restoreThreadContext, Code.run, Instr.step, run_nolock_mem, run_nolock_esp,
      run_nolock_eip,
      hctx, hlock, hzero]

theorem run_restoreThreadContext_eqOn {S : Set UInt32} (h : Resumes mem own ctx lock m)
    (hS : S ⊆ bytes ctx 36 ∪ own) (hpush : Disjoint (bytes (m.mem.load (ctx + 16)) 4) S) :
    Set.EqOn (restoreThreadContext.run m).mem mem S := by
  rw [(run_restoreThreadContext h).1]
  refine (store_eqOn_of_disjoint hpush).trans (Set.EqOn.trans ?_ (h.kept.mono hS))
  split
  · exact Set.eqOn_refl _ _
  · next hlock => exact store_eqOn_of_disjoint ((h.lock_apart hlock).mono_right hS)

variable {n : ℕ}

theorem field_disjoint {S : Set UInt32} {i : UInt32} (h : Disjoint (bytes ctx n) S)
    (hi : i.toNat + 4 ≤ n) : Disjoint (bytes (ctx + i) 4) S :=
  h.mono_left (bytes_add_subset hi)

section

variable {start stackPtr stacksz param threadReturn stackispool : UInt32}

theorem layOut_esp :
    (layOut mem ctx start stackPtr stacksz param threadReturn stackispool).load (ctx + 16) =
      stackPtr + (stacksz - 4) - 4 :=
  load_store_self ..

theorem layOut_eip (htop : Disjoint (bytes ctx 32) (bytes (stackPtr + (stacksz - 4)) 4))
    (hbelow : Disjoint (bytes ctx 32) (bytes (stackPtr + (stacksz - 4) - 4) 4)) :
    (layOut mem ctx start stackPtr stacksz param threadReturn stackispool).load (ctx + 20) = start := by
  have hfield : (20 : UInt32).toNat + 4 ≤ 32 := by decide
  rw [layOut, load_store_of_disjoint (disjoint_bytes_add (by decide) (by decide)),
    load_store_of_disjoint (field_disjoint hbelow hfield).symm,
    load_store_of_disjoint (field_disjoint htop hfield).symm,
    load_store_of_disjoint (disjoint_bytes_add (by decide) (by decide)),
    load_store_of_disjoint (disjoint_bytes_add (by decide) (by decide)).symm,
    load_store_of_disjoint (disjoint_bytes_add (by decide) (by decide)).symm, load_store_self]

theorem layOut_ret (htop : Disjoint (bytes ctx 32) (bytes (stackPtr + (stacksz - 4)) 4)) :
    (layOut mem ctx start stackPtr stacksz param threadReturn stackispool).load
      (stackPtr + (stacksz - 4)) = threadReturn := by
  rw [layOut, load_store_of_disjoint (field_disjoint htop (by decide)),
    load_store_of_disjoint (disjoint_words 4 (by grind) (by decide) (by decide)), load_store_self]

theorem layOut_arg (habove : Disjoint (bytes ctx 36) (bytes (stackPtr + stacksz) 4)) :
    (layOut mem ctx start stackPtr stacksz param threadReturn stackispool).load (stackPtr + stacksz) =
      mem.load (stackPtr + stacksz) := by
  rw [layOut, load_store_of_disjoint (field_disjoint habove (by decide)),
    load_store_of_disjoint (disjoint_words 8 (by grind) (by decide) (by decide)),
    load_store_of_disjoint (disjoint_words 4 (by grind) (by decide) (by decide)),
    load_store_of_disjoint (field_disjoint habove (by decide)),
    load_store_of_disjoint (field_disjoint habove (by decide)),
    load_store_of_disjoint (field_disjoint habove (by decide)),
    load_store_of_disjoint (field_disjoint habove (by decide)),
    load_store_of_disjoint (field_disjoint habove (by decide)),
    load_congr (fill_eqOn_of_disjoint habove)]

theorem disjoint_below (h : Disjoint (bytes ctx 36) (bytes stackPtr n))
    (hsize : 4 ≤ stacksz.toNat) (hn : stacksz.toNat + 4 ≤ n) :
    Disjoint (bytes ctx 32) (bytes (stackPtr + (stacksz - 4) - 4) 4) := by
  refine Set.disjoint_left.mpr fun x hctx hbelow ↦ ?_
  have hx := x.toNat_lt
  have hc := ctx.toNat_lt
  have hp := stackPtr.toNat_lt
  have hs := stacksz.toNat_lt
  have hfrom : x - (stackPtr + (stacksz - 4) - 4) = x - stackPtr + 8 - stacksz := by grind
  rw [mem_bytes, hfrom] at hbelow
  rw [mem_bytes] at hctx
  have hcases : x ∈ bytes stackPtr n ∨ stackPtr ∈ bytes ctx 36 := by
    rw [mem_bytes, mem_bytes]
    simp only [UInt32.toNat_sub, UInt32.toNat_add, UInt32.toNat_ofNat] at *
    omega
  rcases hcases with hin | hin
  · exact Set.disjoint_left.mp h (bytes_mono (by decide) hctx) hin
  · exact Set.disjoint_left.mp h hin (self_mem_bytes (by omega))

theorem words_inside_iff (hn : n < 2 ^ 32) : bytes (stackPtr + (stacksz - 4)) 4 ⊆ bytes stackPtr n ∧
        bytes (stackPtr + stacksz) 4 ⊆ bytes stackPtr n ↔
      4 ≤ stacksz.toNat ∧ stacksz.toNat + 4 ≤ n := by
  have hs := stacksz.toNat_lt
  have hret : stackPtr + (stacksz - 4) - stackPtr = stacksz - 4 := by grind
  have harg : stackPtr + stacksz - stackPtr = stacksz := by grind
  have hfour : (4 : UInt32).toNat = 4 := rfl
  rw [word_subset_iff hn, word_subset_iff hn, hret, harg, UInt32.toNat_sub, hfour]
  omega

theorem createContext_eq {stackpool stackpool' : Pool} {frames : ℕ → UInt64 × UInt64}
    {stack : UInt32} (hstack : stackOf stackpool frames stack = some (stackPtr, stackpool'))
    (hcreate : createContext threadReturn stackpool frames mem ctx start stack stacksz param =
      some (stackpool', mem')) :
    mem' = layOut mem ctx start stackPtr (stackSize stacksz) param threadReturn
      (if stack ≠ 0 then 0 else 1) := by
  rw [createContext, hstack, bind_eq_bind, bind_some] at hcreate
  obtain ⟨-, heq⟩ := ite_none_left_eq_some.mp hcreate
  exact (congrArg Prod.snd (some.inj heq)).symm

theorem saved_esp
    (h : Resumes (layOut mem ctx start stackPtr stacksz param threadReturn stackispool) own ctx lock m) :
    m.mem.load (ctx + 16) = stackPtr + (stacksz - 4) - 4 := by
  rw [load_congr (h.kept.mono ((bytes_add_subset (by decide)).trans Set.subset_union_left)),
    layOut_esp]

theorem entry_esp
    (h : Resumes (layOut mem ctx start stackPtr stacksz param threadReturn stackispool) own ctx lock m) :
    (restoreThreadContext.run m).reg .esp = stackPtr + (stacksz - 4) := by
  rw [(run_restoreThreadContext h).2.1, saved_esp h, UInt32.sub_add_cancel]

theorem entry_words
    (h : Resumes (layOut mem ctx start stackPtr stacksz param threadReturn stackispool)
      (bytes stackPtr n) ctx lock m) (hapart : Disjoint (bytes ctx 36) (bytes stackPtr n))
    (hn : n < 2 ^ 32) (hfour : 4 ≤ stacksz.toNat) (hroom : stacksz.toNat + 4 ≤ n) :
    let m' := restoreThreadContext.run m
    m'.eip = start ∧ m'.mem.load (stackPtr + (stacksz - 4)) = threadReturn ∧
      m'.mem.load (stackPtr + stacksz) = mem.load (stackPtr + stacksz) := by
  have hbelow := disjoint_below hapart hfour hroom
  obtain ⟨hretIn, hargIn⟩ := (words_inside_iff hn).mpr ⟨hfour, hroom⟩
  have hload : ∀ a, bytes a 4 ⊆ bytes ctx 36 ∪ bytes stackPtr n →
      Disjoint (bytes (stackPtr + (stacksz - 4) - 4) 4) (bytes a 4) →
      (restoreThreadContext.run m).mem.load a =
        (layOut mem ctx start stackPtr stacksz param threadReturn stackispool).load a :=
    fun a ha hpush ↦ load_congr (run_restoreThreadContext_eqOn h ha (saved_esp h ▸ hpush))
  have hret := hapart.mono_right hretIn
  have hfield : (20 : UInt32).toNat + 4 ≤ 32 := by decide
  refine ⟨?_, ?_, ?_⟩
  · rw [(run_restoreThreadContext h).2.2,
      hload _ ((bytes_add_subset (by decide)).trans Set.subset_union_left)
        (field_disjoint hbelow hfield).symm,
      layOut_eip (hret.mono_left (bytes_mono (by decide))) hbelow]
  · rw [hload _ (hretIn.trans Set.subset_union_right)
      (disjoint_words 4 (by grind) (by decide) (by decide)),
      layOut_ret (hret.mono_left (bytes_mono (by decide)))]
  · rw [hload _ (hargIn.trans Set.subset_union_right)
      (disjoint_words 8 (by grind) (by decide) (by decide)), layOut_arg (hapart.mono_right hargIn)]

/-- **A new thread gets its argument** only if its stack is from the pool, larger than asked for by
a word or more, and that word already held the argument. -/
theorem received_iff {stackpool stackpool' : Pool} {frames : ℕ → UInt64 × UInt64} {stack : UInt32}
    (hstack : stackOf stackpool frames stack = some (stackPtr, stackpool'))
    (hcreate : createContext threadReturn stackpool frames mem ctx start stack stacksz param =
      some (stackpool', mem')) (hapart : Disjoint (bytes ctx 36) (ownStack stack stackPtr stacksz))
    (hresume : Resumes mem' (ownStack stack stackPtr stacksz) ctx lock m) :
    Received (ownStack stack stackPtr stacksz) start threadReturn param (restoreThreadContext.run m) ↔
      stack = 0 ∧ 4 ≤ (stackSize stacksz).toNat ∧
      (stackSize stacksz).toNat + 4 ≤ poolStackSz.toNat ∧
        mem.load (stackPtr + stackSize stacksz) = param := by
  rw [createContext_eq hstack hcreate] at hresume
  have hret := entry_esp hresume
  have harg : (restoreThreadContext.run m).reg .esp + 4 = stackPtr + stackSize stacksz := by
    rw [hret]
    grind
  have hbound : ∀ {n : ℕ}, n < 2 ^ 32 → ownStack stack stackPtr stacksz = bytes stackPtr n →
      Received (ownStack stack stackPtr stacksz) start threadReturn param
        (restoreThreadContext.run m) →
      4 ≤ (stackSize stacksz).toNat ∧ (stackSize stacksz).toNat + 4 ≤ n := fun hn hown hrec ↦
    (words_inside_iff hn).mp ⟨hret ▸ hown ▸ hrec.ret_inside, harg ▸ hown ▸ hrec.arg_inside⟩
  by_cases hcaller : stack ≠ 0
  · -- The word above is the first after the stack.
    refine ⟨fun hrec ↦ ?_, fun hcond ↦ absurd hcond.1 hcaller⟩
    have hroom := (hbound (UInt32.toNat_lt _) (by rw [ownStack, if_pos hcaller]) hrec).2
    omega
  · have hown : ownStack stack stackPtr stacksz = bytes stackPtr poolStackSz.toNat := by
      rw [ownStack, if_neg hcaller]
    have hpool : poolStackSz.toNat < 2 ^ 32 := by decide
    constructor
    · intro hrec
      obtain ⟨hfour, hroom⟩ := hbound hpool hown hrec
      rw [hown] at hresume hapart
      obtain ⟨-, -, hword⟩ := entry_words hresume hapart hpool hfour hroom
      refine ⟨not_not.mp hcaller, hfour, hroom, ?_⟩
      rw [← hword, ← harg]
      exact hrec.arg
    · rintro ⟨-, hfour, hroom, hparam⟩
      obtain ⟨hretIn, hargIn⟩ := (words_inside_iff hpool).mpr ⟨hfour, hroom⟩
      rw [hown] at hresume hapart ⊢
      obtain ⟨hentry, hreturn, hword⟩ := entry_words hresume hapart hpool hfour hroom
      refine ⟨hentry, ?_, ?_, hret ▸ hretIn, harg ▸ hargIn⟩
      · rw [hret, hreturn]
      · rw [harg, hword, hparam]

end

/-- The memory after a thread has been created with the argument 42, in a memory of zeros.  The
context is at 0x2000, the function at 0x1234, the creator's stack of 0x100 bytes at 0x3000, and
`thread_return` at 0x1000. -/
def created : Memory := layOut (fun _ ↦ 0) 0x2000 0x1234 0x3000 0x100 42 0x1000 0

theorem createContext_created (stackpool : Pool) (frames : ℕ → UInt64 × UInt64) :
    createContext 0x1000 stackpool frames (fun _ ↦ 0) 0x2000 0x1234 0x3000 0x100 42 =
      some (stackpool, created) :=
  rfl

def firstCall (mem : Memory) : Machine where
  reg := fun r ↦ if r = .esp then 0x8000 else 0
  eflags := 0
  eip := 0
  mem := (mem.store 0x8004 0x2000).store 0x8008 0

theorem resumes_firstCall (mem : Memory) {own : Set UInt32} (hown : Disjoint (bytes 0x8004 8) own) :
    Resumes mem own 0x2000 0 (firstCall mem) where
  ctx_arg := by
    show ((mem.store 0x8004 0x2000).store 0x8008 0).load 0x8004 = _
    refine (load_store_of_disjoint ?_).trans (load_store_self ..)
    exact (disjoint_bytes (by decide) (by decide)).symm
  lock_arg := load_store_self ..
  kept := by
    have hapart : ∀ i : UInt32, i.toNat + 4 ≤ 8 →
        Disjoint (bytes (0x8004 + i) 4) (bytes 0x2000 36 ∪ own) := fun i hi ↦
      field_disjoint (Set.disjoint_union_right.mpr
        ⟨(disjoint_bytes (by decide) (by decide)).symm, hown⟩) hi
    exact (store_eqOn_of_disjoint (hapart 4 (by decide))).trans
      (store_eqOn_of_disjoint (hapart 0 (by decide)))
  lock_apart h := absurd rfl h

theorem disjoint_firstCall : Disjoint (bytes 0x8004 8) (ownStack 0x3000 0x3000 0x100) :=
  (disjoint_bytes (by decide) (by decide)).symm

/-- The argument 42 is lost.  The argument 0 is not, for a thread with 0x100 bytes of a stack from a
pool, if the stack was all zeros before. -/
theorem not_received_firstCall :
    ¬ Received (ownStack 0x3000 0x3000 0x100) 0x1234 0x1000 42
        (restoreThreadContext.run (firstCall created)) ∧
      Received (ownStack 0 0xE0000000 0x100) 0x1234 0x1000 0 (restoreThreadContext.run
        (firstCall (layOut (fun _ ↦ 0) 0x2000 0x1234 0xE0000000 0x100 0 0x1000 1))) := by
  have hstack : stackOf (initContext Vmem.blank) (fun _ ↦ (0, 0)) 0x3000 =
      some (0x3000, initContext Vmem.blank) := rfl
  have hiff := received_iff hstack (createContext_created _ _)
    (disjoint_bytes (by decide) (by decide)) (resumes_firstCall _ disjoint_firstCall)
  refine ⟨fun h ↦ absurd (hiff.mp h).1 (by decide), ?_⟩
  have hpool : stackOf (Pool.shelf 0x4000 (by decide)) Pool.frames 0 =
      some (0xE0000000, (Pool.shelf 0x4000 (by decide)).handOut 0 Vmem.populated) := by
    rw [stackOf, if_neg (not_not.mpr rfl), (Pool.poolAlloc_shelf 0x4000 (by decide)).2]
    rfl
  have hcreate : createContext 0x1000 (Pool.shelf 0x4000 (by decide)) Pool.frames (fun _ ↦ 0) 0x2000
      0x1234 0 0x100 0 = some ((Pool.shelf 0x4000 (by decide)).handOut 0 Vmem.populated,
        layOut (fun _ ↦ 0) 0x2000 0x1234 0xE0000000 0x100 0 0x1000 1) := by
    simp only [createContext, hpool, bind_eq_bind, bind_some]
    rfl
  refine (received_iff hpool hcreate (disjoint_bytes (by decide) (by decide))
    (resumes_firstCall _ (disjoint_bytes (by decide) (by decide)).symm)).mpr ?_
  decide

/-- **The argument is lost**: the thread has 0 in its place, from a word that is not in its
stack. -/
theorem argument_lost_firstCall :
    createContext 0x1000 (initContext Vmem.blank) (fun _ ↦ (0, 0)) (fun _ ↦ 0) 0x2000 0x1234 0x3000
        0x100 42 = some (initContext Vmem.blank, created) ∧
      Resumes created (ownStack 0x3000 0x3000 0x100) 0x2000 0 (firstCall created) ∧
      let m := restoreThreadContext.run (firstCall created)
      m.eip = 0x1234 ∧ m.reg .esp = 0x30FC ∧ m.mem.load (m.reg .esp) = 0x1000 ∧
        m.mem.load (m.reg .esp + 4) = 0 ∧
        m.reg .esp + 4 ∉ ownStack 0x3000 0x3000 0x100 :=
  ⟨rfl, resumes_firstCall _ disjoint_firstCall, by decide, by decide, by decide, by decide,
    by rw [ownStack, mem_bytes]; decide⟩

end ForgeOS.Context
