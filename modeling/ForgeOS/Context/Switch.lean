import ForgeOS.Context.Entry

/-!
# Returning twice

`save_thread_context` fills in a context and returns 1, and a later `restore_thread_context` returns
from the same call once more, with 0.

The main result is `restore_saved`.
-/

namespace ForgeOS.Context

open X86 Memory Set

variable {stack : Set UInt32} {ctx lock : UInt32} {m n : Machine}

/-- A call of `save_thread_context` in the state `m`, on the stack `stack`, and a later call of
`restore_thread_context` with the same context in the state `n`.  The context and the lock are not
on the stack, and nothing has written to the context in between. -/
structure Switched (stack : Set UInt32) (ctx lock : UInt32) (m n : Machine) : Prop where
  save_arg : m.mem.load (m.reg .esp + 4) = ctx
  words : bytes (m.reg .esp - 4) 12 ⊆ stack
  apart : Disjoint (bytes ctx 36) stack
  ctx_arg : n.mem.load (n.reg .esp + 4) = ctx
  lock_arg : n.mem.load (n.reg .esp + 8) = lock
  kept : EqOn n.mem (saveThreadContext.run m).mem (bytes ctx 36)
  lock_apart : lock ≠ 0 → Disjoint (bytes lock 4) (bytes ctx 36 ∪ stack)
  lock_held : lock ≠ 0 → n.mem.load lock = 1

theorem load_store_field {mem : Memory} {a x i j : UInt32}
    (h : i.toNat + 4 ≤ j.toNat ∧ j.toNat + 4 ≤ 2 ^ 32 ∨
      j.toNat + 4 ≤ i.toNat ∧ i.toNat + 4 ≤ 2 ^ 32) :
    (mem.store (a + i) x).load (a + j) = mem.load (a + j) := by
  rcases h with ⟨h, hj⟩ | ⟨h, hi⟩
  · exact load_store_of_disjoint (disjoint_bytes_add h hj)
  · exact load_store_of_disjoint (disjoint_bytes_add h hi).symm

def saved (m : Machine) (ctx ret : UInt32) : Memory :=
  ((((((m.mem.store ctx (m.reg .edi)).store (ctx + 4) (m.reg .esi)).store (ctx + 8)
    (m.reg .ebx)).store (ctx + 12) (m.reg .ebp)).store (ctx + 16) (m.reg .esp)).store (ctx + 20)
    ret).store (m.reg .esp - 4) m.eflags |>.store (ctx + 24) m.eflags

theorem Switched.store_stack (h : Switched stack ctx lock m n) {mem : Memory} {a x i : UInt32}
    (ha : bytes a 4 ⊆ stack) (hi : i.toNat + 4 ≤ 36) :
    (mem.store a x).load (ctx + i) = mem.load (ctx + i) :=
  load_store_of_disjoint ((field_disjoint h.apart hi).mono_right ha).symm

theorem Switched.store_field (h : Switched stack ctx lock m n) (mem : Memory) (x i : UInt32)
    (hi : i.toNat + 4 ≤ 36) : EqOn (mem.store (ctx + i) x) mem stack :=
  store_eqOn_of_disjoint (field_disjoint h.apart hi)

theorem Switched.saved_eqOn (h : Switched stack ctx lock m n) (ret : UInt32) :
    EqOn (saved m ctx ret) m.mem (stack \ bytes (m.reg .esp - 4) 4) := by
  have hfield := fun mem x i hi ↦
    (h.store_field mem x i hi).mono (@Set.sdiff_subset _ stack (bytes (m.reg .esp - 4) 4))
  have hfirst := hfield m.mem (m.reg .edi) 0 (by decide)
  rw [UInt32.add_zero] at hfirst
  exact (hfield _ _ _ (by decide)).trans <|
    (store_eqOn_of_disjoint disjoint_sdiff_right).trans <|
    (hfield _ _ _ (by decide)).trans <| (hfield _ _ _ (by decide)).trans <|
    (hfield _ _ _ (by decide)).trans <| (hfield _ _ _ (by decide)).trans <|
    (hfield _ _ _ (by decide)).trans hfirst

theorem Switched.saved_fields (h : Switched stack ctx lock m n) (ret : UInt32) :
    let mem := saved m ctx ret
    mem.load ctx = m.reg .edi ∧ mem.load (ctx + 4) = m.reg .esi ∧ mem.load (ctx + 8) = m.reg .ebx ∧
      mem.load (ctx + 12) = m.reg .ebp ∧ mem.load (ctx + 16) = m.reg .esp ∧
      mem.load (ctx + 20) = ret ∧ mem.load (ctx + 24) = m.eflags := by
  have hpush : bytes (m.reg .esp - 4) 4 ⊆ stack := (bytes_mono (by decide)).trans h.words
  have hfirst : (saved m ctx ret).load (ctx + 0) = m.reg .edi := by
    simp (disch := decide) only [saved, load_store_field, h.store_stack hpush]
    rw [UInt32.add_zero, load_store_self]
  rw [UInt32.add_zero] at hfirst
  refine ⟨hfirst, ?_, ?_, ?_, ?_, ?_, ?_⟩ <;>
    simp (disch := decide) only [saved, load_store_field, load_store_self, h.store_stack hpush]

theorem Switched.ret_subset (h : Switched stack ctx lock m n) : bytes (m.reg .esp) 4 ⊆ stack := by
  have hsub : bytes (m.reg .esp - 4 + 4) 4 ⊆ bytes (m.reg .esp - 4) 12 :=
    bytes_add_subset (by decide)
  rw [UInt32.sub_add_cancel] at hsub
  exact hsub.trans h.words

theorem Switched.run_save (h : Switched stack ctx lock m n) : let ret := m.mem.load (m.reg .esp)
    let m' := saveThreadContext.run m
    m'.mem = saved m ctx ret ∧ m'.eip = ret ∧ m'.eflags = m.eflags ∧ m'.reg .eax = 1 ∧
      m'.reg .esp = m.reg .esp + 4 ∧ ∀ r ∈ [Reg.edi, .esi, .ebx, .ebp], m'.reg r = m.reg r := by
  have hload := fun mem x i hi ↦ load_congr ((h.store_field mem x i hi).mono h.ret_subset)
  have hfirst := hload m.mem (m.reg .edi) 0 (by decide)
  have hpush := fun (mem : Memory) x ↦ @load_store_of_disjoint mem (m.reg .esp - 4) (m.reg .esp) x
    (disjoint_words 4 (by simp) (by decide) (by decide))
  rw [UInt32.add_zero] at hfirst
  have hregs : ∀ r ∈ [Reg.edi, .esi, .ebx, .ebp], (saveThreadContext.run m).reg r = m.reg r := by
    simp [saveThreadContext, Code.run, Instr.step, Machine.setReg]
  refine ⟨?_, ?_, ?_, ?_, ?_, hregs⟩ <;>
    simp (disch := decide) [saveThreadContext, Code.run, Instr.step, Machine.setReg, h.save_arg,
      hload, hfirst, hpush, saved]

theorem run_nolock_regs (m : Machine) : (nolock.run m).reg .eax = 0 ∧
    (nolock.run m).eflags = m.mem.load (m.reg .eax + 24) ∧
    ∀ r ∈ [Reg.edi, .esi, .ebx, .ebp], (nolock.run m).reg r = m.reg r := by
  simp [nolock, Code.run, Instr.step, Machine.setReg]

theorem run_restore_regs (hctx : n.mem.load (n.reg .esp + 4) = ctx)
    (hlock : n.mem.load (n.reg .esp + 8) = lock) : let n' := restoreThreadContext.run n
    let unlocked := if lock = 0 then n.mem else n.mem.store lock (n.mem.load lock - 1)
    n'.reg .eax = 0 ∧ n'.eflags = unlocked.load (ctx + 24) ∧ n'.reg .edi = n.mem.load ctx ∧
      n'.reg .esi = n.mem.load (ctx + 4) ∧ n'.reg .ebx = n.mem.load (ctx + 8) ∧
      n'.reg .ebp = n.mem.load (ctx + 12) := by
  by_cases hzero : lock = 0 <;>
    simp [restoreThreadContext, Code.run, Instr.step, run_nolock_regs, hctx, hlock, hzero]

/-- **A saved context is resumed where it was saved**, as it was at the first return, with the lock
released. -/
theorem restore_saved (h : Switched stack ctx lock m n) : let m' := saveThreadContext.run m
    let n' := restoreThreadContext.run n
    m'.eip = m.mem.load (m.reg .esp) ∧ m'.reg .eax = 1 ∧ m'.reg .esp = m.reg .esp + 4 ∧
      n'.eip = m'.eip ∧ n'.reg .eax = 0 ∧ n'.eflags = m'.eflags ∧
      (∀ r ∈ [Reg.edi, .esi, .ebx, .ebp, .esp], n'.reg r = m'.reg r) ∧
      EqOn m'.mem m.mem (stack \ bytes (m'.reg .esp - 8) 4) ∧
      EqOn n'.mem n.mem (stack \ bytes (m'.reg .esp - 4) 4) ∧
      (lock ≠ 0 → n'.mem.load lock = 0) := by
  intro m' n'
  obtain ⟨hmem, heip, heflags, heax, hesp, hregs⟩ := h.run_save
  obtain ⟨hedi, hesi, hebx, hebp, hsp, hret, hflags⟩ := h.saved_fields (m.mem.load (m.reg .esp))
  have hresumes : Resumes n.mem stack ctx lock n :=
    ⟨h.ctx_arg, h.lock_arg, eqOn_refl _ _, h.lock_apart⟩
  have hload : ∀ i : UInt32, i.toNat + 4 ≤ 36 →
      n.mem.load (ctx + i) = (saved m ctx (m.mem.load (m.reg .esp))).load (ctx + i) := fun i hi ↦
    hmem ▸ load_congr (h.kept.mono (bytes_add_subset hi))
  have hfirst := hload 0 (by decide)
  rw [UInt32.add_zero] at hfirst
  have hsp' : n.mem.load (ctx + 16) = m.reg .esp := (hload 16 (by decide)).trans hsp
  obtain ⟨hmem', hesp', heip'⟩ := run_restoreThreadContext hresumes
  obtain ⟨heax', heflags', hedi', hesi', hebx', hebp'⟩ := run_restore_regs h.ctx_arg h.lock_arg
  have hkept := fun S ↦ @run_restoreThreadContext_eqOn _ _ _ _ _ S hresumes
  rw [hsp'] at hmem' hesp' hkept
  have hunlocked : (if lock = 0 then n.mem else n.mem.store lock (n.mem.load lock - 1)).load
      (ctx + 24) = n.mem.load (ctx + 24) := by
    split
    · rfl
    next hne =>
      exact load_store_of_disjoint ((h.lock_apart hne).mono_right
        ((bytes_add_subset (by decide)).trans subset_union_left))
  have hbelow : m'.reg .esp - 8 = m.reg .esp - 4 ∧ m'.reg .esp - 4 = m.reg .esp := by
    rw [hesp]
    grind
  refine ⟨heip, heax, hesp, ?_, heax', ?_, ?_, ?_, ?_, fun hne ↦ ?_⟩
  · have heip'' := hkept (bytes (ctx + 20) 4)
      ((bytes_add_subset (by decide)).trans subset_union_left)
      ((field_disjoint h.apart (by decide)).mono_right h.ret_subset).symm
    rw [heip', heip, load_congr heip'', hload 20 (by decide), hret]
  · rw [heflags', hunlocked, hload 24 (by decide), hflags, heflags]
  · simp only [List.forall_mem_cons] at hregs ⊢
    obtain ⟨hr1, hr2, hr3, hr4, -⟩ := hregs
    refine ⟨?_, ?_, ?_, ?_, hesp'.trans hesp.symm, by simp⟩
    · rw [hedi', hfirst, hedi, hr1]
    · rw [hesi', hload 4 (by decide), hesi, hr2]
    · rw [hebx', hload 8 (by decide), hebx, hr3]
    · rw [hebp', hload 12 (by decide), hebp, hr4]
  · rw [hmem, hbelow.1]
    exact h.saved_eqOn _
  · rw [hbelow.2]
    exact hkept _ (sdiff_subset.trans subset_union_right) disjoint_sdiff_right
  · rw [hmem', load_store_of_disjoint, if_neg hne, load_store_self, h.lock_held hne]
    · rfl
    · exact ((h.lock_apart hne).mono_right (h.ret_subset.trans subset_union_right)).symm

def saving : Machine := ⟨fun r ↦ if r = .esp then 0x1000 else 5, 2, 0, fun _ ↦ 0⟩

def restoring : Machine :=
  ⟨fun r ↦ if r = .esp then 0x2000 else 7, 2, 0,
    ((saveThreadContext.run saving).mem.store 0x2008 0x3000).store 0x3000 1⟩

theorem switched_saving : Switched (bytes 0xFFC 12) 0 0x3000 saving restoring where
  save_arg := by decide
  words := subset_rfl
  apart := disjoint_bytes (by decide) (by decide)
  ctx_arg := by decide
  lock_arg := by decide
  kept := (store_eqOn_of_disjoint (disjoint_bytes (by decide) (by decide)).symm).trans
    (store_eqOn_of_disjoint (disjoint_bytes (by decide) (by decide)).symm)
  lock_apart _ := disjoint_union_right.mpr
    ⟨(disjoint_bytes (by decide) (by decide)).symm, (disjoint_bytes (by decide) (by decide)).symm⟩
  lock_held _ := load_store_self ..

theorem restore_saved_saving : Switched (bytes 0xFFC 12) 0 0x3000 saving restoring ∧
    (restoreThreadContext.run restoring).mem.load 0x3000 = 0 :=
  ⟨switched_saving, (restore_saved switched_saving).2.2.2.2.2.2.2.2.2 (by decide)⟩

end ForgeOS.Context
