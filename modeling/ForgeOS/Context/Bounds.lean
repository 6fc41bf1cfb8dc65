import ForgeOS.Context.Entry

/-!
# Where the stack pointer of a new thread is

On x86 a zero `stacksz` stands for the size of a pool stack, also when the caller provides the
stack; on ARMv7 it is taken as it is, and the stack pointer of a pool stack is put 4 bytes *below*
its start.

The main result is `creates_inside_iff`.
-/

namespace ForgeOS.Context

open X86 Memory List Option

namespace Armv7

def poolStackSz : UInt32 := 0x1000

def stackOf (pooled stack : UInt32) : UInt32 := if stack ≠ 0 then stack else pooled

/-- The assignments of `create_context`.  The fields of `context_t` are words: `r0`, `r4` to `r11`,
`lr`, `usersp`, `userlr`, `stackispool` and `stackbase`, from offset 0 on.  `d` is what `malloc`
has returned for the `initial_data`, and `armThread` the address of `arm_thread`. -/
def layOut (mem : Memory) (ctx start stackPtr stacksz param d armThread stackispool : UInt32) :
    Memory :=
  let mem := mem.fill ctx 56 0
  let mem := mem.store (ctx + 48) stackispool
  let mem := mem.store (d + 4) start
  let mem := mem.store d param
  let mem := mem.store (ctx + 36) armThread
  let mem := mem.store (ctx + 52) stackPtr
  let mem := mem.store (ctx + 40) stackPtr
  let mem := mem.store (ctx + 40) (mem.load (ctx + 40) + (stacksz - 4))
  mem.store ctx d

/-- `create_context`.  A `none` result is a failed assertion. -/
def createContext (armThread pooled d : UInt32) (mem : Memory)
    (ctx start stack stacksz param : UInt32) : Option Memory :=
  if stackOf pooled stack = 0 then none
  else
    some (layOut mem ctx start (stackOf pooled stack) stacksz param d armThread
      (if stack ≠ 0 then 0 else 1))

theorem layOut_usersp {mem : Memory}
    {ctx start stackPtr stacksz param d armThread stackispool : UInt32} :
    (layOut mem ctx start stackPtr stacksz param d armThread stackispool).load (ctx + 40) =
      stackPtr + (stacksz - 4) := by
  have hr0 : Disjoint (bytes ctx 4) (bytes (ctx + 40) 4) := by
    have hapart := disjoint_bytes_add (a := ctx) (i := 0) (j := 40) (n := 4) (k := 4) (by decide)
      (by decide)
    rwa [UInt32.add_zero] at hapart
  rw [layOut, load_store_of_disjoint hr0, load_store_self, load_store_self]

end Armv7

inductive Arch where
  | x86
  | armv7
  deriving DecidableEq

def Arch.poolStackSz : Arch → UInt32
  | .x86 => Context.poolStackSz
  | .armv7 => Armv7.poolStackSz

def Arch.spField : Arch → UInt32
  | .x86 => 16
  | .armv7 => 40

def Arch.stackWords (stackPtr stacksz : UInt32) : Arch → List UInt32
  | .x86 => [stackPtr + (stackSize stacksz - 4), stackPtr + (stackSize stacksz - 4) - 4]
  | .armv7 => []

/-- A call of `create_context` with `stack` and `stacksz` has filled in the context at `ctx`, for
the stack at `stackPtr`; the memory is now `mem`. -/
inductive Creates (ctx stack stacksz stackPtr : UInt32) (mem : Memory) : Arch → Prop where
  | x86 {stackpool stackpool' : Pool} {frames : ℕ → UInt64 × UInt64} {old : Memory}
      {threadReturn start param : UInt32}
      (hstack : stackOf stackpool frames stack = some (stackPtr, stackpool'))
      (hcreate : createContext threadReturn stackpool frames old ctx start stack stacksz param =
        some (stackpool', mem)) : Creates ctx stack stacksz stackPtr mem .x86
  | armv7 {pooled d armThread start param : UInt32} {old : Memory}
      (hstack : Armv7.stackOf pooled stack = stackPtr)
      (hcreate : Armv7.createContext armThread pooled d old ctx start stack stacksz param =
        some mem) : Creates ctx stack stacksz stackPtr mem .armv7

def Arch.ownStack (arch : Arch) (stack stacksz stackPtr : UInt32) : Set UInt32 :=
  bytes stackPtr (if stack ≠ 0 then stacksz else arch.poolStackSz).toNat

structure Inside (arch : Arch) (ctx stack stacksz stackPtr : UInt32) (mem : Memory) : Prop where
  sp : mem.load (ctx + arch.spField) ∈ arch.ownStack stack stacksz stackPtr
  words : ∀ a ∈ arch.stackWords stackPtr stacksz,
    bytes a 4 ⊆ arch.ownStack stack stacksz stackPtr

def Sized (stack stacksz : UInt32) : Arch → Prop
  | .x86 => if stack ≠ 0 then 8 ≤ stacksz else stacksz = 0 ∨ 8 ≤ stacksz ∧ stacksz ≤ 0x4000
  | .armv7 => if stack ≠ 0 then 4 ≤ stacksz else 4 ≤ stacksz ∧ stacksz < 0x1004

variable {arch : Arch} {ctx stack stacksz stackPtr : UInt32} {mem : Memory}

theorem x86_words_inside_iff (stackPtr : UInt32) {sz : UInt32} {n : ℕ} (hn : n < 2 ^ 32) :
    (stackPtr + (sz - 4) - 4 ∈ bytes stackPtr n ∧ bytes (stackPtr + (sz - 4)) 4 ⊆ bytes stackPtr n ∧
      bytes (stackPtr + (sz - 4) - 4) 4 ⊆ bytes stackPtr n) ↔ 8 ≤ sz.toNat ∧ sz.toNat ≤ n := by
  have hsz := sz.toNat_lt
  have hret : stackPtr + (sz - 4) - stackPtr = sz - 4 := by grind
  have hparam : stackPtr + (sz - 4) - 4 - stackPtr = sz - 8 := by grind
  rw [mem_bytes, word_subset_iff hn, word_subset_iff hn, hret, hparam]
  simp only [UInt32.toNat_sub, UInt32.toNat_ofNat]
  omega

theorem armv7_sp_inside_iff (stackPtr : UInt32) {n : ℕ} (hn : n ≤ stacksz.toNat ∨ n ≤ 2 ^ 32 - 4) :
    stackPtr + (stacksz - 4) ∈ bytes stackPtr n ↔ 4 ≤ stacksz.toNat ∧ stacksz.toNat < n + 4 := by
  have hsz := stacksz.toNat_lt
  have hsp : stackPtr + (stacksz - 4) - stackPtr = stacksz - 4 := by grind
  rw [mem_bytes, hsp]
  simp only [UInt32.toNat_sub, UInt32.toNat_ofNat]
  omega

theorem Creates.inside_x86_iff (h : Creates ctx stack stacksz stackPtr mem .x86) :
    Inside .x86 ctx stack stacksz stackPtr mem ↔ 8 ≤ (stackSize stacksz).toNat ∧
      (stackSize stacksz).toNat ≤ (if stack ≠ 0 then stacksz else poolStackSz).toNat := by
  cases h with
  | x86 hstack hcreate =>
    have hsp : mem.load (ctx + 16) = stackPtr + (stackSize stacksz - 4) - 4 := by
      rw [createContext_eq hstack hcreate, layOut_esp]
    rw [← x86_words_inside_iff stackPtr (UInt32.toNat_lt _), ← hsp]
    constructor
    · intro hin
      refine ⟨hin.sp, hin.words _ mem_cons_self, ?_⟩
      rw [hsp]
      exact hin.words _ (mem_cons_of_mem _ mem_cons_self)
    · rintro ⟨hin, hret, hparam⟩
      refine ⟨hin, fun a ha ↦ ?_⟩
      rcases mem_pair.mp ha with rfl | rfl
      · exact hret
      · rwa [hsp] at hparam

theorem Creates.inside_armv7_iff (h : Creates ctx stack stacksz stackPtr mem .armv7) :
    Inside .armv7 ctx stack stacksz stackPtr mem ↔ 4 ≤ stacksz.toNat ∧
      stacksz.toNat < (if stack ≠ 0 then stacksz else Armv7.poolStackSz).toNat + 4 := by
  cases h with
  | armv7 hstack hcreate =>
    rw [Armv7.createContext] at hcreate
    obtain ⟨-, heq⟩ := ite_none_left_eq_some.mp hcreate
    have hsp : mem.load (ctx + 40) = stackPtr + (stacksz - 4) := by
      rw [← some.inj heq, Armv7.layOut_usersp, hstack]
    have hsize : (if stack ≠ 0 then stacksz else Armv7.poolStackSz).toNat ≤ stacksz.toNat ∨
        (if stack ≠ 0 then stacksz else Armv7.poolStackSz).toNat ≤ 2 ^ 32 - 4 := by
      split
      · exact .inl le_rfl
      · exact .inr (by decide)
    rw [← armv7_sp_inside_iff stackPtr hsize, ← hsp]
    exact ⟨fun hin ↦ hin.sp, fun hin ↦ ⟨hin, fun a ha ↦ absurd ha not_mem_nil⟩⟩

/-- **The stack pointer starts inside the stack for these sizes only.**  On x86 a caller's stack
needs 8 bytes, and of a pool stack no more may be asked for than there is; on ARMv7 a size must be
given in every case. -/
theorem creates_inside_iff (h : Creates ctx stack stacksz stackPtr mem arch) :
    Inside arch ctx stack stacksz stackPtr mem ↔ Sized stack stacksz arch := by
  have hnat : ∀ x y : UInt32, x ≤ y ↔ x.toNat ≤ y.toNat := fun x y ↦ UInt32.le_iff_toNat_le
  have hpool : poolStackSz.toNat = 0x4000 := rfl
  cases arch with
  | x86 =>
    rw [h.inside_x86_iff, Sized, stackSize]
    by_cases hzero : stacksz = 0
    · subst hzero
      by_cases hstack : stack ≠ 0
      · simp only [if_pos hstack]
        decide
      · simp only [if_neg hstack]
        decide
    · rw [if_neg hzero]
      by_cases hstack : stack ≠ 0
      · simp only [if_pos hstack, hnat]
        exact and_iff_left le_rfl
      · simp only [if_neg hstack, hnat, hzero, false_or, hpool]
        exact Iff.rfl
  | armv7 =>
    rw [h.inside_armv7_iff, Sized]
    by_cases hstack : stack ≠ 0
    · simp only [if_pos hstack, hnat]
      exact and_iff_left (Nat.lt_add_of_pos_right (by decide))
    · simp only [if_neg hstack, hnat, UInt32.lt_iff_toNat_lt]
      exact Iff.rfl

theorem creates_inside_created :
    Creates 0x2000 0x3000 0x100 0x3000 created .x86 ∧
      Inside .x86 0x2000 0x3000 0x100 0x3000 created := by
  have hcreates : Creates 0x2000 0x3000 0x100 0x3000 created .x86 :=
    .x86 (show stackOf (initContext Vmem.blank) (fun _ ↦ (0, 0)) 0x3000 = some (0x3000, _) from rfl)
      (createContext_created _ _)
  exact ⟨hcreates, (creates_inside_iff hcreates).mpr (by rw [Sized]; decide)⟩

/-- The first thread of the system, as `_kmain` creates it, on ARMv7, with the pool stack at
0xE0000000. -/
def initThread : Memory :=
  Armv7.layOut (fun _ ↦ 0) 0x2000 0x1234 0xE0000000 0 0 0x5000 0x1000 1

/-- **The first thread of the system starts with a stack pointer below its stack** on ARMv7. -/
theorem not_inside_initThread :
    Creates 0x2000 0 0 0xE0000000 initThread .armv7 ∧
      initThread.load (0x2000 + Arch.armv7.spField) = 0xDFFFFFFC ∧
      ¬ Inside .armv7 0x2000 0 0 0xE0000000 initThread := by
  have hcreates : Creates 0x2000 0 0 0xE0000000 initThread .armv7 :=
    .armv7 (show Armv7.stackOf 0xE0000000 0 = _ from rfl)
      (show Armv7.createContext 0x1000 0xE0000000 0x5000 (fun _ ↦ 0) 0x2000 0x1234 0 0 0 = _
        from rfl)
  refine ⟨hcreates, Armv7.layOut_usersp, ?_⟩
  rw [hcreates.inside_armv7_iff]
  decide

end ForgeOS.Context
