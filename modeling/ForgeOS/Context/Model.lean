import ForgeOS.Lib.X86
import ForgeOS.Pool.Model

/-!
# Thread contexts on x86

This file has `create_context`, over the pool of stacks and a memory of bytes, and the instructions
of `save_thread_context` and `restore_thread_context`.  A `none` result is a failed assertion,
because the pool has no stacks left, or a fault in `pool_alloc`.
-/

namespace ForgeOS.Context

open X86 Memory

def poolStackSz : UInt32 := 0x4000

/-- `init_context`: 0x1000 stacks that end where the boot stack begins, 0x4000 bytes below
0xFFC00000. -/
def initContext (vmem : Vmem) : Pool :=
  Pool.createPoolAt 0x4000 0x1000 (0xFFC00000 - 0x4000 - 0x4000 * 0x1000) vmem (by decide)

/-- The size of the stack, when `create_context` is called with `stacksz`. -/
def stackSize (stacksz : UInt32) : UInt32 := if stacksz = 0 then poolStackSz else stacksz

/-- The stack of the caller, or one from the pool. -/
def stackOf (stackpool : Pool) (frames : ℕ → UInt64 × UInt64) (stack : UInt32) :
    Option (UInt32 × Pool) :=
  if stack ≠ 0 then some (stack, stackpool)
  else (stackpool.poolAlloc frames).map fun r ↦ (UInt32.ofNat r.1, r.2)

/-- The assignments of `create_context` to the context and the stack.  The fields of `context_t` are
words: `edi`, `esi`, `ebx`, `ebp`, `esp`, `eip`, `eflags`, `stackbase` and `stackispool`, from
offset 0 on. -/
def layOut (mem : Memory) (ctx start stackPtr stacksz param threadReturn stackispool : UInt32) :
    Memory :=
  let mem := mem.fill ctx 36 0
  let mem := mem.store (ctx + 32) stackispool
  let mem := mem.store (ctx + 20) start
  let mem := mem.store (ctx + 28) stackPtr
  let mem := mem.store (ctx + 24) ((1 : UInt32) <<< 9)
  let stackTop := stackPtr + (stacksz - 4)
  let mem := mem.store (ctx + 12) stackTop
  let mem := mem.store stackTop threadReturn
  let stackp := stackTop - 4
  let mem := mem.store stackp param
  mem.store (ctx + 16) stackp

/-- `create_context`.  The result is the memory, with the pool of stacks; `threadReturn` is the
address of `thread_return`. -/
def createContext (threadReturn : UInt32) (stackpool : Pool) (frames : ℕ → UInt64 × UInt64)
    (mem : Memory) (ctx start stack stacksz param : UInt32) : Option (Pool × Memory) := do
  let (stackPtr, stackpool) ← stackOf stackpool frames stack
  if stackPtr = 0 then none
  else
    some (stackpool, layOut mem ctx start stackPtr (stackSize stacksz) param threadReturn
      (if stack ≠ 0 then 0 else 1))

def saveThreadContext : Code :=
  .seq (.load 4 .esp .edx) <|
  .seq (.store .edi 0 .edx) <|
  .seq (.store .esi 4 .edx) <|
  .seq (.store .ebx 8 .edx) <|
  .seq (.store .ebp 12 .edx) <|
  .seq (.store .esp 16 .edx) <|
  .seq (.load 0 .esp .ecx) <|
  .seq (.store .ecx 20 .edx) <|
  .seq .pushf <|
  .seq (.pop .ecx) <|
  .seq (.store .ecx 24 .edx) <|
  .seq (.mov 1 .eax) .ret

def nolock : Code :=
  .seq (.load 24 .eax .ecx) <|
  .seq (.push .ecx) <|
  .seq .popf <|
  .seq (.load 20 .eax .ecx) <|
  .seq (.mov 0 .eax) <|
  .jmp .ecx

def restoreThreadContext : Code :=
  .seq (.load 8 .esp .ecx) <|
  .seq (.load 4 .esp .eax) <|
  .seq (.load 0 .eax .edi) <|
  .seq (.load 4 .eax .esi) <|
  .seq (.load 8 .eax .ebx) <|
  .seq (.load 12 .eax .ebp) <|
  .seq (.load 16 .eax .esp) <|
  .seq (.add 4 .esp) <|
  .seq (.test .ecx) <|
  .je nolock <|
  .seq (.lockDec .ecx) nolock

end ForgeOS.Context
