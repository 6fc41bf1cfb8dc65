import ForgeOS.Lib.Run
import ForgeOS.Lib.Word

/-!
# Spin locks

`spinlock_acquire` turns interrupts off, takes the lock with a compare-and-swap, and only then
writes into the lock what the interrupt flag was.  The two functions are translated as one processor
runs them; other processors may write to locks at any time.  A panic and a failed assertion are
`none`.  The program does not read `held`.
-/

namespace ForgeOS
namespace Spinlock

/-- `struct spinlock`.  Nothing here reads `isstatic`; `wasints` is what `interrupts_get` returned,
which is 0 or 1. -/
structure Lock where
  locked : UInt32
  wasints : Bool
  deriving DecidableEq

/-- Where the processor is in `spinlock_acquire` or `spinlock_release`.  The names say what is done
next. -/
inductive Pc where
  | out
  /-- `interrupts_disable()`. -/
  | disable (l : Ptr) (wasints : Bool)
  /-- The compare-and-swap of `sl->locked` from 0 to 1. -/
  | acquire (l : Ptr) (wasints : Bool)
  /-- `sl->wasints = wasints`. -/
  | save (l : Ptr) (wasints : Bool)
  /-- `assert(sl->locked)` at the end of `spinlock_acquire`. -/
  | assertAcquired (l : Ptr)
  /-- The test of `wasints && (multicpu_count() == 1)`. -/
  | check (l : Ptr) (wasints : Bool)
  /-- `assert(sl->locked)` in `spinlock_release`. -/
  | assertLocked (l : Ptr)
  /-- `wasints = sl->wasints`. -/
  | load (l : Ptr)
  /-- The compare-and-swap of `sl->locked` from 1 to 0. -/
  | release (l : Ptr) (wasints : Bool)
  /-- `interrupts_enable()` or `interrupts_disable()`. -/
  | restore (wasints : Bool)
  deriving DecidableEq

/-- The lock that the function the processor is in has yet to read or write. -/
def Pc.lock? : Pc → Option Ptr
  | .out | .restore _ => none
  | .disable l _ | .acquire l _ | .save l _ | .assertAcquired l => some l
  | .check l _ | .assertLocked l | .load l | .release l _ => some l

end Spinlock

structure Spinlock where
  flag : Bool
  multicpuCount : UInt32
  lock : Ptr → Spinlock.Lock
  pc : Spinlock.Pc
  held : List Ptr

namespace Spinlock

/-- `spinlock_acquire`, up to `wasints = interrupts_get()`. -/
def spinlockAcquire (s : Spinlock) (l : Ptr) : Spinlock :=
  if l = 0 then s else { s with pc := .disable l s.flag }

/-- `spinlock_release`, up to `wasints = interrupts_get()`. -/
def spinlockRelease (s : Spinlock) (l : Ptr) : Spinlock :=
  if l = 0 then s else { s with pc := .check l s.flag }

/-- What follows a compare-and-swap that has failed: with one processor a panic, with more of them
another attempt. -/
def spin (s : Spinlock) : Option Spinlock :=
  if s.multicpuCount = 1 then none else some s

/-- `assert(sl->locked)`, before the move to `pc`. -/
def assert (s : Spinlock) (l : Ptr) (pc : Pc) : Option Spinlock :=
  if (s.lock l).locked = 0 then none else some { s with pc := pc }

/-- The next access of the function the processor is in. -/
def access (s : Spinlock) : Option Spinlock :=
  match s.pc with
  | .out => none
  | .disable l wasints => some { s with flag := false, pc := .acquire l wasints }
  | .acquire l wasints =>
    if (s.lock l).locked = 0 then
      some { s with
        lock := Function.update s.lock l { s.lock l with locked := 1 }
        held := l :: s.held
        pc := .save l wasints }
    else s.spin
  | .save l wasints =>
    some { s with
      lock := Function.update s.lock l { s.lock l with wasints := wasints }
      pc := .assertAcquired l }
  | .assertAcquired l => s.assert l .out
  | .check l wasints =>
    if wasints = true ∧ s.multicpuCount = 1 then none
    else some { s with pc := .assertLocked l }
  | .assertLocked l => s.assert l (.load l)
  | .load l => some { s with pc := .release l (s.lock l).wasints }
  | .release l wasints =>
    if (s.lock l).locked = 1 then
      some { s with
        lock := Function.update s.lock l { s.lock l with locked := 0 }
        held := s.held.erase l
        pc := .restore wasints }
    else s.spin
  | .restore wasints => some { s with flag := wasints, pc := .out }

inductive Label where
  | acquire (l : Ptr)
  | release (l : Ptr)
  | access
  /-- Another processor changes a lock. -/
  | other (l : Ptr) (x : Lock)
  deriving DecidableEq

/-- One move.  Only a processor that is in neither function calls one of them. -/
def step (s : Spinlock) : Label → Option Spinlock
  | .acquire l => if s.pc = .out then some (s.spinlockAcquire l) else none
  | .release l => if s.pc = .out then some (s.spinlockRelease l) else none
  | .access => s.access
  | .other l x => some { s with lock := Function.update s.lock l x }

end Spinlock
end ForgeOS
