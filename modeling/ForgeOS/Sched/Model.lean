import Mathlib.Data.Fintype.Basic
import ForgeOS.Lib.Run

/-!
# The scheduler, as one processor sees it

This file translates the operations of `sched.c` for a single processor, each taken as one atomic
step.  Of `struct thread` only the fields the scheduler reads or writes are kept.  A `none` result
is a fault: a freed thread that is still used, an assertion that fails, or a panic.
`save_thread_context` and `restore_thread_context` change nothing in the scheduler's own state.  The
queues are lists, pushed at the end and popped at the front.
-/

namespace ForgeOS

inductive ThreadState where
  | running
  | ready
  | zombie
  | sleeping
  deriving DecidableEq

/-- `RESCHED_IDLE_*`: what to do when no thread is ready. -/
inductive IdleAction where
  /-- `RESCHED_IDLE_RETURN`: go on with the current thread. -/
  | ret
  /-- `RESCHED_IDLE_RUNTHREAD`: run the idle thread. -/
  | runthread
  /-- `RESCHED_IDLE_RUNTHREAD_RESTORE`: run the idle thread, even if it is the current one. -/
  | runthreadRestore
  deriving DecidableEq

instance : Fintype IdleAction where
  elems := {.ret, .runthread, .runthreadRestore}
  complete action := by cases action <;> decide

/-- `THREAD_DEFAULT_TIMESLICE`, 10 ms in nanoseconds. -/
def defaultTimeslice : ℕ := 10 * 1000000

/-- What the scheduler keeps in a `struct thread`. -/
structure Thread where
  state : ThreadState
  timeslice : ℕ
  deriving DecidableEq

structure Sched (T : Type) where
  thread : T → Option Thread
  current : T
  idle : T
  readyQueue : List T
  zombieQueue : List T

namespace Sched

variable {T : Type} [DecidableEq T]

def setThread (s : Sched T) (t : T) (th : Thread) : Sched T :=
  { s with thread := Function.update s.thread t (some th) }

@[simp] theorem setThread_current (s : Sched T) (t : T) (th : Thread) :
    (s.setThread t th).current = s.current := rfl

@[simp] theorem setThread_idle (s : Sched T) (t : T) (th : Thread) :
    (s.setThread t th).idle = s.idle := rfl

@[simp] theorem setThread_readyQueue (s : Sched T) (t : T) (th : Thread) :
    (s.setThread t th).readyQueue = s.readyQueue := rfl

@[simp] theorem setThread_zombieQueue (s : Sched T) (t : T) (th : Thread) :
    (s.setThread t th).zombieQueue = s.zombieQueue := rfl

def modify (s : Sched T) (t : T) (f : Thread → Thread) : Option (Sched T) :=
  (s.thread t).map fun th ↦ s.setThread t (f th)

def setState (s : Sched T) (t : T) (st : ThreadState) : Option (Sched T) :=
  s.modify t fun th ↦ { th with state := st }

/-- The first part of `reschedule_internal`: the current thread, unless it is the idle one, goes
from `RUNNING` to `READY` and to the end of the ready queue.  A thread in another state is left
off the queue. -/
def requeue (s : Sched T) : Option (Sched T) :=
  if s.current = s.idle then some s
  else do
    let cur ← s.thread s.current
    if cur.state = .running then
      let s ← s.setState s.current .ready
      some { s with readyQueue := s.readyQueue ++ [s.current] }
    else some s

/-- `is_idle`: the answer, and the state in which it is given. -/
def isIdle (s : Sched T) (action : IdleAction) : Option (Bool × Sched T) :=
  let empty := s.readyQueue.isEmpty
  if empty ∧ ((s.current = s.idle ∧ action ≠ .runthreadRestore) ∨ action = .ret) then some (true, s)
  else if empty then
    if action = .runthread ∨ action = .runthreadRestore then do
      let s ← s.modify s.idle fun th ↦ { th with state := .running, timeslice := defaultTimeslice }
      if action = .runthreadRestore ∨ s.current ≠ s.idle then
        some (true, { s with current := s.idle })
      else some (true, s)
    -- panic("bad action on idle to scheduler")
    else none
  else some (false, s)

/-- The last part of `reschedule_internal`: the ready thread `thr` is run. -/
def dispatch (s : Sched T) (thr : T) : Option (Sched T) := do
  let s ← s.modify thr fun th ↦ { th with timeslice := defaultTimeslice, state := .running }
  if thr ≠ s.current then some { s with current := thr } else some s

/-- `reschedule_internal`.  A queue entry that is not ready is dropped and the function calls
itself; the first argument bounds how often it may. -/
def rescheduleInternal : ℕ → IdleAction → Sched T → Option (Sched T)
  | 0, _, _ => none
  | fuel + 1, action, s => do
    let s ← s.requeue
    let (idle, s) ← s.isIdle action
    if idle then some s
    else match s.readyQueue with
      -- assert(thr != 0)
      | [] => none
      | thr :: rest => do
        let s := { s with readyQueue := rest }
        let th ← s.thread thr
        if th.state = .ready then s.dispatch thr
        else
          -- Threads in the zombie state need to be added to the zombie queue here.
          let s := if th.state = .zombie then { s with zombieQueue := s.zombieQueue ++ [thr] } else s
          rescheduleInternal fuel .runthread s

/-- A call of `reschedule_internal`.  Every retry drops one entry, and only the first pass adds
one. -/
def resched (action : IdleAction) (s : Sched T) : Option (Sched T) :=
  rescheduleInternal (s.readyQueue.length + 2) action s

/-- `create_thread`, for the thread structure that `malloc` returns. -/
def createThread (s : Sched T) (t : T) : Option (Sched T) :=
  if (s.thread t).isNone then
    some (s.setThread t ⟨.sleeping, defaultTimeslice⟩)
  else none

/-- `thread_wake`: first the queue, then the state. -/
def threadWake (s : Sched T) (thr : T) : Option (Sched T) :=
  let s := { s with readyQueue := s.readyQueue ++ [thr] }
  s.setState thr .ready

def schedYield (s : Sched T) : Option (Sched T) := s.resched .ret

def reschedule (s : Sched T) : Option (Sched T) := s.resched .runthread

def threadSleep (s : Sched T) : Option (Sched T) := do
  let s ← s.setState s.current .sleeping
  s.reschedule

/-- `thread_kill`, up to the switch to another thread, from which it does not return. -/
def threadKill (s : Sched T) : Option (Sched T) := do
  let s ← s.setState s.current .zombie
  let s := { s with zombieQueue := s.zombieQueue ++ [s.current] }
  s.reschedule

/-- The loop of `zombie_reaper`: every thread of the queue is freed. -/
def reap : List T → (T → Option Thread) → Option (T → Option Thread)
  | [], threads => some threads
  | thr :: rest, threads =>
    (threads thr).bind fun _ ↦ reap rest (Function.update threads thr none)

def zombieReaper (s : Sched T) : Option (Sched T) :=
  (reap s.zombieQueue s.thread).map fun threads ↦ { s with thread := threads, zombieQueue := [] }

inductive Op (T : Type) where
  | createThread (t : T)
  | threadWake (t : T)
  | threadSleep
  | threadKill
  | schedYield
  | reschedule
  | zombieReaper

def step (s : Sched T) : Op T → Option (Sched T)
  | .createThread t => s.createThread t
  | .threadWake t => s.threadWake t
  | .threadSleep => s.threadSleep
  | .threadKill => s.threadKill
  | .schedYield => s.schedYield
  | .reschedule => s.reschedule
  | .zombieReaper => s.zombieReaper

/-- Who may call what: a new thread gets memory that is not in use, only a sleeping thread is woken,
and the idle thread neither is woken nor goes to sleep nor dies. -/
def Allowed (s : Sched T) : Op T → Prop
  | .createThread t => s.thread t = none
  | .threadWake t => t ≠ s.idle ∧ (s.thread t).map Thread.state = some .sleeping
  | .threadSleep => s.current ≠ s.idle
  | .threadKill => s.current ≠ s.idle
  | _ => True

instance Allowed.decidable (s : Sched T) : ∀ op, Decidable (s.Allowed op)
  | .createThread t => inferInstanceAs (Decidable (s.thread t = none))
  | .threadWake t =>
    inferInstanceAs (Decidable (t ≠ s.idle ∧ (s.thread t).map Thread.state = some .sleeping))
  | .threadSleep => inferInstanceAs (Decidable (s.current ≠ s.idle))
  | .threadKill => inferInstanceAs (Decidable (s.current ≠ s.idle))
  | .schedYield => isTrue trivial
  | .reschedule => isTrue trivial
  | .zombieReaper => isTrue trivial

/-- The scheduler as it is started: the idle thread is current, no thread is ready, and the threads
that exist besides it have been created but never woken. -/
structure Init (s : Sched T) : Prop where
  current : s.current = s.idle
  ready : s.readyQueue = []
  zombie : s.zombieQueue = []
  idle : (s.thread s.idle).isSome
  others : ∀ t th, t ≠ s.idle → s.thread t = some th → th.state = .sleeping

end Sched
end ForgeOS
