import Mathlib.Data.UInt
import ForgeOS.Sched.Model

/-!
# Sleeping for a time

`sleep_ms` puts a record of the current thread and of the time it wants to sleep into a list,
installs `sleep_timer_tick` as a timer handler if that has not been done, and calls `thread_sleep`.

Here the list of records is a list; `Sleep.Records` is about the linked list that the program has. A
thread inserts its record, installs the timer, writes its state, reschedules.  Between any two of
these steps a timer interrupt may come, a processor may reschedule, and threads that are not in
`sleep_ms` may go to sleep and be woken by other code.  Each processor runs the operations of
`Sched.Model`.
-/

namespace ForgeOS
namespace Sleep

open List

/-- The value of `tc` for a number of milliseconds: `ms * MS_TO_TICKS`, in 32 bits. -/
def ticksOf (ms : UInt32) : ℕ := ms.toNat * 1000000 % 2 ^ 32

def age (ticks tc : ℕ) : ℕ := if tc < ticks then 0 else tc - ticks

theorem age_eq_zero {ticks tc : ℕ} : age ticks tc = 0 ↔ tc ≤ ticks := by
  rw [age]
  split <;> omega

theorem age_eq (ticks tc : ℕ) : age ticks tc = tc - ticks := by
  rw [age]
  split <;> omega

/-- The loop of `sleep_timer_tick`: the threads that are woken, in order, and the records that stay.
-/
def expire {T : Type} (ticks : ℕ) : List (T × ℕ) → List T × List (T × ℕ)
  | [] => ([], [])
  | (t, tc) :: l =>
    let r := expire ticks l
    if age ticks tc = 0 then (t :: r.1, r.2) else (r.1, (t, age ticks tc) :: r.2)

theorem expire_eq {T : Type} (ticks : ℕ) (l : List (T × ℕ)) :
    expire ticks l = ((l.filter fun e ↦ e.2 ≤ ticks).map Prod.fst,
      (l.filter fun e ↦ ticks < e.2).map fun e ↦ (e.1, e.2 - ticks)) := by
  induction l with
  | nil => rfl
  | cons e l ih =>
    rw [expire, ih]
    by_cases he : e.2 ≤ ticks
    · rw [if_pos (age_eq_zero.mpr he), filter_cons_of_pos (by simpa using he),
        filter_cons_of_neg (by simpa using he), map_cons]
    · rw [if_neg fun hz ↦ he (age_eq_zero.mp hz), filter_cons_of_neg (by simpa using he),
        filter_cons_of_pos (by simpa using he), map_cons, age_eq]

/-- Where a thread is in `sleep_ms`.  The names say what is done next. -/
inductive Pc where
  | out
  /-- `list_insert(tlist, s, 0)`. -/
  | insert (ms : UInt32)
  /-- `install_timer`, unless it has been done. -/
  | install
  /-- Write `SLEEPING` to the thread's state. -/
  | sleep
  /-- `reschedule()` in `thread_sleep`. -/
  | resched
  /-- The thread has been switched away from, or is about to return. -/
  | asleep
  deriving DecidableEq

end Sleep

structure Sleep (C T : Type) where
  thread : T → Option Thread
  current : C → T
  idle : C → T
  readyQueue : List T
  zombieQueue : List T
  /-- The records: the thread, and the time that is left. -/
  tlist : List (T × ℕ)
  timerInstalled : Bool
  pc : T → Sleep.Pc
  /-- Has the interrupt on this processor to end with a `reschedule`? -/
  pending : C → Bool

namespace Sleep

variable {C T : Type}

def view (s : Sleep C T) (c : C) : Sched T :=
  ⟨s.thread, s.current c, s.idle c, s.readyQueue, s.zombieQueue⟩

variable [DecidableEq C] [DecidableEq T]

def put (s : Sleep C T) (c : C) (v : Sched T) : Sleep C T :=
  { s with
    thread := v.thread
    current := Function.update s.current c v.current
    idle := Function.update s.idle c v.idle
    readyQueue := v.readyQueue
    zombieQueue := v.zombieQueue }

def goto (s : Sleep C T) (t : T) (pc : Pc) : Sleep C T := { s with pc := Function.update s.pc t pc }

def wakeAll : List T → Sched T → Option (Sched T)
  | [], v => some v
  | t :: ts, v => (v.threadWake t).bind (wakeAll ts)

/-- `sleep_timer_tick`, in an interrupt on processor `c`. -/
def sleepTimerTick (s : Sleep C T) (c : C) (ticks : ℕ) : Option (Sleep C T) :=
  let r := expire ticks s.tlist
  (wakeAll r.1 (s.view c)).map fun v ↦
    { s.put c v with tlist := r.2, pending := Function.update s.pending c (!r.1.isEmpty) }

def move (s : Sleep C T) (c : C) : Option (Sleep C T) :=
  let t := s.current c
  match s.pc t with
  | .out => none
  | .insert ms => some ({ s with tlist := (t, ticksOf ms) :: s.tlist }.goto t .install)
  | .install => some ({ s with timerInstalled := true }.goto t .sleep)
  | .sleep => ((s.view c).setState t .sleeping).map fun v ↦ (s.put c v).goto t .resched
  | .resched => (s.view c).reschedule.map fun v ↦ (s.put c v).goto t .asleep
  | .asleep => some (s.goto t .out)

inductive Label (C T : Type) where
  /-- The current thread of a processor calls `sleep_ms`. -/
  | call (c : C) (ms : UInt32)
  | move (c : C)
  /-- A timer interrupt. -/
  | tick (c : C) (ticks : ℕ)
  | reschedule (c : C)
  | wake (t : T)
  /-- The current thread of a processor goes to sleep in other code. -/
  | sleep (c : C)

/-- A thread that executes its own code is not in state `SLEEPING`, and `sleep_timer_tick` is called
when it has been installed. -/
def step (s : Sleep C T) : Label C T → Option (Sleep C T)
  | .call c ms =>
    if s.pc (s.current c) = .out ∧ s.pending c = false ∧
        (s.thread (s.current c)).map Thread.state ≠ some .sleeping then
      some (s.goto (s.current c) (.insert ms))
    else none
  | .move c => if s.pending c then none else s.move c
  | .tick c ticks => if s.timerInstalled ∧ s.pending c = false then s.sleepTimerTick c ticks else none
  | .reschedule c => (s.view c).reschedule.map fun v ↦
      { s.put c v with pending := Function.update s.pending c false }
  | .wake t =>
    if s.pc t = .out then
      (s.thread t).map fun th ↦
        { s with
          readyQueue := s.readyQueue ++ [t]
          thread := Function.update s.thread t (some { th with state := .ready }) }
    else none
  | .sleep c =>
    if s.pc (s.current c) = .out ∧ s.pending c = false then
      (s.view c).threadSleep.map (s.put c) else none

structure Init (s : Sleep C T) : Prop where
  pc : ∀ t, s.pc t = .out
  tlist : s.tlist = []

end Sleep
end ForgeOS
