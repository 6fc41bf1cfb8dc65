import ForgeOS.Lib.Word
import ForgeOS.Sched.Model

/-!
# The semaphore of `semaphore.c`, one step at a time

`semaphore_tryacquire` takes permits with a compare-and-swap of `s->count` and no lock;
`semaphore_release` gives them back with a plain `s->count += count` under the spinlock and then
wakes every thread of `tqueue`.  `semaphore_acquire` tries once without the lock, then again and
again with it; each time it fails it queues the thread on `tqueue`, unlocks, and sleeps.

A step is one access to shared memory.  Of the scheduler there are `thread_sleep`, `thread_wake` and
`dispatch`, by which some processor takes the next entry off the ready queue and runs it, or drops
it if it is not `READY`.  `delete_semaphore` is left out.  What a thread holds is recorded in
`held`.
-/

namespace ForgeOS

/-- Who has called `semaphore_tryacquire`: the user, `semaphore_acquire` before it takes the
spinlock, or `semaphore_acquire` with the spinlock. -/
inductive Semaphore.Caller where
  | user
  | quick (count : ℕ)
  | locked (count : ℕ)
  deriving DecidableEq

/-- The points of the three operations between two steps.  The names say what is done next. -/
inductive Semaphore.Pc (T : Type) where
  | idle
  /-- `value = s->count`, and return 0 if `count > value`. -/
  | tryLoad (k : Caller) (count : ℕ)
  /-- `atomic_bool_compare_and_swap(&s->count, value, value - count)`. -/
  | trySwap (k : Caller) (count value : ℕ)
  /-- `spinlock_acquire(s->spinlock)`. -/
  | acquireLock (count : ℕ)
  /-- `spinlock_release(s->spinlock)`, and return. -/
  | acquireDone
  /-- `queue_push(s->tqueue, sched_current_thread())`. -/
  | acquirePush (count : ℕ)
  /-- `spinlock_release(s->spinlock)`. -/
  | acquireUnlock (count : ℕ)
  /-- In `thread_sleep`: `get_current_thread()->state = THREAD_STATE_SLEEPING`. -/
  | acquireSleep (count : ℕ)
  /-- In `thread_sleep`: `reschedule()`, up to the switch to another thread. -/
  | acquireReschedule (count : ℕ)
  /-- Another thread is running, and this one is to be run again. -/
  | acquireSwitched (count : ℕ)
  /-- Test `s->cleanup`. -/
  | acquireCleanup (count : ℕ)
  /-- `spinlock_acquire(s->spinlock)`. -/
  | releaseLock (count : ℕ)
  /-- Load `s->count`. -/
  | releaseLoad (count : ℕ)
  /-- Add `count`. -/
  | releaseAdd (count value : ℕ)
  /-- Store the sum. -/
  | releaseStore (count sum : ℕ)
  /-- Test `s->count > s->max`. -/
  | releaseTest
  /-- `s->count = s->max`. -/
  | releaseClamp
  /-- `t = queue_pop(s->tqueue)`. -/
  | releasePop
  /-- In `thread_wake`: `queue_push(ready_queue, thr)`. -/
  | releaseWakePush (thr : T)
  /-- In `thread_wake`: `thr->state = THREAD_STATE_READY`. -/
  | releaseWakeReady (thr : T)
  /-- `spinlock_release(s->spinlock)`, and return. -/
  | releaseUnlock
  deriving DecidableEq

structure Semaphore (T : Type) where
  count : ℕ
  max : ℕ
  /-- The thread that has the spinlock. -/
  spinlock : Option T
  tqueue : List T
  cleanup : Bool
  readyQueue : List T
  state : T → ThreadState
  pc : T → Semaphore.Pc T
  /-- The permits each thread has acquired and not released. -/
  held : T → ℕ

namespace Semaphore

variable {T : Type}

def createSemaphore (max initial : ℕ) : Semaphore T where
  count := initial
  max := max
  spinlock := none
  tqueue := []
  cleanup := false
  readyQueue := []
  state := fun _ ↦ .running
  pc := fun _ ↦ .idle
  held := fun _ ↦ 0

/-- `if(count == 0) count = 1;`. -/
def atLeastOne (count : ℕ) : ℕ := if count = 0 then 1 else count

/-- `if(count > s->max) count = s->max;`. -/
def honorMax (s : Semaphore T) (count : ℕ) : ℕ := if count > s.max then s.max else count

def effective (s : Semaphore T) (count : ℕ) : ℕ := s.honorMax (atLeastOne count)

def tryEntry (s : Semaphore T) (k : Caller) (count : ℕ) : Pc T := .tryLoad k (s.effective count)

def acquired : Caller → Pc T
  | .user | .quick _ => .idle
  | .locked _ => .acquireDone

def refused (s : Semaphore T) : Caller → Pc T
  | .user => .idle
  | .quick count => .acquireLock (s.honorMax count)
  | .locked count => .acquirePush count

variable [DecidableEq T]

def goto (s : Semaphore T) (i : T) (pc : Pc T) : Semaphore T :=
  { s with pc := Function.update s.pc i pc }

def setState (s : Semaphore T) (thr : T) (st : ThreadState) : Semaphore T :=
  { s with state := Function.update s.state thr st }

/-- The next step of thread `i`; `none` if it waits for the spinlock or to be run. -/
def access (s : Semaphore T) (i : T) : Option (Semaphore T) :=
  match s.pc i with
  | .idle => none
  | .tryLoad k count =>
    if count > s.count then some (s.goto i (s.refused k))
    else some (s.goto i (.trySwap k count s.count))
  | .trySwap k count value =>
    if s.count = value then
      some ({ s with
        count := value - count
        held := Function.update s.held i (s.held i + count) }.goto i (acquired k))
    else some (s.goto i (s.refused k))
  | .acquireLock count =>
    if s.spinlock = none then
      some ({ s with spinlock := some i }.goto i (s.tryEntry (.locked count) count))
    else none
  | .acquireDone => some ({ s with spinlock := none }.goto i .idle)
  | .acquirePush count => some ({ s with tqueue := s.tqueue ++ [i] }.goto i (.acquireUnlock count))
  | .acquireUnlock count => some ({ s with spinlock := none }.goto i (.acquireSleep count))
  | .acquireSleep count => some ((s.setState i .sleeping).goto i (.acquireReschedule count))
  | .acquireReschedule count =>
    if s.state i = .running then
      some ({ s.setState i .ready with readyQueue := s.readyQueue ++ [i] }.goto i
        (.acquireSwitched count))
    else some (s.goto i (.acquireSwitched count))
  | .acquireSwitched _ => none
  | .acquireCleanup count =>
    if s.cleanup then some (s.goto i .idle) else some (s.goto i (.acquireLock count))
  | .releaseLock count =>
    if s.spinlock = none then some ({ s with spinlock := some i }.goto i (.releaseLoad count))
    else none
  | .releaseLoad count => some (s.goto i (.releaseAdd count s.count))
  | .releaseAdd count value => some (s.goto i (.releaseStore count ((value + count) % wordSize)))
  | .releaseStore _ sum => some ({ s with count := sum }.goto i .releaseTest)
  | .releaseTest => some (s.goto i (if s.count > s.max then .releaseClamp else .releasePop))
  | .releaseClamp => some ({ s with count := s.max }.goto i .releasePop)
  | .releasePop =>
    match s.tqueue with
    | [] => some (s.goto i .releaseUnlock)
    | thr :: rest => some ({ s with tqueue := rest }.goto i (.releaseWakePush thr))
  | .releaseWakePush thr =>
    some ({ s with readyQueue := s.readyQueue ++ [thr] }.goto i (.releaseWakeReady thr))
  | .releaseWakeReady thr => some ((s.setState thr .ready).goto i .releasePop)
  | .releaseUnlock => some ({ s with spinlock := none }.goto i .idle)

omit [DecidableEq T] in
/-- Where a thread goes on when it is run.  One that has not switched to another thread yet goes on
where it is. -/
def Pc.run : Pc T → Pc T
  | .acquireSwitched count => .acquireCleanup count
  | pc => pc

/-- Some processor takes the next thread off the ready queue, in `reschedule_internal`. -/
def dispatch (s : Semaphore T) : Option (Semaphore T) :=
  match s.readyQueue with
  | [] => none
  | thr :: rest =>
    if s.state thr = .ready then
      some (({ s with readyQueue := rest }.setState thr .running).goto thr (s.pc thr).run)
    else some { s with readyQueue := rest }

inductive Op where
  | tryacquire (count : ℕ)
  | acquire (count : ℕ)
  | release (count : ℕ)

/-- Thread `i` calls an operation.  The permits it releases are no longer its own. -/
def call (s : Semaphore T) (i : T) : Op → Semaphore T
  | .tryacquire count => s.goto i (s.tryEntry .user count)
  | .acquire count =>
    s.goto i (s.tryEntry (.quick (atLeastOne count)) (atLeastOne count))
  | .release count =>
    { s with held := Function.update s.held i (s.held i - s.effective count) }.goto i
      (.releaseLock (s.effective count))

inductive Label (T : Type) where
  | call (i : T) (op : Op)
  | access (i : T)
  | dispatch

def step (s : Semaphore T) : Label T → Option (Semaphore T)
  | .call i op => if s.pc i = .idle then some (s.call i op) else none
  | .access i => s.access i
  | .dispatch => s.dispatch

omit [DecidableEq T] in
def Allowed (s : Semaphore T) : Label T → Prop
  | .call i (.release count) => s.effective count ≤ s.held i
  | _ => True

instance Allowed.decidable (s : Semaphore T) : ∀ lbl, Decidable (s.Allowed lbl)
  | .call i (.release count) => inferInstanceAs (Decidable (s.effective count ≤ s.held i))
  | .call _ (.tryacquire _) => isTrue trivial
  | .call _ (.acquire _) => isTrue trivial
  | .access _ => isTrue trivial
  | .dispatch => isTrue trivial

omit [DecidableEq T] in
def Quiescent (s : Semaphore T) : Prop := ∀ i, s.pc i = .idle

instance Quiescent.decidable [Fintype T] (s : Semaphore T) : Decidable s.Quiescent :=
  inferInstanceAs (Decidable (∀ i, s.pc i = .idle))

end Semaphore
end ForgeOS
