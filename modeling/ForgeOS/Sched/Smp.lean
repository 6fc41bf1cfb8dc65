import Mathlib.Data.Fintype.Card
import ForgeOS.Sched.Model

/-!
# The scheduler on several processors

A call of `reschedule_internal` is cut into the accesses it makes to memory that other processors
access as well, and these are interleaved in any order.
-/

namespace ForgeOS

/-- The points of `reschedule_internal` between which a processor makes one access to shared
memory.  The names say what is done next. -/
inductive Smp.Pc (T : Type) where
  /-- The processor executes its current thread. -/
  | out
  /-- Read the state of the current thread. -/
  | start (action : IdleAction)
  /-- Write `READY` to it. -/
  | markReady (action : IdleAction)
  /-- Push the current thread on the ready queue. -/
  | push (action : IdleAction)
  /-- `queue_empty` in `is_idle`. -/
  | test (action : IdleAction)
  /-- Write `RUNNING` to the idle thread. -/
  | idleRun (action : IdleAction)
  /-- Make the idle thread current. -/
  | idleSet
  /-- `is_idle` has returned 0: pop the ready queue. -/
  | pop
  /-- Read the state of the thread popped. -/
  | check (thr : T)
  /-- It is a zombie: push it on the zombie queue. -/
  | zombiePush (thr : T)
  /-- It is ready: write `RUNNING` to it. -/
  | run (thr : T)
  /-- Make it current. -/
  | setCurrent (thr : T)
  /-- `save_thread_context(old->ctx)` in `switch_threads(old, new)`. -/
  | save (old new : T)
  /-- `restore_thread_context(new->ctx)`. -/
  | restore (new : T)
  /-- `assert(thr != 0)` has failed. -/
  | failed
  deriving DecidableEq

structure Smp.Cpu (T : Type) where
  pc : Smp.Pc T
  /-- `MULTICPU_PERCPU_CURRTHREAD`. -/
  current : T
  /-- `MULTICPU_PERCPU_IDLETHREAD`. -/
  idle : T
  /-- The thread whose registers the processor holds and has not saved. -/
  live : Option T
  deriving DecidableEq

/-- The state of a machine with processors `C` and threads `T`. -/
structure Smp (C T : Type) where
  cpu : C → Smp.Cpu T
  state : T → ThreadState
  readyQueue : List T
  zombieQueue : List T

namespace Smp

variable {C T : Type} [DecidableEq C] [DecidableEq T]

def setCpu (s : Smp C T) (c : C) (p : Cpu T) : Smp C T :=
  { s with cpu := Function.update s.cpu c p }

def goto (s : Smp C T) (c : C) (pc : Pc T) : Smp C T := s.setCpu c { s.cpu c with pc := pc }

def setState (s : Smp C T) (t : T) (st : ThreadState) : Smp C T :=
  { s with state := Function.update s.state t st }

/-- The next step of processor `c` inside `reschedule_internal`. -/
def cpuStep (s : Smp C T) (c : C) : Option (Smp C T) :=
  let me := s.cpu c
  match me.pc with
  | .out => none
  | .start a =>
    if me.current ≠ me.idle ∧ s.state me.current = .running then s.goto c (.markReady a)
    else s.goto c (.test a)
  | .markReady a => (s.setState me.current .ready).goto c (.push a)
  | .push a => ({ s with readyQueue := s.readyQueue ++ [me.current] } : Smp C T).goto c (.test a)
  | .test a =>
    if s.readyQueue ≠ [] then s.goto c .pop
    else if (me.current = me.idle ∧ a ≠ .runthreadRestore) ∨ a = .ret then s.goto c .out
    else s.goto c (.idleRun a)
  | .idleRun a =>
    let s := s.setState me.idle .running
    if a = .runthreadRestore ∨ me.current ≠ me.idle then s.goto c .idleSet else s.goto c .out
  | .idleSet => s.setCpu c { me with pc := .save me.current me.idle, current := me.idle }
  | .pop =>
    match s.readyQueue with
    | [] => s.goto c .failed
    | thr :: rest => ({ s with readyQueue := rest } : Smp C T).goto c (.check thr)
  | .check thr =>
    match s.state thr with
    | .ready => s.goto c (.run thr)
    | .zombie => s.goto c (.zombiePush thr)
    | _ => s.goto c (.start .runthread)
  | .zombiePush thr =>
    ({ s with zombieQueue := s.zombieQueue ++ [thr] } : Smp C T).goto c (.start .runthread)
  | .run thr =>
    let s := s.setState thr .running
    if thr ≠ me.current then s.goto c (.setCurrent thr) else s.goto c .out
  | .setCurrent thr => s.setCpu c { me with pc := .save me.current thr, current := thr }
  | .save _ new => s.setCpu c { me with pc := .restore new, live := none }
  | .restore new => s.setCpu c { me with pc := .out, live := some new }
  | .failed => none

inductive Label (C T : Type) where
  /-- The thread on processor `c` calls `reschedule_internal`. -/
  | call (c : C) (action : IdleAction)
  /-- The thread on processor `c` writes `SLEEPING` to its state and calls `reschedule`. -/
  | threadSleep (c : C)
  /-- The thread on processor `c` writes `ZOMBIE` to its state, goes to the zombie queue and calls
  `reschedule`. -/
  | threadKill (c : C)
  /-- A sleeping thread is made ready. -/
  | threadWake (t : T)
  /-- Processor `c` goes on inside `reschedule_internal`. -/
  | cpu (c : C)

def step (s : Smp C T) : Label C T → Option (Smp C T)
  | .call c action => if (s.cpu c).pc = .out then some (s.goto c (.start action)) else none
  | .threadSleep c =>
    if (s.cpu c).pc = .out then
      some ((s.setState (s.cpu c).current .sleeping).goto c (.start .runthread))
    else none
  | .threadKill c =>
    if (s.cpu c).pc = .out then
      let s := s.setState (s.cpu c).current .zombie
      let s := { s with zombieQueue := s.zombieQueue ++ [(s.cpu c).current] }
      some (s.goto c (.start .runthread))
    else none
  | .threadWake t =>
    some ({ s with readyQueue := s.readyQueue ++ [t] }.setState t .ready)
  | .cpu c => s.cpuStep c

/-- Who may call what, as on one processor: idle threads neither sleep nor die nor are woken, only
a sleeping thread is woken, and the idle thread of a processor is restored to itself only while it
is current, when the processor comes up. -/
def Allowed (s : Smp C T) : Label C T → Prop
  | .call c action => action = .runthreadRestore → (s.cpu c).current = (s.cpu c).idle
  | .threadSleep c => (s.cpu c).current ≠ (s.cpu c).idle
  | .threadKill c => (s.cpu c).current ≠ (s.cpu c).idle
  | .threadWake t => s.state t = .sleeping ∧ ∀ c, t ≠ (s.cpu c).idle
  | .cpu _ => True

instance Allowed.decidable [Fintype C] (s : Smp C T) : ∀ l, Decidable (s.Allowed l)
  | .call c action =>
    inferInstanceAs (Decidable (action = .runthreadRestore → (s.cpu c).current = (s.cpu c).idle))
  | .threadSleep c => inferInstanceAs (Decidable ((s.cpu c).current ≠ (s.cpu c).idle))
  | .threadKill c => inferInstanceAs (Decidable ((s.cpu c).current ≠ (s.cpu c).idle))
  | .threadWake t =>
    inferInstanceAs (Decidable (s.state t = .sleeping ∧ ∀ c, t ≠ (s.cpu c).idle))
  | .cpu _ => isTrue trivial

/-- The machine as it is started: every processor executes its own idle thread, and nothing is
queued. -/
structure Init (s : Smp C T) : Prop where
  pc : ∀ c, (s.cpu c).pc = .out
  current : ∀ c, (s.cpu c).current = (s.cpu c).idle
  live : ∀ c, (s.cpu c).live = some (s.cpu c).idle
  idle : ∀ c c', (s.cpu c).idle = (s.cpu c').idle → c = c'
  ready : s.readyQueue = []
  zombie : s.zombieQueue = []

def boot : Smp (Fin 2) ℕ where
  cpu c := { pc := .out, current := c, idle := c, live := some c }
  state t := if t < 2 then .running else .sleeping
  readyQueue := []
  zombieQueue := []

theorem boot_init : Init boot :=
  ⟨fun _ ↦ rfl, fun _ ↦ rfl, fun _ ↦ rfl, fun _ _ h ↦ Fin.ext h, rfl, rfl⟩

def runTwo : List (Label (Fin 2) ℕ) :=
  .threadWake 2 :: .call 0 .runthread :: List.replicate 8 (.cpu 0)

end Smp
end ForgeOS
