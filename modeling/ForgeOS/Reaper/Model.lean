import ForgeOS.LList.Front
import ForgeOS.Sched.Smp

/-!
# Dying threads and the reaper

A thread that calls `thread_kill` writes `ZOMBIE` to its state, pushes itself on the zombie queue
and calls `reschedule`, with interrupts enabled.  `zombie_reaper` is a timer handler: it takes the
threads of the zombie queue one by one, destroys their contexts and frees them.

The scheduler is the one of `Sched.Smp`, with `thread_kill` cut into its three steps.  A processor
in an interrupt does nothing else until the handler has returned.  A step is a fault if it wakes or
frees a thread that is not allocated, or follows the null pointer that an empty queue returns.
Otherwise freed memory keeps its contents until `malloc` hands it out again.
-/

namespace ForgeOS

open Function

/-- Where a thread is in `thread_kill`.  The names say what is done next. -/
inductive Reaper.Kill where
  | out
  /-- `queue_push(zombie_queue, get_current_thread())`. -/
  | push
  /-- `reschedule()`. -/
  | resched
  deriving DecidableEq

inductive Reaper.Irq (T : Type) where
  | out
  /-- `queue_empty`. -/
  | test
  /-- `queue_pop`. -/
  | pop
  /-- Destroy the context of `thr` and free it. -/
  | free (thr : T)
  deriving DecidableEq

/-- The state of a machine with processors `C`, threads `T` and processes `P`. -/
structure Reaper (C T P : Type) where
  smp : Smp C T
  /-- The thread structures that are allocated, with their field `parent`. -/
  parent : T → Option P
  threadList : P → LList T
  kill : T → Reaper.Kill
  irq : C → Reaper.Irq T

namespace Reaper

variable {C T P : Type}

def current (s : Reaper C T P) (c : C) : T := (s.smp.cpu c).current

inductive Label (C T P : Type) where
  /-- `create_thread`, when `malloc` returns `t` for the thread, and `a` for the node of the list
  and finds `junk` there. -/
  | createThread (t : T) (p : P) (a : Ptr) (junk : LList.Node T)
  | sched (l : Smp.Label C T)
  /-- The current thread of a processor calls `thread_kill` and writes `ZOMBIE` to its state. -/
  | kill (c : C)
  /-- It pushes itself on the zombie queue. -/
  | push (c : C)
  /-- A timer interrupt, which calls `zombie_reaper`. -/
  | timer (c : C)
  /-- The processor goes on in `zombie_reaper`. -/
  | reaper (c : C)

/-- Interrupts are enabled on the processor, and it is in none. -/
def Interruptible (s : Reaper C T P) (c : C) : Prop :=
  s.irq c = .out ∧ ((s.smp.cpu c).pc = .out ∨
    (s.smp.cpu c).pc = .start .runthread ∧ s.kill (s.current c) ≠ .out)

/-- Which steps of the scheduler can be taken: none by a processor in an interrupt, and no thread is
woken that is not allocated. -/
def Runs (s : Reaper C T P) : Smp.Label C T → Prop
  | .call c _ | .threadSleep c | .cpu c => s.irq c = .out
  | .threadKill _ => False
  | .threadWake t => s.parent t ≠ none

instance Interruptible.decidable (s : Reaper C T P) [DecidableEq T] (c : C) :
    Decidable (s.Interruptible c) :=
  inferInstanceAs (Decidable (s.irq c = .out ∧ ((s.smp.cpu c).pc = .out ∨
    (s.smp.cpu c).pc = .start .runthread ∧ s.kill (s.current c) ≠ .out)))

instance Runs.decidable (s : Reaper C T P) [DecidableEq T] [DecidableEq P] : ∀ l, Decidable (s.Runs l)
  | .call c _ | .threadSleep c | .cpu c => inferInstanceAs (Decidable (s.irq c = .out))
  | .threadKill _ => isFalse id
  | .threadWake t => inferInstanceAs (Decidable (s.parent t ≠ none))

variable [DecidableEq C] [DecidableEq T] [DecidableEq P]

def goto (s : Reaper C T P) (c : C) (irq : Irq T) : Reaper C T P :=
  { s with irq := update s.irq c irq }

def createThread (s : Reaper C T P) (t : T) (p : P) (a : Ptr) (junk : LList.Node T) :
    Option (Reaper C T P) :=
  if s.parent t = none then
    ((s.threadList p).listInsert a junk t 0).map fun l ↦
      { s with
        smp := s.smp.setState t .sleeping
        parent := update s.parent t (some p)
        threadList := update s.threadList p l
        kill := update s.kill t .out }
  else none

def zombieReaper (s : Reaper C T P) (c : C) : Option (Reaper C T P) :=
  match s.irq c with
  | .out => none
  | .test => if s.smp.zombieQueue = [] then some (s.goto c .out) else some (s.goto c .pop)
  | .pop =>
    match s.smp.zombieQueue with
    | [] => none
    | thr :: rest => some ({ s with smp := { s.smp with zombieQueue := rest } }.goto c (.free thr))
  | .free thr =>
    if s.parent thr = none then none
    else some ({ s with parent := update s.parent thr none }.goto c .test)

def step (s : Reaper C T P) : Label C T P → Option (Reaper C T P)
  | .createThread t p a junk => s.createThread t p a junk
  | .sched l => if s.Runs l then (s.smp.step l).map fun m ↦ { s with smp := m } else none
  | .kill c =>
    if (s.smp.cpu c).pc = .out ∧ s.irq c = .out then
      some { s with
        smp := (s.smp.setState (s.current c) .zombie).goto c (.start .runthread)
        kill := update s.kill (s.current c) .push }
    else none
  | .push c =>
    if s.Interruptible c ∧ s.kill (s.current c) = .push then
      some { s with
        smp := { s.smp with zombieQueue := s.smp.zombieQueue ++ [s.current c] }
        kill := update s.kill (s.current c) .resched }
    else none
  | .timer c => if s.Interruptible c then some (s.goto c .test) else none
  | .reaper c => s.zombieReaper c

/-- What the functions may rely on: `malloc` returns non-null pointers to memory that is not in use,
the scheduler is called as `Sched.Smp` has it, and idle threads do not die. -/
def Allowed (s : Reaper C T P) : Label C T P → Prop
  | .createThread _ p a _ => a ≠ 0 ∧ ((s.threadList p).heap.read a).isNone
  | .sched l => s.smp.Allowed l
  | .kill c => s.current c ≠ (s.smp.cpu c).idle
  | _ => True

instance Allowed.decidable [Fintype C] (s : Reaper C T P) : ∀ l, Decidable (s.Allowed l)
  | .createThread _ p a _ =>
    inferInstanceAs (Decidable (a ≠ 0 ∧ ((s.threadList p).heap.read a).isNone))
  | .sched l => Smp.Allowed.decidable s.smp l
  | .kill c => inferInstanceAs (Decidable (s.current c ≠ (s.smp.cpu c).idle))
  | .push _ | .timer _ | .reaper _ => isTrue trivial

omit [DecidableEq C] [DecidableEq T] [DecidableEq P] in
/-- The thread lists are lists, and every thread is in that of its parent. -/
def Listed (s : Reaper C T P) : Prop :=
  ∀ p, ∃ es, (s.threadList p).Front es ∧ ∀ t, s.parent t = some p → t ∈ es.map Prod.snd

/-- The machine as it is started: besides what `Smp.Init` says, the threads that exist are in the
lists of their parents, no thread is dying and no processor is in an interrupt. -/
structure Init (s : Reaper C T P) : Prop where
  smp : s.smp.Init
  listed : s.Listed
  kill : ∀ t, s.kill t = .out
  irq : ∀ c, s.irq c = .out

def boot : Reaper (Fin 2) ℕ Unit where
  smp := Smp.boot
  parent t := if t < 2 then some () else none
  threadList _ :=
    ⟨2, 0x1010, 0x1000, (Heap.empty.set 0x1000 ⟨0, 0, 0⟩).set 0x1010 ⟨1, 0x1000, 0⟩⟩
  kill _ := .out
  irq _ := .out

theorem boot_init : Init boot := by
  refine ⟨Smp.boot_init, fun p ↦ ⟨[(0x1010, 1), (0x1000, 0)], ?_, fun t ht ↦ ?_⟩, fun _ ↦ rfl,
    fun _ ↦ rfl⟩
  · refine ⟨⟨rfl, ⟨1, 0x1000, 0⟩, rfl, rfl, fun _ ↦ ?_⟩, rfl, fun _ ↦ rfl, by decide⟩
    exact ⟨rfl, ⟨0, 0, 0⟩, rfl, rfl, fun hne ↦ absurd rfl hne⟩
  · have ht : (if t < 2 then some () else none) = some p := ht
    split at ht
    next hlt =>
      obtain rfl | rfl : t = 1 ∨ t = 0 := by omega
      · decide
      · decide
    next => cases ht

/-- Thread 2 is created and woken, processor 0 switches to it, and it writes `ZOMBIE` to its state
and pushes itself on the zombie queue. -/
def dying : List (Label (Fin 2) ℕ Unit) :=
  .createThread 2 () 0x1020 ⟨0, 0, 0⟩ :: Smp.runTwo.map .sched ++ [.kill 0, .push 0]

end Reaper
end ForgeOS
