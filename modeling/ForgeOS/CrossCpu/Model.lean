import ForgeOS.Apic.Model
import ForgeOS.Lib.Run

/-!
# Calling a function on another processor

`multicpu_call` puts a function and its parameter into two global variables and sends an interrupt
to the processor that is to call it.  A spin lock guards the variables: the sender acquires it, and
the handler of the interrupt releases it when the function has returned.

A processor makes one access to shared memory, or one change to its interrupt flag, at a time, in
any interleaving.  An interrupt waits until a processor with that APIC id takes it; the flag is
cleared on entry and restored on return.  A function pointer or a parameter is the number of the
call that it is an argument of.  `calls`, `log`, `pickedUp`, `returned` and `handled` record what
has happened.
-/

namespace ForgeOS
namespace CrossCpu

open Apic

/-- Where a processor is in `multicpu_call`, after the tests at its start.  The names say what is
done next. -/
inductive Base where
  /-- The processor is not in `multicpu_call`. -/
  | idle
  /-- `wasints = interrupts_get()` in `spinlock_acquire`. -/
  | get (k : ℕ)
  /-- `interrupts_disable()`. -/
  | disable (k : ℕ) (wasints : Bool)
  /-- The compare-and-swap on `sl->locked`. -/
  | acquire (k : ℕ) (wasints : Bool)
  /-- `sl->wasints = wasints`. -/
  | save (k : ℕ) (wasints : Bool)
  /-- `crosscpu_func = func`. -/
  | func (k : ℕ)
  /-- `crosscpu_param = param`. -/
  | param (k : ℕ)
  /-- `lapic_ipi`, and return. -/
  | ipi (k : ℕ)
  deriving DecidableEq

/-- Where a processor is in `lapic_localint`.  The names say what is done next. -/
inductive Handler where
  /-- Is `crosscpu_func` set? -/
  | test
  /-- `crosscpu_func(crosscpu_param)`. -/
  | call
  /-- `crosscpu_func = 0`. -/
  | clear (k : ℕ)
  /-- `wasints = sl->wasints` in `spinlock_release`. -/
  | load (k : ℕ)
  /-- The compare-and-swap on `sl->locked`. -/
  | unlock (k : ℕ) (wasints : Bool)
  /-- `interrupts_enable()` or `interrupts_disable()`. -/
  | restore (k : ℕ) (wasints : Bool)
  /-- `lapic_ack()`, and return from the interrupt. -/
  | ack (k : Option ℕ)
  deriving DecidableEq

structure Cpu where
  base : Base
  handler : Option Handler
  /-- The interrupt flag. -/
  flag : Bool
  /-- The interrupt flag on the stack of the handler. -/
  eflags : Bool
  deriving DecidableEq

/-- A call of `multicpu_call`: its argument `cpu`, and the interrupt flag before it. -/
structure Call where
  cpu : UInt32
  flag : Bool
  deriving DecidableEq

structure Execution (C : Type) where
  cpu : C
  func : ℕ
  param : Option ℕ
  deriving DecidableEq

/-- The interrupt flag before the interrupt, at the end of the handler, and after the return. -/
structure Handled where
  call : ℕ
  before : Bool
  inside : Bool
  after : Bool
  deriving DecidableEq

/-- What the processors are: what `init_apic` has found, and their APIC ids. -/
structure Machine (C : Type) where
  procList : List Processor
  apicId : C → UInt8

end CrossCpu

structure CrossCpu (C : Type) where
  cpu : C → CrossCpu.Cpu
  /-- Is there a lock at `crosscpu_lock`? -/
  lockMade : Bool
  locked : Bool
  wasints : Bool
  crosscpuFunc : Option ℕ
  crosscpuParam : Option ℕ
  /-- The destinations of the interrupts that have been sent and not taken. -/
  ipis : List UInt8
  calls : List CrossCpu.Call
  log : List (CrossCpu.Execution C)
  pickedUp : List ℕ
  /-- The calls that have returned after sending an interrupt, with the interrupt flag then. -/
  returned : List (ℕ × Bool)
  handled : List CrossCpu.Handled

namespace CrossCpu

variable {C : Type} [DecidableEq C]

def Machine.multicpuId (m : Machine C) (c : C) : UInt32 := Apic.multicpuId m.procList (m.apicId c)

def Machine.multicpuCount (m : Machine C) : ℕ := m.procList.length

def destProc (s : CrossCpu C) (k : ℕ) : Option UInt8 := s.calls[k]?.map fun x ↦ x.cpu.toUInt8

def setCpu (s : CrossCpu C) (c : C) (x : Cpu) :
    CrossCpu C := { s with cpu := Function.update s.cpu c x }

def Local (m : Machine C) (s : CrossCpu C) (c : C) (cpu : UInt32) : Prop :=
  (m.multicpuCount = 1 ∨ s.lockMade = false) ∨ m.multicpuId c = cpu

instance Local.decidable (m : Machine C) (s : CrossCpu C) (c : C) (cpu : UInt32) :
    Decidable (s.Local m c cpu) :=
  inferInstanceAs (Decidable (_ ∨ _))

inductive Label (C : Type) where
  /-- A processor calls `multicpu_call`. -/
  | call (c : C) (cpu : UInt32)
  /-- A processor goes on with its handler or, if there is none, with its call. -/
  | move (c : C)
  /-- A processor takes an interrupt. -/
  | deliver (c : C)
  /-- The interrupt flag of a processor is changed by other code. -/
  | setFlag (c : C) (flag : Bool)
  /-- `multicpu_start` creates the lock. -/
  | makeLock

/-- `multicpu_call`, up to the acquisition of the lock. -/
def multicpuCall (m : Machine C) (s : CrossCpu C) (c : C) (cpu : UInt32) : CrossCpu C :=
  let x := s.cpu c
  let k := s.calls.length
  let s := { s with calls := s.calls ++ [Call.mk cpu x.flag] }
  if s.Local m c cpu then
    { s with log := s.log ++ [Execution.mk c k (some k)], pickedUp := s.pickedUp ++ [k] }
  else s.setCpu c { x with base := .get k }

def moveBase (s : CrossCpu C) (c : C) : Option (CrossCpu C) :=
  let x := s.cpu c
  match x.base with
  | .idle => none
  | .get k => some (s.setCpu c { x with base := .disable k x.flag })
  | .disable k w => some (s.setCpu c { x with base := .acquire k w, flag := false })
  | .acquire k w =>
    if s.locked then none
    else some ({ s with locked := true }.setCpu c { x with base := .save k w })
  | .save k w => some ({ s with wasints := w }.setCpu c { x with base := .func k })
  | .func k => some ({ s with crosscpuFunc := some k }.setCpu c { x with base := .param k })
  | .param k => some ({ s with crosscpuParam := some k }.setCpu c { x with base := .ipi k })
  | .ipi k => (s.destProc k).map fun d ↦
      { s with ipis := s.ipis ++ [d], returned := s.returned ++ [(k, x.flag)] }.setCpu c
        { x with base := .idle }

def moveHandler (m : Machine C) (s : CrossCpu C) (c : C) : Handler → Option (CrossCpu C)
  | .test =>
    let h := if s.crosscpuFunc.isSome then Handler.call else .ack none
    some (s.setCpu c { s.cpu c with handler := some h })
  | .call => s.crosscpuFunc.map fun k ↦
      { s with log := s.log ++ [Execution.mk c k s.crosscpuParam] }.setCpu c
        { s.cpu c with handler := some (.clear k) }
  | .clear k =>
    some ({ s with crosscpuFunc := none, pickedUp := s.pickedUp ++ [k] }.setCpu c
      { s.cpu c with handler := some (.load k) })
  | .load k =>
    -- On a single processor the interrupts must be disabled; the lock must be taken.
    if ((s.cpu c).flag ∧ m.multicpuCount = 1) ∨ s.locked = false then none
    else some (s.setCpu c { s.cpu c with handler := some (.unlock k s.wasints) })
  | .unlock k w =>
    if s.locked then
      some ({ s with locked := false }.setCpu c { s.cpu c with handler := some (.restore k w) })
    else none
  | .restore k w => some (s.setCpu c { s.cpu c with handler := some (.ack (some k)), flag := w })
  | .ack k =>
    let x := s.cpu c
    let done := k.toList.map fun k ↦ Handled.mk k x.eflags x.flag x.eflags
    some ({ s with handled := s.handled ++ done }.setCpu c { x with handler := none, flag := x.eflags })

def step (m : Machine C) (s : CrossCpu C) : Label C → Option (CrossCpu C)
  | .call c cpu =>
    if (s.cpu c).base = .idle ∧ (s.cpu c).handler = none then some (s.multicpuCall m c cpu) else none
  | .move c =>
    match (s.cpu c).handler with
    | some h => s.moveHandler m c h
    | none => s.moveBase c
  | .deliver c =>
    if m.apicId c ∈ s.ipis ∧ (s.cpu c).flag ∧ (s.cpu c).handler = none then
      some ({ s with ipis := s.ipis.erase (m.apicId c) }.setCpu c
        { s.cpu c with handler := some .test, eflags := (s.cpu c).flag, flag := false })
    else none
  | .setFlag c flag =>
    if (s.cpu c).base = .idle ∧ (s.cpu c).handler = none then
      some (s.setCpu c { s.cpu c with flag := flag })
    else none
  | .makeLock => some { s with lockMade := true }

structure Init (s : CrossCpu C) : Prop where
  base : ∀ c, (s.cpu c).base = .idle
  handler : ∀ c, (s.cpu c).handler = none
  locked : s.locked = false
  crosscpuFunc : s.crosscpuFunc = none
  ipis : s.ipis = []
  calls : s.calls = []
  log : s.log = []
  pickedUp : s.pickedUp = []
  returned : s.returned = []
  handled : s.handled = []

def atRest : CrossCpu (Fin 3) :=
  ⟨fun _ ↦ ⟨.idle, none, true, false⟩, true, false, false, none, none, [], [], [], [], [], []⟩

theorem init_atRest : Init atRest := by
  constructor <;> intros <;> rfl

def straight : Machine (Fin 3) :=
  ⟨[⟨0, 0, true⟩, ⟨1, 1, false⟩, ⟨2, 2, false⟩], fun c ↦ UInt8.ofNat c⟩

/-- Processor 0 asks for number 1, and the processor with APIC id 1 takes the interrupt and handles
it. -/
def oneCall : List (Label (Fin 3)) :=
  .call 0 1 :: List.replicate 7 (.move 0) ++ .deliver 1 :: List.replicate 7 (.move 1)

end CrossCpu
end ForgeOS
