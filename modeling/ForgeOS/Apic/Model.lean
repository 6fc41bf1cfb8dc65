import Mathlib.Data.UInt

/-!
# Interrupt routing on the PC

`apic.c` reads the processors, the I/O APICs and the interrupt source overrides from the MADT, a
table of the firmware.  This file translates `init_apic`, as far as it sets up these structures,
`apic_interrupt_reg`, `handle_ioapic_irq` and `multicpu_id`.  A list that is filled at the front and
read by `list_at` is a list, and the tree of overrides is a map.  A `none` result is an access
outside an array, or that there is no I/O APIC.
-/

namespace ForgeOS
namespace Apic

structure Override where
  newirq : ℕ
  polarity : UInt8
  trigger : UInt8

structure IrqHandler (F P : Type) where
  handler : Option F
  param : P
  actual : ℕ

/-- `struct ioapic`, together with the registers of the device. -/
structure Ioapic (F P : Type) where
  irqbase : ℕ
  intbase : ℕ
  intcount : ℕ
  handlers : List (IrqHandler F P)
  reg : UInt8 → UInt32

structure Processor where
  id : UInt8
  apicId : UInt8
  bsp : Bool

inductive Subtable where
  | localApic (id processorId : UInt8) (lapicFlags : UInt32)
  | ioApic (address : UInt32) (globalIrqBase : ℕ)
  /-- The last component is what the memory of the new record happened to hold. -/
  | interruptOverride (sourceIrq : UInt8) (globalIrq : ℕ) (intiFlags : UInt16) (junk : UInt8 × UInt8)
  | other

end Apic

structure Apic (F P : Type) where
  ioapicList : List (Apic.Ioapic F P)
  procList : List Apic.Processor
  interruptOverride : ℕ → Option Apic.Override

namespace Apic

variable {F P : Type}

def ioapicIntBase : ℕ := 0x30

def redirLow (irq : ℕ) : UInt8 := 0x10 + UInt8.ofNat (irq * 2)

def redirHigh (irq : ℕ) : UInt8 := 0x10 + UInt8.ofNat (irq * 2 + 1)

def Ioapic.write (a : Ioapic F P) (r : UInt8) (x : UInt32) : Ioapic F P :=
  { a with reg := Function.update a.reg r x }

/-- The polarity and the trigger mode of an override.  The reserved encodings leave what was there.
-/
def overrideModes (intiFlags : UInt16) (junk : UInt8 × UInt8) : UInt8 × UInt8 :=
  let p := intiFlags &&& 0x3
  let t := (intiFlags >>> 2) &&& 0x3
  if p = 0 then
    if t = 0 ∨ t = 1 then (0, 0) else if t = 3 then (1, 1) else junk
  else
    (if p = 3 then 1 else if p = 1 then 0 else junk.1,
      if t = 0 ∨ t = 1 then 0 else if t = 3 then 1 else junk.2)

/-- One structure of the MADT is read.  `apicid` is the APIC id of this processor, and `devices`
what the registers of the I/O APICs contain. -/
def parse [Zero P] (apicid : UInt8) (devices : UInt32 → UInt8 → UInt32) (s : Apic F P) :
    Subtable → Apic F P
  | .localApic id processorId lapicFlags =>
    if lapicFlags &&& 1 ≠ 0 then
      { s with procList := ⟨processorId, id, id = apicid⟩ :: s.procList }
    else s
  | .ioApic address globalIrqBase =>
    { s with ioapicList := ⟨globalIrqBase, 0, 0, [], devices address⟩ :: s.ioapicList }
  | .interruptOverride sourceIrq globalIrq intiFlags junk =>
    -- The key may be there already.
    if (s.interruptOverride sourceIrq.toNat).isSome then s
    else
      let modes := overrideModes intiFlags junk
      { s with
        interruptOverride := Function.update s.interruptOverride sourceIrq.toNat
          (some ⟨globalIrq, modes.1, modes.2⟩) }
  | .other => s

/-- One turn of the loop that programs the pins of an I/O APIC. -/
def programPin (bspId : UInt8) (a : Ioapic F P) (irq : ℕ) : Ioapic F P :=
  let dataLow := a.reg (redirLow irq)
  let dataHigh := a.reg (redirHigh irq)
  -- Set up the interrupt vector for this I/O APIC.
  let dataLow := dataLow &&& ~~~0xFF
  let dataLow := dataLow ||| (UInt32.ofNat (a.intbase + irq) &&& 0xFF)
  -- Fixed delivery mode, physical destination, not masked.
  let dataLow := dataLow &&& ~~~0x700
  let dataLow := dataLow &&& ~~~0x800
  let dataLow := dataLow &&& ~~~0x10000
  let dataHigh := dataHigh &&& ~~~0xFF000000
  let dataHigh := dataHigh ||| (bspId.toUInt32 <<< 24)
  (a.write (redirLow irq) dataLow).write (redirHigh irq) dataHigh

/-- One turn of the loop that initialises the I/O APICs, with `intnum` the next vector. -/
def initIoapic [Zero P] (bspId : UInt8) (intnum : ℕ) (a : Ioapic F P) : Ioapic F P :=
  let ver := a.reg 1
  let a := { a with intcount := ((ver >>> 16) &&& 0xFF).toNat + 1, intbase := intnum }
  let a := (List.range a.intcount).foldl (programPin bspId) a
  { a with handlers := List.replicate a.intcount ⟨none, 0, 0⟩ }

def initIoapics [Zero P] (bspId : UInt8) : ℕ → List (Ioapic F P) → List (Ioapic F P)
  | _, [] => []
  | intnum, a :: rest =>
    let a := initIoapic bspId intnum a
    a :: initIoapics bspId (intnum + a.intcount) rest

def initApic [Zero P] (apicid : UInt8) (devices : UInt32 → UInt8 → UInt32) (madt : List Subtable) :
    Option (Apic F P) :=
  let s : Apic F P := madt.foldl (parse apicid devices) ⟨[], [], fun _ ↦ none⟩
  if s.ioapicList.isEmpty then none
  else
    let bspId := ((s.procList.find? Processor.bsp).map Processor.id).getD 0
    some { s with ioapicList := initIoapics bspId ioapicIntBase s.ioapicList }

/-- `handle_ioapic_irq`, for the vector `intnum`: the handler that is called, and its parameter. -/
def handleIoapicIrq (s : Apic F P) (intnum : ℕ) : Option (Option (F × P)) :=
  let n := (intnum + (2 ^ 32 - ioapicIntBase)) % 2 ^ 32
  match s.ioapicList.find? fun a ↦ a.intbase ≤ intnum ∧ a.intcount > n with
  | none => some none
  | some a => a.handlers[n]?.map fun h ↦ h.handler.map fun f ↦ (f, h.param)

def redirect (oride : Option Override) (leveltrig : UInt32) (dataLow : UInt32) : UInt32 :=
  let dataLow := dataLow &&& ~~~0x18000
  match oride with
  | none => dataLow ||| ((leveltrig &&& 1) <<< 15)
  | some o =>
    let dataLow := dataLow &&& ~~~0x2000
    let dataLow := dataLow ||| (o.polarity.toUInt32 <<< 13)
    dataLow ||| (o.trigger.toUInt32 <<< 15)

def Ioapic.install (a : Ioapic F P) (pin : ℕ) (h : IrqHandler F P) (oride : Option Override)
    (leveltrig : UInt32) : Option (Ioapic F P) :=
  if pin < a.handlers.length then
    let a := { a with handlers := a.handlers.set pin h }
    some (a.write (redirLow pin) (redirect oride leveltrig (a.reg (redirLow pin))))
  else none

/-- The I/O APIC for the interrupt `n` is found and changed; if there is none, nothing is done. -/
def updateIoapic (n : ℕ) (f : Ioapic F P → Option (Ioapic F P)) :
    List (Ioapic F P) → Option (List (Ioapic F P))
  | [] => some []
  | a :: rest =>
    if a.irqbase ≤ n ∧ (a.irqbase + a.intcount) % 2 ^ 32 > n then (f a).map fun a ↦ a :: rest
    else (updateIoapic n f rest).map fun rest ↦ a :: rest

def apicInterruptReg (s : Apic F P) (n : ℕ) (leveltrig : UInt32) (handler : F) (p : P) :
    Option (Apic F P) :=
  let oride := s.interruptOverride n
  let override := (oride.map Override.newirq).getD n
  (updateIoapic n (fun a ↦
    -- Localise the IRQ number
    a.install ((override + (2 ^ 32 - a.irqbase)) % 2 ^ 32) ⟨some handler, p, n⟩ oride leveltrig)
    s.ioapicList).map fun l ↦ { s with ioapicList := l }

def multicpuId (procList : List Processor) (apicid : UInt8) : UInt32 :=
  match procList.find? fun p ↦ p.apicId = apicid with
  | some p => p.id.toUInt32
  | none => ~~~0

end Apic
end ForgeOS
