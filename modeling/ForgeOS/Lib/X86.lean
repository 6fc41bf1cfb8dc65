import ForgeOS.Lib.Bits
import ForgeOS.Lib.Memory

/-!
# A fragment of the x86 instruction set

A routine is a piece of `Code`, an instruction and the code after it; a conditional jump has the
code at its label as well.
-/

namespace X86

inductive Reg where
  | eax | ecx | edx | ebx | esp | ebp | esi | edi
  deriving DecidableEq

structure Machine where
  reg : Reg → UInt32
  eflags : UInt32
  eip : UInt32
  mem : Memory

namespace Machine

def setReg (m : Machine) (r : Reg) (x : UInt32) : Machine :=
  { m with reg := Function.update m.reg r x }

def Zero (m : Machine) : Prop := Bits.IsSet m.eflags 6

instance Zero.decidable (m : Machine) : Decidable m.Zero := inferInstanceAs (Decidable (Bits.IsSet _ _))

def setZero (m : Machine) (x : UInt32) : Machine :=
  { m with eflags := if x = 0 then m.eflags ||| Bits.mask 6 else m.eflags &&& ~~~Bits.mask 6 }

variable (m : Machine) (r : Reg) (x : UInt32)

@[simp] theorem setReg_reg : (m.setReg r x).reg = Function.update m.reg r x := rfl

@[simp] theorem setReg_mem : (m.setReg r x).mem = m.mem := rfl

@[simp] theorem setReg_zero : (m.setReg r x).Zero ↔ m.Zero := Iff.rfl

@[simp] theorem setZero_reg : (m.setZero x).reg = m.reg := rfl

@[simp] theorem setZero_mem : (m.setZero x).mem = m.mem := rfl

@[simp] theorem setZero_zero : (m.setZero x).Zero ↔ x = 0 := by
  unfold Zero setZero
  by_cases hx : x = 0
  · simp [hx, Bits.isSet_or_mask]
  · simp [hx, Bits.isSet_and_not_mask]

end Machine

inductive Instr where
  /-- `mov disp(base), dst` -/
  | load (disp : UInt32) (base dst : Reg)
  /-- `mov src, disp(base)` -/
  | store (src : Reg) (disp : UInt32) (base : Reg)
  /-- `mov $x, dst` -/
  | mov (x : UInt32) (dst : Reg)
  /-- `addl $x, dst` -/
  | add (x : UInt32) (dst : Reg)
  /-- `test r, r` -/
  | test (r : Reg)
  /-- `lock decl (base)` -/
  | lockDec (base : Reg)
  | push (r : Reg)
  | pop (r : Reg)
  | pushf
  | popf

def Instr.step (m : Machine) : Instr → Machine
  | .load disp base dst => m.setReg dst (m.mem.load (m.reg base + disp))
  | .store src disp base => { m with mem := m.mem.store (m.reg base + disp) (m.reg src) }
  | .mov x dst => m.setReg dst x
  | .add x dst => (m.setReg dst (m.reg dst + x)).setZero (m.reg dst + x)
  | .test r => m.setZero (m.reg r)
  | .lockDec base =>
    let x := m.mem.load (m.reg base) - 1
    ({ m with mem := m.mem.store (m.reg base) x } : Machine).setZero x
  | .push r =>
    let sp := m.reg .esp - 4
    ({ m with mem := m.mem.store sp (m.reg r) } : Machine).setReg .esp sp
  | .pop r => (m.setReg .esp (m.reg .esp + 4)).setReg r (m.mem.load (m.reg .esp))
  | .pushf =>
    let sp := m.reg .esp - 4
    ({ m with mem := m.mem.store sp m.eflags } : Machine).setReg .esp sp
  | .popf => ({ m with eflags := m.mem.load (m.reg .esp) } : Machine).setReg .esp (m.reg .esp + 4)

inductive Code where
  | seq (i : Instr) (next : Code)
  | je (label next : Code)
  /-- `jmp *r` -/
  | jmp (r : Reg)
  | ret

def Code.run : Code → Machine → Machine
  | .seq i next, m => next.run (i.step m)
  | .je label next, m => if m.Zero then label.run m else next.run m
  | .jmp r, m => { m with eip := m.reg r }
  | .ret, m => ({ m with eip := m.mem.load (m.reg .esp) } : Machine).setReg .esp (m.reg .esp + 4)

end X86
