import ForgeOS.Lib.BitField

/-!
# The translation tables of ARMv7

In the short-descriptor format the table of the first level has a word for each megabyte, which
refers to a table of the second level or describes a section; a table of the second level has a word
for each page of 4 KB.
-/

namespace ArmMmu

namespace Level1

def type : BitField := ⟨0, 2, (by decide : 2 ≤ 32)⟩
def tableBase : BitField := ⟨10, 22, (by decide : 32 ≤ 32)⟩
def isSuper : BitField := ⟨18, 1, (by decide : 19 ≤ 32)⟩
def sectionBase : BitField := ⟨20, 12, (by decide : 32 ≤ 32)⟩
def superBase : BitField := ⟨24, 8, (by decide : 32 ≤ 32)⟩

end Level1

inductive First where
  | fault
  /-- There is a table of the second level at the address. -/
  | table (base : ℕ)
  /-- The megabyte is at the address. -/
  | megabyte (base : ℕ)
  /-- The sixteen megabytes are at the address. -/
  | megabytes (base : ℕ)
  deriving DecidableEq

def decode₁ (w : UInt32) : First :=
  match Level1.type.get w with
  | 1 => .table (Level1.tableBase.get w * 2 ^ 10)
  | 2 =>
    if Level1.isSuper.get w = 0 then .megabyte (Level1.sectionBase.get w * 2 ^ 20)
    else .megabytes (Level1.superBase.get w * 2 ^ 24)
  | _ => .fault

namespace Level2

def type : BitField := ⟨0, 2, (by decide : 2 ≤ 32)⟩
def xn : BitField := ⟨0, 1, (by decide : 1 ≤ 32)⟩
def b : BitField := ⟨2, 1, (by decide : 3 ≤ 32)⟩
def c : BitField := ⟨3, 1, (by decide : 4 ≤ 32)⟩
def apLow : BitField := ⟨4, 2, (by decide : 6 ≤ 32)⟩
def tex : BitField := ⟨6, 3, (by decide : 9 ≤ 32)⟩
def apHigh : BitField := ⟨9, 1, (by decide : 10 ≤ 32)⟩
def nG : BitField := ⟨11, 1, (by decide : 12 ≤ 32)⟩
def smallBase : BitField := ⟨12, 20, (by decide : 32 ≤ 32)⟩
def largeBase : BitField := ⟨16, 16, (by decide : 32 ≤ 32)⟩

end Level2

inductive Cache where
  | none | writeBackAllocate | writeThrough | writeBack
  deriving DecidableEq

def Cache.ofBits : ℕ → Cache
  | 0 => .none
  | 1 => .writeBackAllocate
  | 2 => .writeThrough
  | _ => .writeBack

inductive MemType where
  | stronglyOrdered
  | device
  | normal (outer inner : Cache)
  | reserved
  deriving DecidableEq

/-- The type of memory that the TEX, C and B bits stand for. -/
def MemType.ofBits : ℕ → ℕ → ℕ → MemType
  | 0, 0, 0 => .stronglyOrdered
  | 0, 0, 1 => .device
  | 0, 1, 0 => .normal .writeThrough .writeThrough
  | 0, 1, 1 => .normal .writeBack .writeBack
  | 1, 0, 0 => .normal .none .none
  | 1, 1, 1 => .normal .writeBackAllocate .writeBackAllocate
  | 2, 0, 0 => .device
  | tex, c, b =>
    if 4 ≤ tex then .normal (Cache.ofBits (tex - 4)) (Cache.ofBits (2 * c + b)) else .reserved

inductive Access where
  | none | readOnly | readWrite
  deriving DecidableEq

structure SmallPage where
  base : ℕ
  executeNever : Bool
  notGlobal : Bool
  /-- The access permissions: bit 2, and bits 1 and 0. -/
  apHigh : ℕ
  apLow : ℕ
  memory : MemType
  deriving DecidableEq

/-- What privileged code may do with the page, and what user code may do.  With an access flag,
bits 2 and 1 say so; without one all three bits do. -/
def SmallPage.access (page : SmallPage) (accessFlag : Bool) : Access × Access :=
  if accessFlag then
    match page.apHigh, page.apLow / 2 with
    | 0, 0 => (.readWrite, .none)
    | 0, _ => (.readWrite, .readWrite)
    | _, 0 => (.readOnly, .none)
    | _, _ => (.readOnly, .readOnly)
  else
    match page.apHigh, page.apLow with
    | 0, 0 => (.none, .none)
    | 0, 1 => (.readWrite, .none)
    | 0, 2 => (.readWrite, .readOnly)
    | 0, _ => (.readWrite, .readWrite)
    | _, 0 => (.none, .none)
    | _, 1 => (.readOnly, .none)
    | _, _ => (.readOnly, .readOnly)

theorem SmallPage.access_of_bit_one {page : SmallPage} (h : 2 ≤ page.apLow) (accessFlag : Bool) :
    (page.access accessFlag).2 ≠ .none ∧
      ((page.access accessFlag).1 = .readWrite ↔ page.apHigh = 0) := by
  rw [access]
  split
  · split
    all_goals simp_all
    all_goals omega
  · split
    all_goals simp_all

inductive Second where
  | fault
  /-- The 64 KB are at the address. -/
  | large (base : ℕ)
  | small (page : SmallPage)
  deriving DecidableEq

def decode₂ (w : UInt32) : Second :=
  match Level2.type.get w with
  | 0 => .fault
  | 1 => .large (Level2.largeBase.get w * 2 ^ 16)
  | _ => .small {
      base := Level2.smallBase.get w * 2 ^ 12
      executeNever := Level2.xn.get w = 1
      notGlobal := Level2.nG.get w = 1
      apHigh := Level2.apHigh.get w
      apLow := Level2.apLow.get w
      memory := .ofBits (Level2.tex.get w) (Level2.c.get w) (Level2.b.get w) }

def index₁ (v : ℕ) : ℕ := v / 2 ^ 20

def index₂ (v : ℕ) : ℕ := v / 2 ^ 12 % 2 ^ 8

/-- The physical address of `v`, with the table of the first level at `ttb`.  `mem` has the words of
physical memory, at their addresses. -/
def walk (mem : ℕ → UInt32) (ttb v : ℕ) : Option ℕ :=
  match decode₁ (mem (ttb + 4 * index₁ v)) with
  | .fault => none
  | .megabyte base => some (base + v % 2 ^ 20)
  | .megabytes base => some (base + v % 2 ^ 24)
  | .table base =>
    match decode₂ (mem (base + 4 * index₂ v)) with
    | .fault => none
    | .large base => some (base + v % 2 ^ 16)
    | .small page => some (page.base + v % 2 ^ 12)

/-- The physical address of `v`.  The `n` highest bits of an address say which of two tables of the
first level is used: if they are all 0 the one at `ttbr0`, and otherwise the one at `ttbr1`. -/
def translate (n ttbr0 ttbr1 : ℕ) (mem : ℕ → UInt32) (v : ℕ) : Option ℕ :=
  walk mem (if v / 2 ^ (32 - n) = 0 then ttbr0 else ttbr1) v

variable {mem : ℕ → UInt32} {ttb v base : ℕ}

theorem decode₁_of_type_eq_zero {w : UInt32} (h : Level1.type.get w = 0) : decode₁ w = .fault := by
  simp only [decode₁, h]

theorem decode₂_eq_fault_iff {w : UInt32} : decode₂ w = .fault ↔ Level2.type.get w = 0 := by
  rw [decode₂]
  split <;> simp_all

theorem walk_of_megabyte (h : decode₁ (mem (ttb + 4 * index₁ v)) = .megabyte base) :
    walk mem ttb v = some (base + v % 2 ^ 20) := by
  rw [walk, h]

theorem walk_of_table (h : decode₁ (mem (ttb + 4 * index₁ v)) = .table base) :
    walk mem ttb v = match decode₂ (mem (base + 4 * index₂ v)) with
      | .fault => none
      | .large base => some (base + v % 2 ^ 16)
      | .small page => some (page.base + v % 2 ^ 12) := by
  rw [walk, h]

end ArmMmu
