import ForgeOS.Lib.Bits

/-!
# Two-level paging with a recursive window

`Mmu.walk` is what the processor does with a 32-bit virtual address, large pages and access rights
included; accessed and dirty bits and the translation cache are left out.
-/

namespace Paging

open Option

/-- A table has 1024 entries. -/
instance neZero_entries : NeZero 1024 := ⟨by decide⟩

/-- An entry of the directory or of a table, without its flags: the address of a frame. -/
def frameOf (e : UInt32) : UInt32 := e &&& 0xFFFFF000

theorem frameOf_or (a b : UInt32) : frameOf (a ||| b) = frameOf a ||| frameOf b :=
  UInt32.and_or_distrib_right a b _

@[simp] theorem frameOf_frameOf (e : UInt32) : frameOf (frameOf e) = frameOf e := by
  rw [frameOf, frameOf, UInt32.and_assoc, UInt32.and_self]

theorem frameOf_or_flags {a b : UInt32} (hb : frameOf b = 0) : frameOf (a ||| b) = frameOf a := by
  rw [frameOf_or, hb, UInt32.or_zero]

theorem frameOf_of_and_eq_zero {a : UInt32} (h : a &&& 0xFFF = 0) : frameOf a = a := by
  have hsplit : a = a &&& (0xFFFFF000 ||| 0xFFF) := by
    show _ = _ &&& (-1 : UInt32)
    rw [UInt32.and_neg_one]
  rw [UInt32.and_or_distrib_left, h, UInt32.or_zero] at hsplit
  exact hsplit.symm

theorem toNat_frameOf (e : UInt32) : (frameOf e).toNat = e.toNat / 0x1000 * 0x1000 := by
  have hmask : (0xFFFFF000 : UInt32).toNat = (2 ^ 20 - 1) <<< 12 := by decide
  have he := e.toNat_lt
  rw [frameOf, UInt32.toNat_and, hmask, Bits.and_mask_shiftLeft]
  omega

def Present (e : UInt32) : Prop := e &&& 1 ≠ 0

def Writeable (e : UInt32) : Prop := e &&& 2 ≠ 0

def Large (e : UInt32) : Prop := e &&& 0x80 ≠ 0

instance Present.decidable (e : UInt32) : Decidable (Present e) :=
  inferInstanceAs (Decidable (e &&& 1 ≠ 0))

instance Writeable.decidable (e : UInt32) : Decidable (Writeable e) :=
  inferInstanceAs (Decidable (e &&& 2 ≠ 0))

instance Large.decidable (e : UInt32) : Decidable (Large e) :=
  inferInstanceAs (Decidable (e &&& 0x80 ≠ 0))

def dirIndex (v : UInt32) : Fin 1024 := ⟨v.toNat / 2 ^ 22, by have := v.toNat_lt; omega⟩

def tabIndex (v : UInt32) : Fin 1024 := ⟨v.toNat / 2 ^ 12 % 1024, Nat.mod_lt _ (by decide)⟩

def wordIndex (v : UInt32) : Fin 1024 := ⟨v.toNat % 2 ^ 12 / 4, by omega⟩

/-- What a processor translates addresses with: the register that names the directory, and physical
memory. -/
structure Mmu where
  cr3 : UInt32
  mem : UInt32 → Fin 1024 → UInt32

namespace Mmu

def dir (m : Mmu) (d : Fin 1024) : UInt32 := m.mem (frameOf m.cr3) d

def pte (m : Mmu) (d t : Fin 1024) : UInt32 := m.mem (frameOf (m.dir d)) t

def Permits (write : Bool) (e : UInt32) : Prop := Present e ∧ (write → Writeable e)

instance Permits.decidable (write : Bool) (e : UInt32) : Decidable (Permits write e) :=
  inferInstanceAs (Decidable (Present e ∧ (write → Writeable e)))

/-- Where a virtual address is in physical memory, the frame and the number of the word; `none` is a
page fault. -/
def walk (m : Mmu) (write : Bool) (v : UInt32) : Option (UInt32 × Fin 1024) :=
  let e := m.dir (dirIndex v)
  if ¬ Permits write e then none
  else if Large e then some ((e &&& 0xFFC00000) ||| (v &&& 0x003FF000), wordIndex v)
  else
    let e := m.pte (dirIndex v) (tabIndex v)
    if Permits write e then some (frameOf e, wordIndex v) else none

def set (m : Mmu) (f : UInt32) (i : Fin 1024) (x : UInt32) : Mmu :=
  { m with mem := fun g j ↦ if g = f ∧ j = i then x else m.mem g j }

def load (m : Mmu) (v : UInt32) : Option UInt32 := (m.walk false v).map fun a ↦ m.mem a.1 a.2

def store (m : Mmu) (v x : UInt32) : Option Mmu := (m.walk true v).map fun a ↦ m.set a.1 a.2 x

def window (d t : Fin 1024) : UInt32 :=
  (0xFFC00000 : UInt32) + (UInt32.ofNat d <<< (12 : UInt32)) + 4 * UInt32.ofNat t

theorem toNat_window (d t : Fin 1024) : (window d t).toNat = 0xFFC00000 + d * 4096 + 4 * t := by
  have hd := d.isLt
  have ht := t.isLt
  simp only [window, UInt32.toNat_add, UInt32.toNat_shiftLeft, UInt32.toNat_mul,
    UInt32.toNat_ofNat',
    UInt32.reduceToNat, Nat.shiftLeft_eq, Nat.reduceMod, Nat.reducePow]
  omega

theorem dirIndex_window (d t : Fin 1024) : dirIndex (window d t) = 1023 := by
  have h := toNat_window d t
  refine Fin.ext ?_
  show (window d t).toNat / 2 ^ 22 = 1023
  omega

theorem tabIndex_window (d t : Fin 1024) : tabIndex (window d t) = d := by
  have h := toNat_window d t
  refine Fin.ext ?_
  show (window d t).toNat / 2 ^ 12 % 1024 = d
  omega

theorem wordIndex_window (d t : Fin 1024) : wordIndex (window d t) = t := by
  have h := toNat_window d t
  refine Fin.ext ?_
  show (window d t).toNat % 2 ^ 12 / 4 = t
  omega

structure IsTable (e : UInt32) : Prop where
  present : Present e
  writeable : Writeable e
  small : ¬ Large e

theorem IsTable.permits {e : UInt32} (h : IsTable e) (write : Bool) : Permits write e :=
  ⟨h.present, fun _ ↦ h.writeable⟩

structure Recursive (m : Mmu) : Prop where
  table : IsTable (m.dir 1023)
  self : frameOf (m.dir 1023) = frameOf m.cr3

variable {m : Mmu} {d t : Fin 1024} {x : UInt32}

theorem Recursive.congr {m' : Mmu} (h : Recursive m) (hcr3 : m'.cr3 = m.cr3)
    (hdir : m'.dir = m.dir) : Recursive m' := by
  refine ⟨?_, ?_⟩
  · rw [hdir]
    exact h.table
  · rw [hdir, hcr3]
    exact h.self

theorem Recursive.pte_last (h : Recursive m) (d : Fin 1024) : m.pte 1023 d = m.dir d := by
  rw [pte, h.self, dir]

theorem walk_window (h : Recursive m) (hd : IsTable (m.dir d)) (write : Bool) :
    m.walk write (window d t) = some (frameOf (m.dir d), t) := by
  rw [walk, dirIndex_window, tabIndex_window, wordIndex_window, h.pte_last,
    if_neg (not_not.2 (h.table.permits write)), if_neg h.table.small, if_pos (hd.permits write)]

theorem load_window (h : Recursive m) (hd : IsTable (m.dir d)) :
    m.load (window d t) = some (m.pte d t) := by
  rw [load, walk_window h hd, map_some, pte]

theorem load_window_eq (h : Recursive m) (d t : Fin 1024) :
    m.load (window d t) = if Present (m.dir d) then some (m.pte d t) else none := by
  have hperm : ∀ e : UInt32, Permits false e ↔ Present e :=
    fun e ↦ and_iff_left fun hwrite ↦ absurd hwrite Bool.false_ne_true
  rw [load, walk, dirIndex_window, tabIndex_window, wordIndex_window, h.pte_last,
    if_neg (not_not.2 (h.table.permits false)), if_neg h.table.small]
  simp only [hperm]
  split
  · rw [map_some, pte]
  · rw [map_none]

theorem store_window (h : Recursive m) (hd : IsTable (m.dir d)) :
    m.store (window d t) x = some (m.set (frameOf (m.dir d)) t x) := by
  rw [store, walk_window h hd, map_some]

theorem load_window_dir (h : Recursive m) : m.load (window 1023 d) = some (m.dir d) := by
  rw [load_window h h.table, h.pte_last]

theorem store_window_dir (h : Recursive m) :
    m.store (window 1023 d) x = some (m.set (frameOf m.cr3) d x) := by
  rw [store_window h h.table, h.self]

@[simp] theorem set_cr3 (f : UInt32) (i : Fin 1024) : (m.set f i x).cr3 = m.cr3 := rfl

theorem mem_set (f g : UInt32) (i j : Fin 1024) :
    (m.set f i x).mem g j = if g = f ∧ j = i then x else m.mem g j := rfl

theorem dir_set {f : UInt32} (hf : f ≠ frameOf m.cr3) (i : Fin 1024) :
    (m.set f i x).dir = m.dir := by
  funext d
  rw [dir, mem_set, if_neg fun h ↦ hf h.1.symm]
  rfl

theorem dir_set_dir (d d' : Fin 1024) :
    (m.set (frameOf m.cr3) d x).dir d' = if d' = d then x else m.dir d' := by
  rw [dir, set_cr3, mem_set]
  simp [dir]

end Mmu
end Paging
