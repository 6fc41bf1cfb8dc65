import Mathlib.Data.UInt

/-!
# A heap of records

The memory of a pointer program is a map from addresses to the records allocated there.  The
operations fail (`none`) where a C program has no defined behaviour.
-/

universe u v

/-- Records of type `α` allocated at some of the addresses, never at the null pointer. -/
structure Heap (A : Type u) [Zero A] (α : Type v) where
  cell : A → Option α
  null : cell 0 = none

namespace Heap

variable {A : Type u} [Zero A] {α : Type v} (h : Heap A α) {a b : A} {v w : α}

def empty : Heap A α := ⟨fun _ ↦ none, rfl⟩

def read (a : A) : Option α := h.cell a

variable {h}

@[simp] theorem read_zero : h.read 0 = none := h.null

theorem ne_zero_of_read (hr : h.read a = some v) : a ≠ 0 := by
  rintro rfl
  exact absurd hr (by simp)

@[simp] theorem read_empty (a : A) : (empty : Heap A α).read a = none := rfl

theorem ext_read {h' : Heap A α} (hh : ∀ a, h.read a = h'.read a) : h = h' := by
  cases h
  cases h'
  congr
  exact funext hh

variable [DecidableEq A] (h) {f : α → α}

def set (a : A) (v : α) : Heap A α where
  cell b := if b = a ∧ a ≠ 0 then some v else h.cell b
  null := by
    split
    · rename_i hc; exact absurd hc.1.symm hc.2
    · exact h.null

def erase (a : A) : Heap A α where
  cell b := if b = a then none else h.cell b
  null := by split <;> simp [h.null]

def modify (a : A) (f : α → α) : Option (Heap A α) := (h.read a).map fun v ↦ h.set a (f v)

def alloc (a : A) (v : α) : Option (Heap A α) :=
  if a ≠ 0 ∧ (h.read a).isNone then some (h.set a v) else none

def free (a : A) : Option (Heap A α) :=
  if a = 0 then some h else (h.read a).map fun _ ↦ h.erase a

variable {h}

theorem read_set (ha : a ≠ 0) (b : A) :
    (h.set a v).read b = if b = a then some v else h.read b := by
  simp [read, set, ha]

@[simp] theorem read_set_self (ha : a ≠ 0) : (h.set a v).read a = some v := by
  simp [read_set ha]

@[simp] theorem read_set_of_ne (hab : b ≠ a) : (h.set a v).read b = h.read b := by
  simp [read, set, hab]

@[simp] theorem set_set (a : A) (v w : α) : (h.set a v).set a w = h.set a w := by
  refine ext_read fun b ↦ ?_
  by_cases ha : a = 0
  · simp [read, set, ha]
  · rw [read_set ha, read_set ha, read_set ha]
    split <;> rfl

theorem set_self (hr : h.read a = some v) : h.set a v = h := by
  refine ext_read fun b ↦ ?_
  rw [read_set (ne_zero_of_read hr)]
  split
  next hb => rw [hb, hr]
  next => rfl

theorem set_set_comm (hab : a ≠ b) : (h.set a v).set b w = (h.set b w).set a v := by
  refine ext_read fun c ↦ ?_
  simp only [read, set]
  by_cases hca : c = a
  · subst hca; simp [hab]
  · simp [hca]

theorem read_erase (b : A) : (h.erase a).read b = if b = a then none else h.read b := rfl

@[simp] theorem read_erase_self : (h.erase a).read a = none := by simp [read_erase]

@[simp] theorem read_erase_of_ne (hab : b ≠ a) : (h.erase a).read b = h.read b := by
  simp [read_erase, hab]

theorem modify_eq (hr : h.read a = some v) : h.modify a f = some (h.set a (f v)) := by
  simp [modify, hr]

theorem alloc_eq (ha : a ≠ 0) (hr : h.read a = none) : h.alloc a v = some (h.set a v) := by
  simp [alloc, ha, hr]

theorem free_eq (hr : h.read a = some v) : h.free a = some (h.erase a) := by
  simp [free, ne_zero_of_read hr, hr]

@[simp] theorem free_zero : h.free 0 = some h := by simp [free]

end Heap
