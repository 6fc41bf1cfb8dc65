import ForgeOS.Lib.Run
import ForgeOS.Lib.Word

/-!
# The doubly linked list of the kernel

`llist.c` keeps a list of untyped data pointers as heap records linked in both directions.  `malloc`
does not clear memory, so `listInsert` is handed the address the allocator chose *and* the record
that happened to be there.  A `none` result is a fault.
-/

namespace ForgeOS

structure LList.Node (α : Type) where
  p : α
  next : Ptr
  prev : Ptr
  deriving DecidableEq

structure LList (α : Type) where
  len : ℕ
  head : Ptr
  tail : Ptr
  heap : Heap Ptr (LList.Node α)

namespace LList

variable {α : Type}

def createList : LList α := ⟨0, 0, 0, Heap.empty⟩

/-- The loop `while(i != index)` that looks for a position, from the tail end (`half`) or from the
head.  The first argument is the distance from `i` to `index`, which every turn makes one
smaller. -/
def walk (h : Heap Ptr (Node α)) (half : Bool) : ℕ → Ptr → Option Ptr
  | 0, tmp => some tmp
  | k + 1, tmp => (h.read tmp).bind fun n ↦ walk h half k (if half then n.prev else n.next)

/-- The node an insertion at an inner position goes after.  Only ever traverses half the list; the
backward walk starts at the tail with `i = len`. -/
def seek (l : LList α) (h : Heap Ptr (Node α)) (index : ℕ) : Option Ptr :=
  if l.len / 2 < index then walk h true (l.len - index) l.tail else walk h false index l.head

/-- The part of `list_insert` between the allocation of the new node and the final bookkeeping:
the four ways the node `a`, already in the heap `h`, is linked in. -/
def link (l : LList α) (h : Heap Ptr (Node α)) (a : Ptr) (index : ℕ) : Option (LList α) :=
  -- No existing nodes, yet: `next` and `prev` of the new node are left as they are.
  if l.len = 0 then some { l with heap := h, head := a, tail := a }
  else if index = 0 then do
    let h ← h.modify a fun n ↦ { n with next := l.head, prev := 0 }
    some { l with heap := h, head := a }
  else if l.len - 1 ≤ index then do
    let h ← h.modify l.tail fun n ↦ { n with next := a }
    let h ← h.modify a fun n ↦ { n with prev := l.tail, next := 0 }
    some { l with heap := h, tail := a }
  else do
    let tmp ← seek l h index
    let h ← h.modify a fun n ↦ { n with prev := tmp }
    let t ← h.read tmp
    let h ← h.modify a fun n ↦ { n with next := t.next }
    let h ← h.modify tmp fun n ↦ { n with next := a }
    some { l with heap := h }

/-- `list_insert`, when `malloc` returns the address `a` and finds the bytes of `junk` there. -/
def listInsert (l : LList α) (a : Ptr) (junk : Node α) (data : α) (index : ℕ) :
    Option (LList α) := do
  let h ← l.heap.alloc a { junk with p := data }
  let l ← link l h a index
  some { l with tail := if l.tail = 0 then l.head else l.tail, len := wordInc l.len }

/-- The part of `list_remove` before the node is freed: the three ways a node is unlinked.  The
result is the node and the list without it. -/
def unlink (l : LList α) (index : ℕ) : Option (Ptr × LList α) :=
  if index = 0 then
    if l.head = l.tail then some (l.head, { l with head := 0, tail := 0 })
    else do
      let n ← l.heap.read l.head
      let h ← l.heap.modify n.next fun m ↦ { m with prev := 0 }
      some (l.head, { l with head := n.next, heap := h })
  else if wordDec l.len ≤ index then do
    let n ← l.heap.read l.tail
    let h ← l.heap.modify n.prev fun m ↦ { m with next := 0 }
    some (l.tail, { l with tail := n.prev, heap := h })
  else do
    let a ← walk l.heap false index l.head
    let n ← l.heap.read a
    let h ← l.heap.modify n.prev fun m ↦ { m with next := n.next }
    let n ← h.read a
    let h ← h.modify n.next fun m ↦ { m with prev := n.prev }
    some (a, { l with heap := h })

def listRemove (l : LList α) (index : ℕ) : Option (LList α) := do
  let (n, l) ← unlink l index
  let h ← l.heap.free n
  some { l with heap := h, len := wordDec l.len }

/-- `list_at`.  The inner `none` is the null pointer that marks the end of the list. -/
def listAt (l : LList α) (index : ℕ) : Option (Option α) :=
  if l.len ≤ index then some none
  else
    (if index = 0 then some l.head
    else if wordDec l.len ≤ index then some l.tail
    else walk l.heap false index l.head).bind fun a ↦ (l.heap.read a).map fun n ↦ some n.p

/-- A call of one of the two operations, with what the allocator does during it. -/
inductive Op (α : Type) where
  | insert (a : Ptr) (junk : Node α) (data : α) (index : ℕ)
  | remove (index : ℕ)

def step (l : LList α) : Op α → Option (LList α)
  | .insert a junk data index => listInsert l a junk data index
  | .remove index => listRemove l index

/-- What the operations may rely on: `malloc` returns a non-null pointer to memory that is not in
use, and a position that is removed is one of the list. -/
def Allowed (l : LList α) : Op α → Prop
  | .insert a _ _ _ => a ≠ 0 ∧ (l.heap.read a).isNone
  | .remove index => index < l.len

variable {h : Heap Ptr (Node α)} {a p q : Ptr} {ns : List Ptr}

theorem walk_next (hs : Seg Node.next h a ns q) : walk h false ns.length a = some q := by
  induction ns generalizing a with
  | nil => exact congrArg some hs
  | cons b ns ih =>
    obtain ⟨rfl, n, hn, hs⟩ := hs
    simpa [walk, hn] using ih hs

theorem walk_snoc (k : ℕ) (half : Bool) (a : Ptr) :
    walk h half (k + 1) a =
      (walk h half k a).bind fun b ↦ (h.read b).map fun n ↦ if half then n.prev else n.next := by
  induction k generalizing a with
  | zero => cases hr : h.read a <;> simp [walk, hr]
  | succ k ih =>
    cases hr : h.read a with
    | none => simp [walk, hr]
    | some n =>
      have hcons : ∀ j, walk h half (j + 1) a = walk h half j (if half then n.prev else n.next) := by
        intro j
        rw [walk, hr, Option.bind_some]
      rw [hcons, hcons, ih]

theorem walk_prev (hs : DSeg Node.next Node.prev h p a ns q) :
    walk h true ns.length (ns.getLastD p) = some p := by
  induction ns generalizing p a with
  | nil => rfl
  | cons b ns ih =>
    obtain ⟨rfl, n, hn, hp, hs⟩ := hs
    rw [List.length_cons, List.getLastD_cons, walk_snoc, ih hs]
    simp [hn, hp]

end LList
end ForgeOS
