import ForgeOS.Lib.Run
import ForgeOS.Str.Model

/-!
# The trie of the kernel

`trie.c` maps strings to values.  A node has the whole string that leads to it, an array of
children, and a pointer to its parent.  The array of children and its length are one list; the
buffer of a node's string belongs to that node alone, so that the string is a field of it.  A `none`
result is a fault: an access through a pointer at which nothing is allocated, an assertion that
fails, or a loop that has not come to its end after `fuel` turns.  `malloc` is handed the addresses
the allocator chooses.

The `for` loops of `trie_insert` and `trie_search` both look for the first child that passes one of
two tests.  But `trie_search` starts from the first child of every node, while `trie_insert` has one
counter for all of them and goes on from where it was in the node above.
-/

namespace ForgeOS

open Str

structure Trie.Node (V : Type) where
  pfx : CStr
  prefixlen : ℕ
  isvalue : Bool
  value : V
  children : List Ptr
  parent : Ptr

structure Trie (V : Type) where
  root : Ptr
  heap : Heap Ptr (Trie.Node V)

namespace Trie

variable {V : Type}

def modify (s : Trie V) (n : Ptr) (f : Node V → Node V) : Option (Trie V) :=
  (s.heap.modify n f).map fun h ↦ { s with heap := h }

def malloc (s : Trie V) (a : Ptr) (nd : Node V) : Option (Trie V) :=
  (s.heap.alloc a nd).map fun h ↦ { s with heap := h }

/-- `create_trie`, when `malloc` returns `r` for the root; the heap may hold other nodes. -/
def createTrie [Zero V] (h : Heap Ptr (Node V)) (r : Ptr) : Option (Trie V) :=
  malloc ⟨r, h⟩ r ⟨[], 0, false, 0, [], 0⟩

def addChild (s : Trie V) (n c : Ptr) : Option (Trie V) := do
  let s ← s.modify n fun nd ↦ { nd with children := nd.children ++ [c] }
  s.modify c fun cd ↦ { cd with parent := n }

def commonprefix : CStr → CStr → ℕ
  | a :: s1, b :: s2 => if a = b then commonprefix s1 s2 + 1 else 0
  | _, _ => 0

/-- How a `for` loop over the children of a node ends. -/
inductive Scan where
  | exact (child : Ptr)
  | common (i : ℕ) (child : Ptr)
  | none

/-- The `for` loops, over the children from number `i` on, with their two tests. -/
def scan (s : Trie V) (isExact isCommon : Node V → Prop) [DecidablePred isExact]
    [DecidablePred isCommon] : List Ptr → ℕ → Option Scan
  | [], _ => some .none
  | child :: rest, i => do
    let cd ← s.heap.read child
    if isExact cd then some (.exact child)
    else if isCommon cd then some (.common i child)
    else scan s isExact isCommon rest (i + 1)

inductive Place where
  | found (child : Ptr)
  | missing (n : Ptr)

/-- The first loop of `trie_insert`, from the node `n` and its child number `i` on. -/
def descend : ℕ → Trie V → CStr → Ptr → ℕ → Option Place
  | 0, _, _, _, _ => none
  | fuel + 1, s, key, n, i => do
    let nd ← s.heap.read n
    match ← s.scan (fun cd ↦ strcmp cd.pfx key = 0) (fun cd ↦ commonprefix cd.pfx key ≠ 0)
        (nd.children.drop i) i with
    | .exact child => some (.found child)
    -- The counter is not reset.
    | .common i child => descend fuel s key child i
    | .none => some (.missing n)

/-- The loop that replaces `n` by `parent` among the children of `p`. -/
def replaceChild (s : Trie V) (p n parent : Ptr) : Option (Trie V) := do
  let pd ← s.heap.read p
  if n ∈ pd.children then do
    let s ← s.modify p fun pd ↦
      { pd with children := pd.children.map fun c ↦ if c = n then parent else c }
    s.modify parent fun d ↦ { d with parent := p }
  else some s

/-- `parent` is put between the node `n` and its parent. -/
def wedge (s : Trie V) (n parent : Ptr) : Option (Trie V) := do
  let nd ← s.heap.read n
  let s ← s.replaceChild nd.parent n parent
  s.addChild parent n

/-- The last part of `trie_insert`, for the new node `child` with the string `key` and a place at
the node `n`.  A second new node, if there is one, gets the address `b`. -/
def link [Zero V] (s : Trie V) (n child b : Ptr) (key : CStr) (keylen : ℕ) : Option (Trie V) := do
  let nd ← s.heap.read n
  let commonlen := commonprefix nd.pfx key
  if commonlen < nd.prefixlen then
    -- Child is now the parent.
    if commonlen = keylen then s.wedge n child
    else do
      let s ← s.malloc b ⟨strncpy nd.pfx commonlen, commonlen, false, 0, [], 0⟩
      let s ← s.wedge n b
      s.addChild b child
  else s.addChild n child

/-- `trie_insert`, when `malloc` returns `a` for the node of the string, and then `b`. -/
def trieInsert [Zero V] (fuel : ℕ) (s : Trie V) (a b : Ptr) (key : CStr) (val : V) :
    Option (Trie V) := do
  match ← descend fuel s key s.root 0 with
  | .found child => s.modify child fun cd ↦ { cd with isvalue := true, value := val }
  | .missing n => do
    let keylen ← strlen key
    let s ← s.malloc a ⟨key, keylen, true, val, [], 0⟩
    s.link n a b key keylen

/-- The loop of `trie_search`, from the node `n` on: the node with the string, or null. -/
def find : ℕ → Trie V → CStr → Ptr → Option Ptr
  | 0, _, _, _ => none
  | fuel + 1, s, key, n => do
    let nd ← s.heap.read n
    match ← s.scan (fun cd ↦ strcmp key cd.pfx = 0) (fun cd ↦ strncmp key cd.pfx cd.prefixlen = 0)
        nd.children 0 with
    | .exact child => some child
    | .common _ child => find fuel s key child
    | .none => some 0

def trieSearch [Zero V] (fuel : ℕ) (s : Trie V) (key : CStr) : Option V :=
  if strcmp key [] = 0 then (s.heap.read s.root).map Node.value
  else do
    let child ← find fuel s key s.root
    if child ≠ 0 then (s.heap.read child).map Node.value else some 0

/-- The loop of `trie_delete` that adds the children of the node, from number `i` on, to its parent.
-/
def moveChildren : ℕ → Trie V → Ptr → ℕ → Option (Trie V)
  | 0, _, _, _ => none
  | fuel + 1, s, child, i => do
    let cd ← s.heap.read child
    match cd.children[i]? with
    | none => some s
    | some c => do
      let s ← s.addChild cd.parent c
      moveChildren fuel s child (i + 1)

/-- The last part of `trie_delete`, for the node it has found.  The string of the node goes with it.
-/
def dropNode [Zero V] (s : Trie V) (child : Ptr) : Option (Trie V) := do
  let cd ← s.heap.read child
  let pd ← s.heap.read cd.parent
  let s ←
    -- The node stays in the array.
    if pd.children.length > 1 then s.modify child fun cd ↦ { cd with isvalue := false, value := 0 }
    else s.modify cd.parent fun pd ↦ { pd with children := [] }
  let h ← s.heap.free child
  some { s with heap := h }

def trieDelete [Zero V] (fuel : ℕ) (s : Trie V) (key : CStr) : Option (Trie V) :=
  if strcmp key [] = 0 then some s
  else do
    let child ← find fuel s key s.root
    if child ≠ 0 then do
      let s ← moveChildren fuel s child 0
      s.dropNode child
    else some s

/-- A call of `trie_insert`, with what the allocator does. -/
structure Insert (V : Type) where
  a : Ptr
  b : Ptr
  key : CStr
  val : V

def step [Zero V] (fuel : ℕ) (s : Trie V) (op : Insert V) : Option (Trie V) :=
  trieInsert fuel s op.a op.b op.key op.val

/-- What an insertion may rely on: `malloc` returns different non-null pointers to memory that is
not in use, and the string is not longer than `strlen` allows. -/
def Allowed (s : Trie V) (op : Insert V) : Prop :=
  op.a ≠ 0 ∧ op.b ≠ 0 ∧ op.a ≠ op.b ∧ s.heap.read op.a = none ∧ s.heap.read op.b = none ∧
    op.key.length < 2 ^ 31

end Trie
end ForgeOS
