import ForgeOS.Lib.Run
import ForgeOS.Lib.Word
import ForgeOS.Lib.Zipper

/-!
# The balanced tree of the kernel

`tree.c` is an AVL tree of heap records with parent pointers.  `node_bfactor` renews the stored
heights of both children of a node, so that after a walk to the root every stored height but the
root's has been renewed.  Deletion sinks the node to a leaf by rotations, unlinks it, and walks to
the root from there.

A `none` result is a fault, or a loop that has not come to its end after `fuel` turns.  `malloc` is
handed the address the allocator chooses.  The comparer and `TREE_NOTFOUND` are parameters.  Heights
are natural numbers and balance factors integers: a tree cannot be so high that an `int` does not
hold the difference of two heights.

`rotate_left` and `rotate_right` are both `rotate`, with the side the node goes down to.  The three
places where a node's parent (or, for the root, `meta->root`) is made to point to another node are
`replaceInParent`.
-/

namespace ForgeOS

structure Tree.Node (K V : Type) where
  key : K
  val : V
  height : ℕ
  refcount : ℕ
  delete : Bool
  parent : Ptr
  left : Ptr
  right : Ptr
  deriving DecidableEq

/-- `struct tree`, together with the memory its nodes live in. -/
structure Tree (K V : Type) where
  root : Ptr
  len : ℕ
  heap : Heap Ptr (Tree.Node K V)

namespace Tree

variable {K V : Type}

def empty : Tree K V := ⟨0, 0, Heap.empty⟩

def Node.child (nd : Node K V) : Side → Ptr
  | .left => nd.left
  | .right => nd.right

def Node.setChild (nd : Node K V) (p : Ptr) : Side → Node K V
  | .left => { nd with left := p }
  | .right => { nd with right := p }

def modify (s : Tree K V) (n : Ptr) (f : Node K V → Node K V) : Option (Tree K V) :=
  (s.heap.modify n f).map fun h ↦ { s with heap := h }

/-- The parent of `n`, or `meta->root`, is made to point to `y` in the place of `n`. -/
def replaceInParent (s : Tree K V) (n y : Ptr) : Option (Tree K V) := do
  let nd ← s.heap.read n
  if nd.parent = 0 then some { s with root := y }
  else do
    let pd ← s.heap.read nd.parent
    s.modify nd.parent fun p ↦ p.setChild y (if n = pd.left then .left else .right)

/-- The node `m`, if it is one, gets the parent `n`. -/
def reparent (s : Tree K V) (m n : Ptr) : Option (Tree K V) :=
  if m ≠ 0 then s.modify m fun md ↦ { md with parent := n } else some s

/-- The rotation that moves `n` down to the side `d`. -/
def rotate (d : Side) (s : Tree K V) (n : Ptr) : Option (Tree K V) := do
  let nd ← s.heap.read n
  let y := nd.child d.other
  let yd ← s.heap.read y
  let m := yd.child d
  let s ← s.modify n fun nd ↦ nd.setChild m d.other
  let s ← s.reparent m n
  let s ← s.modify y fun yd ↦ { yd with parent := nd.parent }
  let s ← s.replaceInParent n y
  let s ← s.modify y fun yd ↦ yd.setChild n d
  s.modify n fun nd ↦ { nd with parent := y }

def rotateLeft (s : Tree K V) (n : Ptr) : Option (Tree K V) := rotate .left s n

def rotateRight (s : Tree K V) (n : Ptr) : Option (Tree K V) := rotate .right s n

def storedHeight (s : Tree K V) (n : Ptr) : Option ℕ :=
  if n = 0 then some 0 else (s.heap.read n).map Node.height

/-- `node_height`: the height of a node, which is stored in it, too. -/
def nodeHeight (s : Tree K V) (n : Ptr) : Option (ℕ × Tree K V) :=
  if n = 0 then some (0, s)
  else do
    let nd ← s.heap.read n
    let tempL ← s.storedHeight nd.left
    let tempR ← s.storedHeight nd.right
    let height := if tempL + 1 > tempR + 1 then tempL + 1 else tempR + 1
    let s ← s.modify n fun nd ↦ { nd with height := height }
    some (height, s)

def nodeBfactor (s : Tree K V) (n : Ptr) : Option (ℤ × Tree K V) := do
  let nd ← s.heap.read n
  let (r, s) ← s.nodeHeight nd.right
  let (l, s) ← s.nodeHeight nd.left
  some ((r : ℤ) - l, s)

def nodeRebalance (s : Tree K V) (n : Ptr) : Option (Tree K V) := do
  let (b, s) ← s.nodeBfactor n
  let nd ← s.heap.read n
  if b < -1 then do
    let (b', s) ← s.nodeBfactor nd.left
    if b' > 0 then do
      let s ← s.rotateLeft nd.left
      s.rotateRight n
    else s.rotateRight n
  else if b > 1 then do
    let (b', s) ← s.nodeBfactor nd.right
    if b' < 0 then do
      let s ← s.rotateRight nd.right
      s.rotateLeft n
    else s.rotateLeft n
  else some s

/-- One turn of the loop at the end of `tree_insert` and `remove_node`: the node `n` is rebalanced,
if need be. -/
def climbTurn (s : Tree K V) (n : Ptr) : Option (Tree K V) := do
  let (b, s) ← s.nodeBfactor n
  if b < -1 ∨ b > 1 then s.nodeRebalance n else some s

/-- The loop at the end of `tree_insert` and `remove_node`, over the nodes from `n` to the root. -/
def climb : ℕ → Tree K V → Ptr → Option (Tree K V)
  | 0, _, _ => none
  | fuel + 1, s, n =>
    if n = 0 then some s
    else do
      let s ← s.climbTurn n
      let nd ← s.heap.read n
      climb fuel s nd.parent

/-- One turn of the loop at the start of `remove_node`, for a node with the children `l` and `r`. -/
def sinkTurn (s : Tree K V) (n l r : Ptr) : Option (Tree K V) := do
  let (hl, s) ← s.nodeHeight l
  let (hr, s) ← s.nodeHeight r
  if hl = 0 then s.rotateLeft n
  else if hr = 0 then s.rotateRight n
  else if hl ≤ hr then do
    let s ← s.rotateRight n
    s.rotateLeft n
  else do
    let s ← s.rotateLeft n
    s.rotateRight n

/-- The loop at the start of `remove_node`: the node `n` is rotated down until it has no child. -/
def sink : ℕ → Tree K V → Ptr → Option (Tree K V)
  | 0, _, _ => none
  | fuel + 1, s, n => do
    let nd ← s.heap.read n
    if nd.left ≠ 0 ∨ nd.right ≠ 0 then do
      let s ← s.sinkTurn n nd.left nd.right
      sink fuel s n
    else some s

def removeNode (fuel : ℕ) (s : Tree K V) (n : Ptr) : Option (Tree K V) := do
  let s := { s with len := wordDec s.len }
  let s ← sink fuel s n
  let s ← s.replaceInParent n 0
  let s ← climb fuel s n
  (s.heap.free n).map fun h ↦ { s with heap := h }

/-- `default_comparer`, which compares pointers as words. -/
def defaultComparer (ai bi : Ptr) : ℤ :=
  if ai < bi then -1 else if ai = bi then 0 else 1

def notFoundPtr : Ptr := ~~~0

variable (cmp : K → K → ℤ) (notFound : V)

/-- The loop of `tree_search` and `tree_delete`: the node with the key `k`, from `n` on, or null. -/
def find : ℕ → Tree K V → K → Ptr → Option Ptr
  | 0, _, _, _ => none
  | fuel + 1, s, k, n =>
    if n = 0 then some 0
    else do
      let nd ← s.heap.read n
      let c := cmp k nd.key
      if c = 0 then some n
      else if c < 0 then find fuel s k nd.left
      else find fuel s k nd.right

def treeSearch (fuel : ℕ) (s : Tree K V) (k : K) : Option V :=
  if s.len = 0 then some notFound
  else do
    let n ← find cmp fuel s k s.root
    if n = 0 then some notFound else (s.heap.read n).map Node.val

/-- The loop of `tree_insert` that links the new node `a`, with the key `k`, below `n` or a node
under it.  The result is the node it is linked to. -/
def attach : ℕ → Tree K V → Ptr → K → Ptr → Option (Ptr × Tree K V)
  | 0, _, _, _, _ => none
  | fuel + 1, s, a, k, n => do
    let nd ← s.heap.read n
    let d := if cmp k nd.key < 0 then Side.left else Side.right
    if nd.child d = 0 then do
      let s ← s.modify n fun nd ↦ nd.setChild a d
      let s ← s.modify a fun ad ↦ { ad with parent := n }
      some (n, s)
    else attach fuel s a k (nd.child d)

variable [DecidableEq V]

/-- `tree_insert`, when `malloc` returns the address `a`. -/
def treeInsert (fuel : ℕ) (s : Tree K V) (a : Ptr) (k : K) (v : V) : Option (Tree K V) := do
  -- Avoid insertion if the key is already in the tree.
  let found ← treeSearch cmp notFound fuel s k
  if found ≠ notFound then some s
  else do
    let h ← s.heap.alloc a ⟨k, v, 0, 0, false, 0, 0, 0⟩
    let s := { s with heap := h, len := wordInc s.len }
    if s.root = 0 then some { s with root := a }
    else do
      let (n, s) ← attach cmp fuel s a k s.root
      climb fuel s n

def treeDelete (fuel : ℕ) (s : Tree K V) (k : K) : Option (Tree K V) :=
  if s.len = 0 then some s
  else do
    let found ← treeSearch cmp notFound fuel s k
    if found = notFound then some s
    else do
      let n ← find cmp fuel s k s.root
      if n = 0 then some s
      else do
        let s ← s.modify n fun nd ↦ { nd with delete := true }
        let nd ← s.heap.read n
        if nd.refcount = 0 then removeNode fuel s n else some s

/-- A call of one of the two operations that change the tree, with what the allocator does. -/
inductive Op (K V : Type) where
  | insert (a : Ptr) (k : K) (v : V)
  | delete (k : K)

def step (fuel : ℕ) (s : Tree K V) : Op K V → Option (Tree K V)
  | .insert a k v => treeInsert cmp notFound fuel s a k v
  | .delete k => treeDelete cmp notFound fuel s k

/-- What the operations may rely on: `malloc` returns a non-null pointer to memory that is not in
use, and no value is `TREE_NOTFOUND`. -/
def Allowed (s : Tree K V) : Op K V → Prop
  | .insert a _ v => a ≠ 0 ∧ s.heap.read a = none ∧ v ≠ notFound
  | .delete _ => True

omit [DecidableEq V] in
/-- An in-order walk of the nodes from `n` down, which yields their keys. -/
def walk : ℕ → Tree K V → Ptr → Option (List K)
  | 0, _, _ => none
  | fuel + 1, s, n =>
    if n = 0 then some []
    else do
      let nd ← s.heap.read n
      let l ← walk fuel s nd.left
      let r ← walk fuel s nd.right
      some (l ++ nd.key :: r)

end Tree
end ForgeOS
