import ForgeOS.Lib.Memory
import ForgeOS.Pool.Paged
import ForgeOS.Tree.Iterator

/-!
# The block cache of the kernel

`cache.c` keeps blocks of 4096 bytes for the offsets of some medium.  A `struct block` says which
buffer of a pool has the bytes, for which offset, and how many callers use it, and a tree leads from
the offsets to these records, which have a heap of their own here.  The pool of a cache starts where
those of the caches before it end.

`evict_cache` takes a node of the tree for a block, whose fields are then `Block.ofNode`.  A `none`
result is a fault, or a loop without enough `fuel`.  For the specification, the calls are recorded
in `started` and `finished`.
-/

namespace ForgeOS

open ForgeOS.Tree

structure Cache.Block where
  addr : ℕ
  offset : Ptr
  refcount : ℕ
  hash : UInt32
  deriving DecidableEq

/-- `struct cache`, together with the memory of its blocks and buffers. -/
structure Cache where
  pool : Pool.Paged
  blockdata : Tree.Iterated Ptr Ptr
  blocks : Heap Ptr Cache.Block
  mem : Memory
  /-- The offset and the block of every call of `cache_startblock`. -/
  started : List (Ptr × Ptr)
  /-- The block of every call of `cache_doneblock`. -/
  finished : List Ptr

namespace Cache

def numPages (cachesz : UInt32) : ℕ :=
  let cachesz := if cachesz < 0x1000 then 0x1000 else cachesz
  let cachesz := if cachesz &&& 0xFFF ≠ 0 then (cachesz &&& ~~~0xFFF) + 0x1000 else cachesz
  (cachesz / 0x1000).toNat

/-- `pool_base` after caches of these sizes have been created, the first one at `POOL_BASE`. -/
def poolBase (sizes : List UInt32) : ℕ :=
  sizes.foldl (fun base cachesz ↦ (base + 0x1000 * numPages cachesz) % wordSize) 0xE0000000

/-- `create_cache`, after caches of the sizes `earlier`; `len` is what `malloc` found in the place
of the length of the tree. -/
def createCache (earlier : List UInt32) (cachesz : UInt32) (len : ℕ) (vmem : Vmem) (mem : Memory) :
    Cache where
  pool := ⟨.createPoolAt 0x1000 (numPages cachesz) (poolBase earlier), vmem⟩
  blockdata := .new len
  blocks := .empty
  mem := mem
  started := []
  finished := []

def accessible (vmem : Vmem) (addr : ℕ) : Option Unit := do
  let first ← vmem.archVmemIsmapped (UInt32.ofNat addr)
  let last ← vmem.archVmemIsmapped (UInt32.ofNat (addr + 0xFFF))
  if first ∧ last then some () else none

def dohash (m : Memory) (p : UInt32) : UInt32 :=
  (List.range 1024).foldl (fun hash i ↦ hash + m.load (p + 4 * UInt32.ofNat i)) 0

def search (fuel : ℕ) (s : Cache) (offset : Ptr) : Option Ptr :=
  treeSearch defaultComparer notFoundPtr fuel s.blockdata.tree offset

/-- A block is allocated in `cache_startblock`, when `malloc` returns `b` and `frames` is what
`pmem_alloc` returns. -/
def allocBlock (s : Cache) (offset b : Ptr) (frames : ℕ → UInt64 × UInt64) : Option Cache := do
  let blocks ← s.blocks.alloc b ⟨0, 0, 0, 0⟩
  let (addr, pool) ← s.pool.poolAlloc frames
  let blocks ← blocks.modify b fun bd ↦ { bd with addr := addr, offset := offset }
  accessible pool.vmem addr
  some { s with pool := pool, blocks := blocks, mem := s.mem.fill (UInt32.ofNat addr) 0x1000 0 }

/-- The block `b` is put into the tree, when `malloc` returns `a` for the node. -/
def insertBlock (s : Cache) (fuel : ℕ) (offset b a : Ptr) : Option Cache :=
  (treeInsert defaultComparer notFoundPtr fuel s.blockdata.tree a offset b).map fun tree ↦
    { s with blockdata := { s.blockdata with tree := tree } }

/-- The end of `cache_startblock`: the block is used once more, and its hash is updated. -/
def useBlock (s : Cache) (blockdata : Ptr) : Option Cache := do
  let blocks ← s.blocks.modify blockdata fun bd ↦ { bd with refcount := wordInc bd.refcount }
  let bd ← blocks.read blockdata
  accessible s.pool.vmem bd.addr
  let blocks ← blocks.modify blockdata fun bd ↦
    { bd with hash := dohash s.mem (UInt32.ofNat bd.addr) }
  some { s with blocks := blocks }

/-- `cache_startblock`, with the block it returns.  `malloc` returns `b` for a new block and `a` for
its node. -/
def cacheStartblock (fuel : ℕ) (s : Cache) (offset b a : Ptr) (frames : ℕ → UInt64 × UInt64) :
    Option (Ptr × Cache) := do
  let found ← search fuel s offset
  -- Allocate a block if one doesn't exist.
  if found = notFoundPtr then do
    let s ← s.allocBlock offset b frames
    let s ← s.insertBlock fuel offset b a
    let s ← s.useBlock b
    some (b, { s with started := (offset, b) :: s.started })
  else do
    let s ← s.useBlock found
    some (found, { s with started := (offset, found) :: s.started })

def cacheDoneblock (s : Cache) (block : Ptr) : Option Cache :=
  if block = 0 then some s
  else do
    let blocks ← s.blocks.modify block fun bd ↦ { bd with refcount := wordDec bd.refcount }
    some { s with blocks := blocks, finished := block :: s.finished }

def cacheIscached (fuel : ℕ) (s : Cache) (offset : Ptr) : Option ℕ :=
  (search fuel s offset).map fun found ↦ if found ≠ notFoundPtr then 1 else 0

/-- The first four words of a node of the tree, as the fields of a block. -/
def Block.ofNode (nd : Tree.Node Ptr Ptr) : Block :=
  ⟨nd.key.toNat, nd.val, nd.height, UInt32.ofNat nd.refcount⟩

/-- What `evict_cache` does about `blockdata`, a node of the tree, if there is a 0 where a block has
its reference count. -/
def evictBlock (fuel : ℕ) (s : Cache) (blockdata : Ptr) : Option Cache := do
  let nd ← s.blockdata.tree.heap.read blockdata
  if (Block.ofNode nd).refcount = 0 then do
    let pool ← s.pool.poolDeallocAndFree (Block.ofNode nd).addr
    let tree ← treeDelete defaultComparer notFoundPtr fuel s.blockdata.tree (Block.ofNode nd).offset
    let heap ← tree.heap.free blockdata
    some { s with pool := pool, blockdata := { s.blockdata with tree := { tree with heap := heap } } }
  else some s

/-- The loop of `evict_cache`, with the iterator `it`. -/
def evictLoop : ℕ → Cache → Ptr → Ptr → Option Cache
  | 0, _, _, _ => none
  | fuel + 1, s, blockdata, it => do
    let eof ← s.blockdata.treeIteratorEof it
    if eof then some s
    else do
      let s ← evictBlock fuel s blockdata
      let (_, tree) ← s.blockdata.treeNext fuel it
      evictLoop fuel { s with blockdata := tree } blockdata it

/-- `evict_cache`, when `malloc` returns `it` for the iterator. -/
def evictCache (fuel : ℕ) (s : Cache) (it : Ptr) (numpages : ℕ) : Option Cache :=
  if numpages = 0 then some s
  else do
    let blockdata ← treeMin fuel s.blockdata.tree
    let tree ← s.blockdata.treeIterator fuel it
    evictLoop fuel { s with blockdata := tree } blockdata it

/-- A call of one of the operations, or a byte that a caller writes to a buffer. -/
inductive Op where
  | start (offset b a : Ptr) (frames : ℕ → UInt64 × UInt64)
  | done (block : Ptr)
  | write (p : UInt32) (v : UInt8)
  | evict (it : Ptr) (numpages : ℕ)

def step (fuel : ℕ) (s : Cache) : Op → Option Cache
  | .start offset b a frames => (s.cacheStartblock fuel offset b a frames).map Prod.snd
  | .done block => s.cacheDoneblock block
  | .write p v => do
    let mapped ← s.pool.vmem.archVmemIsmapped p
    if mapped then some { s with mem := s.mem.fill p 1 v } else none
  | .evict it numpages => evictCache fuel s it numpages

end Cache
end ForgeOS
