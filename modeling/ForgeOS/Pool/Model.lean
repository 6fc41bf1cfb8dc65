import ForgeOS.Vmem.Model

/-!
# Pools of buffers

A pool is a range of addresses that is divided into buffers of one size, with a bitmap of those in
use.  `alloc_count` counts the buffers ever handed out and never goes down.  A `none` result is a
fault: a word outside the bitmap, a division by zero, a page fault, or a panic because there is no
memory left.  What `vmem_map` returns is not looked at.  A pool ends below the window of the page
tables.
-/

namespace ForgeOS

open Bits

structure Pool where
  base : ℕ
  bitmap : List UInt32
  bufferSize : ℕ
  bufferCount : ℕ
  allocCount : ℕ
  vmem : Vmem
  live : List ℕ
  fits : base + bufferSize * bufferCount ≤ 0xFFC00000

namespace Pool

def createPoolAt (buffsz buffcnt addr : ℕ) (vmem : Vmem)
    (h : addr + buffsz * buffcnt ≤ 0xFFC00000) : Pool where
  base := addr
  bitmap := List.replicate (if buffcnt / 32 = 0 then 1 else buffcnt / 32) 0
  bufferSize := buffsz
  bufferCount := buffcnt
  allocCount := 0
  vmem := vmem
  live := []
  fits := h

/-- The loop that looks for a free bit: its number, 32 if there is none. -/
def freeBit (w : UInt32) : ℕ := ((List.range 32).find? fun i ↦ ¬ IsSet w i).getD 32

def pages (s : Pool) : ℕ := (s.bufferSize + 0xFFF) / 0x1000

def nextAddr (s : Pool) (w : UInt32) : ℕ :=
  s.base + (freeBit w + s.allocCount / 32 * 32) * s.bufferSize

/-- The calls of `vmem_map` for the buffer at `addr`.  `frames i` is what `pmem_alloc` returns
during the `i`th of them. -/
def maps (addr n : ℕ) (frames : ℕ → UInt64 × UInt64) : List Vmem.Op :=
  (List.range n).map fun i ↦
    .map (UInt32.ofNat (addr + i * 0x1000)) (~~~0) 0x01 (frames i).1 (frames i).2

def poolAlloc (s : Pool) (frames : ℕ → UInt64 × UInt64) : Option (ℕ × Pool) :=
  if s.allocCount = s.bufferCount then some (0, s)
  else do
    let word := s.allocCount / 32
    let w ← s.bitmap[word]?
    let bufferIdx := freeBit w
    let bitmap := s.bitmap.set word (if bufferIdx < 32 then w ||| mask bufferIdx else w)
    let addr := s.nextAddr w
    let vmem ← if ¬ (← s.vmem.archVmemIsmapped (UInt32.ofNat addr)) then
        Run.exec Vmem.step s.vmem (maps addr s.pages frames)
      else some s.vmem
    some (addr,
      { s with bitmap := bitmap, vmem := vmem, allocCount := s.allocCount + 1, live := addr :: s.live })

/-- `do_pool_dealloc`.  The buffer is no longer the caller's, whatever comes of it. -/
def doPoolDealloc (s : Pool) (addr : ℕ) : Option (ℤ × Pool) :=
  let s := { s with live := s.live.erase addr }
  if addr < s.base ∨ addr > s.base + s.bufferSize * s.bufferCount then some (-1, s)
  else if s.bufferSize = 0 then none
  else do
    let bufferIdx := (addr - s.base) / s.bufferSize
    let w ← s.bitmap[bufferIdx / 32]?
    some (0, { s with bitmap := s.bitmap.set (bufferIdx / 32) (w &&& ~~~mask (bufferIdx % 32)) })

def poolDealloc (s : Pool) (addr : ℕ) : Option Pool := (s.doPoolDealloc addr).map Prod.snd

/-- The loop of `pool_dealloc_and_free`, from turn `i` on, with `k` turns to go. -/
def unmapLoop : ℕ → ℕ → ℕ → Vmem → Option Vmem
  | 0, _, _, vmem => some vmem
  | k + 1, i, addr, vmem => do
    let _phys ← vmem.archVmemV2p (UInt32.ofNat addr)
    let vmem ← vmem.archVmemUnmap (UInt32.ofNat addr)
    unmapLoop k (i + 1) (addr + i * 0x1000) vmem

/-- `pool_dealloc_and_free`.  What `pmem_dealloc` does to the frames is not followed up. -/
def poolDeallocAndFree (s : Pool) (addr : ℕ) : Option Pool := do
  let (ret, s) ← s.doPoolDealloc addr
  if ret ≥ 0 then do
    let vmem ← unmapLoop s.pages 0 addr s.vmem
    some { s with vmem := vmem }
  else some s

/-- A call of one of the operations, with what the allocator of frames does during it. -/
inductive Op where
  | alloc (frames : ℕ → UInt64 × UInt64)
  | dealloc (addr : ℕ)
  | deallocAndFree (addr : ℕ)

def step (s : Pool) : Op → Option Pool
  | .alloc frames => (s.poolAlloc frames).map Prod.snd
  | .dealloc addr => s.poolDealloc addr
  | .deallocAndFree addr => s.poolDeallocAndFree addr

/-- What the operations may rely on: `pmem_alloc` returns frames that are not in use, and only live
buffers are released. -/
def Allowed (s : Pool) : Op → Prop
  | .alloc frames => ∀ w, s.bitmap[s.allocCount / 32]? = some w →
      s.vmem.archVmemIsmapped (UInt32.ofNat (s.nextAddr w)) = some false →
      Run.Guarded Vmem.step Vmem.Allowed s.vmem (maps (s.nextAddr w) s.pages frames)
  | .dealloc addr => addr ∈ s.live
  | .deallocAndFree addr => addr ∈ s.live

end Pool
end ForgeOS
