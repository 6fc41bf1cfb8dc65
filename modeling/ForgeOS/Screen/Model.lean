import ForgeOS.Lib.Memory

/-!
# The text screen of a PC

The video memory has two bytes for every cell, a character and its attributes; its addresses are
taken relative to 0xB8000, and wrap around.  For the specification, `written` records what is
written to.  The copy of every character for the serial port is left out.
-/

namespace ForgeOS

open Memory

structure Screen where
  screenX : UInt8 := 0
  screenY : UInt8 := 0
  screenW : UInt8 := 80
  screenH : UInt8 := 25
  vmem : Memory
  /-- The ranges that have been written to, with their lengths. -/
  written : List (UInt32 × ℕ) := []

namespace Screen

def memset (s : Screen) (p : UInt32) (c : UInt8) (len : ℕ) : Screen :=
  { s with vmem := s.vmem.fill p len c, written := (p, len) :: s.written }

def put (s : Screen) (p : UInt32) (c : UInt8) : Screen := s.memset p c 1

def copyBytes (m : Memory) (dest src : UInt32) : ℕ → Memory
  | 0 => m
  | len + 1 =>
    let m := copyBytes m dest src len
    m.fill (dest + UInt32.ofNat len) 1 (m (src + UInt32.ofNat len))

def memcpy (s : Screen) (dest src : UInt32) (len : ℕ) : Screen :=
  { s with vmem := copyBytes s.vmem dest src len, written := (dest, len) :: s.written }

def machineClearScreen (s : Screen) : Screen :=
  s.memset 0 0 (s.screenW.toNat * s.screenH.toNat * 2)

/-- The screen is scrolled by a row.  The sizes are `int`s, and converted to `size_t`. -/
def scroll (s : Screen) : Screen :=
  let w := s.screenW.toUInt32 * 2
  let h := s.screenH.toUInt32 - 1
  (s.memcpy 0 w (h * w).toNat).memset (w * h) 0 w.toNat

/-- The first part of `machine_putc`: the character is written, and the cursor goes on. -/
def advance (s : Screen) (c : UInt8) : Screen :=
  let s :=
    if c = 10 then { s with screenX := 0, screenY := s.screenY + 1 }
    else
      let offset := (s.screenY.toUInt32 * s.screenW.toUInt32 + s.screenX.toUInt32) * 2
      let s := (s.put offset c).put (offset + 1) 0x07
      { s with screenX := s.screenX + 1 }
  if s.screenX ≥ s.screenW then { s with screenX := 0, screenY := s.screenY + 1 } else s

def machinePutc (s : Screen) (c : UInt8) : Screen :=
  let s := s.advance c
  if s.screenY ≥ s.screenH then { s with screenY := s.screenY - 1 }.scroll else s

def clamp (max : ℕ) (x : Int32) : UInt8 := UInt8.ofNat (min max x.toInt.toNat)

def machinePutcAt (s : Screen) (c : UInt8) (x y : Int32) : Screen :=
  let t := { s with screenX := clamp 80 x, screenY := clamp 25 y, screenW := 80, screenH := 26 }
  { t.machinePutc c with
    screenX := s.screenX, screenY := s.screenY, screenW := s.screenW, screenH := s.screenH }

def machineDefineScreenExtents (s : Screen) (x y : Int32) : Screen :=
  { s with screenW := clamp 80 x, screenH := clamp 25 y }

inductive Op where
  | putc (c : UInt8)
  | putcAt (c : UInt8) (x y : Int32)
  | defineExtents (x y : Int32)

def step (s : Screen) : Op → Option Screen
  | .putc c => some (s.machinePutc c)
  | .putcAt c x y => some (s.machinePutcAt c x y)
  | .defineExtents x y => some (s.machineDefineScreenExtents x y)

end Screen
end ForgeOS
