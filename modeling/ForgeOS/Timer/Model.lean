import Mathlib.Data.UInt
import ForgeOS.LList.Position

/-!
# The timer framework

A driver registers its timer (`timer_register`) and calls `timer_ticked` whenever the hardware has
ticked; the kernel binds handlers to timers with `install_timer` and takes them off again with
`remove_timer`.  The handlers are in one list, and the registered timers in another, both lists of
`llist.c`.

A call says which entry it is made for, to tell apart two entries with the same handler. What a
handler returns is up to a function `reply`; a handler that belongs to another processor is run
there and counts as having returned 0.  Handlers do not install or remove timers themselves.  A list
that has not been created is read as an empty one.  `multicpu_id()` is an argument.

A duration is converted to nanoseconds in 64 bits.  The largest one is `(2 ^ 20 - 1) * 10 ^ 9`, and
the only arithmetic on durations is a subtraction that stops at zero, so they are natural numbers
here.
-/

namespace ForgeOS
namespace Timer

def resSeconds : UInt32 := 0x8

def resMilli : UInt32 := 0x4

def resMicro : UInt32 := 0x2

def resNano : UInt32 := 0x1

def resShift : UInt32 := 12

def resMask : UInt32 := 0xFFF

def featOneshot : UInt32 := 0x1

def featPeriodic : UInt32 := 0x2

def featPercpu : UInt32 := 0x10

def Meets (x y : UInt32) : Prop := x &&& y ≠ 0

instance (x y : UInt32) : Decidable (Meets x y) := inferInstanceAs (Decidable (x &&& y ≠ 0))

def convTicks (ticks : UInt32) : ℕ :=
  let count := (ticks >>> resShift).toNat
  if Meets ticks resSeconds then count * 1000000000
  else if Meets ticks resMilli then count * 1000000
  else if Meets ticks resMicro then count * 1000
  else if Meets ticks resNano then count
  else 0

/-- `struct timer`, as far as the framework reads it. -/
structure HwTimer where
  timerRes : UInt32
  timerFeat : UInt32
  cpu : UInt32
  /-- What `timer_init` returns; `none` if there is no such function. -/
  timerInit : Option Int32
  deriving DecidableEq

structure Meta (H : Type) where
  tim : Ptr
  th : H
  ticks : ℕ
  origTicks : ℕ
  feat : UInt32
  cpu : UInt32
  deriving DecidableEq

structure Call (H : Type) where
  /-- The entry of the list the call is made for. -/
  entry : Ptr
  th : H
  ticks : ℕ
  cpu : UInt32
  deriving DecidableEq

end Timer

/-- The two lists, what their nodes point to, and the calls of handlers so far. -/
structure Timers (H : Type) where
  timerList : LList Ptr
  metas : Heap Ptr (Timer.Meta H)
  hwtimerList : LList Ptr
  hw : Heap Ptr Timer.HwTimer
  calls : List (Timer.Call H)

namespace Timers

open Timer

variable {H : Type}

/-- `timer_register`, when `malloc` returns `a` for the node of the list and finds `junk` there. -/
def timerRegister (me : UInt32) (s : Timers H) (tim a : Ptr) (junk : LList.Node Ptr) :
    Option (Timers H) :=
  if tim = 0 then some s
  else (s.hw.read tim).bind fun t ↦
    match t.timerInit with
    | none => some s
    | some rc =>
      if rc = 0 then
        let s := { s with hw := s.hw.set tim { t with cpu := me } }
        (s.hwtimerList.listInsert a junk tim 0).map fun l ↦ { s with hwtimerList := l }
      -- The timer cannot offer anything.
      else some { s with hw := s.hw.set tim { t with timerFeat := 0 } }

/-- The variables of the loop in `timer_ticked`, and the state it works on. -/
structure Scan (H : Type) where
  s : Timers H
  index : ℕ
  ret : Int32

namespace Scan

variable (me : UInt32) (reply : Call H → Int32)

/-- `ret += do_th(p, ticks)`. -/
def doTh (r : Scan H) (p : Ptr) (m : Meta H) (ticks : ℕ) : Scan H :=
  let c : Call H := ⟨p, m.th, ticks, m.cpu⟩
  { r with
    s := { r.s with calls := r.s.calls ++ [c] }
    ret := if m.cpu = me then r.ret + reply c else r.ret }

/-- `list_remove(timer_list, --index)`. -/
def dropEntry (r : Scan H) : Option (Scan H) :=
  (r.s.timerList.listRemove (r.index - 1)).map fun l ↦
    { r with s := { r.s with timerList := l }, index := r.index - 1 }

def write (r : Scan H) (p : Ptr) (m : Meta H) : Scan H :=
  { r with s := { r.s with metas := r.s.metas.set p m } }

def elapse (m : Meta H) (ticks : ℕ) : Meta H :=
  { m with ticks := if m.ticks < ticks then 0 else m.ticks - ticks }

/-- What a handler is told: the tick, or the time it asked for if that is more. -/
def told (m : Meta H) (ticks : ℕ) : ℕ := if m.origTicks < ticks then ticks else m.origTicks

def expireOneshot (feat : UInt32) (p : Ptr) (ticks : ℕ) (r : Scan H) : Option (Scan H) :=
  (r.s.metas.read p).bind fun m ↦
    if Meets feat featOneshot ∧ Meets m.feat featOneshot ∧ m.ticks = ticks then
      (r.doTh me reply p m ticks).dropEntry
    else some r

def handlePeriodic (feat : UInt32) (p : Ptr) (ticks : ℕ) (r : Scan H) : Option (Scan H) :=
  (r.s.metas.read p).bind fun m ↦
    if Meets feat featPeriodic ∧ Meets m.feat featPeriodic then
      let m := elapse m ticks
      let r := r.write p m
      if m.ticks = 0 then
        -- Reload the timer.
        some ((r.doTh me reply p m (told m ticks)).write p { m with ticks := m.origTicks })
      else some r
    else some r

def emulateOneshot (feat : UInt32) (p : Ptr) (ticks : ℕ) (r : Scan H) : Option (Scan H) :=
  (r.s.metas.read p).bind fun m ↦
    if (¬ Meets feat featOneshot ∧ Meets feat featPeriodic) ∧ Meets m.feat featOneshot then
      let m := elapse m ticks
      let r := r.write p m
      if m.ticks = 0 then (r.doTh me reply p m (told m ticks)).dropEntry else some r
    else some r

def loop (tim : Ptr) (ticks : ℕ) : ℕ → Scan H → Option (Scan H)
  | 0, _ => none
  | fuel + 1, r =>
    (r.s.timerList.listAt r.index).bind fun
      | none => some r
      | some p =>
        if p = 0 then some r
        else (r.s.metas.read p).bind fun m ↦
          let r := { r with index := r.index + 1 }
          -- Ignore if not for this timer.
          if m.tim ≠ tim then loop tim ticks fuel r
          else do
            let t ← r.s.hw.read tim
            let r ← expireOneshot me reply t.timerFeat p ticks r
            let r ← handlePeriodic me reply t.timerFeat p ticks r
            let r ← emulateOneshot me reply t.timerFeat p ticks r
            loop tim ticks fuel r

end Scan

/-- `timer_ticked`.  Every turn of its loop makes `len - index` smaller. -/
def timerTicked (me : UInt32) (reply : Call H → Int32) (s : Timers H) (tim : Ptr)
    (inTicks : UInt32) : Option (Int32 × Timers H) :=
  (Scan.loop me reply tim (convTicks inTicks) (s.timerList.len + 1) ⟨s, 0, 0⟩).map fun r ↦
    (if r.ret ≠ 0 then 1 else 0, r.s)

def Foreign (me : UInt32) (ent : HwTimer) : Prop := Meets ent.timerFeat featPercpu ∧ ent.cpu ≠ me

instance (me : UInt32) (ent : HwTimer) : Decidable (Foreign me ent) :=
  inferInstanceAs (Decidable (_ ∧ _))

/-- The tests of the first pass: features, no unasked-for timer of a processor, and a resolution
that is not worse than the one of the request. -/
def Exact (me ticks feat : UInt32) (ent : HwTimer) : Prop :=
  ¬ Foreign me ent ∧ ¬ (Meets ent.timerFeat featPercpu ∧ ¬ Meets feat featPercpu) ∧
    Meets ent.timerFeat feat ∧ ent.timerRes &&& resMask ≤ ticks &&& resMask

instance (me ticks feat : UInt32) (ent : HwTimer) : Decidable (Exact me ticks feat ent) :=
  inferInstanceAs (Decidable (_ ∧ _ ∧ _ ∧ _))

/-- The tests of the second pass, which takes any resolution and emulates one-shot timers. -/
def Acceptable (me feat : UInt32) (ent : HwTimer) : Prop :=
  ¬ Foreign me ent ∧
    (Meets ent.timerFeat feat ∨ (Meets feat featOneshot ∧ Meets ent.timerFeat featPeriodic))

instance (me feat : UInt32) (ent : HwTimer) : Decidable (Acceptable me feat ent) :=
  inferInstanceAs (Decidable (_ ∧ _))

/-- A pass over the hardware timers, from position `i` on, with `k` timers to go: the first one
that passes the tests. -/
def pick (s : Timers H) (test : HwTimer → Prop) [DecidablePred test] : ℕ → ℕ → Option (Option Ptr)
  | 0, _ => some none
  | k + 1, i => do
    let ent ← (s.hwtimerList.listAt i).join
    let t ← s.hw.read ent
    if test t then some (some ent) else pick s test k (i + 1)

def select (s : Timers H) (me ticks feat : UInt32) : Option (Option Ptr) := do
  match ← s.pick (Exact me ticks feat) s.hwtimerList.len 0 with
  | some ent => some (some ent)
  | none => s.pick (Acceptable me feat) s.hwtimerList.len 0

/-- The loop that looks for the place of an entry with the given ticks, and the value of `i` after
it. -/
def place (s : Timers H) (ticks : ℕ) : ℕ → ℕ → Option ℕ
  | 0, _ => none
  | fuel + 1, i =>
    (s.timerList.listAt i).bind fun
      | none => some (i + 1)
      | some tmp =>
        if tmp = 0 then some (i + 1)
        else (s.metas.read tmp).bind fun m ↦
          if ticks ≤ m.ticks then some (i + 1) else place s ticks fuel (i + 1)

/-- What `malloc` does during `install_timer`: the addresses of the entry and of the node of the
list, and what is found in them. -/
structure Fresh (H : Type) where
  p : Ptr
  junk : Meta H
  node : Ptr
  nodeJunk : LList.Node Ptr

def installTimer (me : UInt32) (s : Timers H) (th : H) (ticks feat : UInt32) (mem : Fresh H) :
    Option (Int × Timers H) := do
  let metas ← s.metas.alloc mem.p { mem.junk with tim := 0 }
  let s := { s with metas }
  match ← s.select me ticks feat with
  | none =>
    let metas ← s.metas.free mem.p
    some (-1, { s with metas })
  | some tim =>
    let s := { s with
      metas := s.metas.set mem.p ⟨tim, th, convTicks ticks, convTicks ticks, feat, me⟩ }
    let i ← s.place (convTicks ticks) (s.timerList.len + 1) 0
    let l ← s.timerList.listInsert mem.node mem.nodeJunk mem.p i
    some (0, { s with timerList := l })

/-- The loop of `remove_timer`: `list_at(timer_list, index++)`, and `list_remove(timer_list,
index--)`. -/
def removeLoop [DecidableEq H] (th : H) : ℕ → ℕ → Timers H → Option (Timers H)
  | 0, _, _ => none
  | fuel + 1, index, s =>
    (s.timerList.listAt index).bind fun
      | none => some s
      | some p =>
        if p = 0 then some s
        else (s.metas.read p).bind fun m ↦
          if m.th = th then
            (s.timerList.listRemove (index + 1)).bind fun l ↦
              removeLoop th fuel index { s with timerList := l }
          else removeLoop th fuel (index + 1) s

/-- `remove_timer`.  Every turn of its loop makes `len - index` smaller. -/
def removeTimer [DecidableEq H] (s : Timers H) (th : H) : Option (Timers H) :=
  removeLoop th (s.timerList.len + 1) 0 s

end Timers
end ForgeOS
