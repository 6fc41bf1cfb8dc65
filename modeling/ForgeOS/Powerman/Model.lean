import Mathlib.Data.Int.Notation
import ForgeOS.Lib.Run

/-!
# Power states

`powerman_enter` asks the callbacks whether the system may go to another power state, has the
platform prepare for it and enter it, and tells the callbacks when the system is back.  The
callbacks and the two functions of the platform are arbitrary functions on an environment that
return a number and do not change the list of callbacks.  The interrupt flag is left out.  A `none`
result is an attempt to acquire a lock that is not released.
-/

namespace ForgeOS
namespace Powerman

/-- What callbacks and the platform do: the result, and the environment afterwards. -/
structure Platform (E K : Type) where
  callback : K → ℤ → E → ℤ × E
  /-- `platform_powerman_prep`. -/
  prep : ℤ → E → ℤ × E
  /-- `platform_powerman_enter`. -/
  enter : ℤ → E → ℤ × E

def stateWorking : ℤ := 0

def stateOff : ℤ := 5

/-- `POWERMAN_STATE_MAX`, the current state if initialisation has failed. -/
def stateMax : ℤ := 5

end Powerman

/-- The state of `powerman.c`, with callbacks `K` and environment `E`. -/
structure Powerman (E K : Type) where
  env : E
  currentState : ℤ
  locked : Bool
  powermanCblist : List K
  last : K → Option ℤ

namespace Powerman

variable {E K : Type} [DecidableEq K]

def call (p : Platform E K) (s : Powerman E K) (cb : K) (newState : ℤ) : ℤ × Powerman E K :=
  let r := p.callback cb newState s.env
  (r.1, { s with env := r.2, last := Function.update s.last cb (some newState) })

/-- The first loop of `powerman_enter`, which a callback can stop. -/
def callAll (p : Platform E K) (newState : ℤ) : List K → Powerman E K → ℤ × Powerman E K
  | [], s => (0, s)
  | cb :: cbs, s =>
    let r := s.call p cb newState
    if r.1 ≠ 0 then r else callAll p newState cbs r.2

/-- The loops that notify the callbacks of the current state. -/
def notify (p : Platform E K) : List K → Powerman E K → Powerman E K
  | [], s => s
  | cb :: cbs, s => notify p cbs (s.call p cb s.currentState).2

def finish (p : Platform E K) (s : Powerman E K) : Powerman E K :=
  { s.notify p s.powermanCblist with locked := false }

def powermanEnter (p : Platform E K) (s : Powerman E K) (newState : ℤ) :
    Option (ℤ × Powerman E K) :=
  if s.currentState = stateMax then some (-1, s)
  else if s.locked then none
  else
    let s := { s with locked := true }
    -- Call all of our callbacks - almost ready to go!
    let r := s.callAll p newState s.powermanCblist
    let s := r.2
    if r.1 ≠ 0 then some (r.1, s.finish p)
    else
      -- Prepare to enter the new state, if we can.
      let r := p.prep newState s.env
      let s := { s with env := r.2 }
      if r.1 ≠ 0 then some (-1, s.finish p)
      else
        let oldState := s.currentState
        let s := { s with currentState := newState }
        -- Enter the new state proper.
        let r := p.enter newState s.env
        let s := { s with env := r.2 }
        if r.1 ≠ 0 then some (-1, { s with currentState := oldState }.finish p)
        else some (0, { s with currentState := stateWorking }.finish p)

/-- What can happen: a request, or a change of the environment by other code. -/
inductive Op (E : Type) where
  | enter (newState : ℤ)
  | other (env : E)

def step (p : Platform E K) (s : Powerman E K) : Op E → Option (Powerman E K)
  | .enter newState => (s.powermanEnter p newState).map Prod.snd
  | .other env => some { s with env := env }

end Powerman
end ForgeOS
