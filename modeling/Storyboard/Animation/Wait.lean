import Storyboard.Animation.Basic

/-! # Waiting

An animation that only lets time pass.
-/

namespace Storyboard

/-- Waits for a duration. -/
structure Wait where
  /-- Milliseconds. -/
  duration : Float32
  elapsed : Float32 := 0
  running : Bool := false

namespace Wait

/-- Takes a tick as it is, also one that goes backward. -/
def update (dt : Float32) (a : Wait) : Tick × Wait :=
  if a.running then
    let elapsed := a.elapsed + dt
    if a.duration ≤ elapsed then
      (.finished (elapsed - a.duration), { a with elapsed, running := false })
    else (.running, { a with elapsed })
  else (.idle, a)

instance {W : Type} : Animation Wait W where
  start a w := ({ a with running := true }, w)
  update dt a w :=
    let (tick, a) := a.update dt
    (tick, a, w)
  stop a w := ({ a with running := false }, w)
  reset a w := ({ a with elapsed := 0, running := false }, w)

end Wait

end Storyboard
