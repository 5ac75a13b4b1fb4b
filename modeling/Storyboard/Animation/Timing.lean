import Storyboard.Animation.Basic
import Storyboard.Easing

/-! # Timed moves

A timed move leads one driver to a position within a duration. It sets out from where the
driver stands when the move is started for the first time, and lands exactly on its goal.
-/

namespace Storyboard

/-- Where a timed move is. -/
inductive Phase
  | idle
  | running
  | done
  deriving DecidableEq, Repr

/-- A move of a driver. -/
structure Timing where
  driver : Driver
  goal : Float32
  /-- Milliseconds. -/
  duration : Float32
  easing : Easing
  /-- Where the driver stood at the first start. -/
  departure : Option Float32 := none
  /-- Milliseconds since then, pauses not counted. -/
  elapsed : Float32 := 0
  phase : Phase := .idle

namespace Timing

variable {H : Type}

/-- Starts or resumes the move. A finished move stays finished. -/
def start (t : Timing) (s : Stage H) : Timing × Stage H :=
  if t.phase = .done then (t, s)
  else ({ t with departure := some (t.departure.getD (s.1.get t.driver)), phase := .running }, s)

/-- Time passed in a tick; backward and undefined times count as none. -/
def elapse (t : Timing) (dt : Float32) : Float32 :=
  t.elapsed + maxNumber dt 0

/-- The position of the driver when the move is under way for so long. -/
def positionAt (t : Timing) (elapsed : Float32) : Float32 :=
  lerp (t.departure.getD t.goal) t.goal (t.easing.apply (elapsed / t.duration))

/-- Moves the driver. A move that is over by now sets it down on the goal, and leaves
over what it did not need. -/
def update (dt : Float32) (t : Timing) (s : Stage H) : Tick × Timing × Stage H :=
  match t.phase with
  | .idle => (.idle, t, s)
  | .done => (.finished dt, t, s)
  | .running =>
      let elapsed := t.elapse dt
      if t.duration ≤ 0 ∨ t.duration ≤ elapsed then
        let leftover := maxNumber (elapsed - maxNumber t.duration 0) 0
        (.finished leftover, { t with elapsed, phase := .done },
          s.1.set t.driver t.goal, s.2)
      else
        (.running, { t with elapsed }, s.1.set t.driver (t.positionAt elapsed), s.2)

/-- Halts the move. -/
def stop (t : Timing) (s : Stage H) : Timing × Stage H :=
  (if t.phase = .running then { t with phase := .idle } else t, s)

/-- Forgets the departure and the time; the driver stays where it is. -/
def reset (t : Timing) (s : Stage H) : Timing × Stage H :=
  ({ t with departure := none, elapsed := 0, phase := .idle }, s)

instance : Animation Timing (Stage H) := ⟨start, update, stop, reset⟩

end Timing

end Storyboard
