import Storyboard.Numeric.Binary

/-! # Easing

An easing turns the fraction of time that has passed into a fraction of the way. Besides
the straight line there are the cubic curves of style sheets and functions of the host.
A cubic curve gives time and way as two polynomials of one parameter; the parameter for a
time is found by bisection.
-/

namespace Storyboard

/-- The two inner control points of a cubic curve from (0, 0) to (1, 1). -/
structure ControlPoints where
  x₁ : Float32
  y₁ : Float32
  x₂ : Float32
  y₂ : Float32

/-- One coordinate of a cubic curve at a parameter. The order of the operations is part
of the meaning. -/
def cubic (p₀ p₁ p₂ p₃ t : Float32) : Float32 :=
  let u := 1 - t
  u * u * u * p₀ + 3 * u * u * t * p₁ + 3 * u * t * t * p₂ + t * t * t * p₃

namespace ControlPoints

/-- The time at a parameter. -/
def timeAt (c : ControlPoints) (parameter : Float32) : Float32 :=
  cubic 0 c.x₁ c.x₂ 1 parameter

/-- The way at a parameter. -/
def wayAt (c : ControlPoints) (parameter : Float32) : Float32 :=
  cubic 0 c.y₁ c.y₂ 1 parameter

/-- Whether the curve is given as the straight line. -/
def isDiagonal (c : ControlPoints) : Bool :=
  c.x₁ == 0 && c.y₁ == 0 && c.x₂ == 1 && c.y₂ == 1

end ControlPoints

/-- The state of a bisection: an interval of parameters and the one to be tried. -/
structure Bracket where
  low : Float32
  high : Float32
  probe : Float32

namespace Bracket

/-- Bisection for `t` begins on the whole interval, with `t` itself as the first try. -/
def initial (t : Float32) : Bracket := ⟨0, 1, t⟩

/-- Whether the try is as good as it has to be. -/
def Hits (c : ControlPoints) (t : Float32) (b : Bracket) : Prop :=
  (c.timeAt b.probe - t).abs < 1e-6

instance (c : ControlPoints) (t : Float32) (b : Bracket) : Decidable (b.Hits c t) := by
  unfold Hits; infer_instance

/-- Moves the end of the interval that the try replaces, and tries the middle next. -/
def next (c : ControlPoints) (t : Float32) (b : Bracket) : Bracket :=
  if c.timeAt b.probe < t then ⟨b.probe, b.high, 0.5 * (b.probe + b.high)⟩
  else ⟨b.low, b.probe, 0.5 * (b.low + b.probe)⟩

/-- Halves the interval at most `steps` times, until a try hits. -/
def search (c : ControlPoints) (t : Float32) : Nat → Bracket → Bracket
  | 0, b => b
  | steps + 1, b => if b.Hits c t then b else search c t steps (b.next c t)

end Bracket

/-- The number of times an interval of parameters is halved. -/
def bisectionSteps : Nat := 24

/-- The way at a time on a cubic curve. Times before 0 and after 1 count as 0 and 1. -/
def ControlPoints.ease (c : ControlPoints) (time : Float32) : Float32 :=
  let t := clampUnit time
  if c.isDiagonal then t
  else c.wayAt (Bracket.search c t bisectionSteps (.initial t)).probe

/-- How a property moves between two values in the course of a step. -/
inductive Easing
  | linear
  | cubicBezier (points : ControlPoints)
  /-- A curve of the host. -/
  | custom (curve : Float32 → Float32)

namespace Easing

instance : Inhabited Easing := ⟨linear⟩

/-- Slow at both ends, slower at the last. -/
def ease : Easing := cubicBezier ⟨0.25, 0.1, 0.25, 1⟩

/-- Slow at the beginning. -/
def easeIn : Easing := cubicBezier ⟨0.42, 0, 1, 1⟩

/-- Slow at the end. -/
def easeOut : Easing := cubicBezier ⟨0, 0, 0.58, 1⟩

/-- Slow at both ends. -/
def easeInOut : Easing := cubicBezier ⟨0.42, 0, 0.58, 1⟩

/-- The easing that documents call so. -/
def ofName? : String → Option Easing
  | "linear" => some linear
  | "ease" => some ease
  | "easeIn" => some easeIn
  | "easeOut" => some easeOut
  | "easeInOut" => some easeInOut
  | _ => none

/-- The fraction of the way at a fraction of the time. Curves may leave the interval
from 0 to 1. -/
def apply : Easing → Float32 → Float32
  | linear, t => t
  | cubicBezier points, t => points.ease t
  | custom curve, t => curve t

end Easing

end Storyboard
