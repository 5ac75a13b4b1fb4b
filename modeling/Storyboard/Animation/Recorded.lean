import Storyboard.Animation.Basic
import Storyboard.Numeric.Layout

/-! # Recorded animations

A recorded animation writes down every call that it receives, under its own label, and
passes it on. The record is a part of the world, so that the calls of many animations
stand in the order in which they happened.
-/

namespace Storyboard

/-- The text of a call. -/
def Call.text : Call → String
  | start => "start"
  | update dt => s!"update({plainText dt})"
  | stop => "stop"
  | reset => "reset"

/-- Calls with the labels of those who received them, in order. -/
abbrev Record (ι : Type) : Type :=
  Array (ι × Call)

/-- An animation whose calls are written down. -/
structure Recorded (ι α : Type) where
  label : ι
  inner : α

namespace Recorded

variable {ι α W : Type} [Animation α W]

/-- Writes down a call and passes it on. -/
def pass (call : Call) (f : α → W → α × W) (r : Recorded ι α) (w : W × Record ι) :
    Recorded ι α × W × Record ι :=
  let (inner, world) := f r.inner w.1
  ({ r with inner }, world, w.2.push (r.label, call))

/-- Writes down a tick and passes it on. -/
def update (dt : Float32) (r : Recorded ι α) (w : W × Record ι) :
    Tick × Recorded ι α × W × Record ι :=
  let (tick, inner, world) := Animation.update dt r.inner w.1
  (tick, { r with inner }, world, w.2.push (r.label, .update dt))

instance : Animation (Recorded ι α) (W × Record ι) where
  start := pass .start Animation.start
  update := update
  stop := pass .stop Animation.stop
  reset := pass .reset Animation.reset

end Recorded

end Storyboard
