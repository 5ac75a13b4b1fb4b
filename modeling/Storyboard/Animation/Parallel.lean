import Storyboard.Animation.Basic
import Storyboard.Numeric.Binary

/-! # Animations side by side

The children of a parallel animation play at the same time, and it is over when the last
of them is. A child that is over is left alone until the next reset.
-/

namespace Storyboard

/-- A child, and whether it is over. -/
structure Lane (α : Type) where
  child : α
  finished : Bool := false

/-- Animations that play at the same time. -/
structure Parallel (α : Type) where
  lanes : List (Lane α)
  running : Bool := false

/-- What a tick did to the lanes of a parallel animation. -/
structure LanesTick (α W : Type) where
  /-- The least time left over by the children that were over in this tick, or all of
  the tick if there are none. -/
  leftover : Float32
  lanes : List (Lane α)
  world : W

namespace Parallel

variable {α W : Type}

/-- The parallel animation of some children. -/
def ofList (children : List α) : Parallel α :=
  ⟨children.map fun child => { child }, false⟩

/-- The number of children. -/
def length (p : Parallel α) : Nat :=
  p.lanes.length

variable [Animation α W]

/-- Starts a child that is not over. -/
def startLane (lane : Lane α) (w : W) : Lane α × W :=
  if lane.finished then (lane, w)
  else
    let (child, w) := Animation.start lane.child w
    ({ lane with child }, w)

/-- Starts or resumes the children that are not over. -/
def start (p : Parallel α) (w : W) : Parallel α × W :=
  let (lanes, w) := visitAll startLane p.lanes w
  (⟨lanes, true⟩, w)

/-- Gives a tick to the children that are not over, in order. -/
def updateLanes (dt leftover : Float32) : List (Lane α) → W → LanesTick α W
  | [], w => ⟨leftover, [], w⟩
  | lane :: rest, w =>
      if lane.finished then
        let tail := updateLanes dt leftover rest w
        { tail with lanes := lane :: tail.lanes }
      else
        match Animation.update dt lane.child w with
        | (.finished l, child, w) =>
            let tail := updateLanes dt (minNumber leftover l) rest w
            { tail with lanes := ⟨child, true⟩ :: tail.lanes }
        | (_, child, w) =>
            let tail := updateLanes dt leftover rest w
            { tail with lanes := ⟨child, false⟩ :: tail.lanes }

/-- Gives a tick to the children. The animation is over when all of them are. -/
def update (dt : Float32) (p : Parallel α) (w : W) : Tick × Parallel α × W :=
  if p.running then
    let tick := updateLanes dt dt p.lanes w
    if tick.lanes.all (·.finished) then
      (.finished tick.leftover, ⟨tick.lanes, false⟩, tick.world)
    else (.running, ⟨tick.lanes, true⟩, tick.world)
  else (.idle, p, w)

/-- Halts every child. -/
def stop (p : Parallel α) (w : W) : Parallel α × W :=
  let (lanes, w) := visitAll (fun lane w =>
    let (child, w) := Animation.stop lane.child w
    ({ lane with child }, w)) p.lanes w
  (⟨lanes, false⟩, w)

/-- Resets every child. -/
def reset (p : Parallel α) (w : W) : Parallel α × W :=
  let (lanes, w) := visitAll (fun lane w =>
    let (child, w) := Animation.reset lane.child w
    (⟨child, false⟩, w)) p.lanes w
  (⟨lanes, false⟩, w)

instance : Animation (Parallel α) W := ⟨start, update, stop, reset⟩

end Parallel

end Storyboard
