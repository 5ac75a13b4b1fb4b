import Storyboard.Animation.Parallel
import Storyboard.Animation.Sequence
import Storyboard.Animation.Timing
import Storyboard.Interpolation
import Storyboard.Plan

/-! # Timelines

A compiled timeline that can be played. It owns one driver per property, which its groups
move from one committed value to the next, and it shows the style at which the drivers
stand. A timeline is an animation itself.
-/

namespace Storyboard

/-- An animation that is played as it is. It is built afresh for every timeline. -/
structure Embedded (W α : Type) where
  label : Option String := none
  build : W → α × W

/-- What is played for one step. -/
inductive Group (α : Type)
  /-- The moves of the drivers. -/
  | advance (moves : Parallel Timing)
  | embed (animation : α)

namespace Group

variable {H α : Type} [Animation α (Stage H)]

/-- Passes a call on to the animation of the group. -/
def pass (onMoves : Parallel Timing → Stage H → Parallel Timing × Stage H)
    (onEmbedded : α → Stage H → α × Stage H) : Group α → Stage H → Group α × Stage H
  | advance moves, s =>
      let (moves, s) := onMoves moves s
      (advance moves, s)
  | embed a, s =>
      let (a, s) := onEmbedded a s
      (embed a, s)

/-- Passes a tick on to the animation of the group. -/
def update (dt : Float32) : Group α → Stage H → Tick × Group α × Stage H
  | advance moves, s =>
      let (tick, moves, s) := Animation.update dt moves s
      (tick, advance moves, s)
  | embed a, s =>
      let (tick, a, s) := Animation.update dt a s
      (tick, embed a, s)

instance : Animation (Group α) (Stage H) where
  start := pass Animation.start Animation.start
  update := update
  stop := pass Animation.stop Animation.stop
  reset := pass Animation.reset Animation.reset

end Group

/-- The state of a timeline. -/
inductive PlaybackState
  | idle
  | running
  | completed
  deriving DecidableEq, Repr

/-- The name of the state. -/
def PlaybackState.name : PlaybackState → String
  | idle => "Idle"
  | running => "Running"
  | completed => "Completed"

/-- The values that a timeline shows: those of a transform in order, and the opacity. -/
structure Style where
  transform : List (Property × StyleValue)
  opacity : Float32

namespace Style

/-- The value of a property. -/
def get? (s : Style) (p : Property) : Option StyleValue :=
  if p = .opacity then some (.number s.opacity)
  else (s.transform.find? (·.1 == p)).map (·.2)

/-- The JSON form: the transform as a list of single values, and the opacity. -/
def toJson (s : Style) : Json :=
  .object [
    ("transform", .array (s.transform.map fun (p, v) => .object [(p.name, v.toJson)])),
    ("opacity", .ofSingle s.opacity)]

end Style

/-- A timeline that can be played, on a stage that it shares with others. -/
structure Timeline (H α : Type) where
  script : Script (Embedded (Stage H) α)
  drivers : PropertyMap Driver
  sequence : Sequence (Group α)
  state : PlaybackState := .idle

namespace Timeline

variable {H α : Type}

/-- Adds a driver for each property to a bank, all at position 0. -/
def addDrivers (bank : DriverBank) : PropertyMap Driver × DriverBank :=
  (.ofFn fun p => ⟨bank.cells.size + p.index⟩,
    ⟨bank.cells ++ Array.replicate Property.all.length 0⟩)

/-- The moves of the drivers in one step. -/
def moves (drivers : PropertyMap Driver) (advances : PropertyMap Advance) : Parallel Timing :=
  .ofList <| Property.all.map fun p =>
    let a := advances.get p
    { driver := drivers.get p, goal := ofCount a.toIndex, duration := a.duration,
      easing := a.easing }

/-- Builds the groups of a plan in order. -/
def buildGroups (drivers : PropertyMap Driver) :
    List (PlanStep (Embedded (Stage H) α)) → Stage H → List (Group α) × Stage H
  | [], s => ([], s)
  | .advance advances :: rest, s =>
      let (groups, s) := buildGroups drivers rest s
      (.advance (moves drivers advances) :: groups, s)
  | .embed e :: rest, s =>
      let (a, s) := e.build s
      let (groups, s) := buildGroups drivers rest s
      (.embed a :: groups, s)

/-- Puts a compiled timeline on a stage, with drivers of its own. -/
def build (script : Script (Embedded (Stage H) α)) (s : Stage H) : Timeline H α × Stage H :=
  let (drivers, bank) := addDrivers s.1
  let (groups, s) := buildGroups drivers script.plan.steps (bank, s.2)
  ({ script, drivers, sequence := .ofList groups }, s)

/-- Compiles a timeline and puts it on a stage. -/
def compile (config : Config) (spec : Spec (Embedded (Stage H) α)) (s : Stage H) :
    Except TimelineError (Timeline H α × Stage H) :=
  (Script.ofSpec config spec).map (build · s)

/-- A timeline compiled from the same input, on the same stage and with drivers of its
own. -/
def duplicate (t : Timeline H α) (s : Stage H) : Timeline H α × Stage H :=
  build t.script s

/-- The timeline as a step of another one. -/
def asStep (t : Timeline H α) : Step (Embedded (Stage H) α) :=
  t.script.spec.asStep

/-- The committed values. -/
def outputs (t : Timeline H α) : Outputs :=
  t.script.plan.outputs

/-- The number of groups, one per step. -/
def groupCount (t : Timeline H α) : Nat :=
  t.sequence.length

/-- The index of the group that plays. -/
def currentGroup (t : Timeline H α) : Nat :=
  t.sequence.cursor

/-- The interpolation of a property. -/
def interpolation (t : Timeline H α) (p : Property) : Interpolation :=
  .ofProperty p (t.drivers.get p) (t.outputs.values p) t.script.config.angleUnit

/-- The style at which the drivers stand. -/
def style (t : Timeline H α) (bank : DriverBank) : Style where
  transform := Property.transform.map fun p => (p, (t.interpolation p).sample bank)
  opacity := ((t.interpolation .opacity).sample bank).value

variable [Animation α (Stage H)]

/-- Goes back to the first group, with all drivers at 0. -/
def reset (t : Timeline H α) (s : Stage H) : Timeline H α × Stage H :=
  let bank := t.drivers.values.foldl (fun bank d => bank.set d 0) s.1
  let (sequence, s) := Animation.reset t.sequence (bank, s.2)
  ({ t with sequence, state := .idle }, s)

/-- Starts or resumes the timeline; a completed one plays again from the beginning. -/
def start (t : Timeline H α) (s : Stage H) : Timeline H α × Stage H :=
  let (t, s) := if t.state = .completed then t.reset s else (t, s)
  let (sequence, s) := Animation.start t.sequence s
  ({ t with sequence, state := .running }, s)

/-- Gives a tick to the group that plays. -/
def update (dt : Float32) (t : Timeline H α) (s : Stage H) : Tick × Timeline H α × Stage H :=
  match t.state with
  | .idle => (.idle, t, s)
  | .completed => (.finished dt, t, s)
  | .running =>
      let (tick, sequence, s) := Animation.update dt t.sequence s
      (tick, { t with sequence, state := if tick.isFinished then .completed else .running }, s)

/-- Halts a running timeline. -/
def stop (t : Timeline H α) (s : Stage H) : Timeline H α × Stage H :=
  if t.state = .running then
    let (sequence, s) := Animation.stop t.sequence s
    ({ t with sequence, state := .idle }, s)
  else (t, s)

instance : Animation (Timeline H α) (Stage H) := ⟨start, update, stop, reset⟩

end Timeline

end Storyboard
