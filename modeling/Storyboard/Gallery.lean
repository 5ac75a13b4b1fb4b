import Storyboard.Timeline

/-! # Several timelines on one stage

A gallery shows timelines side by side. They share the stage, and timelines that are
duplicates of each other share their origin, but each has drivers of its own.
-/

namespace Storyboard

/-- A timeline in a gallery. -/
structure Exhibit (H α : Type) where
  timeline : Timeline H α
  /-- The place of the timeline that was put up first with this input. -/
  origin : Nat

/-- Timelines on one stage, known by their places. -/
structure Gallery (H α : Type) where
  stage : Stage H
  exhibits : List (Exhibit H α) := []

namespace Gallery

variable {H α : Type}

/-- The timeline at a place. -/
def get? (g : Gallery H α) (place : Nat) : Option (Timeline H α) :=
  g.exhibits[place]?.map (·.timeline)

/-- Puts up a timeline with new drivers. Yields its place. -/
def putUp (g : Gallery H α) (script : Script (Embedded (Stage H) α)) (origin : Nat) :
    Nat × Gallery H α :=
  let (timeline, stage) := Timeline.build script g.stage
  (g.exhibits.length, ⟨stage, g.exhibits ++ [⟨timeline, origin⟩]⟩)

/-- Puts up a newly compiled timeline. -/
def add (g : Gallery H α) (script : Script (Embedded (Stage H) α)) : Nat × Gallery H α :=
  g.putUp script g.exhibits.length

/-- Puts up a duplicate of a timeline. -/
def duplicate? (g : Gallery H α) (place : Nat) : Option (Nat × Gallery H α) :=
  g.exhibits[place]?.map fun e => g.putUp e.timeline.script e.origin

/-- Compiles a timeline that begins with the steps of another one, in the
configuration of the gallery's host, and puts it up. -/
def nest? (g : Gallery H α) (config : Config) (place : Nat)
    (steps : List (Step (Embedded (Stage H) α))) :
    Option (Except TimelineError (Nat × Gallery H α)) :=
  g.exhibits[place]?.map fun e =>
    (Script.ofSpec config { steps := e.timeline.asStep :: steps }).map g.add

/-- Whether two timelines go back to the same input. -/
def sameOrigin (g : Gallery H α) (place other : Nat) : Bool :=
  match g.exhibits[place]?, g.exhibits[other]? with
  | some a, some b => a.origin == b.origin
  | _, _ => false

/-- Lets the timeline at a place act on the stage. -/
def act? {β : Type} (g : Gallery H α) (place : Nat)
    (f : Timeline H α → Stage H → β × Timeline H α × Stage H) : Option (β × Gallery H α) :=
  g.exhibits[place]?.map fun e =>
    let (answer, timeline, stage) := f e.timeline g.stage
    (answer, ⟨stage, g.exhibits.set place { e with timeline }⟩)

/-- Makes a call to the timeline at a place. -/
def perform? [Animation α (Stage H)] (g : Gallery H α) (place : Nat) (call : Call) :
    Option (Option Tick × Gallery H α) :=
  g.act? place (Animation.perform call)

/-- Plays the timeline at a place from where it is; see `play`. Yields the number of
ticks and the last answer. -/
def play? [Animation α (Stage H)] (g : Gallery H α) (place : Nat) (dt : Float32) (limit : Nat) :
    Option ((Nat × Tick) × Gallery H α) :=
  g.act? place fun timeline stage =>
    let playback := play dt limit timeline stage
    ((playback.ticks, playback.last), playback.animation, playback.world)

/-- Moves the driver of a property of the timeline at a place. -/
def setDriver? (g : Gallery H α) (place : Nat) (p : Property) (position : Float32) :
    Option (Gallery H α) :=
  (g.get? place).map fun t =>
    { g with stage := (g.stage.1.set (t.drivers.get p) position, g.stage.2) }

end Gallery

end Storyboard
