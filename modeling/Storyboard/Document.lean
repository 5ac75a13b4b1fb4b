import Storyboard.Config
import Storyboard.Json.Reader
import Storyboard.Step

/-! # Timeline documents

A document is a JSON object with a list of steps and with initial values. A step is an
object that maps properties to what it does with them, or a timeline again if it has the
key `steps`. Entries are visited in the order of their keys, initial values before steps,
and the first fault is reported.
-/

namespace Storyboard.Document

variable {ε : Type}

/-! ## Faults -/

/-- Stands in a reason for a fault of the JSON itself. -/
def badJson : String := "<json>"

/-- The document is not JSON, or not of the right shape. -/
def malformed : TimelineError :=
  .parse badJson

/-- A step is not an object. -/
def stepNotObject (step : Nat) : TimelineError :=
  .parse s!"step {step} must be an object"

/-- What a step says about a property is not of the right shape. -/
def malformedEntry (step : Nat) (p : Property) : TimelineError :=
  .parse s!"step {step}, {p.name}: {badJson}"

/-- An initial value is not of the right shape. -/
def malformedInitial (p : Property) : TimelineError :=
  .parse s!"initial value for {p.name}: {badJson}"

/-- There is no easing of that name. -/
def unknownEasing (name : String) : TimelineError :=
  .parse s!"unknown easing '{name}'"

/-! ## Entries -/

/-- The property that a key names; none if the key is to be skipped. -/
def property? (config : Config) (key : String) : Except TimelineError (Option Property) :=
  match Property.ofName? key, config.unknownNames with
  | some p, _ => .ok (some p)
  | none, .reject => .error (.unknownProperty key)
  | none, .ignore => .ok none

/-- A target is a number, or an object with a number to add to the previous value or to
multiply it by. An absent target holds the previous value. -/
def target? : Option Json → Option Target
  | none | some .null => some (.fromPrevious fun previous => previous)
  | some (.number n) => some (.value n.toSingle)
  | some (.object fields) =>
      match (Json.field? "add" fields).bind Json.single? with
      | some summand => some (.fromPrevious fun previous => previous + summand)
      | none => ((Json.field? "multiply" fields).bind Json.single?).map fun factor =>
          .fromPrevious fun previous => previous * factor
  | _ => none

/-- A duration is a number, or absent. -/
def duration? : Option Json → Option (Option Float32)
  | none | some .null => some none
  | some v => v.single?.map some

/-- An easing by name, or a cubic curve. -/
inductive EasingEntry
  | named (name : String)
  | curve (points : ControlPoints)

/-- The control points of a curve are four numbers. -/
def points? : Json → Option ControlPoints
  | .array [x₁, y₁, x₂, y₂] => do
      return ⟨← x₁.single?, ← y₁.single?, ← x₂.single?, ← y₂.single?⟩
  | _ => none

/-- An easing is a name or an object with a cubic curve, or absent. -/
def easing? : Option Json → Option (Option EasingEntry)
  | none | some .null => some none
  | some (.string name) => some (some (.named name))
  | some (.object fields) =>
      ((Json.field? "cubicBezier" fields).bind points?).map fun points => some (.curve points)
  | _ => none

/-- The easing of an entry, if its name is known. -/
def EasingEntry.resolve : EasingEntry → Except TimelineError Easing
  | named name =>
      match Easing.ofName? name with
      | some easing => .ok easing
      | none => .error (unknownEasing name)
  | curve points => .ok (.cubicBezier points)

/-- Reads what a step says about a property: a record of target, duration and easing.
Its shape is checked before the name of the easing. -/
def propertyConfig (step : Nat) (p : Property) (v : Json) :
    Except TimelineError PropertyConfig :=
  let parts := do
    match ← v.record? ["to", "duration", "easing"] .refused with
    | [target, duration, easing] => return (← target? target, ← duration? duration, ← easing? easing)
    | _ => none
  match parts with
  | none => .error (malformedEntry step p)
  | some (target, duration, none) => .ok { target, duration }
  | some (target, duration, some easing) =>
      easing.resolve.map fun easing => { target, duration, easing := some easing }

/-- Reads a step that sets properties. -/
def stepConfig (config : Config) (step : Nat) :
    List (String × Json) → StepConfig → Except TimelineError StepConfig
  | [], c => .ok c
  | (key, v) :: rest, c =>
      match property? config key with
      | .error e => .error e
      | .ok none => stepConfig config step rest c
      | .ok (some p) =>
          match propertyConfig step p v with
          | .error e => .error e
          | .ok entry => stepConfig config step rest (c.set p entry)

/-- An initial value is a number, or an array of one number. -/
def seed? : Json → Option Float32
  | .array [v] => v.single?
  | v => v.single?

/-- Reads initial values. -/
def initialValues (config : Config) :
    List (String × Json) → InitialValues → Except TimelineError InitialValues
  | [], i => .ok i
  | (key, v) :: rest, i =>
      match property? config key with
      | .error e => .error e
      | .ok none => initialValues config rest i
      | .ok (some p) =>
          match seed? v with
          | none => .error (malformedInitial p)
          | some value => initialValues config rest (i.set p value)

/-! ## Timelines -/

/-- The fields of a timeline. -/
def fieldNames : List String := ["steps", "initialValues"]

/-- The two parts of a timeline, not read any further. -/
structure Outline where
  steps : List Json
  initial : List (String × Json)

/-- An absent list is empty. -/
def items? : Option Json → Option (List Json)
  | none => some []
  | some (.array items) => some items
  | _ => none

/-- An absent object is empty. -/
def fields? : Option Json → Option (List (String × Json))
  | none => some []
  | some (.object fields) => some fields
  | _ => none

/-- Splits a timeline into its parts. It has no other fields than these two. -/
def outline? (v : Json) : Option Outline := do
  match ← v.record? fieldNames .refused with
  | [steps, initial] => return ⟨← items? steps, ← fields? initial⟩
  | _ => none

mutual

/-- Reads steps; `step` is the number of the first. -/
def steps (config : Config) (step : Nat) : List Json → Except TimelineError (List (Step ε))
  | [] => .ok []
  | v :: rest =>
      match readStep config step v with
      | .error e => .error e
      | .ok s => (steps config (step + 1) rest).map (s :: ·)

/-- Reads a step. With a key `steps` it is a timeline, the steps of which have numbers
of their own. -/
def readStep (config : Config) (step : Nat) : Json → Except TimelineError (Step ε)
  | .object fields =>
      if (Json.field? "steps" fields).isSome then
        match outline? (.object fields) with
        | none => .error malformed
        | some outline =>
            match initialValues config outline.initial .none with
            | .error e => .error e
            | .ok initial => (nestedSteps config fields).map (.nested initial)
      else (stepConfig config step fields .empty).map .configure
  | _ => .error (stepNotObject step)

/-- Reads the steps of a nested timeline, given its fields. -/
def nestedSteps (config : Config) :
    List (String × Json) → Except TimelineError (List (Step ε))
  | [] => .ok []
  | (key, v) :: rest => if key = "steps" then stepArray config v else nestedSteps config rest

/-- Reads an array of steps. -/
def stepArray (config : Config) : Json → Except TimelineError (List (Step ε))
  | .array items => steps config 0 items
  | _ => .error malformed

end

/-- Reads a timeline from a JSON value. Of repeated keys the last one counts. -/
def ofJson (config : Config) (v : Json) : Except TimelineError (Spec ε) :=
  match outline? v.canonical with
  | none => .error malformed
  | some outline =>
      match initialValues config outline.initial .none with
      | .error e => .error e
      | .ok initial => (steps config 0 outline.steps).map ({ steps := ·, initial })

/-- Reads a timeline from a text. The fields of the outermost object must not repeat. -/
def ofText (config : Config) (text : String) : Except TimelineError (Spec ε) :=
  match Json.strict? text with
  | none => .error malformed
  | some v => if (v.record? fieldNames .refused).isSome then ofJson config v else .error malformed

end Storyboard.Document
