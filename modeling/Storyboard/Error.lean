import Storyboard.Property
import Storyboard.Json.Basic
import Storyboard.Numeric.Layout

/-! # Errors

What can be wrong with a timeline and its document, the message for each case, and the
JSON form in which errors are handed on.
-/

namespace Storyboard

/-- Why a timeline cannot be loaded or compiled. -/
inductive TimelineError
  /-- A name that is no property. -/
  | unknownProperty (name : String)
  /-- A step leads a property to a value that is not finite. -/
  | nonFiniteTarget (step : Nat) (property : Property) (value : Float32)
  /-- A step gives a property a duration that is negative or not finite. -/
  | invalidDuration (step : Nat) (property : Property) (duration : Float32)
  /-- The duration for steps that give none is negative or not finite. -/
  | invalidDefaultDuration (duration : Float32)
  /-- An initial value is not finite. -/
  | invalidInitialValue (property : Property) (value : Float32)
  /-- The document does not describe a timeline. -/
  | parse (reason : String)

namespace TimelineError

/-- The message for an error. -/
def message : TimelineError → String
  | unknownProperty name => s!"Unknown animatable property: {name}"
  | nonFiniteTarget step property value =>
      s!"Step {step} produced a non-finite target {plainText value} for {property.name}"
  | invalidDuration step property duration =>
      s!"Step {step} has an invalid duration {plainText duration} for {property.name}"
  | invalidDefaultDuration duration => s!"Invalid default duration {plainText duration}"
  | invalidInitialValue property value =>
      s!"Invalid initial value {plainText value} for {property.name}"
  | parse reason => s!"Parse error: {reason}"

/-- The name of the kind of error. -/
def kind : TimelineError → String
  | unknownProperty _ => "UnknownProperty"
  | nonFiniteTarget _ _ _ => "NonFiniteTarget"
  | invalidDuration _ _ _ => "InvalidDuration"
  | invalidDefaultDuration _ => "InvalidDefaultDuration"
  | invalidInitialValue _ _ => "InvalidInitialValue"
  | parse _ => "Parse"

/-- The details of an error, by name. -/
def details : TimelineError → List (String × Json)
  | unknownProperty name => [("name", .string name)]
  | nonFiniteTarget step property value =>
      [("step", .number (.integer step)), ("property", .string property.name),
        ("value", .ofSingle value)]
  | invalidDuration step property duration =>
      [("step", .number (.integer step)), ("property", .string property.name),
        ("duration", .ofSingle duration)]
  | invalidDefaultDuration duration => [("duration", .ofSingle duration)]
  | invalidInitialValue property value =>
      [("property", .string property.name), ("value", .ofSingle value)]
  | parse reason => [("reason", .string reason)]

/-- The JSON form: an object whose only key is the kind. -/
def toJson (e : TimelineError) : Json :=
  .object [(e.kind, .object e.details)]

/-- Reads the details of an error. All of them have to be there, and others are
ignored. -/
def details? (names : List String) (v : Json) : Option (List Json) := do
  let values ← v.record? names .allowed
  values.mapM id

/-- The property that a tag names. -/
def property? (v : Json) : Option Property :=
  v.tag?.bind Property.ofName?

/-- The number of a step. -/
def step? : Json → Option Nat
  | .number (.integer (.ofNat n)) => some n
  | _ => none

/-- The error of a kind with the given details. -/
def ofDetails? (kind : String) (v : Json) : Option TimelineError := do
  match kind with
  | "UnknownProperty" =>
      match ← details? ["name"] v with
      | [name] => return unknownProperty (← name.string?)
      | _ => none
  | "NonFiniteTarget" =>
      match ← details? ["step", "property", "value"] v with
      | [step, property, value] =>
          return nonFiniteTarget (← step? step) (← property? property) (← value.single?)
      | _ => none
  | "InvalidDuration" =>
      match ← details? ["step", "property", "duration"] v with
      | [step, property, duration] =>
          return invalidDuration (← step? step) (← property? property) (← duration.single?)
      | _ => none
  | "InvalidDefaultDuration" =>
      match ← details? ["duration"] v with
      | [duration] => return invalidDefaultDuration (← duration.single?)
      | _ => none
  | "InvalidInitialValue" =>
      match ← details? ["property", "value"] v with
      | [property, value] => return invalidInitialValue (← property? property) (← value.single?)
      | _ => none
  | "Parse" =>
      match ← details? ["reason"] v with
      | [reason] => return parse (← reason.string?)
      | _ => none
  | _ => none

/-- The error of a JSON form. -/
def ofJson? : Json → Option TimelineError
  | .object [(kind, v)] => ofDetails? kind v
  | _ => none

end TimelineError

end Storyboard
