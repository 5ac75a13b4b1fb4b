import Storyboard.Error

/-! # Configuration

What loading and compiling take from outside of a timeline: the duration of steps that
give none, the unit of angles, and what to do with names that are no properties.
-/

namespace Storyboard

/-- The unit that is written behind an angle. -/
inductive AngleUnit
  | degrees
  | radians
  deriving DecidableEq, Repr

namespace AngleUnit

/-- The unit as it is written. -/
def suffix : AngleUnit → String
  | degrees => "deg"
  | radians => "rad"

/-- The unit written so. -/
def ofSuffix? : String → Option AngleUnit
  | "deg" => some degrees
  | "rad" => some radians
  | _ => none

end AngleUnit

/-- What the loader does with a name that is no property. -/
inductive UnknownNames
  | reject
  | ignore
  deriving DecidableEq, Repr

namespace UnknownNames

/-- The name of the policy. -/
def name : UnknownNames → String
  | reject => "reject"
  | ignore => "ignore"

/-- The policy of that name. -/
def ofName? : String → Option UnknownNames
  | "reject" => some reject
  | "ignore" => some ignore
  | _ => none

end UnknownNames

/-- Whether a number can be a duration: finite and not negative. -/
def isDuration (ms : Float32) : Bool :=
  ms.isFinite && !(ms < 0)

/-- The configuration of loading and compiling. A duplicate of a timeline keeps it. -/
structure Config where
  /-- Milliseconds for a property that a step gives no duration. -/
  defaultDuration : Float32 := 300
  angleUnit : AngleUnit := .degrees
  unknownNames : UnknownNames := .reject

namespace Config

/-- Held properties take the default duration in every step, so it is checked even
if all steps give their own. -/
def validate (config : Config) : Except TimelineError Unit :=
  if isDuration config.defaultDuration then .ok ()
  else .error (.invalidDefaultDuration config.defaultDuration)

instance : BEq Config where
  beq a b := a.defaultDuration == b.defaultDuration && a.angleUnit == b.angleUnit &&
    a.unknownNames == b.unknownNames

/-- The JSON form. -/
def toJson (config : Config) : Json :=
  .object [("defaultDurationMs", .ofSingle config.defaultDuration),
    ("angleUnit", .string config.angleUnit.suffix),
    ("unknownProperties", .string config.unknownNames.name)]

/-- Reads a value if there is one. A value that is there has to be readable. -/
def orDefault {α : Type} (fallback : α) (read? : Json → Option α) : Option Json → Option α
  | none => some fallback
  | some v => read? v

/-- Reads a configuration. What is left out has its default, and other fields are
ignored. -/
def ofJson? (v : Json) : Option Config := do
  match ← v.record? ["defaultDurationMs", "angleUnit", "unknownProperties"] .allowed with
  | [duration, angleUnit, unknownNames] =>
      let standard : Config := {}
      return {
        defaultDuration := ← orDefault standard.defaultDuration Json.single? duration
        angleUnit := ← orDefault standard.angleUnit (·.tag?.bind AngleUnit.ofSuffix?) angleUnit
        unknownNames :=
          ← orDefault standard.unknownNames (·.tag?.bind UnknownNames.ofName?) unknownNames }
  | _ => none

end Config

end Storyboard
