import Storyboard.Easing
import Storyboard.Outputs

/-! # Steps

The declarative input of a timeline. A step sets some properties, or is an animation that
is played as it is, or is a whole timeline again. What such an animation is does not matter
here: steps are generic in it.
-/

namespace Storyboard

/-- Where a property is to be after a step. -/
inductive Target
  | value (v : Float32)
  /-- Computed from the property and its previous value. -/
  | computed (next : Property → Float32 → Float32)

namespace Target

/-- Computed from the previous value alone. -/
def fromPrevious (next : Float32 → Float32) : Target :=
  computed fun _ previous => next previous

/-- The value that a property with a previous value is led to. -/
def resolve : Target → Property → Float32 → Float32
  | value v, _, _ => v
  | computed next, p, previous => next p previous

end Target

/-- What a step does with one property. -/
structure PropertyConfig where
  target : Target
  /-- Milliseconds; the configured default if absent. -/
  duration : Option Float32 := none
  /-- Linear if absent. -/
  easing : Option Easing := none

/-- What a step does with the properties that it sets. -/
structure StepConfig where
  entries : PropertyMap (Option PropertyConfig)

namespace StepConfig

/-- Sets nothing. -/
def empty : StepConfig := ⟨.ofFn fun _ => none⟩

/-- Sets a property. -/
def set (c : StepConfig) (p : Property) (config : PropertyConfig) : StepConfig :=
  ⟨c.entries.set p (some config)⟩

/-- What the step does with a property. -/
def get? (c : StepConfig) (p : Property) : Option PropertyConfig :=
  c.entries.get p

/-- The properties that the step sets, in order. -/
def properties (c : StepConfig) : List Property :=
  Property.all.filter fun p => (c.get? p).isSome

end StepConfig

/-- A step. `ε` is the type of animations that are played as they are. -/
inductive Step (ε : Type)
  /-- Sets properties. -/
  | configure (config : StepConfig)
  /-- Plays an animation that says nothing about properties. -/
  | embed (animation : ε)
  /-- Stands for the steps of another timeline, as they were given. -/
  | nested (initial : InitialValues) (steps : List (Step ε))

/-- The input of a compilation. -/
structure Spec (ε : Type) where
  steps : List (Step ε)
  initial : InitialValues := .none

/-- The timeline as a step of another one. -/
def Spec.asStep {ε : Type} (s : Spec ε) : Step ε :=
  .nested s.initial s.steps

/-- A step of a timeline without nested ones. -/
inductive FlatStep (ε : Type)
  | configure (config : StepConfig)
  | embed (animation : ε)

mutual

/-- The steps that a step stands for. Of a nested timeline these are its steps, in
place; its initial values matter only to itself. -/
def Step.flatten {ε : Type} : Step ε → List (FlatStep ε)
  | .configure config => [.configure config]
  | .embed animation => [.embed animation]
  | .nested _ steps => Step.flattenAll steps

/-- The steps that a list of steps stands for, in order. -/
def Step.flattenAll {ε : Type} : List (Step ε) → List (FlatStep ε)
  | [] => []
  | step :: rest => step.flatten ++ Step.flattenAll rest

end

theorem Step.flattenAll_append {ε : Type} (xs ys : List (Step ε)) :
    Step.flattenAll (xs ++ ys) = Step.flattenAll xs ++ Step.flattenAll ys := by
  induction xs with
  | nil => simp [Step.flattenAll]
  | cons x xs ih => simp [Step.flattenAll, ih]

/-- The steps of a timeline, without nesting. -/
def Spec.flatten {ε : Type} (s : Spec ε) : List (FlatStep ε) :=
  Step.flattenAll s.steps

end Storyboard
