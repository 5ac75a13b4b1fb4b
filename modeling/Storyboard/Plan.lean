import Storyboard.Config
import Storyboard.Step

/-! # Plans

Compiling a timeline leads its steps past the committed values once. A configuring step is
resolved against the values committed so far; only if that succeeds for every property are
the results committed. What remains is a plan: the committed values, and for each step
either one advance per property or the animation to be played.
-/

namespace Storyboard

/-- The move of one property's driver in one step. -/
structure Advance where
  /-- The position that the driver is moved to, and the index of the target. -/
  toIndex : Nat
  /-- The value committed there. -/
  target : Float32
  /-- Milliseconds. -/
  duration : Float32
  easing : Easing

/-- A step of a plan. -/
inductive PlanStep (ε : Type)
  /-- The moves of all drivers, at the same time. -/
  | advance (advances : PropertyMap Advance)
  | embed (animation : ε)

/-- A compiled timeline: what is committed and what is played. -/
structure Plan (ε : Type) where
  outputs : Outputs
  steps : List (PlanStep ε)

/-- What a step does with a property, once its target is known. -/
structure Resolved where
  target : Float32
  duration : Float32
  easing : Easing

/-- Resolves a step for one property. A property that the step does not set keeps its
value for the default duration. -/
def StepConfig.resolve (step : StepConfig) (config : Config) (index : Nat) (current : Float32)
    (p : Property) : Except TimelineError Resolved :=
  match step.get? p with
  | none => .ok ⟨current, config.defaultDuration, .linear⟩
  | some c =>
      let target := c.target.resolve p current
      let duration := c.duration.getD config.defaultDuration
      if !target.isFinite then .error (.nonFiniteTarget index p target)
      else if !isDuration duration then .error (.invalidDuration index p duration)
      else .ok ⟨target, duration, c.easing.getD .linear⟩

/-- Resolves a step for every property, in order, against the committed values. -/
def StepConfig.resolveAll (step : StepConfig) (config : Config) (index : Nat)
    (outputs : Outputs) : Except TimelineError (PropertyMap Resolved) :=
  PropertyMap.ofFnM fun p => step.resolve config index (outputs.last p) p

namespace Plan

variable {ε : Type}

/-- The advances that lead to newly committed targets. -/
def advances (outputs : Outputs) (resolved : PropertyMap Resolved) : PropertyMap Advance :=
  resolved.map fun p r => ⟨outputs.lengthOf p, r.target, r.duration, r.easing⟩

/-- Puts a step in front of a plan. -/
def cons (step : PlanStep ε) (plan : Plan ε) : Plan ε :=
  { plan with steps := step :: plan.steps }

/-- The plan for steps that follow on committed values; `index` is the number of the
first one. -/
def ofSteps (config : Config) (index : Nat) (outputs : Outputs) :
    List (FlatStep ε) → Except TimelineError (Plan ε)
  | [] => .ok ⟨outputs, []⟩
  | .configure step :: rest =>
      match step.resolveAll config index outputs with
      | .error e => .error e
      | .ok resolved =>
          (ofSteps config (index + 1) (outputs.commitAll fun p => (resolved.get p).target) rest).map
            (cons (.advance (advances outputs resolved)))
  | .embed animation :: rest =>
      (ofSteps config (index + 1) outputs rest).map (cons (.embed animation))

/-- The plan for a list of steps from the beginning. The default duration is checked
first, then the initial values, then the steps. -/
def compile (config : Config) (initial : InitialValues) (steps : List (FlatStep ε)) :
    Except TimelineError (Plan ε) :=
  match config.validate with
  | .error e => .error e
  | .ok () =>
      match initial.validate with
      | .error e => .error e
      | .ok () => ofSteps config 0 (.seeded initial) steps

/-- The plan for a timeline. -/
def ofSpec (config : Config) (spec : Spec ε) : Except TimelineError (Plan ε) :=
  compile config spec.initial spec.flatten

end Plan

/-- A timeline that has passed compilation. -/
structure Script (ε : Type) where
  spec : Spec ε
  config : Config
  plan : Plan ε
  planned : Plan.ofSpec config spec = .ok plan

/-- Compiles a timeline. -/
def Script.ofSpec {ε : Type} (config : Config) (spec : Spec ε) :
    Except TimelineError (Script ε) :=
  match h : Plan.ofSpec config spec with
  | .ok plan => .ok ⟨spec, config, plan, h⟩
  | .error e => .error e

end Storyboard
