import Mathlib.Data.List.Forall2
import Storyboard.Proofs.Compile.Recurrence

/-! # Properties do not interfere

All properties are resolved in one pass and committed in one, yet each of them goes its own
way: what a compilation makes of a property depends on what its steps say about that
property and on nothing else. Here two compilations are followed side by side that agree on
one property and may differ on all others.
-/

namespace Storyboard

variable {ε ε' : Type}

/-! ## Agreement on a property -/

/-- Two configurations make the same of a property, whatever its previous value is. -/
structure PropertyConfig.AgreesOn (p : Property) (a b : PropertyConfig) : Prop where
  target : ∀ previous, a.target.resolve p previous = b.target.resolve p previous
  duration : a.duration = b.duration
  easing : a.easing = b.easing

/-- Both steps set the property, and alike, or neither does. -/
def StepConfig.AgreesOn (p : Property) (a b : StepConfig) : Prop :=
  Option.Rel (PropertyConfig.AgreesOn p) (a.get? p) (b.get? p)

/-- Two steps are of the same kind and agree on the property if they are configurations. -/
inductive FlatStep.AgreesOn (p : Property) : FlatStep ε → FlatStep ε' → Prop
  | configure {a b : StepConfig} (agree : a.AgreesOn p b) : AgreesOn p (.configure a) (.configure b)
  | embed (x : ε) (y : ε') : AgreesOn p (.embed x) (.embed y)

/-- Two steps of plans are of the same kind and move the driver of the property alike. -/
inductive PlanStep.MovesAlike (p : Property) : PlanStep ε → PlanStep ε' → Prop
  | advance {a b : PropertyMap Advance} (same : a.get p = b.get p) :
      MovesAlike p (.advance a) (.advance b)
  | embed (x : ε) (y : ε') : MovesAlike p (.embed x) (.embed y)

/-! ## One step -/

namespace StepConfig

variable {p : Property} {a b : StepConfig} {config config' : Config}

/-- Steps that agree on a property resolve to the same for it, errors included. -/
theorem AgreesOn.resolve_eq (h : a.AgreesOn p b)
    (hdefault : config.defaultDuration = config'.defaultDuration) (index : ℕ) (current : Float32) :
    a.resolve config index current p = b.resolve config' index current p := by
  unfold AgreesOn at h
  unfold resolve
  cases ha : a.get? p <;> cases hb : b.get? p <;> rw [ha, hb] at h <;> cases h
  case none.none => rw [hdefault]
  case some.some agree =>
    dsimp only
    rw [agree.target, agree.duration, agree.easing, hdefault]

/-- If both succeed for all properties, then with the same outcome for this one. -/
theorem AgreesOn.get_resolveAll (h : a.AgreesOn p b)
    (hdefault : config.defaultDuration = config'.defaultDuration) {index : ℕ}
    {outputs outputs' : Outputs} (hlast : outputs.last p = outputs'.last p)
    {table table' : PropertyMap Resolved} (htable : a.resolveAll config index outputs = .ok table)
    (htable' : b.resolveAll config' index outputs' = .ok table') :
    table.get p = table'.get p := by
  have hp := PropertyMap.ofFnM_eq_ok htable p
  have hp' := PropertyMap.ofFnM_eq_ok htable' p
  rw [h.resolve_eq hdefault, hlast, hp'] at hp
  exact (Except.ok.inj hp).symm

end StepConfig

theorem Outputs.get_tracks_commitAll (outputs : Outputs) (value : Property → Float32)
    (p : Property) :
    (outputs.commitAll value).tracks.get p = (outputs.tracks.get p).push (value p) :=
  PropertyMap.get_map _ _ p

/-! ## Whole compilations -/

namespace Plan

variable {p : Property} {config config' : Config}

/-- Steps that agree on a property and follow on equal tracks of it lead to equal tracks,
and move its driver alike on the way. -/
theorem ofSteps_independent {steps : List (FlatStep ε)} {steps' : List (FlatStep ε')}
    (hsteps : List.Forall₂ (FlatStep.AgreesOn p) steps steps')
    (hdefault : config.defaultDuration = config'.defaultDuration) {index : ℕ}
    {outputs outputs' : Outputs} (htrack : outputs.tracks.get p = outputs'.tracks.get p)
    {plan : Plan ε} {plan' : Plan ε'} (h : ofSteps config index outputs steps = .ok plan)
    (h' : ofSteps config' index outputs' steps' = .ok plan') :
    plan.outputs.tracks.get p = plan'.outputs.tracks.get p ∧
      List.Forall₂ (PlanStep.MovesAlike p) plan.steps plan'.steps := by
  -- along both lists at once: the tracks of the other properties may drift apart, the one
  -- of `p` is equal before each step
  induction hsteps generalizing index outputs outputs' plan plan' with
  | nil =>
      cases h
      cases h'
      exact ⟨htrack, .nil⟩
  | cons hstep _ ih =>
      cases hstep with
      | embed x y =>
          unfold ofSteps at h h'
          obtain ⟨tail, htail, rfl⟩ := Except.map_eq_ok.mp h
          obtain ⟨tail', htail', rfl⟩ := Except.map_eq_ok.mp h'
          obtain ⟨hfinal, hmoves⟩ := ih htrack htail htail'
          exact ⟨hfinal, .cons (.embed x y) hmoves⟩
      | configure agree =>
          unfold ofSteps at h h'
          split at h
          · cases h
          next table htable =>
          split at h'
          · cases h'
          next table' htable' =>
          obtain ⟨tail, htail, rfl⟩ := Except.map_eq_ok.mp h
          obtain ⟨tail', htail', rfl⟩ := Except.map_eq_ok.mp h'
          have hlast : outputs.last p = outputs'.last p := congrArg Track.last htrack
          have hlength : outputs.lengthOf p = outputs'.lengthOf p := congrArg Track.length htrack
          have hresolved := agree.get_resolveAll hdefault hlast htable htable'
          have hcommitted : (outputs.commitAll fun q => (table.get q).target).tracks.get p =
              (outputs'.commitAll fun q => (table'.get q).target).tracks.get p := by
            rw [Outputs.get_tracks_commitAll, Outputs.get_tracks_commitAll, htrack, hresolved]
          obtain ⟨hfinal, hmoves⟩ := ih hcommitted htail htail'
          refine ⟨hfinal, .cons (.advance ?_) hmoves⟩
          rw [advances, advances, PropertyMap.get_map, PropertyMap.get_map, hlength, hresolved]

/-- Properties are compiled independently of each other. Two timelines that compile, begin
with the same value of a property, have the same default duration and agree on the property
step by step commit the same values of it, and move its driver alike in every step. What
they say about other properties does not matter. -/
theorem ofSpec_independent {spec : Spec ε} {spec' : Spec ε'} {plan : Plan ε} {plan' : Plan ε'}
    (h : ofSpec config spec = .ok plan) (h' : ofSpec config' spec' = .ok plan')
    (hdefault : config.defaultDuration = config'.defaultDuration)
    (hseed : spec.initial.seed p = spec'.initial.seed p)
    (hsteps : List.Forall₂ (FlatStep.AgreesOn p) spec.flatten spec'.flatten) :
    plan.outputs.values p = plan'.outputs.values p ∧
      List.Forall₂ (PlanStep.MovesAlike p) plan.steps plan'.steps := by
  have htrack : (Outputs.seeded spec.initial).tracks.get p =
      (Outputs.seeded spec'.initial).tracks.get p := by
    simp only [Outputs.seeded, PropertyMap.get_ofFn, hseed]
  obtain ⟨hfinal, hmoves⟩ := ofSteps_independent hsteps hdefault htrack
    (checks_of_compile h).2.2 (checks_of_compile h').2.2
  exact ⟨congrArg Track.values hfinal, hmoves⟩

/-- A fade that is written in place and one that is nested beside a turn. -/
theorem ofSpec_independent_fade :
    ∃ (plan : Plan Unit) (plan' : Plan Bool),
      ofSpec {} ⟨[.configure (.set .empty .opacity { target := .value 0 }), .embed ()], .none⟩ =
        .ok plan ∧
      ofSpec {} ⟨[.nested .none [.configure (.set (.set .empty .rotate
        { target := .fromPrevious (· + 90), duration := some 50 }) .opacity
        { target := .fromPrevious fun _ => 0 })], .embed true], .set .none .scale 2⟩ =
        .ok plan' ∧
      plan.outputs.values .opacity = plan'.outputs.values .opacity ∧
      List.Forall₂ (PlanStep.MovesAlike .opacity) plan.steps plan'.steps := by
  obtain ⟨plan, hplan⟩ : ∃ plan : Plan Unit, ofSpec {}
    ⟨[.configure (.set .empty .opacity { target := .value 0 }), .embed ()], .none⟩ =
      .ok plan := ⟨_, rfl⟩
  obtain ⟨plan', hplan'⟩ : ∃ plan' : Plan Bool, ofSpec {}
    ⟨[.nested .none [.configure (.set (.set .empty .rotate
      { target := .fromPrevious (· + 90), duration := some 50 }) .opacity
      { target := .fromPrevious fun _ => 0 })], .embed true], .set .none .scale 2⟩ =
      .ok plan' := ⟨_, rfl⟩
  have hagree : (StepConfig.set .empty .opacity { target := .value 0 }).AgreesOn .opacity
      (.set (.set .empty .rotate { target := .fromPrevious (· + 90), duration := some 50 })
        .opacity { target := .fromPrevious fun _ => 0 }) :=
    .some ⟨fun _ => rfl, rfl, rfl⟩
  exact ⟨plan, plan', hplan, hplan', ofSpec_independent hplan hplan' rfl rfl
    (.cons (.configure hagree) (.cons (.embed () true) .nil))⟩

end Plan

end Storyboard
