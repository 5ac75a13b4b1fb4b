import Storyboard.Animation.Wait
import Storyboard.Proofs.Compile.Recurrence
import Storyboard.Proofs.Playback.Lockstep

/-! # Nesting does not matter

Of a list of steps only the sequence of its leaves matters, from left to right. Lists have
the same leaves exactly if one can be regrouped into the other by putting steps together
into nested timelines and taking them out again, and timelines compiled from such lists
cannot be told apart.
-/

namespace Storyboard

variable {ε : Type}

/-! ## Regrouping -/

/-- Lists of steps of which one arises from the other by regrouping. The initial values of
the nested timelines may be any. -/
inductive Step.Regroups : List (Step ε) → List (Step ε) → Prop
  /-- A run of steps, possibly empty, is wrapped into a nested timeline. -/
  | wrap (before run after : List (Step ε)) (initial : InitialValues) :
      Regroups (before ++ run ++ after) (before ++ .nested initial run :: after)
  /-- The steps of a nested timeline are regrouped. -/
  | within (before after : List (Step ε)) (initial : InitialValues) {xs ys : List (Step ε)} :
      Regroups xs ys →
      Regroups (before ++ .nested initial xs :: after) (before ++ .nested initial ys :: after)
  | refl (xs : List (Step ε)) : Regroups xs xs
  | symm {xs ys : List (Step ε)} : Regroups xs ys → Regroups ys xs
  | trans {xs ys zs : List (Step ε)} : Regroups xs ys → Regroups ys zs → Regroups xs zs

/-- The leaf as a step. -/
def FlatStep.toStep : FlatStep ε → Step ε
  | .configure config => .configure config
  | .embed animation => .embed animation

namespace Step.Regroups

variable {xs ys : List (Step ε)}

theorem flattenAll_eq (h : Regroups xs ys) : flattenAll xs = flattenAll ys := by
  induction h with
  | wrap before run after initial =>
      rw [flattenAll_append, flattenAll_append, flattenAll_append, List.append_assoc]
      rfl
  | within before after initial _ ih =>
      rw [flattenAll_append, flattenAll_append, flattenAll, flattenAll, flatten, flatten, ih]
  | refl xs => rfl
  | symm _ ih => exact ih.symm
  | trans _ _ ih ih' => exact ih.trans ih'

/-- Steps may stand before and after what is regrouped. -/
theorem surround (left right : List (Step ε)) (h : Regroups xs ys) :
    Regroups (left ++ xs ++ right) (left ++ ys ++ right) := by
  induction h with
  | wrap before run after initial =>
      have hwrap := wrap (left ++ before) run (after ++ right) initial
      simpa only [List.append_assoc, List.cons_append] using hwrap
  | within before after initial h _ =>
      have hwithin := within (left ++ before) (after ++ right) initial h
      simpa only [List.append_assoc, List.cons_append] using hwithin
  | refl xs => exact refl _
  | symm _ ih => exact ih.symm
  | trans _ _ ih ih' => exact ih.trans ih'

theorem append {xs' ys' : List (Step ε)} (h : Regroups xs ys) (h' : Regroups xs' ys') :
    Regroups (xs ++ xs') (ys ++ ys') := by
  have hleft := h.surround [] xs'
  have hright := h'.surround ys []
  simp only [List.nil_append, List.append_nil] at hleft hright
  exact hleft.trans hright

mutual

/-- A step can be taken apart into its leaves. -/
theorem flatten_toStep : (step : Step ε) → Regroups [step] (step.flatten.map FlatStep.toStep)
  | .configure _ => refl _
  | .embed _ => refl _
  | .nested initial steps => by
      -- taken out, the steps are a run with nothing around it
      have hwrap := wrap [] steps [] initial
      rw [List.append_nil] at hwrap
      exact hwrap.symm.trans (flattenAll_toStep steps)

/-- Steps can be taken apart into their leaves. -/
theorem flattenAll_toStep :
    (steps : List (Step ε)) → Regroups steps ((flattenAll steps).map FlatStep.toStep)
  | [] => refl _
  | step :: rest => by
      rw [flattenAll, List.map_append]
      exact append (flatten_toStep step) (flattenAll_toStep rest)

end

end Step.Regroups

theorem Step.regroups_iff {xs ys : List (Step ε)} :
    Regroups xs ys ↔ flattenAll xs = flattenAll ys := by
  refine ⟨fun h => h.flattenAll_eq, fun h => ?_⟩
  have hys := (Regroups.flattenAll_toStep ys).symm
  rw [← h] at hys
  exact (Regroups.flattenAll_toStep xs).trans hys

/-! ## Timelines -/

namespace Timeline

variable {H α : Type}

theorem compile_of_ok {config : Config} {spec : Spec (Embedded (Stage H) α)}
    {plan : Plan (Embedded (Stage H) α)} (h : Plan.ofSpec config spec = .ok plan) (s : Stage H) :
    Timeline.compile config spec s = .ok (build ⟨spec, config, plan, h⟩ s) := by
  rw [Timeline.compile, Script.ofSpec_of_ok h]
  rfl

theorem compile_of_error {config : Config} {spec : Spec (Embedded (Stage H) α)}
    {e : TimelineError} (h : Plan.ofSpec config spec = .error e) (s : Stage H) :
    Timeline.compile config spec s = .error e := by
  rw [Timeline.compile, Script.ofSpec_eq_error_iff.mpr h]
  rfl

/-- A timeline is a duplicate of itself when it has just been compiled. -/
theorem duplicate_of_compile {config : Config} {spec : Spec (Embedded (Stage H) α)}
    {s s' : Stage H} {t : Timeline H α} (h : Timeline.compile config spec s = .ok (t, s')) :
    t.script.config = config ∧ t.script.spec = spec ∧ t.duplicate s = (t, s') := by
  cases hplan : Plan.ofSpec config spec with
  | error e => cases h.symm.trans (compile_of_error hplan s)
  | ok plan =>
      cases (compile_of_ok hplan s).symm.trans h
      exact ⟨rfl, rfl, rfl⟩

theorem compile_script (script : Script (Embedded (Stage H) α)) (s : Stage H) :
    Timeline.compile script.config script.spec s = .ok (build script s) :=
  compile_of_ok script.planned s

variable [Animation α (Stage H)]

/-- Two compilations fail with the same error, or yield timelines with the same tables and
the same number of groups that cannot be told apart, each on the stage that it leaves. -/
inductive SameOutcome :
    Except TimelineError (Timeline H α × Stage H) →
      Except TimelineError (Timeline H α × Stage H) → Prop
  | error (e : TimelineError) : SameOutcome (.error e) (.error e)
  | ok {t t' : Timeline H α} {s s' : Stage H} (outputs : t.outputs = t'.outputs)
      (groupCount : t.groupCount = t'.groupCount) (alike : t.Indistinguishable s t' s') :
      SameOutcome (.ok (t, s)) (.ok (t', s'))

/-- Timelines that are built on the same stage from the same plan cannot be told apart. -/
theorem sameOutcome_build {a b : Script (Embedded (Stage H) α)} (hplan : a.plan = b.plan)
    (hconfig : a.config = b.config) (s : Stage H) :
    SameOutcome (.ok (build a s)) (.ok (build b s)) := by
  obtain ⟨spec, config, plan, planned⟩ := a
  obtain ⟨spec', _, _, planned'⟩ := b
  obtain rfl := hplan
  obtain rfl := hconfig
  have hgroups : Lockstep (@Eq (Group α)) (@Eq (Stage H)) := .refl
  refine .ok rfl rfl (hgroups.indistinguishable (fun h => h ▸ rfl) (fun h _ => h ▸ rfl)
    ⟨rfl, rfl, rfl, rfl, ⟨?_, rfl, rfl⟩, rfl⟩ rfl)
  exact List.forall₂_same.mpr fun g _ => rfl

theorem sameOutcome_compile {a b : Spec (Embedded (Stage H) α)} (hinitial : a.initial = b.initial)
    (hflatten : a.flatten = b.flatten) (config : Config) (s : Stage H) :
    SameOutcome (Timeline.compile config a s) (Timeline.compile config b s) := by
  have hplans : Plan.ofSpec config a = Plan.ofSpec config b := by
    rw [Plan.ofSpec, Plan.ofSpec, hinitial, hflatten]
  cases hplan : Plan.ofSpec config a with
  | error e =>
      rw [compile_of_error hplan, compile_of_error (hplans ▸ hplan)]
      exact .error e
  | ok plan =>
      rw [compile_of_ok hplan, compile_of_ok (hplans ▸ hplan)]
      exact sameOutcome_build (by rfl) (by rfl) s

/-- A timeline depends on its steps only through their leaves. Steps can be regrouped at will,
and what is compiled from them cannot be told apart; no other change keeps the leaves. A
timeline that plays nothing but another one, with the same initial values and configuration,
cannot be told apart from a duplicate of that one, and so from the one itself if it has just
been compiled. -/
theorem nesting_transparent (config : Config) (initial : InitialValues) (s : Stage H) :
    (∀ xs ys : List (Step (Embedded (Stage H) α)), Step.Regroups xs ys →
      Step.flattenAll xs = Step.flattenAll ys ∧
      SameOutcome (Timeline.compile config { steps := xs, initial } s)
        (Timeline.compile config { steps := ys, initial } s)) ∧
    (∀ xs ys : List (Step (Embedded (Stage H) α)), Step.flattenAll xs = Step.flattenAll ys →
      Step.Regroups xs ys) ∧
    (∀ t : Timeline H α, SameOutcome
      (Timeline.compile t.script.config
        { steps := [t.asStep], initial := t.script.spec.initial } s)
      (.ok (t.duplicate s))) ∧
    ∀ spec (t : Timeline H α) s', Timeline.compile config spec s = .ok (t, s') →
      t.script.config = config ∧ t.script.spec = spec ∧ t.duplicate s = (t, s') := by
  refine ⟨fun xs ys h => ⟨h.flattenAll_eq, ?_⟩, fun xs ys h => Step.regroups_iff.mpr h,
    fun t => ?_, fun spec t s' h => duplicate_of_compile h⟩
  · have hflatten : Spec.flatten { steps := xs, initial } = Spec.flatten { steps := ys, initial } :=
      h.flattenAll_eq
    exact sameOutcome_compile (by rfl) hflatten config s
  · change SameOutcome _ (.ok (build t.script s))
    rw [← compile_script t.script s]
    have hflatten : Spec.flatten { steps := [t.asStep], initial := t.script.spec.initial } =
        t.script.spec.flatten :=
      List.append_nil (Step.flattenAll t.script.spec.steps)
    exact sameOutcome_compile (by rfl) hflatten t.script.config s

/-- A fade and a pause, as they are and inside of a nested timeline that begins with an
empty one and has an infinite initial value. -/
theorem nesting_transparent_fade :
    ∃ (fade : StepConfig) (pause : Embedded (Stage Unit) Wait) (t t' : Timeline Unit Wait)
      (s s' : Stage Unit),
      Timeline.compile {} { steps := [.configure fade, .embed pause] } (.empty, ()) = .ok (t, s) ∧
      Timeline.compile {} { steps := [.nested (.set .none .opacity (1 / 0))
        [.nested .none [], .configure fade, .embed pause]] } (.empty, ()) = .ok (t', s') ∧
      t.groupCount = 2 ∧ t'.groupCount = 2 ∧ t.Indistinguishable s t' s' := by
  let fade : StepConfig := .set .empty .opacity { target := .value 0 }
  let pause : Embedded (Stage Unit) Wait := { build := fun s => ({ duration := 100 }, s) }
  let flat : List (Step (Embedded (Stage Unit) Wait)) := [.configure fade, .embed pause]
  let deep : List (Step (Embedded (Stage Unit) Wait)) :=
    [.nested (.set .none .opacity (1 / 0)) [.nested .none [], .configure fade, .embed pause]]
  obtain ⟨hregroups, hcomplete, -, -⟩ :=
    nesting_transparent (H := Unit) (α := Wait) {} .none (.empty, ())
  obtain ⟨-, hsame⟩ := hregroups flat deep (hcomplete flat deep rfl)
  obtain ⟨⟨t, s⟩, hflat, hcount⟩ : ∃ result,
      Timeline.compile {} { steps := flat } (.empty, ()) = .ok result ∧
        result.1.groupCount = 2 := by
    have hresult : ∃ result, Timeline.compile (H := Unit) (α := Wait) {}
        { steps := [.configure (.set .empty .opacity { target := .value 0 }),
          .embed { build := fun s => ({ duration := 100 }, s) }] } (.empty, ()) = .ok result ∧
        result.1.groupCount = 2 := ⟨_, rfl, rfl⟩
    exact hresult
  generalize hdeep : Timeline.compile {} { steps := deep } (.empty, ()) = result at hsame
  rw [hflat] at hsame
  cases hsame with
  | ok outputs groupCount alike =>
      exact ⟨fade, pause, t, _, s, _, hflat, hdeep, hcount, groupCount ▸ hcount, alike⟩

end Timeline

end Storyboard
