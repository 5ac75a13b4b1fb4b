import Mathlib.Data.List.Basic
import Storyboard.Plan

/-! # The committed values

Compiling a list of steps commits, property by property, the values of a recurrence: each
configuring step leads the value before it to a new one. This module states the recurrence
without reference to plans and proves that a plan holds its values, and that the advances
of a plan lead to them.
-/

namespace Storyboard

/-! ## Tables built entry by entry -/

theorem Except.bind_eq_ok {ε α β : Type} {x : Except ε α} {f : α → Except ε β} {b : β} :
    (x >>= f) = .ok b ↔ ∃ a, x = .ok a ∧ f a = .ok b := by
  cases x with
  | error e => exact ⟨nofun, nofun⟩
  | ok a => exact ⟨fun h => ⟨a, rfl, h⟩, by rintro ⟨_, ⟨rfl⟩, h⟩; exact h⟩

theorem Except.map_eq_ok {ε α β : Type} {x : Except ε α} {f : α → β} {b : β} :
    x.map f = .ok b ↔ ∃ a, x = .ok a ∧ f a = b := by
  cases x with
  | error e => exact ⟨nofun, nofun⟩
  | ok a => exact ⟨fun h => ⟨a, rfl, by cases h; rfl⟩, by rintro ⟨_, ⟨rfl⟩, rfl⟩; rfl⟩

theorem Except.forM_eq_ok {ε α : Type} {f : α → Except ε Unit} {l : List α}
    (h : l.forM f = .ok ()) : ∀ a ∈ l, f a = .ok () := by
  induction l with
  | nil => nofun
  | cons a l ih =>
      obtain ⟨_, ha, hl⟩ := bind_eq_ok.mp h
      exact List.forall_mem_cons.mpr ⟨ha, ih hl⟩

/-- What is left of a list begins with the element that is next. -/
theorem List.of_drop_eq_cons {α : Type} {l rest : List α} {i : ℕ} {a : α}
    (h : l.drop i = a :: rest) : l[i]? = some a ∧ l.drop (i + 1) = rest := by
  rw [← List.head?_drop, ← List.tail_drop, h]
  exact ⟨rfl, rfl⟩

/-- A table is built only if each of its entries is. -/
theorem PropertyMap.ofFnM_eq_ok {ε α : Type} {entry : Property → Except ε α}
    {table : PropertyMap α} (h : PropertyMap.ofFnM entry = .ok table) (p : Property) :
    entry p = .ok (table.get p) := by
  simp only [ofFnM, Except.bind_eq_ok] at h
  obtain ⟨_, h₁, _, h₂, _, h₃, _, h₄, _, h₅, _, h₆, _, h₇, _, h₈, _, h₉, ⟨rfl⟩⟩ := h
  cases p <;> assumption

/-! ## What a step does with a property -/

theorem isFinite_of_isDuration {ms : Float32} (h : isDuration ms) : ms.isFinite := by
  unfold isDuration at h
  exact (Bool.and_eq_true_iff.mp h).1

/-- The configuration of a step that has one. -/
def FlatStep.config? {ε : Type} : FlatStep ε → Option StepConfig
  | .configure step => some step
  | .embed _ => none

/-- The configuring steps of a list, in order. -/
def configured {ε : Type} (steps : List (FlatStep ε)) : List StepConfig :=
  steps.filterMap FlatStep.config?

namespace StepConfig

/-- Where a step leads a property from a value; nowhere if it does not set it. -/
def next (step : StepConfig) (p : Property) (current : Float32) : Float32 :=
  match step.get? p with
  | none => current
  | some c => c.target.resolve p current

/-- The duration that a step gives a property, or the default. -/
def durationOf (step : StepConfig) (config : Config) (p : Property) : Float32 :=
  ((step.get? p).bind (·.duration)).getD config.defaultDuration

/-- The easing that a step gives a property, or the straight line. -/
def easingOf (step : StepConfig) (p : Property) : Easing :=
  ((step.get? p).bind (·.easing)).getD .linear

/-- A resolved step is what the configuration says. Finite values stay finite and valid
durations valid, although held properties are not checked again. -/
theorem resolve_spec {step : StepConfig} {config : Config} {index : ℕ} {current : Float32}
    {p : Property} {r : Resolved} (h : step.resolve config index current p = .ok r)
    (hconfig : isDuration config.defaultDuration) (hcurrent : current.isFinite) :
    r = ⟨step.next p current, step.durationOf config p, step.easingOf p⟩ ∧
      r.target.isFinite ∧ isDuration r.duration := by
  unfold resolve at h
  cases hget : step.get? p with
  | none =>
      rw [hget] at h
      cases h
      simp only [next, durationOf, easingOf, hget]
      exact ⟨rfl, hcurrent, hconfig⟩
  | some c =>
      rw [hget] at h
      dsimp only at h
      split at h
      · cases h
      · next hfinite =>
        split at h
        · cases h
        · next hduration =>
          cases h
          simp only [next, durationOf, easingOf, hget]
          exact ⟨rfl, by simpa using hfinite, by simpa using hduration⟩

theorem resolveAll_spec {step : StepConfig} {config : Config} {index : ℕ} {outputs : Outputs}
    {table : PropertyMap Resolved} (h : step.resolveAll config index outputs = .ok table)
    (hconfig : isDuration config.defaultDuration) (hlast : ∀ p, (outputs.last p).isFinite)
    (p : Property) :
    table.get p = ⟨step.next p (outputs.last p), step.durationOf config p, step.easingOf p⟩ ∧
      (table.get p).target.isFinite ∧ isDuration (table.get p).duration :=
  resolve_spec (PropertyMap.ofFnM_eq_ok h p) hconfig (hlast p)

end StepConfig

/-! ## The recurrence -/

/-- The values to which configuring steps lead a property, one after another. -/
def trail (p : Property) : Float32 → List StepConfig → List Float32
  | _, [] => []
  | current, step :: rest => step.next p current :: trail p (step.next p current) rest

@[simp] theorem length_trail (p : Property) (current : Float32) (steps : List StepConfig) :
    (trail p current steps).length = steps.length := by
  induction steps generalizing current with
  | nil => rfl
  | cons step rest ih => simp [trail, ih]

theorem getLast?_trail (p : Property) (current : Float32) (steps : List StepConfig) :
    (current :: trail p current steps).getLast? =
      some (steps.foldl (fun value step => step.next p value) current) := by
  induction steps generalizing current with
  | nil => rfl
  | cons step rest ih => exact ih (step.next p current)

/-- An entry of the recurrence comes from the one before it. -/
theorem getElem?_trail (p : Property) (current : Float32) {steps : List StepConfig} {k : ℕ}
    {step : StepConfig} (h : steps[k]? = some step) :
    ∃ previous, (current :: trail p current steps)[k]? = some previous ∧
      (current :: trail p current steps)[k + 1]? = some (step.next p previous) := by
  induction steps generalizing current k with
  | nil => simp at h
  | cons first rest ih =>
      cases k with
      | zero =>
          cases h
          exact ⟨current, rfl, rfl⟩
      | succ k => exact ih (first.next p current) h

/-! ## Plans -/

theorem Track.last_mem_values (t : Track) : t.last ∈ t.values := by
  unfold Track.last Track.values
  cases h : t.committed.back? with
  | none => simp
  | some v => simp [Array.mem_of_back? h]

theorem Track.back?_values (t : Track) : t.values.back? = some t.last := by
  unfold Track.last Track.values
  rw [Array.back?_append]
  cases t.committed.back? <;> rfl

namespace Outputs

/-- All properties have the same number of values, and these are finite. -/
structure Level (outputs : Outputs) (n : ℕ) : Prop where
  length : ∀ p, outputs.lengthOf p = n
  finite : ∀ p, ∀ v ∈ outputs.values p, v.isFinite

theorem Level.last {outputs : Outputs} {n : ℕ} (h : outputs.Level n) (p : Property) :
    (outputs.last p).isFinite :=
  h.finite p _ (Track.last_mem_values _)

theorem Level.commitAll {outputs : Outputs} {n : ℕ} (h : outputs.Level n)
    {value : Property → Float32} (hvalue : ∀ p, (value p).isFinite) :
    (outputs.commitAll value).Level (n + 1) where
  length p := by rw [lengthOf_commitAll, h.length]
  finite p v hv := by
    rw [values_commitAll, Array.mem_push] at hv
    rcases hv with hv | rfl
    · exact h.finite p v hv
    · exact hvalue p

theorem size_values (outputs : Outputs) (p : Property) :
    (outputs.values p).size = outputs.lengthOf p :=
  Track.size_values _

end Outputs

namespace InitialValues

/-- Seeds are finite: those that replace a default are checked. -/
theorem seed_isFinite {i : InitialValues} (h : i.validate = .ok ()) (p : Property) :
    (i.seed p).isFinite := by
  have hcheck := Except.forM_eq_ok h p (Property.mem_all p)
  unfold seed
  cases hget : i.get? p with
  | none => cases p <;> rfl
  | some value =>
      rw [hget] at hcheck
      dsimp only at hcheck
      split at hcheck
      · assumption
      · cases hcheck

theorem level_seeded {i : InitialValues} (h : i.validate = .ok ()) :
    (Outputs.seeded i).Level 1 where
  length p := by simp [Outputs.lengthOf, Outputs.seeded, Track.length]
  finite p v hv := by
    have hv' : v = i.seed p := by simpa [Outputs.values, Outputs.seeded, Track.values] using hv
    exact hv' ▸ seed_isFinite h p

end InitialValues

namespace Plan

variable {ε : Type} {config : Config} {index n : ℕ} {outputs : Outputs}
  {steps : List (FlatStep ε)} {plan : Plan ε}

/-- How a step of a plan carries out a step of the timeline: an embedded animation as it
is, and a configuration by advances that lead each property to entry `k` of its values. -/
inductive CarriesOut (config : Config) (outputs : Outputs) (k : ℕ) :
    FlatStep ε → PlanStep ε → Prop
  | embed (animation : ε) : CarriesOut config outputs k (.embed animation) (.embed animation)
  | configure {step : StepConfig} {advances : PropertyMap Advance} (target : Property → Float32)
      (entry : ∀ p, advances.get p =
        ⟨k, target p, step.durationOf config p, step.easingOf p⟩)
      (committed : ∀ p, (outputs.values p)[k]? = some (target p))
      (valid : ∀ p, isDuration (step.durationOf config p)) :
      CarriesOut config outputs k (.configure step) (.advance advances)

/-- Steps commit the values of the recurrence behind those that are there. -/
theorem values_ofSteps (h : ofSteps config index outputs steps = .ok plan)
    (hconfig : isDuration config.defaultDuration) (hlevel : outputs.Level n) (p : Property) :
    (plan.outputs.values p).toList =
        (outputs.values p).toList ++ trail p (outputs.last p) (configured steps) ∧
      plan.outputs.Level (n + (configured steps).length) := by
  induction steps generalizing index outputs n plan with
  | nil =>
      cases h
      exact ⟨(List.append_nil _).symm, hlevel⟩
  | cons step rest ih =>
      cases step with
      | embed animation =>
          unfold ofSteps at h
          obtain ⟨tail, htail, rfl⟩ := Except.map_eq_ok.mp h
          have htail' := ih htail hlevel
          exact htail'
      | configure step =>
          unfold ofSteps at h
          split at h
          · cases h
          · next table htable =>
            obtain ⟨tail, htail, rfl⟩ := Except.map_eq_ok.mp h
            have hspec := StepConfig.resolveAll_spec htable hconfig hlevel.last
            obtain ⟨hvalues, hfinal⟩ := ih htail (hlevel.commitAll fun p => (hspec p).2.1)
            have htarget : (table.get p).target = step.next p (outputs.last p) := by
              rw [(hspec p).1]
            constructor
            · change (tail.outputs.values p).toList = _ ++ trail p _ (step :: configured rest)
              rw [hvalues, Outputs.values_commitAll, Outputs.last_commitAll, Array.toList_push,
                htarget, List.append_assoc]
              rfl
            · change tail.outputs.Level (n + (step :: configured rest).length)
              rwa [List.length_cons, Nat.add_comm (configured rest).length, ← Nat.add_assoc]

/-- Every step is carried out, and its advances lead to where its values are. -/
theorem carriesOut_ofSteps (h : ofSteps config index outputs steps = .ok plan)
    (hconfig : isDuration config.defaultDuration) (hlevel : outputs.Level n) :
    plan.steps.length = steps.length ∧
      ∀ (i : ℕ) (step : FlatStep ε), steps[i]? = some step →
        ∃ s, plan.steps[i]? = some s ∧
          CarriesOut config plan.outputs (n + (configured (steps.take i)).length) step s := by
  -- later steps only add to the values, and so an entry is looked up in those of the whole plan
  induction steps generalizing index outputs n plan with
  | nil =>
      cases h
      exact ⟨rfl, fun i step hs => by simp at hs⟩
  | cons step rest ih =>
      cases step with
      | embed animation =>
          unfold ofSteps at h
          obtain ⟨tail, htail, rfl⟩ := Except.map_eq_ok.mp h
          obtain ⟨hlength, hrest⟩ := ih htail hlevel
          refine ⟨congrArg (· + 1) hlength, fun i s hs => ?_⟩
          cases i with
          | zero =>
              cases hs
              exact ⟨_, rfl, .embed animation⟩
          | succ i => exact hrest i s hs
      | configure step =>
          have hvalues := fun p => (values_ofSteps h hconfig hlevel p).1
          unfold ofSteps at h
          split at h
          · cases h
          · next table htable =>
            obtain ⟨tail, htail, rfl⟩ := Except.map_eq_ok.mp h
            have hspec := StepConfig.resolveAll_spec htable hconfig hlevel.last
            obtain ⟨hlength, hrest⟩ := ih htail (hlevel.commitAll fun p => (hspec p).2.1)
            refine ⟨congrArg (· + 1) hlength, fun i s hs => ?_⟩
            cases i with
            | zero =>
                cases hs
                refine ⟨_, rfl, .configure (fun p => step.next p (outputs.last p)) ?_ ?_ ?_⟩
                · intro p
                  rw [advances, PropertyMap.get_map, hlevel.length, (hspec p).1]
                  rfl
                · intro p
                  have hsize : (outputs.values p).toList.length = n := by
                    rw [Array.length_toList, Outputs.size_values, hlevel.length]
                  rw [← Array.getElem?_toList, hvalues p,
                    List.getElem?_append_right (by simp [hsize]), hsize]
                  simp [configured, FlatStep.config?, trail]
                · intro p
                  have hvalid := (hspec p).2.2
                  rwa [(hspec p).1] at hvalid
            | succ i =>
                have hcount : n + 1 + (configured (rest.take i)).length =
                    n + (configured ((FlatStep.configure step :: rest).take (i + 1))).length := by
                  change _ = n + (step :: configured (rest.take i)).length
                  rw [List.length_cons]
                  omega
                rw [← hcount]
                exact hrest i s hs

theorem checks_of_compile {initial : InitialValues} (h : compile config initial steps = .ok plan) :
    isDuration config.defaultDuration ∧ initial.validate = .ok () ∧
      ofSteps config 0 (.seeded initial) steps = .ok plan := by
  unfold compile at h
  split at h
  · cases h
  · next hconfig =>
    split at h
    · cases h
    · next hinitial =>
      refine ⟨?_, hinitial, h⟩
      unfold Config.validate at hconfig
      split at hconfig
      · assumption
      · cases hconfig

/-- The checks at the beginning of a compilation, and the steps that follow on the seeds. -/
theorem ofSteps_of_compile {initial : InitialValues} (h : compile config initial steps = .ok plan) :
    isDuration config.defaultDuration ∧ (Outputs.seeded initial).Level 1 ∧
      ofSteps config 0 (.seeded initial) steps = .ok plan := by
  obtain ⟨hconfig, hinitial, hsteps⟩ := checks_of_compile h
  exact ⟨hconfig, InitialValues.level_seeded hinitial, hsteps⟩

theorem carriesOut_compile {initial : InitialValues}
    (h : compile config initial steps = .ok plan) :
    plan.steps.length = steps.length ∧
      ∀ (i : ℕ) (step : FlatStep ε), steps[i]? = some step →
        ∃ s, plan.steps[i]? = some s ∧
          CarriesOut config plan.outputs (1 + (configured (steps.take i)).length) step s := by
  obtain ⟨hconfig, hlevel, hsteps⟩ := ofSteps_of_compile h
  exact carriesOut_ofSteps hsteps hconfig hlevel

/-- The values of a plan are the seed and what the recurrence makes of it. -/
theorem values_compile {initial : InitialValues} (h : compile config initial steps = .ok plan)
    (p : Property) :
    (plan.outputs.values p).toList =
      initial.seed p :: trail p (initial.seed p) (configured steps) := by
  obtain ⟨hconfig, hlevel, hsteps⟩ := ofSteps_of_compile h
  obtain ⟨hvalues, -⟩ := values_ofSteps hsteps hconfig hlevel p
  have hseed : ((Outputs.seeded initial).values p).toList = [initial.seed p] := by
    simp [Outputs.values, Outputs.seeded, Track.values]
  have hlast : (Outputs.seeded initial).last p = initial.seed p := by
    simp [Outputs.last, Outputs.seeded, Track.last]
  rwa [hseed, hlast, List.singleton_append] at hvalues

theorem level_compile {initial : InitialValues} (h : compile config initial steps = .ok plan) :
    plan.outputs.Level (1 + (configured steps).length) := by
  obtain ⟨hconfig, hlevel, hsteps⟩ := ofSteps_of_compile h
  exact (values_ofSteps hsteps hconfig hlevel .translateX).2

/-- Compilation commits the recurrence. Every property begins with its seed, entry `k + 1`
is where configuring step `k` leads it from entry `k`, and all entries are finite. The plan
carries out every step, and the advances of configuring step `k` lead to entry `k + 1`. -/
theorem compile_recurrence {initial : InitialValues}
    (h : compile config initial steps = .ok plan) :
    (∀ p, (plan.outputs.values p).size = 1 + (configured steps).length ∧
      (plan.outputs.values p)[0]? = some ((initial.get? p).getD p.defaultSeed) ∧
      (∀ (k : ℕ) (step : StepConfig), (configured steps)[k]? = some step →
        ∃ previous, (plan.outputs.values p)[k]? = some previous ∧
          (plan.outputs.values p)[k + 1]? = some (step.next p previous)) ∧
      ∀ v ∈ plan.outputs.values p, v.isFinite) ∧
    plan.steps.length = steps.length ∧
    ∀ (i : ℕ) (step : FlatStep ε), steps[i]? = some step →
      ∃ s, plan.steps[i]? = some s ∧
        CarriesOut config plan.outputs (1 + (configured (steps.take i)).length) step s := by
  refine ⟨fun p => ?_, carriesOut_compile h⟩
  have hvalues := values_compile h p
  have hlevel := level_compile h
  refine ⟨?_, ?_, fun k step hk => ?_, hlevel.finite p⟩
  · rw [Outputs.size_values, hlevel.length]
  · rw [← Array.getElem?_toList, hvalues]
    rfl
  · rw [← Array.getElem?_toList, ← Array.getElem?_toList, hvalues]
    exact getElem?_trail p _ hk

/-- A fade commits one value for each property, an embedded animation after it none. -/
theorem compile_recurrence_fade :
    ∃ plan : Plan Unit,
      compile {} .none [.configure (.set .empty .opacity { target := .value 0 }), .embed ()] =
        .ok plan ∧
      plan.steps.length = 2 ∧
      (∀ p, (plan.outputs.values p).size = 2 ∧ ∀ v ∈ plan.outputs.values p, v.isFinite) ∧
      plan.steps[1]? = some (.embed ()) := by
  obtain ⟨plan, hplan⟩ : ∃ plan : Plan Unit, compile {} .none
      [.configure (.set .empty .opacity { target := .value 0 }), .embed ()] = .ok plan := ⟨_, rfl⟩
  obtain ⟨hvalues, hlength, hsteps⟩ := compile_recurrence hplan
  obtain ⟨s, hs, hcarries⟩ := hsteps 1 (.embed ()) rfl
  cases hcarries
  exact ⟨plan, hplan, hlength, fun p => ⟨(hvalues p).1, (hvalues p).2.2.2⟩, hs⟩

end Plan

/-! ## Scripts -/

section OfSpec

variable {ε : Type} {config : Config} {spec : Spec ε}

theorem Script.ofSpec_of_ok {plan : Plan ε} (h : Plan.ofSpec config spec = .ok plan) :
    Script.ofSpec config spec = .ok ⟨spec, config, plan, h⟩ := by
  unfold Script.ofSpec
  split
  · next plan' h' =>
    cases h.symm.trans h'
    rfl
  · next e h' => cases h.symm.trans h'

theorem Script.ofSpec_eq_error_iff {e : TimelineError} :
    Script.ofSpec config spec = .error e ↔ Plan.ofSpec config spec = .error e := by
  unfold Script.ofSpec
  split
  · next plan h => exact ⟨nofun, fun he => by cases h.symm.trans he⟩
  · next e' h => exact ⟨fun he => by cases he; exact h, fun he => by cases h.symm.trans he; rfl⟩

end OfSpec

namespace Script

variable {ε : Type} (script : Script ε) {i : ℕ}

/-- The number of configuring steps before a step. This is where the drivers stand when
the step begins. -/
def level (i : ℕ) : ℕ :=
  (configured (script.spec.flatten.take i)).length

theorem level_zero : script.level 0 = 0 := by
  simp [level, configured]

theorem level_succ_of_configure {step : StepConfig}
    (h : script.spec.flatten[i]? = some (.configure step)) :
    script.level (i + 1) = script.level i + 1 := by
  simp [level, configured, List.take_add_one, h, FlatStep.config?]

theorem level_succ_of_embed {animation : ε}
    (h : script.spec.flatten[i]? = some (.embed animation)) :
    script.level (i + 1) = script.level i := by
  simp [level, configured, List.take_add_one, h, FlatStep.config?]

theorem length_steps : script.plan.steps.length = script.spec.flatten.length :=
  (Plan.carriesOut_compile script.planned).1

theorem size_values (p : Property) :
    (script.plan.outputs.values p).size = script.plan.outputs.lastIndex + 1 := by
  have hlevel := Plan.level_compile script.planned
  rw [Outputs.size_values, Outputs.lastIndex, Outputs.length, hlevel.length, hlevel.length]
  omega

theorem level_length : script.level script.plan.steps.length = script.plan.outputs.lastIndex := by
  have hlevel := (Plan.level_compile script.planned).length .translateX
  rw [length_steps, level, List.take_length]
  unfold Outputs.lastIndex Outputs.length
  rw [hlevel, Nat.add_sub_cancel_left]

theorem exists_carriesOut {s : PlanStep ε} (h : script.plan.steps[i]? = some s) :
    ∃ step, script.spec.flatten[i]? = some step ∧
      Plan.CarriesOut script.config script.plan.outputs (1 + script.level i) step s := by
  obtain ⟨hlength, hsteps⟩ := Plan.carriesOut_compile script.planned
  obtain ⟨step, hstep⟩ : ∃ step, script.spec.flatten[i]? = some step := by
    obtain ⟨hi, -⟩ := List.getElem?_eq_some_iff.mp h
    exact ⟨_, List.getElem?_eq_getElem (hlength ▸ hi)⟩
  obtain ⟨s', hs', hcarries⟩ := hsteps i step hstep
  cases h.symm.trans hs'
  exact ⟨step, hstep, hcarries⟩

/-- What is known of the advances of a plan. -/
theorem advance_spec {advances : PropertyMap Advance}
    (h : script.plan.steps[i]? = some (.advance advances)) :
    ∃ step, script.spec.flatten[i]? = some (.configure step) ∧ ∀ p,
      (advances.get p).toIndex = script.level i + 1 ∧
      (advances.get p).duration = step.durationOf script.config p ∧
      (advances.get p).easing = step.easingOf p ∧ isDuration (advances.get p).duration := by
  obtain ⟨step, hstep, hcarries⟩ := script.exists_carriesOut h
  cases hcarries with
  | configure target entry committed valid =>
      refine ⟨_, hstep, fun p => ?_⟩
      rw [entry p]
      exact ⟨Nat.add_comm _ _, rfl, rfl, valid p⟩

theorem embed_spec {animation : ε} (h : script.plan.steps[i]? = some (.embed animation)) :
    script.spec.flatten[i]? = some (.embed animation) := by
  obtain ⟨step, hstep, hcarries⟩ := script.exists_carriesOut h
  cases hcarries
  exact hstep

theorem embed_mem {animation : ε} (h : .embed animation ∈ script.plan.steps) :
    .embed animation ∈ script.spec.flatten := by
  obtain ⟨i, hi⟩ := List.mem_iff_getElem?.mp h
  exact List.mem_of_getElem? (script.embed_spec hi)

end Script

end Storyboard
