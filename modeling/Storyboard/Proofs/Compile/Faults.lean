import Storyboard.Proofs.Compile.Recurrence
import Storyboard.Timeline

/-! # What is wrong with a timeline

A timeline has a fault if its default duration or an initial value cannot be used, or if one
of its steps leads a property nowhere or takes no duration for it. This module says what the
first fault is without reference to compilation, and proves that compilation fails with it,
and with nothing else.
-/

namespace Storyboard

/-! ## The first failure of a list of checks -/

section Except

variable {ε α β : Type}

theorem Except.map_eq_error {x : Except ε α} {f : α → β} {e : ε} :
    x.map f = .error e ↔ x = .error e := by
  cases x with
  | error e' => exact ⟨fun h => by cases h; rfl, fun h => by cases h; rfl⟩
  | ok a => exact ⟨nofun, nofun⟩

theorem Except.map_eq_ok_unit {x : Except ε α} :
    x.map (fun _ => ()) = .ok () ↔ ∃ a, x = .ok a := by
  rw [map_eq_ok]
  exact ⟨fun ⟨a, ha, _⟩ => ⟨a, ha⟩, fun ⟨a, ha⟩ => ⟨a, ha, rfl⟩⟩

theorem Except.exists_eq_ok_iff {x : Except ε α} : (∃ a, x = .ok a) ↔ ∀ e, x ≠ .error e := by
  cases x with
  | error e => exact ⟨nofun, fun h => absurd rfl (h e)⟩
  | ok a => exact ⟨fun _ => nofun, fun _ => ⟨a, rfl⟩⟩

theorem Except.map_bind {γ : Type} (x : Except ε α) (f : α → Except ε β) (g : β → γ) :
    (x >>= f).map g = x >>= fun a => (f a).map g := by
  cases x <;> rfl

theorem Except.bind_map {γ : Type} (x : Except ε α) (f : α → β) (g : β → Except ε γ) :
    (x.map f >>= g) = x >>= fun a => g (f a) := by
  cases x <;> rfl

/-- Checks one after another fail with the first one that does. -/
theorem Except.forM_eq_error_iff {f : α → Except ε Unit} {l : List α} {e : ε} :
    l.forM f = .error e ↔
      ∃ (k : ℕ) (a : α), l[k]? = some a ∧ f a = .error e ∧
        ∀ j < k, ∀ b, l[j]? = some b → f b = .ok () := by
  induction l with
  | nil => exact ⟨nofun, by rintro ⟨k, a, h, -⟩; simp at h⟩
  | cons head rest ih =>
      change (f head >>= fun _ => rest.forM f) = _ ↔ _
      cases hhead : f head with
      | error e' =>
          constructor
          · rintro ⟨⟩
            exact ⟨0, head, rfl, hhead, nofun⟩
          · rintro ⟨k, a, ha, he, hbefore⟩
            cases k with
            | zero =>
                cases ha
                exact hhead.symm.trans he
            | succ k => cases hhead.symm.trans (hbefore 0 k.succ_pos head rfl)
      | ok _ =>
          refine Iff.trans ih ⟨?_, ?_⟩
          · rintro ⟨k, a, ha, he, hbefore⟩
            refine ⟨k + 1, a, ha, he, fun j hj b hb => ?_⟩
            cases j with
            | zero =>
                cases hb
                exact hhead
            | succ j => exact hbefore j (Nat.lt_of_succ_lt_succ hj) b hb
          · rintro ⟨k, a, ha, he, hbefore⟩
            cases k with
            | zero =>
                cases ha
                cases hhead.symm.trans he
            | succ k =>
                exact ⟨k, a, ha, he, fun j hj b hb => hbefore (j + 1) (Nat.succ_lt_succ hj) b hb⟩

end Except

namespace Property

theorem forM_all_eq_error_iff {ε : Type} {f : Property → Except ε Unit} {e : ε} :
    all.forM f = .error e ↔ ∃ p, f p = .error e ∧ ∀ q, q.index < p.index → f q = .ok () := by
  rw [Except.forM_eq_error_iff]
  constructor
  · rintro ⟨k, p, hp, he, hbefore⟩
    obtain rfl := getElem?_all_iff.mp hp
    exact ⟨p, he, fun q hq => hbefore _ hq q q.getElem?_all_index⟩
  · rintro ⟨p, he, hbefore⟩
    refine ⟨p.index, p, p.getElem?_all_index, he, fun j hj q hq => hbefore q ?_⟩
    exact getElem?_all_iff.mp hq ▸ hj

end Property

/-- A table is not built if one of its entries is not, and the first of these is to blame. -/
theorem PropertyMap.ofFnM_eq_error_iff {ε α : Type} {entry : Property → Except ε α} {e : ε} :
    PropertyMap.ofFnM entry = .error e ↔
      ∃ p, entry p = .error e ∧ ∀ q, q.index < p.index → ∃ a, entry q = .ok a := by
  have hchecks : (PropertyMap.ofFnM entry).map (fun _ => ()) =
      Property.all.forM fun p => (entry p).map fun _ => () := by
    simp only [ofFnM, Except.map_bind, Property.all, Property.transform, Property.other,
      List.cons_append, List.nil_append, List.forM, Except.bind_map]
    rfl
  rw [← Except.map_eq_error (f := fun _ => ()), hchecks, Property.forM_all_eq_error_iff]
  simp only [Except.map_eq_error, Except.map_eq_ok_unit]

/-! ## Faults -/

theorem not_isDuration_iff {ms : Float32} : ¬ isDuration ms ↔ ¬ ms.isFinite ∨ ms < 0 := by
  unfold isDuration
  by_cases hfinite : ms.isFinite <;> simp [hfinite]

theorem isDuration_iff {ms : Float32} : isDuration ms ↔ ms.isFinite ∧ ¬ ms < 0 := by
  rw [← not_iff_not, not_isDuration_iff, not_and_or, not_not]

/-- What is wrong with what a step does with a property that stands at a value: a target that
is not finite or, if the target is finite, a duration of its own that is negative or not
finite. Of a property that the step does not set nothing can be wrong. -/
inductive StepConfig.Fault (step : StepConfig) (number : ℕ) (p : Property) (current : Float32) :
    TimelineError → Prop
  | target {c : PropertyConfig} (set : step.get? p = some c)
      (infinite : ¬ (c.target.resolve p current).isFinite) :
      Fault step number p current (.nonFiniteTarget number p (c.target.resolve p current))
  | duration {c : PropertyConfig} {ms : Float32} (set : step.get? p = some c)
      (finite : (c.target.resolve p current).isFinite) (given : c.duration = some ms)
      (invalid : ¬ ms.isFinite ∨ ms < 0) :
      Fault step number p current (.invalidDuration number p ms)

/-- The value that a property has when step `i` of a list begins: the seed, led on by the
configuring steps before. -/
def valueBefore {ε : Type} (initial : InitialValues) (steps : List (FlatStep ε)) (i : ℕ)
    (p : Property) : Float32 :=
  (configured (steps.take i)).foldl (fun value step => step.next p value) (initial.seed p)

/-- What is wrong with step `i` of a list for a property. -/
def FaultAt {ε : Type} (initial : InitialValues) (steps : List (FlatStep ε)) (i : ℕ)
    (p : Property) (e : TimelineError) : Prop :=
  ∃ step, steps[i]? = some (.configure step) ∧
    step.Fault i p (valueBefore initial steps i p) e

/-- The first thing that is wrong with a timeline. The default duration comes before the
initial values, and these before the steps; steps come in their order, and for one step or
the initial values the order is that of the properties. -/
inductive FirstFault {ε : Type} (config : Config) (initial : InitialValues)
    (steps : List (FlatStep ε)) : TimelineError → Prop
  | defaultDuration (invalid : ¬ config.defaultDuration.isFinite ∨ config.defaultDuration < 0) :
      FirstFault config initial steps (.invalidDefaultDuration config.defaultDuration)
  | initialValue {p : Property} {value : Float32}
      (valid : config.defaultDuration.isFinite ∧ ¬ config.defaultDuration < 0)
      (given : initial.get? p = some value) (infinite : ¬ value.isFinite)
      (first : ∀ q v, q.index < p.index → initial.get? q = some v → v.isFinite) :
      FirstFault config initial steps (.invalidInitialValue p value)
  | step {i : ℕ} {p : Property} {e : TimelineError}
      (valid : config.defaultDuration.isFinite ∧ ¬ config.defaultDuration < 0)
      (seeds : ∀ q v, initial.get? q = some v → v.isFinite)
      (fault : FaultAt initial steps i p e)
      (first : ∀ j q e', (j < i ∨ (j = i ∧ q.index < p.index)) → ¬ FaultAt initial steps j q e') :
      FirstFault config initial steps e

section Values

variable {ε : Type} {initial : InitialValues} {steps : List (FlatStep ε)} {i : ℕ}

theorem configured_take_succ_of_configure {step : StepConfig}
    (h : steps[i]? = some (.configure step)) :
    configured (steps.take (i + 1)) = configured (steps.take i) ++ [step] := by
  simp [configured, List.take_add_one, h, FlatStep.config?]

theorem configured_take_succ_of_embed {animation : ε} (h : steps[i]? = some (.embed animation)) :
    configured (steps.take (i + 1)) = configured (steps.take i) := by
  simp only [configured, List.take_add_one, h, Option.toList_some, List.filterMap_append]
  exact List.append_nil _

/-- What the steps before commit last is the value that the next step finds. -/
theorem last_of_compile_take {config : Config} {plan : Plan ε}
    (h : Plan.compile config initial (steps.take i) = .ok plan) (p : Property) :
    plan.outputs.last p = valueBefore initial steps i p := by
  have hlast : (plan.outputs.values p).back? = some (plan.outputs.last p) := Track.back?_values _
  rw [← Array.getLast?_toList, Plan.values_compile h p, getLast?_trail] at hlast
  exact (Option.some.inj hlast).symm

theorem valueBefore_zero (p : Property) : valueBefore initial steps 0 p = initial.seed p := by
  simp [valueBefore, configured]

theorem valueBefore_succ_of_configure {step : StepConfig}
    (h : steps[i]? = some (.configure step)) (p : Property) :
    valueBefore initial steps (i + 1) p = step.next p (valueBefore initial steps i p) := by
  simp [valueBefore, configured_take_succ_of_configure h]

theorem valueBefore_succ_of_embed {animation : ε} (h : steps[i]? = some (.embed animation))
    (p : Property) : valueBefore initial steps (i + 1) p = valueBefore initial steps i p := by
  rw [valueBefore, configured_take_succ_of_embed h, valueBefore]

end Values

/-! ## Faults and checks -/

namespace StepConfig

variable {step : StepConfig} {config : Config} {index : ℕ}

theorem resolve_eq_error_iff {p : Property} {current : Float32} {e : TimelineError}
    (hconfig : isDuration config.defaultDuration) :
    step.resolve config index current p = .error e ↔ step.Fault index p current e := by
  unfold resolve
  cases hget : step.get? p with
  | none =>
      refine ⟨nofun, fun h => ?_⟩
      cases h with
      | target set => cases hget.symm.trans set
      | duration set => cases hget.symm.trans set
  | some c =>
      dsimp only
      by_cases hfinite : (c.target.resolve p current).isFinite
      · by_cases hduration : isDuration (c.duration.getD config.defaultDuration)
        · simp only [hfinite, hduration, Bool.not_true, Bool.false_eq_true, if_false]
          refine ⟨nofun, fun h => ?_⟩
          cases h with
          | target set infinite =>
              cases hget.symm.trans set
              exact absurd hfinite infinite
          | duration set finite given invalid =>
              cases hget.symm.trans set
              rw [given] at hduration
              exact absurd hduration (not_isDuration_iff.mpr invalid)
        · simp only [hfinite, hduration, Bool.not_true, Bool.not_false, Bool.false_eq_true,
            if_false, if_true]
          -- the default is in order, and so the duration is the step's own
          obtain ⟨ms, hgiven⟩ : ∃ ms, c.duration = some ms := by
            cases hgiven : c.duration with
            | none =>
                rw [hgiven] at hduration
                exact absurd hconfig hduration
            | some ms => exact ⟨ms, rfl⟩
          rw [hgiven] at hduration ⊢
          constructor
          · rintro ⟨⟩
            exact .duration hget hfinite hgiven (not_isDuration_iff.mp hduration)
          · intro h
            cases h with
            | target set infinite =>
                cases hget.symm.trans set
                exact absurd hfinite infinite
            | duration set finite given invalid =>
                cases hget.symm.trans set
                cases hgiven.symm.trans given
                rfl
      · simp only [hfinite, Bool.not_false, if_true]
        constructor
        · rintro ⟨⟩
          exact .target hget hfinite
        · intro h
          cases h with
          | target set infinite =>
              cases hget.symm.trans set
              rfl
          | duration set finite =>
              cases hget.symm.trans set
              exact absurd finite hfinite

/-- A step cannot be resolved if something is wrong with it for a property, and the first of
these is to blame. -/
theorem resolveAll_eq_error_iff {outputs : Outputs} {e : TimelineError}
    (hconfig : isDuration config.defaultDuration) :
    step.resolveAll config index outputs = .error e ↔
      ∃ p, step.Fault index p (outputs.last p) e ∧
        ∀ q e', q.index < p.index → ¬ step.Fault index q (outputs.last q) e' := by
  unfold resolveAll
  rw [PropertyMap.ofFnM_eq_error_iff]
  simp only [Except.exists_eq_ok_iff, ne_eq, resolve_eq_error_iff hconfig]
  exact exists_congr fun p => and_congr_right fun _ => forall_congr' fun q => forall_comm

end StepConfig

theorem Config.validate_eq_ok_iff {config : Config} :
    config.validate = .ok () ↔ isDuration config.defaultDuration := by
  unfold Config.validate
  split
  · next h => exact ⟨fun _ => h, fun _ => rfl⟩
  · next h => exact ⟨nofun, fun h' => absurd h' h⟩

theorem Config.validate_eq_error_iff {config : Config} {e : TimelineError} :
    config.validate = .error e ↔
      ¬ isDuration config.defaultDuration ∧ e = .invalidDefaultDuration config.defaultDuration := by
  unfold Config.validate
  split
  · next h => exact ⟨nofun, fun h' => absurd h h'.1⟩
  · next h => exact ⟨fun h' => ⟨h, by cases h'; rfl⟩, fun h' => h'.2 ▸ rfl⟩

namespace InitialValues

variable {initial : InitialValues} {p : Property}

/-- The check of the initial value of one property. -/
def check (initial : InitialValues) (p : Property) : Except TimelineError Unit :=
  match initial.get? p with
  | some value => if value.isFinite then .ok () else .error (.invalidInitialValue p value)
  | Option.none => .ok ()

theorem check_eq_error_iff {e : TimelineError} :
    initial.check p = .error e ↔
      ∃ value, initial.get? p = some value ∧ ¬ value.isFinite ∧ e = .invalidInitialValue p value := by
  unfold check
  cases initial.get? p with
  | none => exact ⟨nofun, nofun⟩
  | some value =>
      dsimp only
      split
      · next h => exact ⟨nofun, by rintro ⟨_, ⟨⟩, h', -⟩; exact absurd h h'⟩
      · next h => exact ⟨by rintro ⟨⟩; exact ⟨value, rfl, h, rfl⟩, by rintro ⟨_, ⟨⟩, -, rfl⟩; rfl⟩

theorem check_eq_ok_iff :
    initial.check p = .ok () ↔ ∀ value, initial.get? p = some value → value.isFinite := by
  unfold check
  cases initial.get? p with
  | none => exact ⟨fun _ => nofun, fun _ => rfl⟩
  | some value =>
      dsimp only
      split
      · next h => exact ⟨fun _ v hv => by cases hv; exact h, fun _ => rfl⟩
      · next h => exact ⟨nofun, fun h' => absurd (h' value rfl) h⟩

theorem validate_eq_error_iff {e : TimelineError} :
    initial.validate = .error e ↔
      ∃ p value, initial.get? p = some value ∧ ¬ value.isFinite ∧
        e = .invalidInitialValue p value ∧
        ∀ q v, q.index < p.index → initial.get? q = some v → v.isFinite := by
  have hchecks : initial.validate = Property.all.forM initial.check := rfl
  rw [hchecks, Property.forM_all_eq_error_iff]
  simp only [check_eq_error_iff, check_eq_ok_iff]
  constructor
  · rintro ⟨p, ⟨value, hget, hfinite, rfl⟩, hbefore⟩
    exact ⟨p, value, hget, hfinite, rfl, fun q v hq => hbefore q hq v⟩
  · rintro ⟨p, value, hget, hfinite, rfl, hbefore⟩
    exact ⟨p, ⟨value, hget, hfinite, rfl⟩, fun q hq v => hbefore q v hq⟩

theorem validate_eq_ok_iff :
    initial.validate = .ok () ↔ ∀ p value, initial.get? p = some value → value.isFinite := by
  constructor
  · intro h p
    have hcheck : initial.check p = .ok () := Except.forM_eq_ok h p (Property.mem_all p)
    exact check_eq_ok_iff.mp hcheck
  · intro h
    obtain ⟨⟨⟩, hok⟩ : ∃ u, initial.validate = .ok u := by
      rw [Except.exists_eq_ok_iff]
      intro e he
      obtain ⟨p, value, hget, hfinite, -⟩ := validate_eq_error_iff.mp he
      exact hfinite (h p value hget)
    exact hok

end InitialValues

/-! ## The first fault is reported -/

namespace Plan

variable {ε : Type} {config : Config} {initial : InitialValues} {steps : List (FlatStep ε)}

/-- The first fault of the steps from `i` on. -/
def FirstFrom (initial : InitialValues) (steps : List (FlatStep ε)) (i : ℕ) (e : TimelineError) :
    Prop :=
  ∃ j p, i ≤ j ∧ FaultAt initial steps j p e ∧
    ∀ k q e', i ≤ k → (k < j ∨ (k = j ∧ q.index < p.index)) → ¬ FaultAt initial steps k q e'

/-- If nothing is wrong with a step, the next ones are looked at. -/
theorem firstFrom_succ_iff {i : ℕ} {e : TimelineError}
    (h : ∀ p e', ¬ FaultAt initial steps i p e') :
    FirstFrom initial steps (i + 1) e ↔ FirstFrom initial steps i e := by
  constructor
  · rintro ⟨j, p, hj, hfault, hfirst⟩
    refine ⟨j, p, Nat.le_of_succ_le hj, hfault, fun k q e' hk hbefore => ?_⟩
    rcases Nat.eq_or_lt_of_le hk with rfl | hk
    · exact h q e'
    · exact hfirst k q e' hk hbefore
  · rintro ⟨j, p, hj, hfault, hfirst⟩
    rcases Nat.eq_or_lt_of_le hj with rfl | hj
    · exact absurd hfault (h p e)
    · exact ⟨j, p, hj, hfault, fun k q e' hk => hfirst k q e' (Nat.le_of_succ_le hk)⟩

/-- Something is wrong with a step, and so later ones do not matter. -/
theorem firstFrom_iff {i : ℕ} {p : Property} {e e' : TimelineError}
    (hfault : FaultAt initial steps i p e)
    (hfirst : ∀ q e', q.index < p.index → ¬ FaultAt initial steps i q e') :
    FirstFrom initial steps i e' ↔ FaultAt initial steps i p e' := by
  constructor
  · rintro ⟨j, q, hj, hfault', hfirst'⟩
    rcases Nat.eq_or_lt_of_le hj with rfl | hj
    · rcases Nat.lt_trichotomy p.index q.index with hlt | heq | hlt
      · exact absurd hfault (hfirst' _ p e (Nat.le_refl _) (.inr ⟨rfl, hlt⟩))
      · exact Property.index_inj.mp heq ▸ hfault'
      · exact absurd hfault' (hfirst q e' hlt)
    · exact absurd hfault (hfirst' i p e (Nat.le_refl _) (.inl hj))
  · intro hfault'
    refine ⟨i, p, (Nat.le_refl _), hfault', fun k q e'' hk hbefore => ?_⟩
    obtain ⟨rfl, hq⟩ : k = i ∧ q.index < p.index := by omega
    exact hfirst q e'' hq

theorem ofSteps_eq_error_iff {index n : ℕ} {outputs : Outputs} {rest : List (FlatStep ε)}
    {e : TimelineError} (hconfig : isDuration config.defaultDuration)
    (hrest : steps.drop index = rest) (hlevel : outputs.Level n)
    (hlast : ∀ p, outputs.last p = valueBefore initial steps index p) :
    ofSteps config index outputs rest = .error e ↔ FirstFrom initial steps index e := by
  induction rest generalizing index n outputs with
  | nil =>
      refine ⟨nofun, ?_⟩
      rintro ⟨j, p, hj, ⟨step, hstep, -⟩, -⟩
      have hlength := List.drop_eq_nil_iff.mp hrest
      rw [List.getElem?_eq_none (Nat.le_trans hlength hj)] at hstep
      cases hstep
  | cons head rest ih =>
      obtain ⟨hhead, htail⟩ := List.of_drop_eq_cons hrest
      cases head with
      | embed animation =>
          have hnone : ∀ p e', ¬ FaultAt initial steps index p e' := by
            rintro p e' ⟨step, hstep, -⟩
            cases hhead.symm.trans hstep
          unfold ofSteps
          rw [Except.map_eq_error, ← firstFrom_succ_iff hnone]
          exact ih htail hlevel fun p => (hlast p).trans (valueBefore_succ_of_embed hhead p).symm
      | configure step =>
          have hfault : ∀ p e', FaultAt initial steps index p e' ↔
              step.Fault index p (outputs.last p) e' := by
            intro p e'
            rw [hlast p]
            refine ⟨?_, fun h => ⟨step, hhead, h⟩⟩
            rintro ⟨step', hstep', h⟩
            cases hhead.symm.trans hstep'
            exact h
          unfold ofSteps
          cases hresolve : step.resolveAll config index outputs with
          | error e₀ =>
              -- one property of the step is the first to blame, and it has one fault only
              obtain ⟨p, hp, hfirst⟩ := (StepConfig.resolveAll_eq_error_iff hconfig).mp hresolve
              simp only [← hfault] at hp hfirst
              rw [firstFrom_iff hp hfirst, hfault, ← StepConfig.resolve_eq_error_iff hconfig]
              rw [hfault, ← StepConfig.resolve_eq_error_iff hconfig] at hp
              rw [hp]
              constructor <;> (rintro ⟨⟩; rfl)
          | ok table =>
              have hspec := StepConfig.resolveAll_spec hresolve hconfig hlevel.last
              have hnone : ∀ p e', ¬ FaultAt initial steps index p e' := by
                intro p e' h
                rw [hfault, ← StepConfig.resolve_eq_error_iff hconfig,
                  PropertyMap.ofFnM_eq_ok hresolve p] at h
                cases h
              dsimp only
              rw [Except.map_eq_error, ← firstFrom_succ_iff hnone]
              refine ih htail (hlevel.commitAll fun p => (hspec p).2.1) fun p => ?_
              rw [Outputs.last_commitAll, valueBefore_succ_of_configure hhead, ← hlast p,
                (hspec p).1]

/-- A list of steps cannot be compiled if it has a fault, and the first one is reported. -/
theorem compile_eq_error_iff {e : TimelineError} :
    compile config initial steps = .error e ↔ FirstFault config initial steps e := by
  have hvalid : isDuration config.defaultDuration ↔
      config.defaultDuration.isFinite ∧ ¬ config.defaultDuration < 0 := isDuration_iff
  unfold compile
  cases hconfig : config.validate with
  | error e₀ =>
      obtain ⟨hinvalid, rfl⟩ := Config.validate_eq_error_iff.mp hconfig
      constructor
      · rintro ⟨⟩
        exact .defaultDuration (not_isDuration_iff.mp hinvalid)
      · intro h
        cases h with
        | defaultDuration => rfl
        | initialValue valid => exact absurd (hvalid.mpr valid) hinvalid
        | step valid => exact absurd (hvalid.mpr valid) hinvalid
  | ok _ =>
      have hduration := Config.validate_eq_ok_iff.mp hconfig
      have hnot := fun hinvalid => not_isDuration_iff.mpr hinvalid hduration
      dsimp only
      cases hinitial : initial.validate with
      | error e₀ =>
          obtain ⟨p, value, hget, hfinite, rfl, hfirst⟩ :=
            InitialValues.validate_eq_error_iff.mp hinitial
          constructor
          · rintro ⟨⟩
            exact .initialValue (hvalid.mp hduration) hget hfinite hfirst
          · intro h
            cases h with
            | defaultDuration invalid => exact absurd invalid hnot
            | @initialValue q v valid given infinite first =>
                have hle : ¬ q.index < p.index := fun hlt => infinite (hfirst q v hlt given)
                have hge : ¬ p.index < q.index := fun hlt => hfinite (first p value hlt hget)
                obtain rfl := Property.index_inj.mp
                  (Nat.le_antisymm (Nat.le_of_not_lt hle) (Nat.le_of_not_lt hge))
                cases hget.symm.trans given
                rfl
            | step valid seeds => exact absurd (seeds p value hget) hfinite
      | ok _ =>
          have hseeds := InitialValues.validate_eq_ok_iff.mp hinitial
          have hlast : ∀ p, (Outputs.seeded initial).last p = valueBefore initial steps 0 p := by
            intro p
            rw [valueBefore_zero]
            simp [Outputs.last, Outputs.seeded, Track.last]
          refine (ofSteps_eq_error_iff hduration (List.drop_zero (l := steps))
            (InitialValues.level_seeded hinitial) hlast).trans ⟨?_, fun h => ?_⟩
          · rintro ⟨i, p, -, hfault, hfirst⟩
            exact .step (hvalid.mp hduration) hseeds hfault
              fun j q e' => hfirst j q e' (Nat.zero_le j)
          · cases h with
            | defaultDuration invalid => exact absurd invalid hnot
            | initialValue valid given infinite => exact absurd (hseeds _ _ given) infinite
            | step valid seeds fault first =>
                exact ⟨_, _, Nat.zero_le _, fault, fun j q e' _ => first j q e'⟩

/-- Where there is a fault there is a first one. -/
theorem exists_firstFrom {i : ℕ} {p : Property} {e : TimelineError}
    (h : FaultAt initial steps i p e) : ∃ e', FirstFrom initial steps 0 e' := by
  -- pairs of a step and a property are ordered like these numbers
  induction hn : i * Property.all.length + p.index using Nat.strongRecOn generalizing i p e with
  | _ n ih =>
      by_cases hfirst : ∃ k q e', (k < i ∨ (k = i ∧ q.index < p.index)) ∧ FaultAt initial steps k q e'
      · obtain ⟨k, q, e', hbefore, hfault⟩ := hfirst
        refine ih (k * Property.all.length + q.index) ?_ hfault rfl
        have hq := q.index_lt
        rcases hbefore with hlt | ⟨rfl, hlt⟩
        · have hmul := Nat.mul_le_mul_right Property.all.length hlt
          rw [Nat.succ_mul] at hmul
          omega
        · omega
      · exact ⟨e, i, p, Nat.zero_le _, h, fun k q e' _ hbefore hfault =>
          hfirst ⟨k, q, e', hbefore, hfault⟩⟩

/-- A list of steps is compiled if nothing is wrong with it. -/
theorem exists_compile_eq_ok_iff :
    (∃ plan, compile config initial steps = .ok plan) ↔
      (config.defaultDuration.isFinite ∧ ¬ config.defaultDuration < 0) ∧
      (∀ p value, initial.get? p = some value → value.isFinite) ∧
      ∀ i p e, ¬ FaultAt initial steps i p e := by
  rw [Except.exists_eq_ok_iff]
  constructor
  · intro h
    obtain ⟨plan, hplan⟩ := Except.exists_eq_ok_iff.mpr h
    obtain ⟨hconfig, hinitial, -⟩ := checks_of_compile hplan
    have hvalid := isDuration_iff.mp hconfig
    have hseeds := InitialValues.validate_eq_ok_iff.mp hinitial
    refine ⟨hvalid, hseeds, fun i p e hfault => ?_⟩
    obtain ⟨e', j, q, -, hfault', hfirst⟩ := exists_firstFrom hfault
    exact h e' (compile_eq_error_iff.mpr (.step hvalid hseeds hfault'
      fun k r e'' => hfirst k r e'' (Nat.zero_le _)))
  · rintro ⟨hvalid, hseeds, hfaults⟩ e he
    cases compile_eq_error_iff.mp he with
    | defaultDuration invalid => exact not_isDuration_iff.mpr invalid (isDuration_iff.mpr hvalid)
    | initialValue valid given infinite => exact infinite (hseeds _ _ given)
    | step valid seeds fault => exact hfaults _ _ _ fault

end Plan

/-! ## Timelines -/

mutual

/-- The step with other initial values for every nested timeline in it. -/
def Step.reseed {ε : Type} (f : InitialValues → InitialValues) : Step ε → Step ε
  | .configure config => .configure config
  | .embed animation => .embed animation
  | .nested initial steps => .nested (f initial) (Step.reseedAll f steps)

/-- The steps with other initial values for every nested timeline in them. -/
def Step.reseedAll {ε : Type} (f : InitialValues → InitialValues) : List (Step ε) → List (Step ε)
  | [] => []
  | step :: rest => step.reseed f :: Step.reseedAll f rest

end

mutual

theorem Step.flatten_reseed {ε : Type} (f : InitialValues → InitialValues) :
    (step : Step ε) → (step.reseed f).flatten = step.flatten
  | .configure _ => rfl
  | .embed _ => rfl
  | .nested _ steps => Step.flattenAll_reseedAll f steps

theorem Step.flattenAll_reseedAll {ε : Type} (f : InitialValues → InitialValues) :
    (steps : List (Step ε)) → Step.flattenAll (Step.reseedAll f steps) = Step.flattenAll steps
  | [] => rfl
  | step :: rest => by
      rw [Step.reseedAll, Step.flattenAll, Step.flattenAll, Step.flatten_reseed f step,
        Step.flattenAll_reseedAll f rest]

end

namespace Timeline

variable {H α : Type}

/-- Compilation of a timeline fails exactly with its first fault, and succeeds exactly if it
has none: a valid default duration, finite initial values, and no fault of a step. A step is
faulty or not as it finds the values that the steps before it commit. A fault of a step is
one of a property that the step sets, and initial values of nested timelines do no harm. -/
theorem compile_reports_first_fault (config : Config) (spec : Spec (Embedded (Stage H) α))
    (s : Stage H) :
    (∀ e, Timeline.compile config spec s = .error e ↔
      FirstFault config spec.initial spec.flatten e) ∧
    ((∃ result, Timeline.compile config spec s = .ok result) ↔
      (config.defaultDuration.isFinite ∧ ¬ config.defaultDuration < 0) ∧
      (∀ p value, spec.initial.get? p = some value → value.isFinite) ∧
      ∀ i p e, ¬ FaultAt spec.initial spec.flatten i p e) ∧
    (∀ i plan, Plan.compile config spec.initial (spec.flatten.take i) = .ok plan →
      ∀ p, plan.outputs.last p = valueBefore spec.initial spec.flatten i p) ∧
    ∀ f e, Timeline.compile config { spec with steps := Step.reseedAll f spec.steps } s = .error e ↔
      Timeline.compile config spec s = .error e := by
  have herror : ∀ (spec : Spec (Embedded (Stage H) α)) e,
      Timeline.compile config spec s = .error e ↔
        FirstFault config spec.initial spec.flatten e := by
    intro spec e
    unfold Timeline.compile
    rw [Except.map_eq_error, Script.ofSpec_eq_error_iff]
    exact Plan.compile_eq_error_iff
  refine ⟨herror spec, ?_, fun i plan h => last_of_compile_take h, fun f e => ?_⟩
  · rw [Except.exists_eq_ok_iff]
    have hplan : (∃ plan, Plan.compile config spec.initial spec.flatten = .ok plan) ↔ _ :=
      Plan.exists_compile_eq_ok_iff
    rw [← hplan, Except.exists_eq_ok_iff]
    simp only [ne_eq, herror, Plan.compile_eq_error_iff]
  · rw [herror, herror]
    have hflatten : Step.flattenAll (Step.reseedAll f spec.steps) = spec.flatten :=
      Step.flattenAll_reseedAll f spec.steps
    unfold Spec.flatten at hflatten ⊢
    rw [hflatten]

/-- The second step of this timeline divides a factor of size by 0. The infinite opacity of
the nested timeline is not what is reported. -/
theorem compile_reports_division_by_zero :
    Timeline.compile (H := Unit) (α := Unit) {}
      { steps := [.configure .empty, .nested (.set .none .opacity (1 / 0))
          [.configure (.set .empty .scaleX { target := .fromPrevious (· / 0) })]] } (.empty, ()) =
      .error (.nonFiniteTarget 1 .scaleX (1 / 0)) := by
  let division : PropertyConfig := { target := .fromPrevious (· / 0) }
  let steps : List (FlatStep (Embedded (Stage Unit) Unit)) :=
    [.configure .empty, .configure (.set .empty .scaleX division)]
  have hinfinite : ¬ ((1 : Float32) / 0).isFinite := by decide +kernel
  have hvalue : valueBefore .none steps 1 .scaleX = 1 := rfl
  have hfault : FaultAt .none steps 1 .scaleX (.nonFiniteTarget 1 .scaleX (1 / 0)) := by
    refine ⟨.set .empty .scaleX division, rfl, ?_⟩
    rw [hvalue]
    exact .target (c := division) rfl hinfinite
  have hfirst : ∀ j q e', (j < 1 ∨ (j = 1 ∧ q.index < Property.scaleX.index)) →
      ¬ FaultAt .none steps j q e' := by
    rintro j q e' hbefore ⟨step, hstep, hfault⟩
    obtain ⟨c, hset⟩ : ∃ c, step.get? q = some c := by
      cases hfault with
      | target set => exact ⟨_, set⟩
      | duration set => exact ⟨_, set⟩
    rcases hbefore with hlt | ⟨rfl, hlt⟩
    · obtain rfl : j = 0 := Nat.lt_one_iff.mp hlt
      cases hstep
      cases q <;> cases hset
    · cases hstep
      have hne : q ≠ .scaleX := by
        rintro rfl
        exact absurd hlt (Nat.lt_irrefl _)
      rw [StepConfig.get?, StepConfig.set, PropertyMap.get_set_of_ne _ _ hne] at hset
      cases q <;> cases hset
  have hseeds : ∀ p value, InitialValues.none.get? p = some value → value.isFinite := by
    intro p value hget
    cases p <;> cases hget
  exact ((compile_reports_first_fault {} _ _).1 _).mpr
    (.step ⟨by decide +kernel, by decide +kernel⟩ hseeds hfault hfirst)

end Timeline

end Storyboard
