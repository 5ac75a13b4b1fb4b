import Storyboard.Proofs.Compile.Faults

/-! # Compiling steps in two parts

Steps that follow on others can be compiled on their own, if they begin with the values that
were committed last. What is compiled from all of them is put together from the two parts:
only the numbers of steps, and the indices to which drivers are moved, go on counting.
-/

namespace Storyboard

/-! ## Putting parts together -/

/-- The error in a list of steps that comes after `n` others. -/
def TimelineError.later (n : ℕ) : TimelineError → TimelineError
  | nonFiniteTarget step p value => nonFiniteTarget (n + step) p value
  | invalidDuration step p duration => invalidDuration (n + step) p duration
  | e => e

/-- The step of a plan in which every driver has been moved `n` times before. -/
def PlanStep.later {ε : Type} (n : ℕ) : PlanStep ε → PlanStep ε
  | advance advances => advance (advances.map fun _ a => { a with toIndex := n + a.toIndex })
  | embed animation => embed animation

namespace Outputs

/-- Initial values with which steps go on from the values committed last. -/
def handOver (outputs : Outputs) : InitialValues :=
  ⟨.ofFn fun p => some (outputs.last p)⟩

/-- Values with others behind them, whose seeds are left out. -/
def append (first second : Outputs) : Outputs :=
  ⟨first.tracks.map fun p track =>
    { track with committed := track.committed ++ (second.tracks.get p).committed }⟩

/-- The second values begin where the first ones end. -/
def Continues (first second : Outputs) : Prop :=
  ∀ p, (second.tracks.get p).seed = first.last p

variable {first second : Outputs}

theorem get?_handOver (outputs : Outputs) (p : Property) :
    outputs.handOver.get? p = some (outputs.last p) := by
  simp [InitialValues.get?, handOver]

theorem continues_seeded (outputs : Outputs) : outputs.Continues (.seeded outputs.handOver) := by
  intro p
  simp [seeded, InitialValues.seed, get?_handOver]

theorem append_seeded (outputs : Outputs) (i : InitialValues) :
    outputs.append (.seeded i) = outputs := by
  cases outputs
  simp only [append, seeded, PropertyMap.get_ofFn, Array.append_empty, mk.injEq]
  ext p
  simp

theorem Continues.last_append (h : first.Continues second) (p : Property) :
    (first.append second).last p = second.last p := by
  have hseed := h p
  simp only [last, append, PropertyMap.get_map, Track.last, Array.back?_append] at hseed ⊢
  cases (second.tracks.get p).committed.back? with
  | none => exact hseed.symm
  | some value => rfl

theorem Continues.commitAll (h : first.Continues second) (value : Property → Float32) :
    first.Continues (second.commitAll value) := by
  intro p
  simpa [Outputs.commitAll, Track.push] using h p

theorem commitAll_append (first second : Outputs) (value : Property → Float32) :
    (first.append second).commitAll value = first.append (second.commitAll value) := by
  simp only [append, Outputs.commitAll, mk.injEq]
  ext p
  simp [Track.push]

theorem lengthOf_append {n : ℕ} (h : first.Level (n + 1)) (second : Outputs) (p : Property) :
    (first.append second).lengthOf p = n + second.lengthOf p := by
  have hlength := h.length p
  simp only [lengthOf, append, PropertyMap.get_map, Track.length, Array.size_append] at hlength ⊢
  omega

theorem values_append (first second : Outputs) (p : Property) :
    ((first.append second).values p).toList =
      (first.values p).toList ++ (second.values p).toList.tail := by
  simp [values, append, Track.values]

end Outputs

/-! ## Resolving later steps -/

theorem Except.mapError_bind {ε ε' α β : Type} (x : Except ε α) (f : α → Except ε β) (g : ε → ε') :
    (x >>= f).mapError g = x.mapError g >>= fun a => (f a).mapError g := by
  cases x <;> rfl

theorem PropertyMap.ofFnM_mapError {ε ε' α : Type} (entry : Property → Except ε α) (g : ε → ε') :
    (PropertyMap.ofFnM fun p => (entry p).mapError g) = (PropertyMap.ofFnM entry).mapError g := by
  simp only [ofFnM, Except.mapError_bind]
  rfl

namespace StepConfig

variable (step : StepConfig) (config : Config) (n index : ℕ)

theorem resolve_later (current : Float32) (p : Property) :
    step.resolve config (n + index) current p =
      (step.resolve config index current p).mapError (TimelineError.later n) := by
  unfold resolve
  cases step.get? p with
  | none => rfl
  | some c =>
      dsimp only
      split
      · rfl
      · split <;> rfl

theorem resolveAll_later {first second : Outputs} (h : first.Continues second) :
    step.resolveAll config (n + index) (first.append second) =
      (step.resolveAll config index second).mapError (TimelineError.later n) := by
  unfold resolveAll
  simp only [resolve_later, h.last_append]
  exact PropertyMap.ofFnM_mapError _ _

end StepConfig

namespace Plan

variable {ε : Type} {config : Config} {n : ℕ} {first second : Outputs}

theorem later_advances (h : first.Level (n + 1)) (resolved : PropertyMap Resolved) :
    (PlanStep.advance (advances second resolved) : PlanStep ε).later n =
      .advance (advances (first.append second) resolved) := by
  simp only [PlanStep.later, PlanStep.advance.injEq]
  ext p
  simp only [advances, PropertyMap.get_map, Outputs.lengthOf_append h]

theorem ofSteps_embed (config : Config) (index : ℕ) (outputs : Outputs) (animation : ε)
    (rest : List (FlatStep ε)) :
    ofSteps config index outputs (.embed animation :: rest) =
      (ofSteps config (index + 1) outputs rest).map (cons (.embed animation)) := by
  rw [ofSteps]

theorem ofSteps_configure (config : Config) (index : ℕ) (outputs : Outputs) (step : StepConfig)
    (rest : List (FlatStep ε)) :
    ofSteps config index outputs (.configure step :: rest) =
      (step.resolveAll config index outputs).bind fun resolved =>
        (ofSteps config (index + 1) (outputs.commitAll fun p => (resolved.get p).target) rest).map
          (cons (.advance (advances outputs resolved))) := by
  rw [ofSteps]
  cases step.resolveAll config index outputs <;> rfl

/-- Steps that follow on two parts of values do what they do to the second part alone. -/
theorem ofSteps_later (config : Config) (k index : ℕ) (hlevel : first.Level (n + 1))
    (steps : List (FlatStep ε)) (h : first.Continues second) :
    ofSteps config (k + index) (first.append second) steps =
      ((ofSteps config index second steps).map fun plan =>
        ⟨first.append plan.outputs, plan.steps.map (.later n)⟩).mapError (.later k) := by
  -- the first part stays what it is, while the second one grows with what is committed
  induction steps generalizing index second with
  | nil => rfl
  | cons step rest ih =>
      cases step with
      | embed animation =>
          rw [ofSteps_embed, ofSteps_embed, Nat.add_assoc, ih (index + 1) h]
          cases ofSteps config (index + 1) second rest <;> rfl
      | configure step =>
          rw [ofSteps_configure, ofSteps_configure, step.resolveAll_later config k index h]
          cases step.resolveAll config index second with
          | error e => rfl
          | ok resolved =>
              have hrest := ih (index + 1) (h.commitAll fun p => (resolved.get p).target)
              simp only [Except.mapError, Except.bind]
              rw [Nat.add_assoc, Outputs.commitAll_append, hrest, ← later_advances hlevel resolved]
              cases ofSteps config (index + 1)
                (second.commitAll fun p => (resolved.get p).target) rest <;> rfl

/-- Steps are compiled one part after the other. -/
theorem ofSteps_append (config : Config) (index : ℕ) (outputs : Outputs)
    (xs ys : List (FlatStep ε)) :
    ofSteps config index outputs (xs ++ ys) =
      (ofSteps config index outputs xs).bind fun first =>
        (ofSteps config (index + xs.length) first.outputs ys).map fun second =>
          { second with steps := first.steps ++ second.steps } := by
  induction xs generalizing index outputs with
  | nil =>
      change ofSteps config index outputs ys = (ofSteps config index outputs ys).map _
      cases ofSteps config index outputs ys <;> rfl
  | cons step rest ih =>
      -- whatever the first step becomes, it is put in front of what the rest comes to
      have hcons : ∀ (s : PlanStep ε) (outputs : Outputs),
          (ofSteps config (index + 1) outputs (rest ++ ys)).map (cons s) =
            ((ofSteps config (index + 1) outputs rest).map (cons s)).bind fun first =>
              (ofSteps config (index + (step :: rest).length) first.outputs ys).map fun second =>
                { second with steps := first.steps ++ second.steps } := by
        intro s outputs
        rw [ih, List.length_cons, Nat.add_comm rest.length, ← Nat.add_assoc]
        cases ofSteps config (index + 1) outputs rest with
        | error e => rfl
        | ok first =>
            simp only [Except.bind, Except.map, cons]
            cases ofSteps config (index + 1 + rest.length) first.outputs ys <;> rfl
      cases step with
      | embed animation =>
          rw [List.cons_append, ofSteps_embed, ofSteps_embed]
          exact hcons _ _
      | configure step =>
          rw [List.cons_append, ofSteps_configure, ofSteps_configure]
          cases step.resolveAll config index outputs with
          | error e => rfl
          | ok resolved => exact hcons _ _

/-- A plan for all steps, from plans for a first part of them and for those that go on. -/
def append (first second : Plan ε) : Plan ε :=
  ⟨first.outputs.append second.outputs,
    first.steps ++ second.steps.map (.later first.outputs.lastIndex)⟩

variable {initial : InitialValues} {xs ys : List (FlatStep ε)} {plan : Plan ε}

theorem level_lastIndex (h : compile config initial xs = .ok plan) :
    plan.outputs.Level (plan.outputs.lastIndex + 1) := by
  have hlevel := level_compile h
  have hlast : plan.outputs.lastIndex + 1 = 1 + (configured xs).length := by
    unfold Outputs.lastIndex Outputs.length
    rw [hlevel.length]
    omega
  rwa [hlast]

/-- What a first part of the steps hands over passes the checks at the beginning. -/
theorem validate_handOver (h : compile config initial xs = .ok plan) :
    plan.outputs.handOver.validate = .ok () := by
  refine InitialValues.validate_eq_ok_iff.mpr fun p value hvalue => ?_
  rw [Outputs.get?_handOver] at hvalue
  cases hvalue
  exact (level_compile h).last p

theorem compile_append_of_error {e : TimelineError} (h : compile config initial xs = .error e) :
    compile config initial (xs ++ ys) = .error e := by
  unfold compile at h ⊢
  cases hconfig : config.validate with
  | error e' =>
      rw [hconfig] at h
      exact h
  | ok _ =>
      cases hinitial : initial.validate with
      | error e' =>
          rw [hconfig, hinitial] at h
          exact h
      | ok _ =>
          simp only [hconfig, hinitial] at h
          simp only [ofSteps_append, h]
          rfl

theorem compile_append_of_ok (h : compile config initial xs = .ok plan) :
    compile config initial (xs ++ ys) =
      ((compile config plan.outputs.handOver ys).map plan.append).mapError (.later xs.length) := by
  obtain ⟨hduration, hinitial, hsteps⟩ := checks_of_compile h
  have hconfig := Config.validate_eq_ok_iff.mpr hduration
  have hlater := ofSteps_later config xs.length 0 (level_lastIndex h) ys
    plan.outputs.continues_seeded
  rw [Outputs.append_seeded, Nat.add_zero] at hlater
  unfold compile
  simp only [hconfig, hinitial, validate_handOver h, ofSteps_append, hsteps]
  change (ofSteps config (0 + xs.length) plan.outputs ys).map _ = _
  rw [Nat.zero_add, hlater]
  cases ofSteps config 0 (.seeded plan.outputs.handOver) ys <;> rfl

/-- Only a step can be wrong with what follows on a first part. -/
theorem step_of_compile_handOver {e : TimelineError} (h : compile config initial xs = .ok plan)
    (he : compile config plan.outputs.handOver ys = .error e) :
    ∃ k p v, e = .nonFiniteTarget k p v ∨ e = .invalidDuration k p v := by
  obtain ⟨hduration, -, -⟩ := checks_of_compile h
  cases compile_eq_error_iff.mp he with
  | defaultDuration invalid => exact absurd hduration (not_isDuration_iff.mpr invalid)
  | initialValue valid given infinite =>
      exact absurd (InitialValues.validate_eq_ok_iff.mp (validate_handOver h) _ _ given) infinite
  | step valid seeds fault first =>
      obtain ⟨step, -, hfault⟩ := fault
      cases hfault with
      | target => exact ⟨_, _, _, .inl rfl⟩
      | duration => exact ⟨_, _, _, .inr rfl⟩

/-- Compilation is compositional. If a first part of the steps cannot be compiled, the whole
cannot for the same reason. Otherwise the rest is compiled from the values that the first
part commits last, which always pass as initial values: the whole succeeds exactly if that
does, with the values of both parts one after the other, and the steps of both with indices
that go on counting; and it fails with the error of the rest, whose step is counted on. -/
theorem compile_append (config : Config) (initial : InitialValues) (xs ys : List (FlatStep ε)) :
    (∀ e, compile config initial xs = .error e → compile config initial (xs ++ ys) = .error e) ∧
    ∀ first, compile config initial xs = .ok first →
      (∀ p, first.outputs.handOver.get? p = some (first.outputs.last p)) ∧
      first.outputs.handOver.validate = .ok () ∧
      ((∃ whole, compile config initial (xs ++ ys) = .ok whole) ↔
        ∃ second, compile config first.outputs.handOver ys = .ok second) ∧
      (∀ second, compile config first.outputs.handOver ys = .ok second →
        ∃ whole, compile config initial (xs ++ ys) = .ok whole ∧
          (∀ p, (whole.outputs.values p).toList =
            (first.outputs.values p).toList ++ (second.outputs.values p).toList.tail) ∧
          whole.steps = first.steps ++ second.steps.map (.later (first.outputs.length - 1))) ∧
      ∀ e, compile config first.outputs.handOver ys = .error e →
        compile config initial (xs ++ ys) = .error (e.later xs.length) ∧
        ∃ k p v, (e = .nonFiniteTarget k p v ∧
            e.later xs.length = .nonFiniteTarget (xs.length + k) p v) ∨
          (e = .invalidDuration k p v ∧
            e.later xs.length = .invalidDuration (xs.length + k) p v) := by
  refine ⟨fun e => compile_append_of_error, fun first hfirst => ?_⟩
  have hwhole : compile config initial (xs ++ ys) = _ := compile_append_of_ok hfirst
  refine ⟨first.outputs.get?_handOver, validate_handOver hfirst, ?_, fun second hsecond => ?_,
    fun e he => ⟨?_, ?_⟩⟩
  · rw [hwhole]
    cases compile config first.outputs.handOver ys with
    | error e => exact ⟨nofun, nofun⟩
    | ok second => exact ⟨fun _ => ⟨second, rfl⟩, fun _ => ⟨_, rfl⟩⟩
  · rw [hsecond] at hwhole
    exact ⟨_, hwhole, Outputs.values_append _ _, rfl⟩
  · rw [hwhole, he]
    rfl
  · obtain ⟨k, p, v, rfl | rfl⟩ := step_of_compile_handOver hfirst he
    · exact ⟨k, p, v, .inl ⟨rfl, rfl⟩⟩
    · exact ⟨k, p, v, .inr ⟨rfl, rfl⟩⟩

/-- An opacity is led to 0 and, after an animation, back to where a computation from that
value leads it. -/
theorem compile_append_fade :
    ∃ first second whole : Plan Unit,
      compile {} .none [.configure (.set .empty .opacity { target := .value 0 })] = .ok first ∧
      compile {} first.outputs.handOver
        [.embed (), .configure (.set .empty .opacity { target := .fromPrevious fun _ => 1 })] =
          .ok second ∧
      compile {} .none ([.configure (.set .empty .opacity { target := .value 0 })] ++
        [.embed (), .configure (.set .empty .opacity { target := .fromPrevious fun _ => 1 })]) =
          .ok whole ∧
      (∀ p, (whole.outputs.values p).toList =
        (first.outputs.values p).toList ++ (second.outputs.values p).toList.tail) ∧
      whole.steps = first.steps ++ second.steps.map (.later (first.outputs.length - 1)) := by
  obtain ⟨first, hfirst⟩ : ∃ first : Plan Unit, compile {} .none
      [.configure (.set .empty .opacity { target := .value 0 })] = .ok first := ⟨_, rfl⟩
  obtain ⟨second, hsecond⟩ : ∃ second : Plan Unit, compile {} first.outputs.handOver
      [.embed (), .configure (.set .empty .opacity { target := .fromPrevious fun _ => 1 })] =
        .ok second := by
    cases hfirst
    exact ⟨_, rfl⟩
  obtain ⟨-, -, -, hwhole, -⟩ := (compile_append {} .none _ _).2 first hfirst
  obtain ⟨whole, hcompiled, hvalues, hsteps⟩ := hwhole second hsecond
  exact ⟨first, second, whole, hfirst, hsecond, hcompiled, hvalues, hsteps⟩

end Plan

end Storyboard
