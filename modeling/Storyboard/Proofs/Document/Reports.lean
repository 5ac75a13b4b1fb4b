import Storyboard.Proofs.Compile.Faults
import Storyboard.Proofs.Document.Tables
import Storyboard.Proofs.Json.Numbers

/-! # Errors as JSON

Errors are handed on as JSON. Most of them come back as they were; but JSON has no number that
is not finite, and an error that reports such a number is written with null in its place, from
which no number can be read.
-/

namespace Storyboard

namespace TimelineError

/-! ## The number of an error -/

/-- The number that an error reports. -/
def number? : TimelineError → Option Float32
  | unknownProperty _ | parse _ => none
  | nonFiniteTarget _ _ value | invalidInitialValue _ value => some value
  | invalidDuration _ _ duration | invalidDefaultDuration duration => some duration

/-- The error with another number in place of its own. -/
def withNumber (x : Float32) : TimelineError → TimelineError
  | unknownProperty name => unknownProperty name
  | nonFiniteTarget step p _ => nonFiniteTarget step p x
  | invalidDuration step p _ => invalidDuration step p x
  | invalidDefaultDuration _ => invalidDefaultDuration x
  | invalidInitialValue p _ => invalidInitialValue p x
  | parse reason => parse reason

/-- The JSON form of an error with some value in place of its number. -/
def toJsonWith (v : Json) (e : TimelineError) : Json :=
  .object [(e.kind, .object (e.details.map fun (key, w) =>
    (key, if key = "value" ∨ key = "duration" then v else w)))]

/-- The number of the step that an error reports has at most 64 bits. -/
def StepFits : TimelineError → Prop
  | nonFiniteTarget step _ _ | invalidDuration step _ _ => step < 2 ^ 64
  | _ => True

variable {e : TimelineError} {x : Float32}

theorem withNumber_of_number? (h : e.number? = some x) : e.withNumber x = e := by
  cases e <;> cases h <;> rfl

theorem toJson_eq_toJsonWith (h : e.number? = some x) : e.toJson = e.toJsonWith (.ofSingle x) := by
  cases e <;> cases h <;> simp [toJson, toJsonWith, details]

theorem toJson_of_number?_eq_none (h : e.number? = none) (v : Json) :
    e.toJson = e.toJsonWith v := by
  cases e <;> cases h <;> simp [toJson, toJsonWith, details]

/-- From the JSON form of an error with some value in place of the number, the error is read
with the number that this value is. -/
theorem ofJson?_toJsonWith (h : e.number? = some x) (v : Json) :
    ofJson? (e.toJsonWith v) = v.single?.map (e.withNumber ·) := by
  cases hv : v.single? <;> cases e <;> cases h <;>
    simp [toJsonWith, kind, details, ofJson?, ofDetails?, details?, Json.record?, Json.field?,
      step?, property?, Json.tag?, hv, withNumber]

theorem ofJson?_of_number?_eq_none (h : e.number? = none) : ofJson? e.toJson = some e := by
  cases e <;> cases h <;>
    simp [toJson, kind, details, ofJson?, ofDetails?, details?, Json.record?, Json.field?,
      Json.string?]

/-- Names and step numbers are read as they are written. -/
theorem reread_toJsonWith (h : e.StepFits) {v w : Json} (hv : v.reread = some w) :
    (e.toJsonWith v).reread = some (e.toJsonWith w) := by
  have hstep : ∀ {step : ℕ}, step < 2 ^ 64 →
      Json.ofWord? (Json.Number.integer step).text.toList = some (.number (.integer step)) :=
    Json.ofWord?_repr
  cases e with
  | nonFiniteTarget step p value =>
      simp [toJsonWith, details, kind, Json.reread, Json.rereadFields, hv, hstep h]
  | invalidDuration step p duration =>
      simp [toJsonWith, details, kind, Json.reread, Json.rereadFields, hv, hstep h]
  | _ => simp [toJsonWith, details, kind, Json.reread, Json.rereadFields, hv]

/-! ## Survival -/

/-- The error that is read from the text of another one. -/
def throughText (e : TimelineError) : Option TimelineError :=
  (Json.ofText? e.toJson.text).bind ofJson?

/-- An error comes back from its JSON form, as a value and as a text. -/
def Survives (e : TimelineError) : Prop :=
  ofJson? e.toJson = some e ∧ e.throughText = some e

/-- No error can be read from the JSON form of an error, be it as a value or as a text. -/
def IsLost (e : TimelineError) : Prop :=
  ofJson? e.toJson = none ∧ e.throughText = none

theorem throughText_eq (h : e.number? = some x) (hstep : e.StepFits) {w : Json}
    (hw : (Json.ofSingle x).reread = some w) :
    e.throughText = w.single?.map (e.withNumber ·) := by
  rw [throughText, Json.ofText?_text, toJson_eq_toJsonWith h, reread_toJsonWith hstep hw,
    Option.bind_some, ofJson?_toJsonWith h]

theorem survives_of_number?_eq_none (h : e.number? = none) (hstep : e.StepFits) : e.Survives := by
  refine ⟨ofJson?_of_number?_eq_none h, ?_⟩
  have hread : (e.toJsonWith .null).reread = some (e.toJsonWith .null) :=
    reread_toJsonWith hstep rfl
  rw [throughText, Json.ofText?_text, toJson_of_number?_eq_none h .null, hread, Option.bind_some,
    ← toJson_of_number?_eq_none h .null]
  exact ofJson?_of_number?_eq_none h

/-- Null stands for a number that is not finite, and is no number. -/
theorem isLost_of_not_isFinite (h : e.number? = some x) (hstep : e.StepFits)
    (hx : ¬ x.isFinite) : e.IsLost := by
  have hnull : Json.ofSingle x = .null := if_neg hx
  have hread : (Json.ofSingle x).reread = some .null := by rw [hnull, Json.reread]
  constructor
  · rw [toJson_eq_toJsonWith h, ofJson?_toJsonWith h, hnull]
    rfl
  · rw [throughText_eq h hstep hread]
    rfl

theorem survives_of_isFinite (h : e.number? = some x) (hstep : e.StepFits) (hx : x.isFinite) :
    e.Survives := by
  have hnumber : Json.ofSingle x = .number (.single x) := if_pos hx
  have hself : some (e.withNumber x) = some e := congrArg some (withNumber_of_number? h)
  obtain ⟨w, hw, hsingle⟩ := Option.bind_eq_some_iff.mp (Json.single?_reread hx)
  rw [← hnumber] at hw
  constructor
  · rw [toJson_eq_toJsonWith h, ofJson?_toJsonWith h, hnumber]
    exact hself
  · rw [throughText_eq h hstep hw, hsingle]
    exact hself

theorem IsLost.not_survives (h : e.IsLost) : ¬ e.Survives := by
  intro hsurvives
  cases h.1.symm.trans hsurvives.1

/-- Of the errors with a step number of 64 bits those survive of which no number is not finite. -/
theorem survives_iff (hstep : e.StepFits) :
    e.Survives ↔ ∀ x, e.number? = some x → x.isFinite := by
  cases hnumber : e.number? with
  | none => simpa using survives_of_number?_eq_none hnumber hstep
  | some x =>
      constructor
      · rintro hsurvives _ ⟨⟩
        by_contra hx
        exact (isLost_of_not_isFinite hnumber hstep hx).not_survives hsurvives
      · exact fun hfinite => survives_of_isFinite hnumber hstep (hfinite x rfl)

/-- Errors that differ only in numbers that are not finite have the same JSON form. -/
theorem toJson_withNumber {y : Float32} (h : e.number? = some x) (hx : ¬ x.isFinite)
    (hy : ¬ y.isFinite) : (e.withNumber y).toJson = e.toJson := by
  have hnull : ∀ z : Float32, ¬ z.isFinite → Json.ofSingle z = .null := fun _ hz => if_neg hz
  cases e <;> cases h <;> simp [withNumber, toJson, kind, details, hnull _ hx, hnull _ hy]

end TimelineError

/-! ## The errors of loading -/

namespace Document

variable {ε : Type} {config : Config} {e : TimelineError}

theorem number?_propertyConfig {step : ℕ} {p : Property} {v : Json}
    (h : propertyConfig step p v = .error e) : e.number? = none := by
  unfold propertyConfig at h
  dsimp only at h
  split at h
  · cases h
    rfl
  · cases h
  · next easing _ =>
    obtain herror := Except.map_eq_error.mp h
    unfold EasingEntry.resolve at herror
    split at herror
    · split at herror <;> cases herror
      rfl
    · cases herror

theorem number?_readSeed {p : Property} {v : Json} (h : readSeed p v = .error e) :
    e.number? = none := by
  unfold readSeed at h
  split at h <;> cases h
  rfl

theorem number?_property? {key : String} (h : property? config key = .error e) :
    e.number? = none := by
  unfold property? at h
  split at h <;> cases h
  rfl

theorem number?_readTable {β γ : Type} {read : Property → Json → Except TimelineError β}
    {set : γ → Property → β → γ} (hread : ∀ p v, read p v = .error e → e.number? = none)
    {fields : List (String × Json)} {table : γ}
    (h : readTable config read set fields table = .error e) : e.number? = none := by
  induction fields generalizing table with
  | nil => cases h
  | cons f rest ih =>
      obtain ⟨key, v⟩ := f
      rw [readTable] at h
      split at h
      · next e' hkey =>
        cases h
        exact number?_property? hkey
      · exact ih h
      · next p hkey =>
        split at h
        · next e' hentry =>
          cases h
          exact hread p v hentry
        · exact ih h

theorem number?_initialValues {fields : List (String × Json)} {i : InitialValues}
    (h : initialValues config fields i = .error e) : e.number? = none := by
  rw [initialValues_eq_readTable] at h
  exact number?_readTable (fun _ _ => number?_readSeed) h

theorem number?_stepConfig {step : ℕ} {fields : List (String × Json)} {c : StepConfig}
    (h : stepConfig config step fields c = .error e) : e.number? = none := by
  rw [stepConfig_eq_readTable] at h
  exact number?_readTable (fun _ _ => number?_propertyConfig) h

mutual

theorem number?_steps : (vs : List Json) → ∀ {step : ℕ},
    steps (ε := ε) config step vs = .error e → e.number? = none
  | [], _, h => by cases h
  | v :: rest, step, h => by
      rw [steps] at h
      split at h
      · next e' hv =>
        cases h
        exact number?_readStep v hv
      · exact number?_steps rest (Except.map_eq_error.mp h)

theorem number?_readStep : (v : Json) → ∀ {step : ℕ},
    readStep (ε := ε) config step v = .error e → e.number? = none
  | .object fields, step, h => by
      rw [readStep] at h
      split at h
      · split at h
        · cases h
          rfl
        · split at h
          · next e' hinitial =>
            cases h
            exact number?_initialValues hinitial
          · exact number?_nestedSteps fields (Except.map_eq_error.mp h)
      · exact number?_stepConfig (Except.map_eq_error.mp h)
  | .null, _, h | .bool _, _, h | .number _, _, h | .string _, _, h | .array _, _, h
  | .meaningless, _, h => by
      cases h
      rfl

theorem number?_nestedSteps : (fields : List (String × Json)) →
    nestedSteps (ε := ε) config fields = .error e → e.number? = none
  | [], h => by cases h
  | (key, v) :: rest, h => by
      rw [nestedSteps] at h
      split at h
      · exact number?_stepArray v h
      · exact number?_nestedSteps rest h

theorem number?_stepArray : (v : Json) →
    stepArray (ε := ε) config v = .error e → e.number? = none
  | .array items, h => number?_steps items h
  | .null, h | .bool _, h | .number _, h | .string _, h | .object _, h | .meaningless, h => by
      cases h
      rfl

end

theorem number?_ofJson {v : Json} (h : ofJson (ε := ε) config v = .error e) :
    e.number? = none := by
  unfold ofJson at h
  split at h
  · cases h
    rfl
  · split at h
    · next e' hinitial =>
      cases h
      exact number?_initialValues hinitial
    · exact number?_steps _ (Except.map_eq_error.mp h)

/-- No error of loading reports a number. -/
theorem number?_ofText {text : String} (h : ofText (ε := ε) config text = .error e) :
    e.number? = none := by
  unfold ofText at h
  split at h
  · cases h
    rfl
  · split at h
    · exact number?_ofJson h
    · cases h
      rfl

end Document

/-! ## The errors of compiling -/

namespace TimelineError

variable {ε : Type} {config : Config} {initial : InitialValues} {steps : List (FlatStep ε)}
  {e : TimelineError}

theorem stepFits_of_number?_eq_none (h : e.number? = none) : e.StepFits := by
  cases e <;> trivial

/-- A list of steps that can be counted with 64 bits has step numbers of 64 bits. -/
theorem stepFits_of_compile (hlength : steps.length ≤ 2 ^ 64)
    (h : Plan.compile config initial steps = .error e) : e.StepFits := by
  cases Plan.compile_eq_error_iff.mp h with
  | defaultDuration | initialValue => trivial
  | step _ _ fault _ =>
      obtain ⟨step, hstep, hfault⟩ := fault
      have hlt := (List.getElem?_eq_some_iff.mp hstep).1.trans_le hlength
      cases hfault with
      | target | duration => exact hlt

/-- The numbers that are reported for targets and initial values are those that are not finite. -/
theorem not_isFinite_of_compile (h : Plan.compile config initial steps = .error e)
    (hkind : e.kind = "NonFiniteTarget" ∨ e.kind = "InvalidInitialValue") :
    ∃ x, e.number? = some x ∧ ¬ x.isFinite := by
  cases Plan.compile_eq_error_iff.mp h with
  | defaultDuration => simp [kind] at hkind
  | initialValue _ _ infinite _ => exact ⟨_, rfl, infinite⟩
  | step _ _ fault _ =>
      obtain ⟨step, -, hfault⟩ := fault
      cases hfault with
      | target _ infinite => exact ⟨_, rfl, infinite⟩
      | duration => simp [kind] at hkind

theorem kind_of_number?_eq_none (h : e.number? = none) :
    ¬ (e.kind = "NonFiniteTarget" ∨ e.kind = "InvalidInitialValue") := by
  cases e <;> cases h <;> simp [kind]

/-- Loading a document, from a text or a value, or compiling steps ends with this error. There
are at most as many steps as 64 bits can count. -/
inductive Reported (ε : Type) : TimelineError → Prop
  | ofText {config : Config} {text : String} {e : TimelineError}
      (h : Document.ofText (ε := ε) config text = .error e) : Reported ε e
  | ofJson {config : Config} {v : Json} {e : TimelineError}
      (h : Document.ofJson (ε := ε) config v = .error e) : Reported ε e
  | compile {config : Config} {initial : InitialValues} {steps : List (FlatStep ε)}
      {e : TimelineError} (length : steps.length ≤ 2 ^ 64)
      (h : Plan.compile config initial steps = .error e) : Reported ε e
  | ofSpec {config : Config} {spec : Spec ε} {e : TimelineError}
      (length : spec.flatten.length ≤ 2 ^ 64)
      (h : Script.ofSpec config spec = .error e) : Reported ε e

theorem Reported.stepFits (h : Reported ε e) : e.StepFits := by
  cases h with
  | ofText h => exact stepFits_of_number?_eq_none (Document.number?_ofText h)
  | ofJson h => exact stepFits_of_number?_eq_none (Document.number?_ofJson h)
  | compile length h => exact stepFits_of_compile length h
  | ofSpec length h => exact stepFits_of_compile length (Script.ofSpec_eq_error_iff.mp h)

@[inherit_doc not_isFinite_of_compile]
theorem Reported.not_isFinite (h : Reported ε e)
    (hkind : e.kind = "NonFiniteTarget" ∨ e.kind = "InvalidInitialValue") :
    ∃ x, e.number? = some x ∧ ¬ x.isFinite := by
  cases h with
  | ofText h => exact absurd hkind (kind_of_number?_eq_none (Document.number?_ofText h))
  | ofJson h => exact absurd hkind (kind_of_number?_eq_none (Document.number?_ofJson h))
  | compile _ h => exact not_isFinite_of_compile h hkind
  | ofSpec _ h => exact not_isFinite_of_compile (Script.ofSpec_eq_error_iff.mp h) hkind

/-- Of the errors that loading and compiling end with, those come back from their JSON form that do
not report a number that is not finite. The others are lost: no error can be read from their JSON
form, and it does not even tell which number it was. All errors about a target or an initial value
are among them. -/
theorem survives_iff_of_reported (h : Reported ε e) :
    (e.Survives ↔ ∀ x, e.number? = some x → x.isFinite) ∧
      (¬ e.Survives → e.IsLost ∧ ∀ y : Float32, ¬ y.isFinite → (e.withNumber y).toJson = e.toJson) ∧
      (e.kind = "NonFiniteTarget" ∨ e.kind = "InvalidInitialValue" → e.IsLost) := by
  have hsurvives := survives_iff h.stepFits
  refine ⟨hsurvives, fun hnot => ?_, fun hkind => ?_⟩
  · rw [hsurvives] at hnot
    push Not at hnot
    obtain ⟨x, hnumber, hx⟩ := hnot
    exact ⟨isLost_of_not_isFinite hnumber h.stepFits hx,
      fun y hy => toJson_withNumber hnumber hx hy⟩
  · obtain ⟨x, hnumber, hx⟩ := h.not_isFinite hkind
    exact isLost_of_not_isFinite hnumber h.stepFits hx

/-- A negative default duration. -/
theorem survives_iff_of_reported_negative :
    Reported Unit (invalidDefaultDuration (-5)) ∧ (invalidDefaultDuration (-5)).Survives := by
  have hcompile : Plan.compile (ε := Unit) { defaultDuration := -5 } .none [] =
      .error (invalidDefaultDuration (-5)) :=
    Plan.compile_eq_error_iff.mpr (.defaultDuration (.inr (by decide +kernel)))
  have hreported : Reported Unit (invalidDefaultDuration (-5)) := .compile (Nat.zero_le _) hcompile
  refine ⟨hreported, (survives_iff_of_reported hreported).1.mpr ?_⟩
  rintro _ ⟨⟩
  decide +kernel

/-- A target may be beyond the range of binary32; then null is written for it. -/
theorem infinite_opacity_lost :
    let text := "\x7b\"steps\":[\x7b\"opacity\":\x7b\"to\":1e39\x7d\x7d]\x7d"
    let load : Except TimelineError (Script Unit) := do
      Script.ofSpec {} (← Document.ofText {} text)
    let written := "\x7b\"NonFiniteTarget\":\x7b" ++
      "\"step\":0,\"property\":\"opacity\",\"value\":null\x7d\x7d"
    ∃ e, load = .error e ∧ e.toJson.text = written ∧ e.IsLost := by
  intro text load written
  have hlost : (load.map fun _ => ()).mapError (fun e =>
      (e.toJson.text, (ofJson? e.toJson).isSome, e.throughText.isSome)) =
        .error (written, false, false) := by
    decide +kernel
  cases hload : load with
  | ok script =>
      rw [hload] at hlost
      cases hlost
  | error e =>
      rw [hload] at hlost
      simp only [Except.map, Except.mapError, Except.error.injEq, Prod.mk.injEq,
        Option.isSome_eq_false_iff, Option.isNone_iff_eq_none] at hlost
      exact ⟨e, rfl, hlost⟩

end TimelineError

end Storyboard
