import Storyboard.Proofs.Document.Tables

/-! # Unknown names

Names that are no properties are a fault, or are ignored. Ignoring them is the same as taking
them out of the document first, and makes no difference to documents without them.
-/

namespace Storyboard

/-- Unknown names are ignored. -/
def Config.ignoring (config : Config) : Config :=
  { config with unknownNames := .ignore }

/-- Unknown names are a fault. -/
def Config.rejecting (config : Config) : Config :=
  { config with unknownNames := .reject }

namespace Document

open Json (keys field?)

variable {ε : Type}

/-! ## Pruning -/

/-- The key is the name of a property. -/
def isName (key : String) : Bool :=
  (Property.ofName? key).isSome

/-- Takes unknown names out of a table. -/
def pruneTable : Json → Json
  | .object fields => .object (fields.filter (isName ·.1))
  | v => v

mutual

/-- Takes unknown names out of a step: out of its timeline if it has the key `steps`, else out
of the step itself. -/
def pruneStep : Json → Json
  | .object fields =>
      if (field? "steps" fields).isSome then .object (pruneFields fields)
      else .object (fields.filter (isName ·.1))
  | v => v

/-- Takes unknown names out of the parts of a timeline, whose own keys all stay. -/
def pruneFields : List (String × Json) → List (String × Json)
  | [] => []
  | (key, v) :: rest =>
      (key, if key = "steps" then pruneSteps v
        else if key = "initialValues" then pruneTable v else v) :: pruneFields rest

/-- Takes unknown names out of an array of steps. -/
def pruneSteps : Json → Json
  | .array items => .array (pruneItems items)
  | v => v

@[inherit_doc pruneSteps]
def pruneItems : List Json → List Json
  | [] => []
  | v :: rest => pruneStep v :: pruneItems rest

end

/-- Takes unknown names out of a document, in either form of a record. -/
def prune : Json → Json
  | .object fields => .object (pruneFields fields)
  | .array [steps] => .array [pruneSteps steps]
  | .array (steps :: initial :: rest) => .array (pruneSteps steps :: pruneTable initial :: rest)
  | v => v

/-- What pruning does to a part of a timeline. -/
def prunePart (key : String) (v : Json) : Json :=
  if key = "steps" then pruneSteps v else if key = "initialValues" then pruneTable v else v

theorem pruneFields_eq_mapValues (fields : List (String × Json)) :
    pruneFields fields = Json.mapValues prunePart fields := by
  induction fields with
  | nil => rfl
  | cons f rest ih =>
      rw [pruneFields, ih]
      rfl

theorem keys_pruneFields (fields : List (String × Json)) :
    keys (pruneFields fields) = keys fields := by
  rw [pruneFields_eq_mapValues, Json.keys_mapValues]

theorem field?_pruneFields (key : String) (fields : List (String × Json)) :
    field? key (pruneFields fields) = (field? key fields).map (prunePart key) := by
  rw [pruneFields_eq_mapValues, Json.field?_mapValues]

theorem field?_filter_eq_none {key : String} {fields : List (String × Json)}
    (h : field? key fields = none) : field? key (fields.filter (isName ·.1)) = none := by
  rw [Json.field?_eq_none_iff] at h ⊢
  exact fun hmem => h ((List.filter_sublist.map _).subset hmem)

/-! ## Pruning and meaning -/

theorem canonical_pruneTable (v : Json) : (pruneTable v).canonical = pruneTable v.canonical := by
  cases v with
  | object fields =>
      change Json.object _ = Json.object _
      rw [Json.canonicalFields_filter]
  | _ => rfl

mutual

theorem canonical_pruneStep : (v : Json) → (pruneStep v).canonical = pruneStep v.canonical
  | .object fields => by
      rw [pruneStep, Json.canonical, pruneStep]
      simp only [Json.field?_isSome_iff, Json.mem_keys_canonicalFields]
      split
      · rw [Json.canonical, canonicalFields_pruneFields fields]
      · rw [Json.canonical, Json.canonicalFields_filter]
  | .array _ | .null | .bool _ | .number _ | .string _ | .meaningless => rfl

theorem canonicalFields_pruneFields :
    (fields : List (String × Json)) →
      Json.canonicalFields (pruneFields fields) = pruneFields (Json.canonicalFields fields)
  | [] => rfl
  | (key, v) :: rest => by
      have hpart : (prunePart key v).canonical = prunePart key v.canonical := by
        unfold prunePart
        split
        · exact canonical_pruneSteps v
        · split
          · exact canonical_pruneTable v
          · rfl
      have hrest := canonicalFields_pruneFields rest
      -- what becomes of a value depends on its key alone, and not on other fields
      rw [pruneFields_eq_mapValues, pruneFields_eq_mapValues] at hrest ⊢
      rw [Json.canonicalFields, Json.mapValues_addField, ← hrest, ← hpart]
      rfl

theorem canonical_pruneSteps : (v : Json) → (pruneSteps v).canonical = pruneSteps v.canonical
  | .array items => by
      rw [pruneSteps, Json.canonical, Json.canonical, pruneSteps, canonicalItems_pruneItems items]
  | .object _ | .null | .bool _ | .number _ | .string _ | .meaningless => rfl

theorem canonicalItems_pruneItems :
    (items : List Json) →
      Json.canonicalItems (pruneItems items) = pruneItems (Json.canonicalItems items)
  | [] => rfl
  | v :: rest => by
      rw [pruneItems, Json.canonicalItems, Json.canonicalItems, pruneItems, canonical_pruneStep v,
        canonicalItems_pruneItems rest]

end

/-- Pruning a value and taking its meaning can be done in any order. -/
theorem canonical_prune (v : Json) : (prune v).canonical = prune v.canonical := by
  match v with
  | .object fields => exact congrArg Json.object (canonicalFields_pruneFields fields)
  | .array [] => rfl
  | .array [steps] =>
      simp only [prune, Json.canonical, Json.canonicalItems, canonical_pruneSteps]
  | .array (steps :: initial :: rest) =>
      simp only [prune, Json.canonical, Json.canonicalItems, canonical_pruneSteps,
        canonical_pruneTable]
  | .null | .bool _ | .number _ | .string _ | .meaningless => rfl

/-! ## Reading what is left -/

theorem exists_name_of_isName {key : String} (h : isName key = true) :
    ∃ p : Property, p.name = key := by
  obtain ⟨p, hp⟩ := Option.isSome_iff_exists.mp h
  exact ⟨p, Property.name_of_ofName? hp⟩

theorem isName_name (p : Property) : isName p.name = true := by
  unfold isName
  rw [p.ofName?_name]
  rfl

theorem name_ne_of_not_isName {key : String} (h : ¬ isName key = true) (p : Property) :
    p.name ≠ key := by
  rintro rfl
  exact h (isName_name p)

variable (config : Config)

/-- Ignored entries of a table may as well not be there. -/
theorem readTable_filter {β γ : Type} (read : Property → Json → Except TimelineError β)
    (set : γ → Property → β → γ) (fields : List (String × Json)) (table : γ) :
    readTable config.rejecting read set (fields.filter (isName ·.1)) table =
      readTable config.ignoring read set fields table := by
  induction fields generalizing table with
  | nil => rfl
  | cons f rest ih =>
      obtain ⟨key, v⟩ := f
      by_cases hname : isName key = true
      · obtain ⟨p, rfl⟩ := exists_name_of_isName hname
        rw [List.filter_cons, if_pos hname, readTable_property, readTable_property]
        cases read p v with
        | error e => rfl
        | ok entry => exact ih (set table p entry)
      · rw [List.filter_cons, if_neg hname, readTable_unknown (name_ne_of_not_isName hname)]
        exact ih table

theorem stepConfig_filter (step : Nat) (fields : List (String × Json)) (c : StepConfig) :
    stepConfig config.rejecting step (fields.filter (isName ·.1)) c =
      stepConfig config.ignoring step fields c := by
  rw [stepConfig_eq_readTable, stepConfig_eq_readTable, readTable_filter]

theorem initialValues_filter (fields : List (String × Json)) (i : InitialValues) :
    initialValues config.rejecting (fields.filter (isName ·.1)) i =
      initialValues config.ignoring fields i := by
  rw [initialValues_eq_readTable, initialValues_eq_readTable, readTable_filter]

/-- The parts of a timeline without unknown names. -/
def Outline.prune (outline : Outline) : Outline :=
  ⟨pruneItems outline.steps, outline.initial.filter (isName ·.1)⟩

theorem items?_prune (part : Option Json) :
    items? (part.map pruneSteps) = (items? part).map pruneItems := by
  cases part with
  | none => rfl
  | some v => cases v <;> rfl

theorem fields?_prune (part : Option Json) :
    fields? (part.map pruneTable) = (fields? part).map (·.filter (isName ·.1)) := by
  cases part with
  | none => rfl
  | some v => cases v <;> rfl

/-- What is split off from a pruned timeline depends on nothing but its parts. -/
theorem outline?_of_record {v : Json} {steps initial : Option Json}
    (h : v.record? fieldNames .refused = some [steps, initial]) :
    outline? v = (items? steps).bind fun items =>
      (fields? initial).map fun fields => ⟨items, fields⟩ := by
  unfold outline?
  rw [h]
  cases hitems : items? steps with
  | none => simp [hitems]
  | some items => cases hfields : fields? initial <;> simp [hitems, hfields]

theorem outline?_prune_of_record {v w : Json} {steps initial : Option Json}
    (hv : v.record? fieldNames .refused = some [steps, initial])
    (hw : w.record? fieldNames .refused =
      some [steps.map pruneSteps, initial.map pruneTable]) :
    outline? w = (outline? v).map Outline.prune := by
  rw [outline?_of_record hv, outline?_of_record hw, items?_prune, fields?_prune]
  cases items? steps with
  | none => rfl
  | some items => cases fields? initial <;> rfl

theorem outline?_of_not_record {v : Json} (h : v.record? fieldNames .refused = none) :
    outline? v = none := by
  unfold outline?
  rw [h]
  rfl

theorem outline?_pruneFields (fields : List (String × Json)) :
    outline? (.object (pruneFields fields)) =
      (outline? (.object fields)).map Outline.prune := by
  have hkeys : (pruneFields fields).map (·.1) = fields.map (·.1) := keys_pruneFields fields
  have hrecord : (Json.object (pruneFields fields)).record? fieldNames .refused =
      ((Json.object fields).record? fieldNames .refused).map fun _ =>
        [(field? "steps" fields).map pruneSteps,
          (field? "initialValues" fields).map pruneTable] := by
    unfold Json.record?
    dsimp only
    rw [hkeys]
    split
    · rfl
    · split
      · rfl
      · simp only [fieldNames, List.map_cons, List.map_nil, field?_pruneFields, Option.map_some]
        rfl
  cases hfields : (Json.object fields).record? fieldNames .refused with
  | none =>
      rw [hfields] at hrecord
      rw [outline?_of_not_record hfields, outline?_of_not_record hrecord]
      rfl
  | some parts =>
      rw [hfields] at hrecord
      refine outline?_prune_of_record ?_ hrecord
      obtain ⟨-, -, rfl⟩ := record?_object.mp hfields
      exact hfields

theorem outline?_prune (v : Json) : outline? (prune v) = (outline? v).map Outline.prune := by
  match v with
  | .object fields => exact outline?_pruneFields fields
  | .array [] => rfl
  | .array [steps] => exact outline?_prune_of_record rfl rfl
  | .array [steps, initial] => exact outline?_prune_of_record rfl rfl
  | .array (steps :: initial :: v :: rest) =>
      have hrecord : ∀ a b : Json,
          (Json.array (a :: b :: v :: rest)).record? fieldNames .refused = none := by
        intro a b
        have hlong : ¬ rest.length + 3 ≤ 2 := by omega
        unfold Json.record?
        exact if_neg hlong
      change outline? (.array (pruneSteps steps :: pruneTable initial :: v :: rest)) = _
      rw [outline?_of_not_record (hrecord _ _), outline?_of_not_record (hrecord _ _)]
      rfl
  | .null | .bool _ | .number _ | .string _ | .meaningless => rfl

mutual

/-- Ignoring unknown names in a step is reading what pruning leaves of it. -/
theorem readStep_pruneStep (step : Nat) :
    (v : Json) → readStep (ε := ε) config.rejecting step (pruneStep v) =
      readStep config.ignoring step v
  | .object fields => by
      -- pruning takes no key from a timeline, and from other steps none that would make them one
      by_cases hkey : (field? "steps" fields).isSome
      · have hkey' : (field? "steps" (pruneFields fields)).isSome := by
          rw [field?_pruneFields, Option.isSome_map]
          exact hkey
        rw [pruneStep, if_pos hkey, readStep, if_pos hkey', readStep, if_pos hkey,
          outline?_pruneFields, nestedSteps_pruneFields fields]
        cases outline? (.object fields) with
        | none => rfl
        | some outline =>
            dsimp only [Option.map_some, Outline.prune]
            rw [initialValues_filter]
      · have hnone := Option.not_isSome_iff_eq_none.mp hkey
        rw [pruneStep, if_neg hkey, readStep, field?_filter_eq_none hnone, if_neg nofun,
          stepConfig_filter, readStep, if_neg hkey]
  | .array _ | .null | .bool _ | .number _ | .string _ | .meaningless => rfl

theorem nestedSteps_pruneFields :
    (fields : List (String × Json)) →
      nestedSteps (ε := ε) config.rejecting (pruneFields fields) =
        nestedSteps config.ignoring fields
  | [] => rfl
  | (key, v) :: rest => by
      rw [pruneFields, nestedSteps, nestedSteps]
      split
      · exact stepArray_pruneSteps v
      · exact nestedSteps_pruneFields rest

theorem stepArray_pruneSteps :
    (v : Json) → stepArray (ε := ε) config.rejecting (pruneSteps v) =
      stepArray config.ignoring v
  | .array items => by rw [pruneSteps, stepArray, stepArray, steps_pruneItems 0 items]
  | .object _ | .null | .bool _ | .number _ | .string _ | .meaningless => rfl

/-- Pruning leaves the numbers of steps as they are. -/
theorem steps_pruneItems (step : Nat) :
    (items : List Json) → steps (ε := ε) config.rejecting step (pruneItems items) =
      steps config.ignoring step items
  | [] => rfl
  | v :: rest => by
      rw [pruneItems, steps, steps, readStep_pruneStep step v, steps_pruneItems (step + 1) rest]

end

theorem ofJson_prune (v : Json) :
    ofJson (ε := ε) config.rejecting (prune v) = ofJson config.ignoring v := by
  unfold ofJson
  rw [canonical_prune, outline?_prune]
  cases outline? v.canonical with
  | none => rfl
  | some outline =>
      dsimp only [Option.map_some, Outline.prune]
      rw [initialValues_filter, steps_pruneItems]

/-! ## Documents that only one policy accepts -/

/-- A reading comes to the same as another one, or stops at a name that is unknown. -/
def Stricter {α : Type} (x y : Except TimelineError α) : Prop :=
  x = y ∨ ∃ name, x = .error (.unknownProperty name)

namespace Stricter

variable {α β : Type}

theorem refl (x : Except TimelineError α) : Stricter x x :=
  .inl rfl

theorem map {x y : Except TimelineError α} (h : Stricter x y) (f : α → β) :
    Stricter (x.map f) (y.map f) := by
  rcases h with rfl | ⟨name, rfl⟩
  · exact refl _
  · exact .inr ⟨name, rfl⟩

end Stricter

theorem stricter_readTable {β γ : Type} (read : Property → Json → Except TimelineError β)
    (set : γ → Property → β → γ) (fields : List (String × Json)) (table : γ) :
    Stricter (readTable config.rejecting read set fields table)
      (readTable config.ignoring read set fields table) := by
  induction fields generalizing table with
  | nil => exact .refl _
  | cons f rest ih =>
      obtain ⟨key, v⟩ := f
      by_cases hname : isName key = true
      · obtain ⟨p, rfl⟩ := exists_name_of_isName hname
        rw [readTable_property, readTable_property]
        cases read p v with
        | error e => exact .refl _
        | ok entry => exact ih (set table p entry)
      · rw [readTable_unknown (name_ne_of_not_isName hname)]
        exact .inr ⟨key, rfl⟩

theorem stricter_stepConfig (step : Nat) (fields : List (String × Json)) (c : StepConfig) :
    Stricter (stepConfig config.rejecting step fields c)
      (stepConfig config.ignoring step fields c) := by
  rw [stepConfig_eq_readTable, stepConfig_eq_readTable]
  exact stricter_readTable config _ _ _ _

theorem stricter_initialValues (fields : List (String × Json)) (i : InitialValues) :
    Stricter (initialValues config.rejecting fields i)
      (initialValues config.ignoring fields i) := by
  rw [initialValues_eq_readTable, initialValues_eq_readTable]
  exact stricter_readTable config _ _ _ _

mutual

theorem stricter_readStep (step : Nat) :
    (v : Json) → Stricter (readStep (ε := ε) config.rejecting step v)
      (readStep config.ignoring step v)
  | .object fields => by
      rw [readStep, readStep]
      split
      · cases outline? (.object fields) with
        | none => exact .refl _
        | some outline =>
            dsimp only
            rcases stricter_initialValues config outline.initial .none with hsame | ⟨name, hname⟩
            · rw [hsame]
              cases initialValues config.ignoring outline.initial .none with
              | error e => exact .refl _
              | ok initial => exact (stricter_nestedSteps fields).map (Step.nested initial)
            · rw [hname]
              exact .inr ⟨name, rfl⟩
      · exact (stricter_stepConfig config step fields .empty).map Step.configure
  | .array _ | .null | .bool _ | .number _ | .string _ | .meaningless => .refl _

theorem stricter_nestedSteps :
    (fields : List (String × Json)) →
      Stricter (nestedSteps (ε := ε) config.rejecting fields)
        (nestedSteps config.ignoring fields)
  | [] => .refl _
  | (key, v) :: rest => by
      rw [nestedSteps, nestedSteps]
      split
      · exact stricter_stepArray v
      · exact stricter_nestedSteps rest

theorem stricter_stepArray :
    (v : Json) → Stricter (stepArray (ε := ε) config.rejecting v) (stepArray config.ignoring v)
  | .array items => stricter_steps 0 items
  | .object _ | .null | .bool _ | .number _ | .string _ | .meaningless => .refl _

theorem stricter_steps (step : Nat) :
    (items : List Json) → Stricter (steps (ε := ε) config.rejecting step items)
      (steps config.ignoring step items)
  | [] => .refl _
  | v :: rest => by
      rw [steps, steps]
      rcases stricter_readStep step v with hsame | ⟨name, hname⟩
      · rw [hsame]
        cases readStep config.ignoring step v with
        | error e => exact .refl _
        | ok s => exact (stricter_steps (step + 1) rest).map (s :: ·)
      · rw [hname]
        exact .inr ⟨name, rfl⟩

end

theorem stricter_ofJson (v : Json) :
    Stricter (ofJson (ε := ε) config.rejecting v) (ofJson config.ignoring v) := by
  unfold ofJson
  cases outline? v.canonical with
  | none => exact .refl _
  | some outline =>
      dsimp only
      rcases stricter_initialValues config outline.initial .none with hsame | ⟨name, hname⟩
      · rw [hsame]
        cases initialValues config.ignoring outline.initial .none with
        | error e => exact .refl _
        | ok initial => exact (stricter_steps config 0 outline.steps).map _
      · rw [hname]
        exact .inr ⟨name, rfl⟩

/-- Ignoring unknown names comes to the same, be it a timeline or a fault, as taking them out
and then having them rejected. Where rejecting succeeds, ignoring yields the same timeline,
and where only ignoring succeeds, there was an unknown name. -/
theorem ignoring_iff_pruned (v : Json) :
    ofJson (ε := ε) config.ignoring v = ofJson config.rejecting (prune v) ∧
      (∀ spec : Spec ε, ofJson config.rejecting v = .ok spec →
        ofJson config.ignoring v = .ok spec) ∧
      ∀ e, ofJson (ε := ε) config.rejecting v = .error e →
        (∃ spec : Spec ε, ofJson config.ignoring v = .ok spec) →
        ∃ name, e = .unknownProperty name := by
  refine ⟨(ofJson_prune config v).symm, ?_, ?_⟩
  · intro spec hspec
    rcases stricter_ofJson (ε := ε) config v with hsame | ⟨name, hname⟩
    · exact hsame ▸ hspec
    · cases hname.symm.trans hspec
  · rintro e he ⟨spec, hspec⟩
    rcases stricter_ofJson (ε := ε) config v with hsame | ⟨name, hname⟩
    · cases he.symm.trans (hsame.trans hspec)
    · cases he.symm.trans hname
      exact ⟨name, rfl⟩

/-- A timeline nested in another one fades out and glows, whatever that is. Rejected, the glow
is named; ignored, it is a fade. -/
theorem ignoring_iff_pruned_glow :
    let duration := Json.object [("duration", .number (.integer 100))]
    let document (fields : List (String × Json)) :=
      Json.object [("steps", .array [.object [("steps", .array [.object fields])]])]
    let fade := document [("opacity", duration)]
    let glowing := document [("glow", .null), ("opacity", duration)]
    let spec : Spec Empty := { steps := [.nested .none [.configure (StepConfig.empty.set .opacity
      { target := .fromPrevious fun previous => previous, duration := some 100 })]] }
    ofJson (Config.rejecting {}) fade = .ok spec ∧ ofJson (Config.ignoring {}) fade = .ok spec ∧
      ofJson (ε := Empty) (Config.rejecting {}) glowing = .error (.unknownProperty "glow") ∧
      ofJson (Config.ignoring {}) glowing = .ok spec ∧
      ∀ e, ofJson (ε := Empty) (Config.rejecting {}) glowing = .error e →
        ∃ name, e = .unknownProperty name := by
  intro duration document fade glowing spec
  have hprune : prune glowing = fade := rfl
  have hfade : ofJson (Config.rejecting {}) fade = .ok spec := rfl
  have hglowing : ofJson (ε := Empty) (Config.rejecting {}) glowing =
      .error (.unknownProperty "glow") := rfl
  obtain ⟨hpruned, -, hunknown⟩ := ignoring_iff_pruned (ε := Empty) {} glowing
  have hignoring : ofJson (Config.ignoring {}) glowing = .ok spec := by
    rw [hpruned, hprune, hfade]
  exact ⟨hfade, (ignoring_iff_pruned {} fade).2.1 spec hfade, hglowing, hignoring,
    fun e he => hunknown e he ⟨spec, hignoring⟩⟩

end Document

end Storyboard
