import Mathlib.Data.List.Forall2
import Storyboard.Proofs.Compile.Recurrence
import Storyboard.Proofs.Document.Tables

/-! # The grammar of timeline documents

Which JSON values are timelines, and which timeline each of them is, as a grammar: one
relation for each kind of part, with a rule for each of its forms. Loading accepts exactly
the values of the grammar.
-/

namespace Storyboard

theorem Easing.ofName?_eq_some_iff {name : String} {easing : Easing} :
    ofName? name = some easing ↔
      (name, easing) ∈ [("linear", linear), ("ease", ease), ("easeIn", easeIn),
        ("easeOut", easeOut), ("easeInOut", easeInOut)] := by
  simp only [List.mem_cons, Prod.mk.injEq, List.not_mem_nil, or_false]
  unfold ofName?
  split <;> simp_all [eq_comm]

namespace Document

open Json (keys field?)

variable {ε : Type}

/-! ## Rules -/

/-- A target is a number, or an object with a number to add or to multiply by. If both are
given, the one to add counts. An absent target is the previous value. -/
inductive SpellsTarget : Option Json → Target → Prop
  | absent : SpellsTarget none (.fromPrevious fun previous => previous)
  | null : SpellsTarget (some .null) (.fromPrevious fun previous => previous)
  | number (n : Json.Number) : SpellsTarget (some (.number n)) (.value n.toSingle)
  | summand {fields : List (String × Json)} {n : Json.Number} :
      field? "add" fields = some (.number n) →
      SpellsTarget (some (.object fields)) (.fromPrevious fun previous => previous + n.toSingle)
  | factor {fields : List (String × Json)} {n : Json.Number} :
      (∀ m, field? "add" fields ≠ some (.number m)) →
      field? "multiply" fields = some (.number n) →
      SpellsTarget (some (.object fields)) (.fromPrevious fun previous => previous * n.toSingle)

/-- A duration is a number, or absent. -/
inductive SpellsDuration : Option Json → Option Float32 → Prop
  | absent : SpellsDuration none none
  | null : SpellsDuration (some .null) none
  | number (n : Json.Number) : SpellsDuration (some (.number n)) (some n.toSingle)

/-- An easing has one of five names, or is an object with four numbers, or is absent. -/
inductive SpellsEasing : Option Json → Option Easing → Prop
  | absent : SpellsEasing none none
  | null : SpellsEasing (some .null) none
  | named {name : String} {easing : Easing} :
      (name, easing) ∈ [("linear", Easing.linear), ("ease", .ease), ("easeIn", .easeIn),
        ("easeOut", .easeOut), ("easeInOut", .easeInOut)] →
      SpellsEasing (some (.string name)) (some easing)
  | curve {fields : List (String × Json)} {x₁ y₁ x₂ y₂ : Json.Number} :
      field? "cubicBezier" fields =
        some (.array [.number x₁, .number y₁, .number x₂, .number y₂]) →
      SpellsEasing (some (.object fields))
        (some (.cubicBezier ⟨x₁.toSingle, y₁.toSingle, x₂.toSingle, y₂.toSingle⟩))

/-- What a step does with a property is a record of target, duration and easing. -/
inductive SpellsEntry (v : Json) (c : PropertyConfig) : Prop
  | record {target duration easing : Option Json} :
      HasParts ["to", "duration", "easing"] v [target, duration, easing] →
      SpellsTarget target c.target → SpellsDuration duration c.duration →
      SpellsEasing easing c.easing → SpellsEntry v c

/-- An initial value is a number, or an array of one number. -/
inductive SpellsSeed : Json → Float32 → Prop
  | number (n : Json.Number) : SpellsSeed (.number n) n.toSingle
  | single (n : Json.Number) : SpellsSeed (.array [.number n]) n.toSingle

/-- In a table all keys are known, and there is an entry for each property that is one of
them. What stands under other keys does not matter. -/
structure SpellsTable {β : Type} (config : Config) (entry : Json → β → Prop)
    (fields : List (String × Json)) (get : Property → Option β) : Prop where
  known : ∀ f ∈ fields, Known config f.1
  entries : ∀ p, Option.Rel entry (field? p.name fields) (get p)

/-- Initial values are a table, or absent. -/
inductive SpellsInitial (config : Config) : Option Json → InitialValues → Prop
  | absent : SpellsInitial config none .none
  | table {fields : List (String × Json)} {initial : InitialValues} :
      SpellsTable config SpellsSeed fields initial.get? →
      SpellsInitial config (some (.object fields)) initial

mutual

/-- A step is an object. With a key `steps` it is a timeline, else it is a table of what it
does with properties. -/
inductive SpellsStep (config : Config) : Json → Step ε → Prop
  | nested {fields : List (String × Json)} {spec : Spec ε} :
      "steps" ∈ keys fields → SpellsTimeline config (.object fields) spec →
      SpellsStep config (.object fields) (.nested spec.initial spec.steps)
  | configure {fields : List (String × Json)} {c : StepConfig} :
      "steps" ∉ keys fields → SpellsTable config SpellsEntry fields c.get? →
      SpellsStep config (.object fields) (.configure c)

/-- Steps are an array, or absent. -/
inductive SpellsSteps (config : Config) : Option Json → List (Step ε) → Prop
  | absent : SpellsSteps config none []
  | array {items : List Json} {steps : List (Step ε)} :
      List.Forall₂ (SpellsStep config) items steps →
      SpellsSteps config (some (.array items)) steps

/-- A timeline is a record of steps and initial values. -/
inductive SpellsTimeline (config : Config) : Json → Spec ε → Prop
  | record {v : Json} {steps initial : Option Json} {spec : Spec ε} :
      HasParts ["steps", "initialValues"] v [steps, initial] →
      SpellsSteps config steps spec.steps → SpellsInitial config initial spec.initial →
      SpellsTimeline config v spec

end

/-! ## Parts without steps -/

theorem single?_eq_some_iff {v : Json} {x : Float32} :
    v.single? = some x ↔ ∃ n, v = .number n ∧ n.toSingle = x := by
  cases v with
  | number n => exact Option.some_inj.trans ⟨fun h => ⟨n, rfl, h⟩, by rintro ⟨_, ⟨rfl⟩, h⟩; exact h⟩
  | _ => exact ⟨nofun, by rintro ⟨_, ⟨⟩, _⟩⟩

/-- A number that an object may have under a key. -/
theorem bind_single?_eq_some_iff {part : Option Json} {x : Float32} :
    part.bind Json.single? = some x ↔ ∃ n, part = some (.number n) ∧ n.toSingle = x := by
  rw [Option.bind_eq_some_iff]
  constructor
  · rintro ⟨v, rfl, hv⟩
    obtain ⟨n, rfl, hn⟩ := single?_eq_some_iff.mp hv
    exact ⟨n, rfl, hn⟩
  · rintro ⟨n, rfl, hn⟩
    exact ⟨_, rfl, single?_eq_some_iff.mpr ⟨n, rfl, hn⟩⟩

theorem target?_eq_some_iff {part : Option Json} {t : Target} :
    target? part = some t ↔ SpellsTarget part t := by
  constructor
  · intro h
    unfold target? at h
    split at h
    · cases h
      exact .absent
    · cases h
      exact .null
    · cases h
      exact .number _
    · next fields =>
      cases hadd : (field? "add" fields).bind Json.single? with
      | some x =>
          rw [hadd] at h
          cases h
          obtain ⟨n, hn, rfl⟩ := bind_single?_eq_some_iff.mp hadd
          exact .summand hn
      | none =>
          rw [hadd] at h
          obtain ⟨x, hx, rfl⟩ := Option.map_eq_some_iff.mp h
          obtain ⟨n, hn, rfl⟩ := bind_single?_eq_some_iff.mp hx
          refine .factor (fun m hm => ?_) hn
          cases hadd.symm.trans (bind_single?_eq_some_iff.mpr ⟨m, hm, rfl⟩)
    · cases h
  · rintro (_ | _ | n | hadd | ⟨hadd, hmultiply⟩)
    · rfl
    · rfl
    · rfl
    · unfold target?
      dsimp only
      rw [bind_single?_eq_some_iff.mpr ⟨_, hadd, rfl⟩]
    · next fields n =>
      have hnone : (field? "add" fields).bind Json.single? = none := by
        rw [Option.eq_none_iff_forall_ne_some]
        intro x hx
        obtain ⟨m, hm, -⟩ := bind_single?_eq_some_iff.mp hx
        exact hadd m hm
      unfold target?
      dsimp only
      rw [hnone, bind_single?_eq_some_iff.mpr ⟨n, hmultiply, rfl⟩]
      rfl

theorem duration?_eq_some_iff {part : Option Json} {d : Option Float32} :
    duration? part = some d ↔ SpellsDuration part d := by
  constructor
  · intro h
    unfold duration? at h
    split at h
    · cases h
      exact .absent
    · cases h
      exact .null
    · obtain ⟨x, hx, rfl⟩ := Option.map_eq_some_iff.mp h
      obtain ⟨n, rfl, rfl⟩ := single?_eq_some_iff.mp hx
      exact .number n
  · rintro (_ | _ | n) <;> rfl

/-- The easing of an entry by the rules, given as it was read. -/
theorem exists_easing?_iff {part : Option Json} {easing : Option Easing} :
    (∃ entry, easing? part = some entry ∧
      match entry with
      | none => easing = none
      | some e => ∃ resolved, e.resolve = .ok resolved ∧ easing = some resolved) ↔
      SpellsEasing part easing := by
  constructor
  · rintro ⟨entry, hentry, heasing⟩
    unfold easing? at hentry
    split at hentry
    · cases hentry
      subst heasing
      exact .absent
    · cases hentry
      subst heasing
      exact .null
    · next name =>
      cases hentry
      obtain ⟨resolved, hresolved, rfl⟩ := heasing
      unfold EasingEntry.resolve at hresolved
      dsimp only at hresolved
      split at hresolved
      · next e hname =>
        cases hresolved
        exact .named (Easing.ofName?_eq_some_iff.mp hname)
      · cases hresolved
    · next fields =>
      obtain ⟨points, hpoints, rfl⟩ := Option.map_eq_some_iff.mp hentry
      obtain ⟨resolved, hresolved, rfl⟩ := heasing
      cases hresolved
      obtain ⟨v, hfield, hv⟩ := Option.bind_eq_some_iff.mp hpoints
      unfold points? at hv
      split at hv
      · simp only [Option.bind_eq_bind, Option.bind_eq_some_iff, Option.pure_def,
          Option.some_inj] at hv
        obtain ⟨_, h₁, _, h₂, _, h₃, _, h₄, rfl⟩ := hv
        obtain ⟨n₁, rfl, rfl⟩ := single?_eq_some_iff.mp h₁
        obtain ⟨n₂, rfl, rfl⟩ := single?_eq_some_iff.mp h₂
        obtain ⟨n₃, rfl, rfl⟩ := single?_eq_some_iff.mp h₃
        obtain ⟨n₄, rfl, rfl⟩ := single?_eq_some_iff.mp h₄
        exact .curve hfield
      · cases hv
    · cases hentry
  · rintro (_ | _ | hname | hfield)
    · exact ⟨none, rfl, rfl⟩
    · exact ⟨none, rfl, rfl⟩
    · refine ⟨_, rfl, _, ?_, rfl⟩
      unfold EasingEntry.resolve
      dsimp only
      rw [Easing.ofName?_eq_some_iff.mpr hname]
    · refine ⟨some (.curve _), ?_, _, rfl, rfl⟩
      unfold easing?
      dsimp only
      rw [hfield]
      rfl

/-- An entry that is a record is read part by part. -/
theorem propertyConfig_of_record {step : Nat} {p : Property} {v : Json}
    {target duration easing : Option Json}
    (h : v.record? ["to", "duration", "easing"] .refused = some [target, duration, easing]) :
    propertyConfig step p v =
      match target? target, duration? duration, easing? easing with
      | some t, some d, some none => .ok { target := t, duration := d }
      | some t, some d, some (some e) =>
          e.resolve.map fun e => { target := t, duration := d, easing := some e }
      | _, _, _ => .error (malformedEntry step p) := by
  unfold propertyConfig
  rw [h]
  cases ht : target? target with
  | none => simp [ht]
  | some t =>
      cases hd : duration? duration with
      | none => simp [ht, hd]
      | some d =>
          cases he : easing? easing with
          | none => simp [ht, hd, he]
          | some e => cases e <;> simp [ht, hd, he]

theorem propertyConfig_eq_ok_iff {step : Nat} {p : Property} {v : Json} (hv : v.canonical = v)
    {c : PropertyConfig} : propertyConfig step p v = .ok c ↔ SpellsEntry v c := by
  constructor
  · intro h
    cases hrecord : v.record? ["to", "duration", "easing"] .refused with
    | none => simp [propertyConfig, hrecord] at h
    | some parts =>
        have hparts := (record?_eq_some_iff hv).mp hrecord
        obtain ⟨target, duration, easing, rfl⟩ := List.length_eq_three.mp hparts.length
        rw [propertyConfig_of_record hrecord] at h
        split at h
        · next t d ht hd he =>
          cases h
          exact .record hparts (target?_eq_some_iff.mp ht) (duration?_eq_some_iff.mp hd)
            (exists_easing?_iff.mp ⟨none, he, rfl⟩)
        · next t d e ht hd he =>
          obtain ⟨resolved, hresolved, rfl⟩ := Except.map_eq_ok.mp h
          exact .record hparts (target?_eq_some_iff.mp ht) (duration?_eq_some_iff.mp hd)
            (exists_easing?_iff.mp ⟨some e, he, resolved, hresolved, rfl⟩)
        · cases h
  · rintro ⟨hparts, htarget, hduration, heasing⟩
    obtain ⟨t, d, e⟩ := c
    obtain ⟨entry, hentry, hresolve⟩ := exists_easing?_iff.mpr heasing
    rw [propertyConfig_of_record ((record?_eq_some_iff hv).mpr hparts),
      target?_eq_some_iff.mpr htarget, duration?_eq_some_iff.mpr hduration, hentry]
    cases entry with
    | none =>
        dsimp only at hresolve
        rw [hresolve]
    | some entry =>
        obtain ⟨resolved, hresolved, heq⟩ := hresolve
        dsimp only at heq ⊢
        rw [hresolved, heq]
        rfl

theorem readSeed_eq_ok_iff {p : Property} {v : Json} {x : Float32} :
    readSeed p v = .ok x ↔ SpellsSeed v x := by
  have hseed : seed? v = some x ↔ SpellsSeed v x := by
    constructor
    · intro h
      unfold seed? at h
      split at h
      · obtain ⟨n, rfl, rfl⟩ := single?_eq_some_iff.mp h
        exact .single n
      · obtain ⟨n, rfl, rfl⟩ := single?_eq_some_iff.mp h
        exact .number n
    · rintro (n | n) <;> rfl
  rw [← hseed]
  unfold readSeed
  cases seed? v with
  | none => exact ⟨nofun, nofun⟩
  | some value => simp

/-! ## Tables -/

/-- Entries come from nothing if they are spelled under their names. -/
theorem enters_none_iff {β : Type} {read : Property → Json → Except TimelineError β}
    {entry : Json → β → Prop} {p : Property} {part : Option Json}
    (hread : ∀ v, part = some v → ∀ b, read p v = .ok b ↔ entry v b) {after : Option β} :
    Enters read p none after part ↔ Option.Rel entry part after := by
  cases part with
  | none =>
      cases after with
      | none => exact ⟨fun _ => .none, fun _ => rfl⟩
      | some b => exact ⟨nofun, nofun⟩
  | some v =>
      constructor
      · rintro ⟨b, hb, rfl⟩
        exact .some ((hread v rfl b).mp hb)
      · rintro (hb | _)
        exact ⟨_, (hread v rfl _).mpr hb, rfl⟩

/-- A table is read from nothing if it has the entries of the result. -/
theorem readTable_eq_ok_iff_spells {β γ : Type} {config : Config}
    {read : Property → Json → Except TimelineError β} {set : γ → Property → β → γ}
    (get : γ → Property → Option β) {entry : Json → β → Prop}
    (hset : ∀ table p b q, get (set table p b) q = if q = p then some b else get table q)
    (hext : ∀ s t : γ, (∀ p, get s p = get t p) → s = t)
    {empty : γ} (hempty : ∀ p, get empty p = none) {fields : List (String × Json)}
    (hnodup : (keys fields).Nodup)
    (hread : ∀ f ∈ fields, ∀ p b, read p f.2 = .ok b ↔ entry f.2 b) {table : γ} :
    readTable config read set fields empty = .ok table ↔
      SpellsTable config entry fields (get table) := by
  have hentries : ∀ p, Enters read p (get empty p) (get table p) (field? p.name fields) ↔
      Option.Rel entry (field? p.name fields) (get table p) := by
    intro p
    rw [hempty]
    exact enters_none_iff fun v hv => hread _ (Json.mem_of_field? hv) p
  rw [readTable_eq_ok_iff hset hext hnodup, forall_congr' hentries]
  exact ⟨fun h => ⟨h.1, h.2⟩, fun h => ⟨h.known, h.entries⟩⟩

theorem stepConfig_eq_ok_iff {config : Config} {step : Nat} {fields : List (String × Json)}
    (hfields : (Json.object fields).canonical = .object fields) {c : StepConfig} :
    stepConfig config step fields .empty = .ok c ↔
      SpellsTable config SpellsEntry fields c.get? := by
  obtain ⟨hascending, hvalues⟩ := Json.fields_of_canonical hfields
  rw [stepConfig_eq_readTable]
  refine readTable_eq_ok_iff_spells StepConfig.get? ?_ ?_ ?_ hascending.nodup
    fun f hf p b => propertyConfig_eq_ok_iff (hvalues f hf)
  · exact fun c p entry q => PropertyMap.get_set c.entries p q (some entry)
  · exact fun c d h => congrArg StepConfig.mk (PropertyMap.ext_get h)
  · exact fun p => PropertyMap.get_ofFn _ p

theorem initialValues_eq_ok_iff {config : Config} {fields : List (String × Json)}
    (hfields : (Json.object fields).canonical = .object fields) {initial : InitialValues} :
    initialValues config fields .none = .ok initial ↔
      SpellsTable config SpellsSeed fields initial.get? := by
  obtain ⟨hascending, -⟩ := Json.fields_of_canonical hfields
  rw [initialValues_eq_readTable]
  refine readTable_eq_ok_iff_spells InitialValues.get? ?_ ?_ ?_ hascending.nodup
    fun f hf p b => readSeed_eq_ok_iff
  · exact fun i p x q => PropertyMap.get_set i.values p q (some x)
  · exact fun i j h => congrArg InitialValues.mk (PropertyMap.ext_get h)
  · exact fun p => PropertyMap.get_ofFn _ p

/-! ## Steps and timelines -/

theorem outline?_eq_some_iff {v : Json} (hv : v.canonical = v) {outline : Outline} :
    outline? v = some outline ↔
      ∃ steps initial, HasParts ["steps", "initialValues"] v [steps, initial] ∧
        items? steps = some outline.steps ∧ fields? initial = some outline.initial := by
  unfold outline? fieldNames
  constructor
  · intro h
    cases hrecord : v.record? ["steps", "initialValues"] .refused with
    | none => simp [hrecord] at h
    | some parts =>
        have hparts := (record?_eq_some_iff hv).mp hrecord
        obtain ⟨steps, initial, rfl⟩ := List.length_eq_two.mp hparts.length
        simp only [hrecord, Option.bind_eq_bind, Option.bind_some, Option.bind_eq_some_iff,
          Option.pure_def, Option.some_inj] at h
        obtain ⟨items, hitems, fields, hfields, rfl⟩ := h
        exact ⟨steps, initial, hparts, hitems, hfields⟩
  · rintro ⟨steps, initial, hparts, hitems, hfields⟩
    rw [(record?_eq_some_iff hv).mpr hparts]
    simp [hitems, hfields]

theorem spellsSteps_iff {config : Config} {part : Option Json} {ss : List (Step ε)} :
    SpellsSteps config part ss ↔
      ∃ items, items? part = some items ∧ List.Forall₂ (SpellsStep config) items ss := by
  constructor
  · rintro (_ | hsteps)
    · exact ⟨[], rfl, .nil⟩
    · exact ⟨_, rfl, hsteps⟩
  · rintro ⟨items, hitems, hsteps⟩
    unfold items? at hitems
    split at hitems
    · cases hitems
      cases hsteps
      exact .absent
    · cases hitems
      exact .array hsteps
    · cases hitems

theorem spellsInitial_iff {config : Config} {part : Option Json}
    (hpart : ∀ w ∈ part, w.canonical = w) {initial : InitialValues} :
    SpellsInitial config part initial ↔
      ∃ fields, fields? part = some fields ∧
        initialValues config fields .none = .ok initial := by
  constructor
  · rintro (_ | htable)
    · exact ⟨[], rfl, rfl⟩
    · exact ⟨_, rfl, (initialValues_eq_ok_iff (hpart _ rfl)).mpr htable⟩
  · rintro ⟨fields, hfields, hinitial⟩
    unfold fields? at hfields
    split at hfields
    · cases hfields
      cases hinitial
      exact .absent
    · cases hfields
      exact .table ((initialValues_eq_ok_iff (hpart _ rfl)).mp hinitial)
    · cases hfields

/-- A timeline by the rules, with its parts split off as a reader does it. -/
theorem spellsTimeline_iff {config : Config} {v : Json} (hv : v.canonical = v) {spec : Spec ε} :
    SpellsTimeline config v spec ↔
      ∃ outline, outline? v = some outline ∧
        initialValues config outline.initial .none = .ok spec.initial ∧
        List.Forall₂ (SpellsStep config) outline.steps spec.steps := by
  constructor
  · rintro ⟨hparts, hsteps, hinitial⟩
    have hcanonical := hparts.canonical hv
    obtain ⟨items, hitems, hsteps⟩ := spellsSteps_iff.mp hsteps
    obtain ⟨fields, hfields, hinitial⟩ :=
      (spellsInitial_iff (hcanonical _ (by simp))).mp hinitial
    exact ⟨⟨items, fields⟩, (outline?_eq_some_iff hv).mpr ⟨_, _, hparts, hitems, hfields⟩,
      hinitial, hsteps⟩
  · rintro ⟨outline, houtline, hinitial, hsteps⟩
    obtain ⟨part, part', hparts, hitems, hfields⟩ := (outline?_eq_some_iff hv).mp houtline
    have hcanonical := hparts.canonical hv
    exact .record hparts (spellsSteps_iff.mpr ⟨_, hitems, hsteps⟩)
      ((spellsInitial_iff (hcanonical _ (by simp))).mpr ⟨_, hfields, hinitial⟩)

/-- With a key `steps` a step is read part by part. -/
theorem readStep_nested_eq_ok_iff {config : Config} {step : Nat} {fields : List (String × Json)}
    (hkey : (field? "steps" fields).isSome) {s : Step ε} :
    readStep config step (.object fields) = .ok s ↔
      ∃ outline initial ss, outline? (.object fields) = some outline ∧
        initialValues config outline.initial .none = .ok initial ∧
        nestedSteps config fields = .ok ss ∧ .nested initial ss = s := by
  rw [readStep, if_pos hkey]
  cases outline? (.object fields) with
  | none => exact ⟨nofun, by rintro ⟨_, _, _, ⟨⟩, -⟩⟩
  | some outline =>
      dsimp only
      cases hinitial : initialValues config outline.initial .none with
      | error e =>
          refine ⟨nofun, ?_⟩
          rintro ⟨_, _, _, ⟨rfl⟩, hok, -⟩
          cases hinitial.symm.trans hok
      | ok initial =>
          refine Except.map_eq_ok.trans ⟨?_, ?_⟩
          · rintro ⟨ss, hss, rfl⟩
            exact ⟨outline, initial, ss, rfl, hinitial, hss, rfl⟩
          · rintro ⟨_, _, ss, ⟨rfl⟩, hok, hss, rfl⟩
            cases hinitial.symm.trans hok
            exact ⟨ss, hss, rfl⟩

/-- So is a whole document. -/
theorem ofJson_eq_ok_iff_parts {config : Config} {v : Json} {spec : Spec ε} :
    ofJson config v = .ok spec ↔
      ∃ outline, outline? v.canonical = some outline ∧
        initialValues config outline.initial .none = .ok spec.initial ∧
        steps config 0 outline.steps = .ok spec.steps := by
  unfold ofJson
  cases outline? v.canonical with
  | none => exact ⟨nofun, by rintro ⟨_, ⟨⟩, -⟩⟩
  | some outline =>
      dsimp only
      cases hinitial : initialValues config outline.initial .none with
      | error e =>
          refine ⟨nofun, ?_⟩
          rintro ⟨_, ⟨rfl⟩, hok, -⟩
          cases hinitial.symm.trans hok
      | ok initial =>
          refine Except.map_eq_ok.trans ⟨?_, ?_⟩
          · rintro ⟨ss, hss, rfl⟩
            exact ⟨outline, rfl, hinitial, hss⟩
          · rintro ⟨_, ⟨rfl⟩, hok, hss⟩
            cases hinitial.symm.trans hok
            exact ⟨_, hss, rfl⟩

theorem items_canonical_of_outline? {v : Json} (hv : v.canonical = v) {outline : Outline}
    (h : outline? v = some outline) : ∀ w ∈ outline.steps, w.canonical = w := by
  obtain ⟨part, part', hparts, hitems, -⟩ := (outline?_eq_some_iff hv).mp h
  obtain ⟨items, fields⟩ := outline
  unfold items? at hitems
  split at hitems
  · cases hitems
    exact nofun
  · cases hitems
    exact Json.items_of_canonical (hparts.canonical hv _ List.mem_cons_self _ rfl)
  · cases hitems

theorem items?_field?_of_outline? {fields : List (String × Json)} {outline : Outline}
    (hfields : (Json.object fields).canonical = .object fields)
    (h : outline? (.object fields) = some outline) :
    items? (field? "steps" fields) = some outline.steps := by
  obtain ⟨steps, initial, hparts, hitems, -⟩ := (outline?_eq_some_iff hfields).mp h
  have heq : [steps, initial] = [field? "steps" fields, field? "initialValues" fields] :=
    hparts.2
  cases heq
  exact hitems

mutual

/-- Reading a list of steps succeeds with what each of them spells. -/
theorem steps_eq_ok_iff (config : Config) (step : Nat) :
    (items : List Json) → (∀ v ∈ items, v.canonical = v) → (ss : List (Step ε)) →
      (steps config step items = .ok ss ↔ List.Forall₂ (SpellsStep config) items ss)
  | [], _, ss => by
      rw [steps, List.forall₂_nil_left_iff]
      exact ⟨by rintro ⟨⟩; rfl, by rintro rfl; rfl⟩
  | v :: rest, h, ss => by
      obtain ⟨hv, hrest⟩ := List.forall_mem_cons.mp h
      have hhead := readStep_eq_ok_iff config step v hv
      have htail := steps_eq_ok_iff config (step + 1) rest hrest
      rw [steps, List.forall₂_cons_left_iff]
      cases hread : readStep config step v with
      | error e =>
          refine ⟨nofun, ?_⟩
          rintro ⟨s, -, hs, -⟩
          cases hread.symm.trans ((hhead s).mpr hs)
      | ok s =>
          refine Except.map_eq_ok.trans ⟨?_, ?_⟩
          · rintro ⟨ss, hss, rfl⟩
            exact ⟨s, ss, (hhead s).mp hread, (htail ss).mp hss, rfl⟩
          · rintro ⟨s', ss, hs', hss, rfl⟩
            cases hread.symm.trans ((hhead s').mpr hs')
            exact ⟨ss, (htail ss).mpr hss, rfl⟩

@[inherit_doc steps_eq_ok_iff]
theorem readStep_eq_ok_iff (config : Config) (step : Nat) :
    (v : Json) → v.canonical = v → (s : Step ε) →
      (readStep config step v = .ok s ↔ SpellsStep config v s)
  | .object fields, hv, s => by
      by_cases hkey : (field? "steps" fields).isSome
      · have hmem := Json.field?_isSome_iff.mp hkey
        -- the outline is split off first, but the steps are read from the fields once more
        have hsteps : ∀ outline, outline? (.object fields) = some outline →
            ∀ ss : List (Step ε), nestedSteps config fields = .ok ss ↔
              List.Forall₂ (SpellsStep config) outline.steps ss := by
          intro outline houtline ss
          rw [nestedSteps_eq_ok_iff config fields (Json.fields_of_canonical hv).2 ss,
            spellsSteps_iff, items?_field?_of_outline? hv houtline]
          simp
        rw [readStep_nested_eq_ok_iff hkey]
        constructor
        · rintro ⟨outline, initial, ss, houtline, hinitial, hss, rfl⟩
          have htimeline : SpellsTimeline config (.object fields) ⟨ss, initial⟩ :=
            (spellsTimeline_iff hv).mpr
              ⟨outline, houtline, hinitial, (hsteps outline houtline ss).mp hss⟩
          exact .nested hmem htimeline
        · rintro (⟨-, htimeline⟩ | ⟨hnot, -⟩)
          · obtain ⟨outline, houtline, hinitial, hss⟩ := (spellsTimeline_iff hv).mp htimeline
            exact ⟨outline, _, _, houtline, hinitial, (hsteps outline houtline _).mpr hss, rfl⟩
          · exact absurd hmem hnot
      · have hmem := mt Json.field?_isSome_iff.mpr hkey
        rw [readStep, if_neg hkey]
        refine Except.map_eq_ok.trans ⟨?_, ?_⟩
        · rintro ⟨c, hc, rfl⟩
          exact .configure hmem ((stepConfig_eq_ok_iff hv).mp hc)
        · rintro (⟨hyes, -⟩ | ⟨-, htable⟩)
          · exact absurd hyes hmem
          · exact ⟨_, (stepConfig_eq_ok_iff hv).mpr htable, rfl⟩
  | .null, _, _ | .bool _, _, _ | .number _, _, _ | .string _, _, _ | .array _, _, _
  | .meaningless, _, _ => ⟨nofun, nofun⟩

/-- The steps of a nested timeline are those that stand under its key. -/
theorem nestedSteps_eq_ok_iff (config : Config) :
    (fields : List (String × Json)) → (∀ f ∈ fields, f.2.canonical = f.2) →
      (ss : List (Step ε)) →
      (nestedSteps config fields = .ok ss ↔ SpellsSteps config (field? "steps" fields) ss)
  | [], _, ss => by
      rw [nestedSteps]
      exact ⟨by rintro ⟨⟩; exact .absent, by rintro ⟨⟩; rfl⟩
  | (key, v) :: rest, h, ss => by
      obtain ⟨hv, hrest⟩ := List.forall_mem_cons.mp h
      rw [nestedSteps, field?]
      split
      · exact stepArray_eq_ok_iff config v hv ss
      · exact nestedSteps_eq_ok_iff config rest hrest ss

@[inherit_doc steps_eq_ok_iff]
theorem stepArray_eq_ok_iff (config : Config) :
    (v : Json) → v.canonical = v → (ss : List (Step ε)) →
      (stepArray config v = .ok ss ↔ SpellsSteps config (some v) ss)
  | .array items, hv, ss => by
      rw [stepArray, steps_eq_ok_iff config 0 items (Json.items_of_canonical hv) ss]
      exact ⟨.array, by rintro (_ | h); exact h⟩
  | .null, _, _ | .bool _, _, _ | .number _, _, _ | .string _, _, _ | .object _, _, _
  | .meaningless, _, _ => ⟨nofun, nofun⟩

end

theorem ofJson_eq_ok_iff (config : Config) (v : Json) (spec : Spec ε) :
    ofJson config v = .ok spec ↔ SpellsTimeline config v.canonical spec := by
  have hv := v.canonical_canonical
  rw [ofJson_eq_ok_iff_parts, spellsTimeline_iff hv]
  refine exists_congr fun outline => and_congr_right fun houtline => and_congr_right fun _ => ?_
  exact steps_eq_ok_iff config 0 _ (items_canonical_of_outline? hv houtline) _

/-- Loading accepts exactly the timelines of the grammar, at any depth of nesting, and yields
the timeline that is spelled. -/
theorem loads_iff_spells_timeline (config : Config) (v : Json) :
    ((∃ spec : Spec ε, ofJson config v = .ok spec) ↔
        ∃ spec : Spec ε, SpellsTimeline config v.canonical spec) ∧
      ∀ spec : Spec ε, ofJson config v = .ok spec ↔ SpellsTimeline config v.canonical spec :=
  ⟨exists_congr (ofJson_eq_ok_iff config v), ofJson_eq_ok_iff config v⟩

end Document

end Storyboard
