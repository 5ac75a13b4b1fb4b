import Storyboard.Proofs.Document.Grammar
import Storyboard.Proofs.Numeric.Counts
import Storyboard.Proofs.Numeric.Widening
import Storyboard.Timeline

/-! # Documents of timelines

A timeline that only configures, by the means that documents have, can be built or be written
as a document. A draft of it has both in one: `built` is the timeline, and `written` is the
document. Loading the document gives the timeline that was built.
-/

namespace Storyboard

namespace Json

/-! ## Objects with absent fields -/

/-- The fields of an object that are there. -/
def present (parts : List (String × Option Json)) : List (String × Json) :=
  parts.filterMap fun (name, part) => part.map (name, ·)

theorem keys_present_sublist (parts : List (String × Option Json)) :
    (keys (present parts)).Sublist (parts.map (·.1)) := by
  induction parts with
  | nil => exact .slnil
  | cons part rest ih =>
      obtain ⟨name, v⟩ := part
      cases v with
      | none => exact ih.cons name
      | some v => exact ih.cons_cons name

variable {parts : List (String × Option Json)}

theorem field?_present (h : (parts.map (·.1)).Nodup) {name : String} {part : Option Json}
    (hmem : (name, part) ∈ parts) : field? name (present parts) = part := by
  induction parts with
  | nil => cases hmem
  | cons first rest ih =>
      obtain ⟨k, v⟩ := first
      obtain ⟨hnew, hrest⟩ := List.nodup_cons.mp h
      rcases List.mem_cons.mp hmem with heq | hlater
      · cases heq
        cases part with
        | none =>
            exact field?_eq_none_iff.mpr (mt (fun hk => (keys_present_sublist rest).subset hk) hnew)
        | some part => exact if_pos rfl
      · have hname : name ∈ rest.map (·.1) := List.mem_map_of_mem hlater
        have hne : k ≠ name := fun heq => hnew (heq ▸ hname)
        cases v with
        | none => exact ih hrest hlater
        | some v => exact (if_neg hne).trans (ih hrest hlater)

theorem field?_canonicalFields_present (h : (parts.map (·.1)).Nodup) {name : String}
    {part : Option Json} (hmem : (name, part) ∈ parts) :
    field? name (canonicalFields (present parts)) = part.map canonical := by
  rw [field?_canonicalFields (h.sublist (keys_present_sublist parts)), field?_present h hmem]

theorem mem_names_of_present {f : String × Json} (hf : f ∈ canonicalFields (present parts)) :
    f.1 ∈ parts.map (·.1) := by
  have hkey : f.1 ∈ keys (canonicalFields (present parts)) := List.mem_map_of_mem hf
  exact (keys_present_sublist parts).subset (mem_keys_canonicalFields.mp hkey)

end Json

namespace Document

open Json (keys field? present canonicalFields)

/-- A record is written as an object with the fields that are there. -/
theorem hasParts_present {parts : List (String × Option Json)} (h : (parts.map (·.1)).Nodup) :
    HasParts (parts.map (·.1)) (Json.object (present parts)).canonical
      (parts.map fun part => part.2.map Json.canonical) := by
  rw [Json.canonical]
  refine ⟨fun f hf => Json.mem_names_of_present hf, ?_⟩
  rw [List.map_map]
  refine List.map_congr_left fun part hpart => ?_
  exact (Json.field?_canonicalFields_present h hpart).symm

/-! ## Tables -/

section Table

variable {β δ : Type}

/-- Writes a table, in the order of the properties. -/
def writeTable (write : β → Json) (table : PropertyMap (Option β)) : List (String × Json) :=
  present <| Property.all.map fun p => (p.name, (table.get p).map write)

theorem names_of_table (part : Property → Option Json) :
    (Property.all.map fun p => (p.name, part p)).map (·.1) = Property.all.map Property.name :=
  List.map_map

theorem nodup_names : (Property.all.map Property.name).Nodup :=
  List.Nodup.map Property.name_injective (by decide)

theorem exists_name_of_writeTable {write : β → Json} {table : PropertyMap (Option β)}
    {f : String × Json} (hf : f ∈ canonicalFields (writeTable write table)) :
    ∃ p : Property, p.name = f.1 := by
  have hname := Json.mem_names_of_present hf
  rw [names_of_table] at hname
  obtain ⟨p, -, hp⟩ := List.mem_map.mp hname
  exact ⟨p, hp⟩

/-- A table is spelled under either policy if its entries are. -/
theorem spellsTable_writeTable (config : Config) {entry : Json → δ → Prop} {write : β → Json}
    {build : β → δ} (h : ∀ b, entry (write b).canonical (build b))
    (table : PropertyMap (Option β)) :
    SpellsTable config entry (canonicalFields (writeTable write table))
      (table.map fun _ b => b.map build).get := by
  refine ⟨fun f hf => .inl (exists_name_of_writeTable hf), fun p => ?_⟩
  have hfield : field? p.name (canonicalFields (writeTable write table)) =
      ((table.get p).map write).map Json.canonical := by
    refine Json.field?_canonicalFields_present ?_ (List.mem_map_of_mem p.mem_all)
    rw [names_of_table]
    exact nodup_names
  rw [hfield, PropertyMap.get_map]
  cases table.get p with
  | none => exact .none
  | some b => exact .some (h b)

end Table

/-! ## Numbers -/

/-- How a binary32 number can be given as a number of a document: as it is, as the binary64
number of the same value, as a binary64 number that is rounded to it, or as a whole number of at
most 64 bits. -/
inductive Gives : Json.Number → Float32 → Prop
  | single (x : Float32) : Gives (.single x) x
  | widened (x : Float32) : Gives (.double (widen x)) x
  | rounded (x : Float) : Gives (.double x) (narrow x)
  | zero : Gives (.integer 0) 0
  | whole {k : ℤ} {x : Float32} : k ≠ 0 → -2 ^ 63 ≤ k → k < 2 ^ 64 → toRat x = k →
      Gives (.integer k) x

theorem toSingle_integer {k : ℤ} {x : Float32} (hne : k ≠ 0) (hlo : -2 ^ 63 ≤ k)
    (hhi : k < 2 ^ 64) (hx : toRat x = k) : (Json.Number.integer k).toSingle = x := by
  have hrat : toRat x ≠ 0 := by
    rw [hx]
    exact_mod_cast hne
  cases k with
  | ofNat n =>
      rw [Int.ofNat_eq_natCast] at hx hhi
      have hrounds : Rounds (ofCount n) (toRat x) := by
        rw [hx, Int.cast_natCast]
        exact ofCount_rounds (by omega)
      exact hrounds.eq_of_ne_zero hrat
  | negSucc n =>
      have hrounds : Rounds (ofCount (n + 1)) (toRat (-x)) := by
        rw [toRat_neg, hx, Int.cast_negSucc, neg_neg]
        exact ofCount_rounds (by omega)
      have hvalue : toRat (-ofCount (n + 1)) = toRat x := by
        rw [toRat_neg, hrounds.exact_toRat.2, toRat_neg, neg_neg]
      exact eq_of_toRat_eq hvalue (hvalue ▸ hrat)

theorem Gives.toSingle {n : Json.Number} {x : Float32} (h : Gives n x) : n.toSingle = x := by
  cases h with
  | single => rfl
  | widened => exact narrow_widen x
  | rounded => rfl
  | zero => rfl
  | whole hne hlo hhi hx => exact toSingle_integer hne hlo hhi hx

/-- A finite number, and how it is written. -/
structure Numeral where
  value : Float32
  finite : value.isFinite
  number : Json.Number
  gives : Gives number value

namespace Numeral

/-- As a value of a document. -/
def written (n : Numeral) : Json :=
  .number n.number

theorem toSingle_number (n : Numeral) : n.number.toSingle = n.value :=
  n.gives.toSingle

end Numeral

/-! ## Entries -/

/-- Where a property is to be: at a number, at a sum or a product of the previous value and a
number, or where it was. -/
inductive TargetDraft
  | literal (n : Numeral)
  | plus (n : Numeral)
  | times (n : Numeral)
  | hold

namespace TargetDraft

/-- The target. -/
def built : TargetDraft → Target
  | literal n => .value n.value
  | plus n => .fromPrevious fun previous => previous + n.value
  | times n => .fromPrevious fun previous => previous * n.value
  | hold => .fromPrevious fun previous => previous

/-- A number, an object with the number to add or to multiply by, or nothing. -/
def written : TargetDraft → Option Json
  | literal n => some n.written
  | plus n => some (.object [("add", n.written)])
  | times n => some (.object [("multiply", n.written)])
  | hold => none

theorem spells (t : TargetDraft) : SpellsTarget (t.written.map Json.canonical) t.built := by
  cases t with
  | literal n =>
      rw [built, ← n.toSingle_number]
      exact .number n.number
  | plus n =>
      rw [built, ← n.toSingle_number]
      exact .summand rfl
  | times n =>
      rw [built, ← n.toSingle_number]
      exact .factor nofun rfl
  | hold => exact .absent

end TargetDraft

theorem spellsDuration_written (d : Option Numeral) :
    SpellsDuration ((d.map Numeral.written).map Json.canonical) (d.map Numeral.value) := by
  cases d with
  | none => exact .absent
  | some n =>
      have hvalue : (some n).map Numeral.value = some n.number.toSingle :=
        congrArg some n.toSingle_number.symm
      rw [hvalue]
      exact .number n.number

/-- How a property moves: evenly, or by a cubic curve. -/
inductive EasingDraft
  | linear
  | curve (x₁ y₁ x₂ y₂ : Numeral)

namespace EasingDraft

/-- The easing. -/
def built : EasingDraft → Easing
  | linear => .linear
  | curve x₁ y₁ x₂ y₂ => .cubicBezier ⟨x₁.value, y₁.value, x₂.value, y₂.value⟩

/-- A name, or an object with four numbers. -/
def written : EasingDraft → Json
  | linear => .string "linear"
  | curve x₁ y₁ x₂ y₂ =>
      .object [("cubicBezier", .array [x₁.written, y₁.written, x₂.written, y₂.written])]

theorem spells (e : EasingDraft) : SpellsEasing (some e.written.canonical) (some e.built) := by
  cases e with
  | linear => exact .named List.mem_cons_self
  | curve x₁ y₁ x₂ y₂ =>
      rw [built, ← x₁.toSingle_number, ← y₁.toSingle_number, ← x₂.toSingle_number,
        ← y₂.toSingle_number]
      exact .curve rfl

end EasingDraft

/-- What a step does with a property. -/
structure EntryDraft where
  target : TargetDraft
  duration : Option Numeral := none
  easing : Option EasingDraft := none

namespace EntryDraft

/-- The entry of the step. -/
def built (e : EntryDraft) : PropertyConfig where
  target := e.target.built
  duration := e.duration.map Numeral.value
  easing := e.easing.map EasingDraft.built

/-- An object with the fields `to`, `duration` and `easing`, as far as they are given. -/
def written (e : EntryDraft) : Json :=
  .object <| present [("to", e.target.written), ("duration", e.duration.map Numeral.written),
    ("easing", e.easing.map EasingDraft.written)]

theorem spells (e : EntryDraft) : SpellsEntry e.written.canonical e.built := by
  have heasing : SpellsEasing ((e.easing.map EasingDraft.written).map Json.canonical)
      (e.easing.map EasingDraft.built) := by
    cases e.easing with
    | none => exact .absent
    | some easing => exact easing.spells
  exact .record (hasParts_present (by simp)) e.target.spells (spellsDuration_written e.duration)
    heasing

end EntryDraft

/-- An initial value, written by itself or as the one item of an array. -/
inductive SeedDraft
  | plain (n : Numeral)
  | item (n : Numeral)

namespace SeedDraft

/-- The initial value. -/
def built : SeedDraft → Float32
  | plain n | item n => n.value

/-- A number, or an array of one number. -/
def written : SeedDraft → Json
  | plain n => n.written
  | item n => .array [n.written]

theorem spells (s : SeedDraft) : SpellsSeed s.written.canonical s.built := by
  cases s with
  | plain n =>
      rw [built, ← n.toSingle_number]
      exact .number n.number
  | item n =>
      rw [built, ← n.toSingle_number]
      exact .single n.number

end SeedDraft

/-! ## Timelines -/

/-- Initial values, which may not be given at all. -/
abbrev InitialDraft : Type := Option (PropertyMap (Option SeedDraft))

namespace InitialDraft

/-- The initial values. -/
def built : InitialDraft → InitialValues
  | none => .none
  | some table => ⟨table.map fun _ seed => seed.map SeedDraft.built⟩

/-- An object with a field for each property that is given an initial value. -/
def written (i : InitialDraft) : Option Json :=
  i.map fun table => .object (writeTable SeedDraft.written table)

theorem spells (config : Config) (i : InitialDraft) :
    SpellsInitial config ((written i).map Json.canonical) (built i) := by
  cases i with
  | none => exact .absent
  | some table => exact .table (spellsTable_writeTable config SeedDraft.spells table)

end InitialDraft

/-- A step that configures properties, or the steps and initial values of a timeline. -/
inductive StepDraft
  | configure (entries : PropertyMap (Option EntryDraft))
  | nested (initial : InitialDraft) (steps : List StepDraft)

/-- The fields of a timeline. -/
def timelineFields (steps : List Json) (initial : InitialDraft) : List (String × Json) :=
  present [("steps", some (.array steps)), ("initialValues", InitialDraft.written initial)]

mutual

/-- The step. -/
def StepDraft.built {ε : Type} : StepDraft → Step ε
  | .configure entries => .configure ⟨entries.map fun _ entry => entry.map EntryDraft.built⟩
  | .nested initial steps => .nested (InitialDraft.built initial) (StepDraft.builtAll steps)

/-- The steps. -/
def StepDraft.builtAll {ε : Type} : List StepDraft → List (Step ε)
  | [] => []
  | step :: rest => step.built :: StepDraft.builtAll rest

end

mutual

/-- A step is an object: a table of entries, or the fields of a timeline. -/
def StepDraft.written : StepDraft → Json
  | .configure entries => .object (writeTable EntryDraft.written entries)
  | .nested initial steps => .object (timelineFields (StepDraft.writtenAll steps) initial)

@[inherit_doc StepDraft.written]
def StepDraft.writtenAll : List StepDraft → List Json
  | [] => []
  | step :: rest => step.written :: StepDraft.writtenAll rest

end

/-- A timeline of such steps. -/
structure Draft where
  steps : List StepDraft
  initial : InitialDraft := none

namespace Draft

/-- The timeline. -/
def built {ε : Type} (d : Draft) : Spec ε where
  steps := StepDraft.builtAll d.steps
  initial := InitialDraft.built d.initial

/-- The document. -/
def written (d : Draft) : Json :=
  .object (timelineFields (StepDraft.writtenAll d.steps) d.initial)

end Draft

variable {ε : Type}

/-- The fields of a timeline are spelled if its steps are. -/
theorem spellsTimeline_timelineFields {config : Config} {steps : List Json}
    {built : List (Step ε)} (initial : InitialDraft)
    (h : List.Forall₂ (SpellsStep config) (Json.canonicalItems steps) built) :
    SpellsTimeline config (Json.object (timelineFields steps initial)).canonical
      ⟨built, InitialDraft.built initial⟩ := by
  have hsteps : SpellsSteps config (some (Json.array steps).canonical) built := by
    rw [Json.canonical]
    exact .array h
  exact .record (hasParts_present (by simp)) hsteps (InitialDraft.spells config initial)

theorem steps_mem_keys (steps : List Json) (initial : InitialDraft) :
    "steps" ∈ keys (canonicalFields (timelineFields steps initial)) :=
  Json.mem_keys_canonicalFields.mpr List.mem_cons_self

/-- No property is called like the field that makes a step a timeline. -/
theorem steps_not_mem_keys {β : Type} (write : β → Json) (table : PropertyMap (Option β)) :
    "steps" ∉ keys (canonicalFields (writeTable write table)) := by
  intro hmem
  obtain ⟨f, hf, hname⟩ := List.mem_map.mp hmem
  obtain ⟨p, hp⟩ := exists_name_of_writeTable hf
  have hne : p.name ≠ "steps" := by cases p <;> decide
  exact hne (hp.trans hname)

mutual

/-- What is written for a step spells the step. -/
theorem StepDraft.spells (config : Config) :
    (s : StepDraft) → SpellsStep config s.written.canonical (s.built : Step ε)
  | .configure entries => by
      rw [written, Json.canonical, built]
      exact .configure (steps_not_mem_keys EntryDraft.written entries)
        (spellsTable_writeTable config EntryDraft.spells entries)
  | .nested initial steps => by
      have htimeline := spellsTimeline_timelineFields initial (StepDraft.spellsAll config steps)
      rw [Json.canonical] at htimeline
      rw [written, Json.canonical, built]
      exact .nested (steps_mem_keys (StepDraft.writtenAll steps) initial) htimeline

@[inherit_doc StepDraft.spells]
theorem StepDraft.spellsAll (config : Config) :
    (steps : List StepDraft) →
      List.Forall₂ (SpellsStep config) (Json.canonicalItems (StepDraft.writtenAll steps))
        (StepDraft.builtAll steps : List (Step ε))
  | [] => .nil
  | step :: rest => .cons (StepDraft.spells config step) (StepDraft.spellsAll config rest)

end

namespace Draft

theorem spells (config : Config) (d : Draft) :
    SpellsTimeline config d.written.canonical (d.built : Spec ε) :=
  spellsTimeline_timelineFields d.initial (StepDraft.spellsAll config d.steps)

/-- Under either policy a document is loaded as the timeline that was built. So whatever
comes of compiling the one, be it an error or a timeline with its committed values, its moves
and its drivers, comes of compiling the other. -/
theorem loads_as_built {H α : Type} (config : Config) (d : Draft) :
    ∃ loaded : Spec (Embedded (Stage H) α), ofJson config d.written = .ok loaded ∧
      loaded = d.built ∧
      ∀ (compilation : Config) (s : Stage H),
        Timeline.compile compilation loaded s = Timeline.compile compilation d.built s := by
  have hloaded : ofJson config d.written = .ok (d.built : Spec (Embedded (Stage H) α)) :=
    (ofJson_eq_ok_iff config d.written d.built).mpr (d.spells config)
  exact ⟨d.built, hloaded, rfl, fun _ _ => rfl⟩

end Draft

end Document

end Storyboard
