import Mathlib.Data.List.Nodup
import Storyboard.Document
import Storyboard.Proofs.Json.Canonical

/-! # Records and tables of a document

A document is made of two kinds of objects. A record has a few fields of its own, and may be
written as an array instead. A table has the names of properties as its keys, and is read
entry by entry. This module says once for each kind when reading succeeds, and with what.
-/

namespace Storyboard

theorem Property.name_injective : Function.Injective Property.name := by
  intro p q h
  have hq := q.ofName?_name
  rw [← h, p.ofName?_name] at hq
  exact Option.some.inj hq

namespace Document

open Json (keys field?)

/-! ## Records -/

/-- A value gives the parts of a record, any of which may be absent: by their names and no
others, or in their order. -/
def HasParts (names : List String) : Json → List (Option Json) → Prop
  | .object fields, parts =>
      (∀ f ∈ fields, f.1 ∈ names) ∧ parts = names.map (field? · fields)
  | .array items, parts =>
      items.length ≤ names.length ∧ parts = (List.range names.length).map (items[·]?)
  | _, _ => False

theorem all_keys_iff {names : List String} {fields : List (String × Json)} :
    (fields.map (·.1)).all (names.contains ·) = true ↔ ∀ f ∈ fields, f.1 ∈ names := by
  simp

/-- An object is a record if it has no other keys and none of its keys repeats. -/
theorem record?_object {names : List String} {fields : List (String × Json)}
    {parts : List (Option Json)} :
    (Json.object fields).record? names .refused = some parts ↔
      (keys fields).Nodup ∧ HasParts names (.object fields) parts := by
  unfold Json.record? HasParts keys
  dsimp only
  by_cases hnames : (fields.map (·.1)).all (names.contains ·) = true
  · have hkeys := all_keys_iff.mp hnames
    rw [if_neg fun h => h.2 hnames]
    by_cases hnodup : (fields.map (·.1)).Nodup
    · have hcount : ¬ names.any fun name => 1 < (fields.map (·.1)).count name := by
        simp only [List.any_eq_true, decide_eq_true_eq, not_exists, not_and, not_lt]
        exact fun name _ => List.nodup_iff_count_le_one.mp hnodup name
      rw [if_neg hcount, Option.some_inj]
      exact ⟨fun h => ⟨hnodup, hkeys, h.symm⟩, fun h => h.2.2.symm⟩
    · have hcount : names.any fun name => 1 < (fields.map (·.1)).count name := by
        -- a key that repeats is one of the names
        obtain ⟨name, hname⟩ := not_forall.mp (mt List.nodup_iff_count_le_one.mpr hnodup)
        have hmem : name ∈ fields.map (·.1) := List.count_pos_iff.mp (by omega)
        obtain ⟨f, hf, rfl⟩ := List.mem_map.mp hmem
        exact List.any_eq_true.mpr ⟨f.1, hkeys f hf, decide_eq_true (not_le.mp hname)⟩
      rw [if_pos hcount]
      exact ⟨nofun, fun h => absurd h.1 hnodup⟩
  · rw [if_pos ⟨rfl, hnames⟩]
    exact ⟨nofun, fun h => absurd (all_keys_iff.mpr h.2.1) hnames⟩

theorem record?_array {names : List String} {items : List Json} {parts : List (Option Json)} :
    (Json.array items).record? names .refused = some parts ↔
      HasParts names (.array items) parts := by
  have hparts : items.length ≤ names.length →
      items.map some ++ List.replicate (names.length - items.length) none =
        (List.range names.length).map (items[·]?) := by
    intro hle
    refine List.ext_getElem (by simp; omega) fun i hi hi' => ?_
    rw [List.getElem_append, List.getElem_map, List.getElem_range]
    split
    · next hlt =>
      rw [List.length_map] at hlt
      rw [List.getElem_map, List.getElem?_eq_getElem hlt]
    · next hge =>
      rw [List.length_map] at hge
      rw [List.getElem_replicate, List.getElem?_eq_none (not_lt.mp hge)]
  unfold Json.record? HasParts
  dsimp only
  split
  · next hle =>
    rw [hparts hle, Option.some_inj]
    exact ⟨fun h => ⟨hle, h.symm⟩, fun h => h.2.symm⟩
  · next hgt => exact ⟨nofun, fun h => absurd h.1 hgt⟩

/-- Of a canonical value no key repeats, and so it is a record if it has the parts of one. -/
theorem record?_eq_some_iff {names : List String} {v : Json} (hv : v.canonical = v)
    {parts : List (Option Json)} :
    v.record? names .refused = some parts ↔ HasParts names v parts := by
  cases v with
  | object fields =>
      have hnodup := (Json.fields_of_canonical hv).1.nodup
      exact record?_object.trans ⟨fun h => h.2, fun h => ⟨hnodup, h⟩⟩
  | array items => exact record?_array
  | _ => exact ⟨nofun, False.elim⟩

theorem HasParts.length {names : List String} {v : Json} {parts : List (Option Json)}
    (h : HasParts names v parts) : parts.length = names.length := by
  cases v with
  | object fields => rw [h.2, List.length_map]
  | array items => rw [h.2, List.length_map, List.length_range]
  | _ => exact h.elim

/-- The parts of a canonical value are canonical. -/
theorem HasParts.canonical {names : List String} {v : Json} {parts : List (Option Json)}
    (h : HasParts names v parts) (hv : v.canonical = v) :
    ∀ part ∈ parts, ∀ w ∈ part, w.canonical = w := by
  cases v with
  | object fields =>
      obtain ⟨-, rfl⟩ := h
      intro part hpart w hw
      obtain ⟨name, -, rfl⟩ := List.mem_map.mp hpart
      exact (Json.fields_of_canonical hv).2 _ (Json.mem_of_field? hw)
  | array items =>
      obtain ⟨-, rfl⟩ := h
      intro part hpart w hw
      obtain ⟨i, -, rfl⟩ := List.mem_map.mp hpart
      exact Json.items_of_canonical hv w (List.mem_of_getElem? hw)
  | _ => exact h.elim

/-! ## Names -/

/-- A table may have this key: the name of a property, or any if others are ignored. -/
def Known (config : Config) (key : String) : Prop :=
  (∃ p : Property, p.name = key) ∨ config.unknownNames = .ignore

theorem property?_name (config : Config) (p : Property) :
    property? config p.name = .ok (some p) := by
  unfold property?
  rw [p.ofName?_name]

theorem property?_of_forall_ne {config : Config} {key : String}
    (h : ∀ p : Property, p.name ≠ key) :
    property? config key =
      match config.unknownNames with
      | .reject => .error (.unknownProperty key)
      | .ignore => .ok none := by
  have hnone : Property.ofName? key = none := by
    rw [Option.eq_none_iff_forall_ne_some]
    exact fun p hp => h p (Property.name_of_ofName? hp)
  unfold property?
  rw [hnone]
  cases config.unknownNames <;> rfl

/-! ## Tables -/

section Table

variable {β γ : Type}

/-- Reads a table. Each value is read for the property that its key names, and is put where
it belongs. -/
def readTable (config : Config) (read : Property → Json → Except TimelineError β)
    (set : γ → Property → β → γ) : List (String × Json) → γ → Except TimelineError γ
  | [], table => .ok table
  | (key, v) :: rest, table =>
      match property? config key with
      | .error e => .error e
      | .ok none => readTable config read set rest table
      | .ok (some p) =>
          match read p v with
          | .error e => .error e
          | .ok entry => readTable config read set rest (set table p entry)

variable {config : Config} {read : Property → Json → Except TimelineError β}
  {set : γ → Property → β → γ}

theorem readTable_property (p : Property) (v : Json) (rest : List (String × Json)) (table : γ) :
    readTable config read set ((p.name, v) :: rest) table =
      match read p v with
      | .error e => .error e
      | .ok entry => readTable config read set rest (set table p entry) := by
  rw [readTable, property?_name]

theorem readTable_unknown {key : String} (h : ∀ p : Property, p.name ≠ key) (v : Json)
    (rest : List (String × Json)) (table : γ) :
    readTable config read set ((key, v) :: rest) table =
      match config.unknownNames with
      | .reject => .error (.unknownProperty key)
      | .ignore => readTable config read set rest table := by
  rw [readTable, property?_of_forall_ne h]
  cases config.unknownNames <;> rfl

/-- Where the entry of a property comes from: what is read from the value under its name, or
else the table as it was before. -/
def Enters (read : Property → Json → Except TimelineError β) (p : Property)
    (before after : Option β) : Option Json → Prop
  | none => after = before
  | some v => ∃ b, read p v = .ok b ∧ after = some b

/-- The entry of the first key can be set first, if the key does not repeat. -/
theorem enters_cons_iff {get : γ → Property → Option β}
    (hset : ∀ table p b q, get (set table p b) q = if q = p then some b else get table q)
    {p : Property} {v : Json} {rest : List (String × Json)} (hrest : field? p.name rest = none)
    {b : β} (hread : read p v = .ok b) (table : γ) (q : Property) (after : Option β) :
    Enters read q (get table q) after (field? q.name ((p.name, v) :: rest)) ↔
      Enters read q (get (set table p b) q) after (field? q.name rest) := by
  rw [hset]
  rcases eq_or_ne q p with rfl | hne
  · rw [field?, if_pos rfl, hrest, if_pos rfl]
    constructor
    · rintro ⟨b', hb', rfl⟩
      cases hread.symm.trans hb'
      rfl
    · rintro rfl
      exact ⟨b, hread, rfl⟩
  · rw [field?, if_neg fun heq => hne (Property.name_injective heq).symm, if_neg hne]

/-- Reading a table succeeds if its keys are known and the values of properties can be read.
It changes the entries of those properties. -/
theorem readTable_eq_ok_iff {get : γ → Property → Option β}
    (hset : ∀ table p b q, get (set table p b) q = if q = p then some b else get table q)
    (hext : ∀ s t : γ, (∀ p, get s p = get t p) → s = t)
    {fields : List (String × Json)} (hnodup : (keys fields).Nodup) {table table' : γ} :
    readTable config read set fields table = .ok table' ↔
      (∀ f ∈ fields, Known config f.1) ∧
        ∀ p, Enters read p (get table p) (get table' p) (field? p.name fields) := by
  induction fields generalizing table with
  | nil =>
      refine ⟨?_, fun h => congrArg _ (hext _ _ fun p => (h.2 p).symm)⟩
      rintro ⟨⟩
      exact ⟨nofun, fun _ => rfl⟩
  | cons f rest ih =>
      obtain ⟨key, v⟩ := f
      obtain ⟨hkey, hnodup⟩ := List.nodup_cons.mp hnodup
      have ih := @ih hnodup
      rw [List.forall_mem_cons]
      by_cases hproperty : ∃ p : Property, p.name = key
      · obtain ⟨p, rfl⟩ := hproperty
        have hrest : field? p.name rest = none := Json.field?_eq_none_iff.mpr hkey
        rw [readTable_property]
        cases hread : read p v with
        | error e =>
            refine ⟨nofun, fun h => ?_⟩
            have hp := h.2 p
            rw [field?, if_pos rfl] at hp
            obtain ⟨b, hb, -⟩ := hp
            cases hread.symm.trans hb
        | ok b =>
            refine ih.trans (and_congr ?_ (forall_congr' fun q => ?_))
            · exact ⟨fun h => ⟨.inl ⟨p, rfl⟩, h⟩, fun h => h.2⟩
            · exact (enters_cons_iff hset hrest hread table q _).symm
      · have hne : ∀ p : Property, p.name ≠ key := not_exists.mp hproperty
        have hfield : ∀ p : Property, field? p.name ((key, v) :: rest) = field? p.name rest :=
          fun p => by rw [field?, if_neg (hne p).symm]
        rw [readTable_unknown hne]
        simp only [hfield]
        cases hpolicy : config.unknownNames with
        | reject =>
            refine ⟨fun h => ?_, fun h => ?_⟩
            · cases h
            · rcases h.1.1 with hknown | hignore
              · exact absurd hknown hproperty
              · cases hpolicy.symm.trans hignore
        | ignore =>
            exact ih.trans ⟨fun h => ⟨⟨.inr hpolicy, h.1⟩, h.2⟩, fun h => ⟨h.1.2, h.2⟩⟩

end Table

/-- Reads the value of an initial value. -/
def readSeed (p : Property) (v : Json) : Except TimelineError Float32 :=
  match seed? v with
  | none => .error (malformedInitial p)
  | some value => .ok value

theorem stepConfig_eq_readTable (config : Config) (step : Nat) (fields : List (String × Json))
    (c : StepConfig) :
    stepConfig config step fields c = readTable config (propertyConfig step) .set fields c := by
  induction fields generalizing c with
  | nil => rfl
  | cons f rest ih =>
      obtain ⟨key, v⟩ := f
      rw [stepConfig, readTable]
      cases property? config key with
      | error e => rfl
      | ok p? =>
          cases p? with
          | none => exact ih c
          | some p =>
              dsimp only
              cases propertyConfig step p v with
              | error e => rfl
              | ok entry => exact ih (c.set p entry)

theorem initialValues_eq_readTable (config : Config) (fields : List (String × Json))
    (i : InitialValues) :
    initialValues config fields i = readTable config readSeed .set fields i := by
  induction fields generalizing i with
  | nil => rfl
  | cons f rest ih =>
      obtain ⟨key, v⟩ := f
      rw [initialValues, readTable]
      cases property? config key with
      | error e => rfl
      | ok p? =>
          cases p? with
          | none => exact ih i
          | some p =>
              dsimp only
              unfold readSeed
              cases seed? v with
              | none => rfl
              | some value => exact ih (i.set p value)

end Document

end Storyboard
