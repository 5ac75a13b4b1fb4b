import Mathlib
import Storyboard.Proofs.Document.Tables

/-! # Documents as texts and as values

A document can be loaded from its text or from the value that the text stands for. The text
knows more than the value in one respect: whether a key of the outermost object is repeated,
which is a fault of the text. This module says that nothing else makes a difference.
-/

namespace Storyboard

namespace Json

/-- The value is an object in which a key is repeated. -/
def RepeatsKey : Json → Prop
  | .object fields => ¬ (keys fields).Nodup
  | _ => False

instance : DecidablePred RepeatsKey
  | .object fields => inferInstanceAs (Decidable (¬ (keys fields).Nodup))
  | .array _ | .null | .bool _ | .number _ | .string _ | .meaningless =>
      inferInstanceAs (Decidable False)

/-- Of an object only the last occurrence of each key is left. -/
def lastOccurrences : Json → Json
  | .object fields => .object (lastFields fields)
  | v => v

theorem not_repeatsKey_lastOccurrences (v : Json) : ¬ v.lastOccurrences.RepeatsKey := by
  cases v with
  | object fields => exact not_not.mpr (nodup_keys_lastFields fields)
  | _ => exact id

/-- Earlier occurrences of a key have no part in the meaning of a value. -/
theorem canonical_lastOccurrences (v : Json) : v.lastOccurrences.canonical = v.canonical := by
  cases v with
  | object fields =>
      exact congrArg Json.object (canonicalFields_lastFields fields)
  | _ => rfl

theorem length_canonicalItems (items : List Json) :
    (canonicalItems items).length = items.length := by
  induction items with
  | nil => rfl
  | cons v rest ih => rw [canonicalItems, List.length_cons, ih, List.length_cons]

end Json

namespace Document

open Json (keys)

variable {ε : Type}

theorem isSome_record?_object {names : List String} {fields : List (String × Json)} :
    ((Json.object fields).record? names .refused).isSome ↔
      (keys fields).Nodup ∧ ∀ key ∈ keys fields, key ∈ names := by
  rw [Option.isSome_iff_exists]
  constructor
  · rintro ⟨parts, hparts⟩
    obtain ⟨hnodup, hnames, -⟩ := record?_object.mp hparts
    exact ⟨hnodup, List.forall_mem_map.mpr hnames⟩
  · rintro ⟨hnodup, hnames⟩
    exact ⟨_, record?_object.mpr ⟨hnodup, List.forall_mem_map.mp hnames, rfl⟩⟩

theorem isSome_record?_array {names : List String} {items : List Json} :
    ((Json.array items).record? names .refused).isSome ↔ items.length ≤ names.length := by
  rw [Option.isSome_iff_exists]
  exact ⟨fun ⟨_, h⟩ => (record?_array.mp h).1, fun h => ⟨_, record?_array.mpr ⟨h, rfl⟩⟩⟩

/-- Whether a value is a record is to be seen from its meaning, repeated keys apart. -/
theorem isSome_record?_iff_canonical {names : List String} {v : Json} (hv : ¬ v.RepeatsKey) :
    (v.record? names .refused).isSome ↔ (v.canonical.record? names .refused).isSome := by
  cases v with
  | object fields =>
      have hnodup : (keys fields).Nodup := not_not.mp hv
      have hcanonical := (Json.ascending_canonicalFields fields).nodup
      rw [Json.canonical, isSome_record?_object, isSome_record?_object]
      simp only [hnodup, hcanonical, Json.mem_keys_canonicalFields]
  | array items =>
      rw [Json.canonical, isSome_record?_array, isSome_record?_array, Json.length_canonicalItems]
  | _ => exact Iff.rfl

/-- What is not a record is no timeline. -/
theorem ofJson_of_not_record {config : Config} {v : Json}
    (h : ¬ (v.canonical.record? fieldNames .refused).isSome) :
    ofJson (ε := ε) config v = .error malformed := by
  have houtline : outline? v.canonical = none := by
    unfold outline?
    rw [Option.not_isSome_iff_eq_none.mp h]
    rfl
  unfold ofJson
  rw [houtline]

theorem ofText_of_invalid {config : Config} {text : String} (h : Json.strict? text = none) :
    ofText (ε := ε) config text = .error malformed := by
  unfold ofText
  rw [h]

theorem ofText_of_not_repeatsKey (config : Config) {text : String} {v : Json}
    (h : Json.strict? text = some v) (hv : ¬ v.RepeatsKey) :
    ofText (ε := ε) config text = ofJson config v := by
  unfold ofText
  rw [h]
  dsimp only
  split
  · rfl
  · next hrecord =>
      exact (ofJson_of_not_record (mt (isSome_record?_iff_canonical hv).mpr hrecord)).symm

/-- A repeated key is a fault, be it the name of a field or not. -/
theorem ofText_of_repeatsKey (config : Config) {text : String} {v : Json}
    (h : Json.strict? text = some v) (hv : v.RepeatsKey) :
    ofText (ε := ε) config text = .error malformed := by
  have hrecord : ¬ (v.record? fieldNames .refused).isSome := by
    cases v with
    | object fields => exact fun hsome => hv (isSome_record?_object.mp hsome).1
    | _ => exact hv.elim
  unfold ofText
  rw [h]
  exact if_neg hrecord

theorem ofJson_lastOccurrences (config : Config) (v : Json) :
    ofJson (ε := ε) config v.lastOccurrences = ofJson config v := by
  unfold ofJson
  rw [v.canonical_lastOccurrences]

/-- Loading a text and loading the value that it stands for come to the same, be it a timeline
or a fault, unless the outermost object repeats a key: that is a fault of the text, while of
the value the last occurrence counts. A text that stands for no value is a fault, too. -/
theorem text_and_value_agree (config : Config) (text : String) :
    (Json.strict? text = none →
      ∃ reason, ofText (ε := ε) config text = .error (.parse reason)) ∧
    (∀ v, Json.strict? text = some v →
      (¬ v.RepeatsKey → ofText (ε := ε) config text = ofJson config v) ∧
      (v.RepeatsKey →
        (∃ reason, ofText (ε := ε) config text = .error (.parse reason)) ∧
          ¬ v.lastOccurrences.RepeatsKey ∧
          ofJson (ε := ε) config v = ofJson config v.lastOccurrences)) ∧
    (∀ spec : Spec ε, ofText config text = .ok spec →
      ∃ v, Json.strict? text = some v ∧ ofJson config v = .ok spec) := by
  refine ⟨fun h => ⟨_, ofText_of_invalid h⟩, fun v h => ⟨ofText_of_not_repeatsKey config h,
    fun hv => ⟨⟨_, ofText_of_repeatsKey config h hv⟩, v.not_repeatsKey_lastOccurrences,
      (ofJson_lastOccurrences config v).symm⟩⟩, fun spec hspec => ?_⟩
  cases h : Json.strict? text with
  | none => cases (ofText_of_invalid h).symm.trans hspec
  | some v =>
      have hv : ¬ v.RepeatsKey := fun hv => by
        cases (ofText_of_repeatsKey config h hv).symm.trans hspec
      exact ⟨v, rfl, (ofText_of_not_repeatsKey config h hv).symm.trans hspec⟩

/-- A text that gives the steps twice is refused, and its value has the steps given last;
a text without repetition is loaded either way. -/
theorem text_and_value_agree_twice :
    let twice := "\x7b\"steps\":[],\"steps\":[\x7b\x7d]\x7d"
    let once := "\x7b\"steps\":[\x7b\x7d]\x7d"
    let v := Json.object [("steps", .array []), ("steps", .array [.object []])]
    let w := Json.object [("steps", .array [.object []])]
    let spec : Spec Empty := { steps := [.configure .empty] }
    Json.strict? twice = some v ∧ v.RepeatsKey ∧ Json.strict? once = some w ∧ ¬ w.RepeatsKey ∧
      (∃ reason, ofText (ε := Empty) {} twice = .error (.parse reason)) ∧
      ofJson {} v = .ok spec ∧ ofText {} once = .ok spec ∧
      Json.strict? "[" = none ∧ ∃ reason, ofText (ε := Empty) {} "[" = .error (.parse reason) := by
  intro twice once v w spec
  have htwice : Json.strict? twice = some v := by cbv
  have honce : Json.strict? once = some w := by cbv
  have hnone : Json.strict? "[" = none := by cbv
  have hv : v.RepeatsKey := by decide +kernel
  have hw : ¬ w.RepeatsKey := by decide +kernel
  have hspec : ofJson {} w = .ok spec := rfl
  obtain ⟨hfault, -, hlast⟩ := ((text_and_value_agree {} twice).2.1 v htwice).2 hv
  exact ⟨htwice, hv, honce, hw, hfault, hlast.trans hspec,
    (((text_and_value_agree {} once).2.1 w honce).1 hw).trans hspec, hnone,
    (text_and_value_agree {} "[").1 hnone⟩

end Document

end Storyboard
