import Mathlib.Data.String.Basic
import Storyboard.Json.Basic

/-! # The meaning of JSON values

The canonical form of a value has the keys of each object in ascending order, so none of them
repeats. In it a key has the value that it was given last, and what was written before that
does not matter.
-/

namespace Storyboard.Json

/-- The keys of some fields. -/
def keys (fields : List (String × Json)) : List String :=
  fields.map (·.1)

/-- The keys come in ascending order, without repetition. -/
def Ascending (fields : List (String × Json)) : Prop :=
  (keys fields).Pairwise (· < ·)

theorem ascending_cons {key : String} {v : Json} {fields : List (String × Json)} :
    Ascending ((key, v) :: fields) ↔ (∀ k ∈ keys fields, key < k) ∧ Ascending fields :=
  List.pairwise_cons

theorem Ascending.nodup {fields : List (String × Json)} (h : Ascending fields) :
    (keys fields).Nodup :=
  h.imp ne_of_lt

theorem Ascending.filter {fields : List (String × Json)} (h : Ascending fields)
    (keep : String × Json → Bool) : Ascending (fields.filter keep) :=
  h.sublist (List.filter_sublist.map _)

/-! ## Looking up fields -/

theorem field?_eq_none_iff {key : String} {fields : List (String × Json)} :
    field? key fields = none ↔ key ∉ keys fields := by
  induction fields with
  | nil => simp [field?, keys]
  | cons f rest ih =>
      obtain ⟨k, v⟩ := f
      by_cases h : k = key
      · simp [field?, keys, h]
      · rw [field?, if_neg h, ih]
        simp [keys, Ne.symm h]

theorem field?_isSome_iff {key : String} {fields : List (String × Json)} :
    (field? key fields).isSome ↔ key ∈ keys fields := by
  rw [← not_iff_not, Bool.not_eq_true, Option.isSome_eq_false_iff, Option.isNone_iff_eq_none,
    field?_eq_none_iff]

theorem mem_of_field? {key : String} {fields : List (String × Json)} {v : Json}
    (h : field? key fields = some v) : (key, v) ∈ fields := by
  induction fields with
  | nil => cases h
  | cons f rest ih =>
      obtain ⟨k, w⟩ := f
      unfold field? at h
      split at h
      · next heq =>
        cases h
        exact heq ▸ List.mem_cons_self
      · exact List.mem_cons_of_mem _ (ih h)

/-! ## Adding fields -/

theorem mem_keys_addField {k key : String} {v : Json} {fields : List (String × Json)} :
    k ∈ keys (addField key v fields) ↔ k = key ∨ k ∈ keys fields := by
  induction fields with
  | nil => simp [addField, keys]
  | cons f rest ih =>
      obtain ⟨k', w⟩ := f
      unfold addField
      split
      · next heq =>
        subst heq
        simp [keys]
      · split
        · simp [keys]
        · change k ∈ k' :: keys (addField key v rest) ↔ k = key ∨ k ∈ k' :: keys rest
          rw [List.mem_cons, ih, List.mem_cons, or_left_comm]

theorem Ascending.addField {fields : List (String × Json)} (h : Ascending fields) (key : String)
    (v : Json) : Ascending (addField key v fields) := by
  induction fields with
  | nil => exact List.pairwise_singleton _ _
  | cons f rest ih =>
      obtain ⟨k, w⟩ := f
      obtain ⟨hfirst, hrest⟩ := ascending_cons.mp h
      unfold Json.addField
      split
      · exact h
      · next hne =>
        split
        · next hlt =>
          refine ascending_cons.mpr ⟨fun k' hk' => ?_, h⟩
          rcases List.mem_cons.mp hk' with rfl | hk'
          · exact hlt
          · exact hlt.trans (hfirst k' hk')
        · next hge =>
          refine ascending_cons.mpr ⟨fun k' hk' => ?_, ih hrest⟩
          rcases mem_keys_addField.mp hk' with rfl | hk'
          · exact lt_of_le_of_ne (not_lt.mp hge) (Ne.symm hne)
          · exact hfirst k' hk'

/-- A field in front of those with greater keys stays there. -/
theorem addField_of_lt {key : String} {v : Json} {fields : List (String × Json)}
    (h : ∀ k ∈ keys fields, key < k) : addField key v fields = (key, v) :: fields := by
  cases fields with
  | nil => rfl
  | cons f rest =>
      obtain ⟨k, w⟩ := f
      have hlt : key < k := h k List.mem_cons_self
      rw [addField, if_neg (ne_of_lt hlt), if_pos hlt]

/-- A key that is there already keeps its value. -/
theorem addField_of_mem {key : String} {v : Json} {fields : List (String × Json)}
    (h : Ascending fields) (hmem : key ∈ keys fields) : addField key v fields = fields := by
  induction fields with
  | nil => cases hmem
  | cons f rest ih =>
      obtain ⟨k, w⟩ := f
      obtain ⟨hfirst, hrest⟩ := ascending_cons.mp h
      unfold addField
      split
      · rfl
      · next hne =>
        have hmem : key ∈ keys rest := (List.mem_cons.mp hmem).resolve_left hne
        rw [if_neg (not_lt_of_gt (hfirst key hmem)), ih hrest hmem]

/-- Fields chosen by their keys are added as if they were the only ones. -/
theorem filter_addField {fields : List (String × Json)} (h : Ascending fields)
    (keep : String → Bool) (key : String) (v : Json) :
    (addField key v fields).filter (keep ·.1) =
      if keep key then addField key v (fields.filter (keep ·.1))
      else fields.filter (keep ·.1) := by
  induction fields with
  | nil => cases hkeep : keep key <;> simp [addField, hkeep]
  | cons f rest ih =>
      obtain ⟨k, w⟩ := f
      obtain ⟨hfirst, hrest⟩ := ascending_cons.mp h
      have ih := ih hrest
      have hkept : ∀ k' ∈ keys (rest.filter (keep ·.1)), k < k' := fun k' hk' =>
        hfirst k' ((List.filter_sublist.map _).subset hk')
      rcases lt_trichotomy key k with hlt | rfl | hgt
      · -- the field goes in front of all others, whichever of them are kept
        have hall : ∀ k' ∈ keys (((k, w) :: rest).filter (keep ·.1)), key < k' := by
          intro k' hk'
          rcases List.mem_cons.mp ((List.filter_sublist.map _).subset hk') with rfl | hk'
          · exact hlt
          · exact hlt.trans (hfirst k' hk')
        rw [addField, if_neg (ne_of_lt hlt), if_pos hlt, addField_of_lt hall, List.filter_cons]
      · rw [addField, if_pos rfl]
        cases hkeep : keep key with
        | true => simp [hkeep, addField]
        | false => simp
      · rw [addField, if_neg (ne_of_gt hgt), if_neg (not_lt_of_gt hgt), List.filter_cons, ih,
          List.filter_cons]
        cases hkeep : keep k with
        | true => cases hkey : keep key <;> simp [addField, ne_of_gt hgt, not_lt_of_gt hgt]
        | false => cases hkey : keep key <;> simp

/-- Values are changed, each by its key. -/
def mapValues (f : String → Json → Json) (fields : List (String × Json)) :
    List (String × Json) :=
  fields.map fun (k, v) => (k, f k v)

theorem keys_mapValues (f : String → Json → Json) (fields : List (String × Json)) :
    keys (mapValues f fields) = keys fields := by
  simp [keys, mapValues, Function.comp_def]

theorem mapValues_addField (f : String → Json → Json) (key : String) (v : Json)
    (fields : List (String × Json)) :
    mapValues f (addField key v fields) = addField key (f key v) (mapValues f fields) := by
  induction fields with
  | nil => rfl
  | cons e rest ih =>
      obtain ⟨k, w⟩ := e
      change mapValues f (addField key v ((k, w) :: rest)) =
        addField key (f key v) ((k, f k w) :: mapValues f rest)
      unfold addField
      split
      · rfl
      · split
        · rfl
        · rw [← ih]
          rfl

theorem field?_mapValues (f : String → Json → Json) (key : String)
    (fields : List (String × Json)) :
    field? key (mapValues f fields) = (field? key fields).map (f key) := by
  induction fields with
  | nil => rfl
  | cons e rest ih =>
      obtain ⟨k, w⟩ := e
      change field? key ((k, f k w) :: mapValues f rest) = _
      unfold field?
      split
      · next heq => rw [heq, Option.map_some]
      · exact ih

theorem field?_addField {key k : String} {v : Json} {fields : List (String × Json)}
    (h : key ∉ keys fields) :
    field? k (addField key v fields) = if key = k then some v else field? k fields := by
  induction fields with
  | nil => rfl
  | cons f rest ih =>
      obtain ⟨k', w⟩ := f
      obtain ⟨hne, hrest⟩ := not_or.mp (mt List.mem_cons.mpr h)
      unfold addField
      rw [if_neg hne]
      split
      · rfl
      · rw [field?, ih hrest, field?]
        by_cases hfirst : k' = k
        · rw [if_pos hfirst, if_neg (hfirst ▸ hne), if_pos hfirst]
        · rw [if_neg hfirst, if_neg hfirst]

/-! ## Canonical fields -/

theorem mem_keys_canonicalFields {key : String} {fields : List (String × Json)} :
    key ∈ keys (canonicalFields fields) ↔ key ∈ keys fields := by
  induction fields with
  | nil => exact Iff.rfl
  | cons f rest ih =>
      rw [canonicalFields, mem_keys_addField, ih]
      exact List.mem_cons.symm

theorem ascending_canonicalFields (fields : List (String × Json)) :
    Ascending (canonicalFields fields) := by
  induction fields with
  | nil => exact List.Pairwise.nil
  | cons f rest ih => exact ih.addField _ _

/-- Where no key repeats, each has the meaning of its value. -/
theorem field?_canonicalFields {fields : List (String × Json)} (h : (keys fields).Nodup)
    (key : String) : field? key (canonicalFields fields) = (field? key fields).map canonical := by
  induction fields with
  | nil => rfl
  | cons f rest ih =>
      obtain ⟨k, v⟩ := f
      obtain ⟨hnew, hrest⟩ := List.nodup_cons.mp h
      rw [canonicalFields, field?_addField (mt mem_keys_canonicalFields.mp hnew), ih hrest, field?,
        apply_ite (Option.map canonical), Option.map_some]

/-- The field before others of its key has no meaning. -/
theorem canonicalFields_of_mem {key : String} {v : Json} {fields : List (String × Json)}
    (h : key ∈ keys fields) : canonicalFields ((key, v) :: fields) = canonicalFields fields := by
  rw [canonicalFields]
  exact addField_of_mem (ascending_canonicalFields fields) (mem_keys_canonicalFields.mpr h)

theorem canonicalFields_filter (keep : String → Bool) (fields : List (String × Json)) :
    canonicalFields (fields.filter (keep ·.1)) = (canonicalFields fields).filter (keep ·.1) := by
  induction fields with
  | nil => rfl
  | cons f rest ih =>
      rw [canonicalFields, filter_addField (ascending_canonicalFields rest), ← ih,
        List.filter_cons]
      split
      · rw [canonicalFields]
      · rfl

/-- The only occurrences that count are the last ones of each key. -/
def lastFields : List (String × Json) → List (String × Json)
  | [] => []
  | (key, v) :: rest => if key ∈ keys rest then lastFields rest else (key, v) :: lastFields rest

theorem mem_keys_lastFields {key : String} {fields : List (String × Json)} :
    key ∈ keys (lastFields fields) ↔ key ∈ keys fields := by
  induction fields with
  | nil => exact Iff.rfl
  | cons f rest ih =>
      obtain ⟨k, v⟩ := f
      unfold lastFields
      split
      · next hmem =>
        rw [ih]
        exact ⟨List.mem_cons_of_mem k, fun h => (List.mem_cons.mp h).elim (· ▸ hmem) id⟩
      · change key ∈ k :: keys (lastFields rest) ↔ key ∈ k :: keys rest
        rw [List.mem_cons, ih, List.mem_cons]

theorem nodup_keys_lastFields (fields : List (String × Json)) :
    (keys (lastFields fields)).Nodup := by
  induction fields with
  | nil => exact List.nodup_nil
  | cons f rest ih =>
      obtain ⟨k, v⟩ := f
      unfold lastFields
      split
      · exact ih
      · next hmem => exact List.nodup_cons.mpr ⟨mt mem_keys_lastFields.mp hmem, ih⟩

theorem canonicalFields_lastFields (fields : List (String × Json)) :
    canonicalFields (lastFields fields) = canonicalFields fields := by
  induction fields with
  | nil => rfl
  | cons f rest ih =>
      obtain ⟨k, v⟩ := f
      unfold lastFields
      split
      · next hmem => rw [ih, canonicalFields_of_mem hmem]
      · rw [canonicalFields, ih, canonicalFields]

/-! ## Canonical values -/

/-- Only the values of ascending fields can change. -/
theorem canonicalFields_of_ascending {fields : List (String × Json)} (h : Ascending fields) :
    canonicalFields fields = mapValues (fun _ => canonical) fields := by
  induction fields with
  | nil => rfl
  | cons f rest ih =>
      obtain ⟨k, v⟩ := f
      obtain ⟨hfirst, hrest⟩ := ascending_cons.mp h
      rw [canonicalFields, ih hrest]
      refine addField_of_lt ?_
      rwa [keys_mapValues]

mutual

/-- A canonical form is its own meaning. -/
theorem canonical_canonical : (v : Json) → v.canonical.canonical = v.canonical
  | .array items => by rw [canonical, canonical, canonicalItems_canonicalItems items]
  | .object fields => by
      rw [canonical, canonical, canonicalFields_of_ascending (ascending_canonicalFields fields),
        mapValues_canonicalFields fields]
  | .null | .bool _ | .number _ | .string _ | .meaningless => rfl

@[inherit_doc canonical_canonical]
theorem canonicalItems_canonicalItems :
    (items : List Json) → canonicalItems (canonicalItems items) = canonicalItems items
  | [] => rfl
  | v :: rest => by
      rw [canonicalItems, canonicalItems, canonical_canonical v,
        canonicalItems_canonicalItems rest]

@[inherit_doc canonical_canonical]
theorem mapValues_canonicalFields :
    (fields : List (String × Json)) →
      mapValues (fun _ => canonical) (canonicalFields fields) = canonicalFields fields
  | [] => rfl
  | (k, v) :: rest => by
      rw [canonicalFields, mapValues_addField, canonical_canonical v,
        mapValues_canonicalFields rest]

end

/-- What a canonical object consists of. -/
theorem fields_of_canonical {fields : List (String × Json)}
    (h : (Json.object fields).canonical = .object fields) :
    Ascending fields ∧ ∀ f ∈ fields, f.2.canonical = f.2 := by
  rw [canonical, object.injEq] at h
  have hascending : Ascending fields := h ▸ ascending_canonicalFields fields
  refine ⟨hascending, fun f hf => ?_⟩
  rw [canonicalFields_of_ascending hascending] at h
  have hsame := List.map_inj_left.mp (h.trans (List.map_id fields).symm) f hf
  exact congrArg Prod.snd hsame

/-- What a canonical array consists of. -/
theorem items_of_canonical {items : List Json}
    (h : (Json.array items).canonical = .array items) : ∀ v ∈ items, v.canonical = v := by
  rw [canonical, array.injEq] at h
  induction items with
  | nil => exact nofun
  | cons v rest ih =>
      rw [canonicalItems, List.cons.injEq] at h
      exact List.forall_mem_cons.mpr ⟨h.1, ih h.2⟩

end Storyboard.Json
