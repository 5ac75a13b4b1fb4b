import Storyboard.Json.Number

/-! # JSON values

The tree of a JSON text, with the fields of an object in the order in which they are
written. `canonical` gives the tree that the text means: of repeated keys the last one
counts, and the order of keys is that of their characters.
-/

namespace Storyboard

/-- A JSON value. -/
inductive Json
  | null
  | bool (value : Bool)
  | number (value : Json.Number)
  | string (value : String)
  | array (items : List Json)
  | object (fields : List (String × Json))
  /-- Well formed, and yet without meaning: a number that is too large, or a string
  with half of a surrogate pair. -/
  | meaningless

namespace Json

instance : Inhabited Json := ⟨.null⟩

/-- Adds a field in front of fields that were written after it. The fields stay in
order of their keys, and a key that is there already keeps its value. -/
def addField (key : String) (value : Json) : List (String × Json) → List (String × Json)
  | [] => [(key, value)]
  | (k, v) :: rest =>
      if key = k then (k, v) :: rest
      else if key < k then (key, value) :: (k, v) :: rest
      else (k, v) :: addField key value rest

mutual

/-- The meaning of a value: in each object, at every depth, the last of repeated keys
counts and keys are in order. -/
def canonical : Json → Json
  | .array items => .array (canonicalItems items)
  | .object fields => .object (canonicalFields fields)
  | .null => .null
  | .bool b => .bool b
  | .number n => .number n
  | .string s => .string s
  | .meaningless => .meaningless

@[inherit_doc canonical]
def canonicalItems : List Json → List Json
  | [] => []
  | v :: rest => v.canonical :: canonicalItems rest

@[inherit_doc canonical]
def canonicalFields : List (String × Json) → List (String × Json)
  | [] => []
  | (k, v) :: rest => addField k v.canonical (canonicalFields rest)

end

mutual

/-- How deeply arrays and objects are nested. -/
def depth : Json → Nat
  | .array items => depthItems items + 1
  | .object fields => depthFields fields + 1
  | _ => 0

@[inherit_doc depth]
def depthItems : List Json → Nat
  | [] => 0
  | v :: rest => max v.depth (depthItems rest)

@[inherit_doc depth]
def depthFields : List (String × Json) → Nat
  | [] => 0
  | (_, v) :: rest => max v.depth (depthFields rest)

end

mutual

/-- Whether every part of a value has a meaning. -/
def isMeaningful : Json → Bool
  | .array items => isMeaningfulItems items
  | .object fields => isMeaningfulFields fields
  | .meaningless => false
  | _ => true

@[inherit_doc isMeaningful]
def isMeaningfulItems : List Json → Bool
  | [] => true
  | v :: rest => v.isMeaningful && isMeaningfulItems rest

@[inherit_doc isMeaningful]
def isMeaningfulFields : List (String × Json) → Bool
  | [] => true
  | (_, v) :: rest => v.isMeaningful && isMeaningfulFields rest

end

/-- The value of the first field with that key. -/
def field? (key : String) : List (String × Json) → Option Json
  | [] => none
  | (k, v) :: rest => if k = key then some v else field? key rest

/-- A binary32 number as a value. JSON has no number that is not finite, and null
stands for it. -/
def ofSingle (x : Float32) : Json :=
  if x.isFinite then .number (.single x) else .null

/-- The binary32 number that a value is. -/
def single? : Json → Option Float32
  | .number n => some n.toSingle
  | _ => none

/-- The string that a value is. -/
def string? : Json → Option String
  | .string s => some s
  | _ => none

/-- Reads a tag: a string, or an object with that string as its only key and null as
its value. -/
def tag? : Json → Option String
  | .string s => some s
  | .object [(key, .null)] => some key
  | _ => none

/-- Whether a record may have fields beside those that are asked for. -/
inductive Extra
  | allowed
  | refused
  deriving DecidableEq

/-- The values of a record with the given fields, absent ones as `none`. The record is
an object in which no asked-for key repeats, or an array that gives the first fields in
their order. -/
def record? (names : List String) (extra : Extra) : Json → Option (List (Option Json))
  | .object fields =>
      let keys := fields.map (·.1)
      if extra = .refused ∧ ¬ keys.all (names.contains ·) then none
      else if names.any fun name => 1 < keys.count name then none
      else some (names.map (field? · fields))
  | .array items =>
      if items.length ≤ names.length then
        some (items.map some ++ List.replicate (names.length - items.length) none)
      else none
  | _ => none

end Json

end Storyboard
