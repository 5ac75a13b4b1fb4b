import Storyboard.Numeric.Layout
import Storyboard.Text.Standalone
import Storyboard.Timeline

/-! # Descriptions

One-line texts that show how steps and timelines are made up, for logs. A description is
first a term and then written out.
-/

namespace Storyboard

/-- A term of names, lists and parts. -/
inductive Description
  | word (letters : String)
  | list (items : List Description)
  /-- A name with parts in order. -/
  | tuple (head : String) (parts : List Description)
  /-- A name with named parts; an open one has others that are not shown. -/
  | record (head : String) (parts : List (String × Description)) (isOpen : Bool)

namespace Description

/-! ## Text -/

mutual

/-- Writes a term on one line. -/
def text : Description → String
  | .word letters => letters
  | .list items => "[" ++ ", ".intercalate (itemTexts items) ++ "]"
  | .tuple head parts => head ++ "(" ++ ", ".intercalate (itemTexts parts) ++ ")"
  | .record head parts isOpen =>
      let shown := partTexts parts ++ if isOpen then [".."] else []
      head ++ " \x7b " ++ ", ".intercalate shown ++ " \x7d"

/-- The texts of terms. -/
def itemTexts : List Description → List String
  | [] => []
  | d :: rest => d.text :: itemTexts rest

/-- The texts of named terms. -/
def partTexts : List (String × Description) → List String
  | [] => []
  | (name, d) :: rest => (name ++ ": " ++ d.text) :: partTexts rest

end

/-- Numbers always have a fraction or an exponent; exponents from -4 to 15 are not
written. -/
def layout : Layout where
  positional := fun exponent => -4 ≤ exponent && exponent ≤ 15
  fraction := true
  plus := false
  tie := .away

/-- A character as it stands between quotes. One that does not stand alone is given by its
code point. -/
def escape (c : Char) : List Char :=
  match c with
  | '"' => ['\\', '"']
  | '\\' => ['\\', '\\']
  | '\n' => ['\\', 'n']
  | '\r' => ['\\', 'r']
  | '\t' => ['\\', 't']
  | '\x00' => ['\\', '0']
  | c =>
      if standsAlone c then [c]
      else ['\\', 'u', '\x7b'] ++ Nat.toDigits 16 c.toNat ++ ['\x7d']

/-! ## Terms -/

/-- A number. -/
def ofSingle (x : Float32) : Description :=
  .word (layout.render (.single x))

/-- A count. -/
def ofNat (n : Nat) : Description :=
  .word (toString n)

/-- A string between quotes. -/
def ofString (s : String) : Description :=
  .word (String.ofList ('"' :: s.toList.flatMap escape ++ ['"']))

/-- What may be absent. -/
def ofOption {α : Type} (describe : α → Description) : Option α → Description
  | none => .word "None"
  | some a => .tuple "Some" [describe a]

/-- A function, of which nothing can be shown. -/
def hidden (name : String) : Description :=
  .tuple name [.word ".."]

/-- The entries of a table, in order. -/
def ofTable {α : Type} (describe : α → Description) (table : PropertyMap α) : Description :=
  .tuple "PropertyMap" [.list (table.values.map describe)]

/-- An easing. -/
def ofEasing : Easing → Description
  | .linear => .word "Linear"
  | .cubicBezier c => .tuple "CubicBezier" [.list ([c.x₁, c.y₁, c.x₂, c.y₂].map ofSingle)]
  | .custom _ => hidden "Custom"

/-- A target. -/
def ofTarget : Target → Description
  | .value v => .tuple "Value" [ofSingle v]
  | .computed _ => hidden "Computed"

/-- What a step does with a property. -/
def ofPropertyConfig (c : PropertyConfig) : Description :=
  .record "PropertyConfig"
    [("to", ofTarget c.target), ("duration", ofOption ofSingle c.duration),
      ("easing", ofOption ofEasing c.easing)] false

/-- Initial values. -/
def ofInitialValues (i : InitialValues) : Description :=
  .record "InitialValues" [("values", ofTable (ofOption ofSingle) i.values)] false

/-- Committed values. -/
def ofOutputs (o : Outputs) : Description :=
  .record "OutputAccumulator"
    [("outputs", ofTable (fun track => .list (track.values.toList.map ofSingle)) o.tracks)] false

mutual

/-- A step; of an animation that is played as it is, only the label is shown. -/
def ofStep {W α : Type} : Step (Embedded W α) → Description
  | .configure c =>
      .tuple "Configuration"
        [.record "StepConfig" [("entries", ofTable (ofOption ofPropertyConfig) c.entries)] false]
  | .embed e =>
      .tuple "Opaque" [.record "OpaqueStep" [("label", ofOption ofString e.label)] true]
  | .nested initial steps =>
      .tuple "Nested" [.record "TimelineSpec"
        [("steps", .list (ofSteps steps)), ("initial_values", ofInitialValues initial)] false]

/-- Steps, in order. -/
def ofSteps {W α : Type} : List (Step (Embedded W α)) → List Description
  | [] => []
  | s :: rest => ofStep s :: ofSteps rest

end

/-- A timeline. -/
def ofTimeline {H α : Type} (t : Timeline H α) : Description :=
  .record "CompiledTimeline"
    [("state", .word t.state.name), ("steps", ofNat t.script.spec.steps.length),
      ("flattened", ofNat t.script.spec.flatten.length), ("outputs", ofOutputs t.outputs),
      ("current_group", ofNat t.currentGroup)] false

end Description

end Storyboard
