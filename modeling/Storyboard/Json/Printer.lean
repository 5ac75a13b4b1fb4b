import Storyboard.Json.Basic
import Storyboard.Numeric.Layout

/-! # Writing JSON text

Values are written without blanks, and the fields of an object in their order.
-/

namespace Storyboard.Json

/-- Numbers have a fraction unless an exponent is written; exponents from -6 to 12 are
not written, and positive ones have a plus. Of two equally near decimals the one with
the even last digit is taken. -/
def layout : Layout where
  positional := fun exponent => -6 ≤ exponent && exponent ≤ 12
  fraction := true
  plus := true
  tie := .even

/-- The text of a number; what is not finite becomes null. -/
def Number.text : Number → String
  | .integer n => toString n
  | .double x => if x.isFinite then layout.render (.double x) else "null"
  | .single x => if x.isFinite then layout.render (.single x) else "null"

/-- A character as it stands between quotes. -/
def escape (c : Char) : List Char :=
  match c with
  | '"' => ['\\', '"']
  | '\\' => ['\\', '\\']
  | '\x08' => ['\\', 'b']
  | '\x0c' => ['\\', 'f']
  | '\n' => ['\\', 'n']
  | '\r' => ['\\', 'r']
  | '\t' => ['\\', 't']
  | c =>
      if c.toNat < 0x20 then
        ['\\', 'u', '0', '0', Nat.digitChar (c.toNat / 16), Nat.digitChar (c.toNat % 16)]
      else [c]

/-- A string between quotes. -/
def quote (s : String) : String :=
  String.ofList ('"' :: s.toList.flatMap escape ++ ['"'])

mutual

/-- The text of a value. -/
def text : Json → String
  | .null => "null"
  | .bool b => if b then "true" else "false"
  | .number n => n.text
  | .string s => quote s
  | .array items => "[" ++ ",".intercalate (itemTexts items) ++ "]"
  | .object fields => "\x7b" ++ ",".intercalate (fieldTexts fields) ++ "\x7d"
  | .meaningless => "null"

/-- The texts of the items of an array. -/
def itemTexts : List Json → List String
  | [] => []
  | v :: rest => v.text :: itemTexts rest

/-- The texts of the fields of an object. -/
def fieldTexts : List (String × Json) → List String
  | [] => []
  | (k, v) :: rest => (quote k ++ ":" ++ v.text) :: fieldTexts rest

end

end Storyboard.Json
