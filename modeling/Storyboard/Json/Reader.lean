import Storyboard.Json.Basic

/-! # Reading JSON text

The reader takes one character after another. Between characters it remembers the lexeme
that it is inside of and the arrays and objects that are still open, so that reading is a
fold over the text and needs no look-ahead.
-/

namespace Storyboard.Json

/-- The characters between lexemes. -/
def isBlank (c : Char) : Bool :=
  c = ' ' || c = '\t' || c = '\n' || c = '\r'

/-- The characters that are lexemes by themselves. -/
def isMark (c : Char) : Bool :=
  c = '[' || c = ']' || c = '\x7b' || c = '\x7d' || c = ',' || c = ':'

/-! ## Quoted text -/

/-- Text between quotes as far as it is read, last character first. Characters outside
the basic plane may be written as two escaped halves of a surrogate pair. -/
structure Quoted where
  reversed : List Char
  /-- The first half of a pair, waiting for the second. -/
  half : Option Nat
  /-- Whether there is a half without its partner. -/
  broken : Bool

namespace Quoted

/-- No text yet. -/
def empty : Quoted := ⟨[], none, false⟩

/-- Appends a character. -/
def push (q : Quoted) (c : Char) : Quoted :=
  ⟨c :: q.reversed, none, q.broken || q.half.isSome⟩

/-- Appends an escaped unit of 16 bits. -/
def pushUnit (q : Quoted) (unit : Nat) : Quoted :=
  if 0xD800 ≤ unit ∧ unit < 0xDC00 then
    ⟨q.reversed, some unit, q.broken || q.half.isSome⟩
  else if 0xDC00 ≤ unit ∧ unit < 0xE000 then
    match q.half with
    | some first =>
        let code := 0x10000 + (first - 0xD800) * 0x400 + (unit - 0xDC00)
        ⟨Char.ofNat code :: q.reversed, none, q.broken⟩
    | none => { q with broken := true }
  else q.push (Char.ofNat unit)

/-- The text, unless a half has no partner. -/
def text? (q : Quoted) : Option String :=
  if q.broken || q.half.isSome then none else some (String.ofList q.reversed.reverse)

end Quoted

/-- The character that a letter after a backslash stands for. -/
def escaped? : Char → Option Char
  | '"' => some '"'
  | '\\' => some '\\'
  | '/' => some '/'
  | 'b' => some '\x08'
  | 'f' => some '\x0c'
  | 'n' => some '\n'
  | 'r' => some '\r'
  | 't' => some '\t'
  | _ => none

/-- The value of a hexadecimal digit. -/
def hexDigit? (c : Char) : Option Nat :=
  if c.isDigit then some (c.toNat - '0'.toNat)
  else if 'a' ≤ c ∧ c ≤ 'f' then some (c.toNat - 'a'.toNat + 10)
  else if 'A' ≤ c ∧ c ≤ 'F' then some (c.toNat - 'A'.toNat + 10)
  else none

/-- The value of a bare word: a name of JSON or a number. -/
def ofWord? (word : List Char) : Option Json :=
  if word = ['n', 'u', 'l', 'l'] then some .null
  else if word = ['t', 'r', 'u', 'e'] then some (.bool true)
  else if word = ['f', 'a', 'l', 's', 'e'] then some (.bool false)
  else (Literal.ofText? word).map fun l => (l.value?.map .number).getD .meaningless

/-! ## Structure -/

/-- An array or object that is still open, last entry first. -/
inductive Frame
  | array (items : List Json)
  /-- The fields are `none` when a key has no meaning; `key` is the last key read. -/
  | object (fields : Option (List (String × Json))) (key : Option String)

/-- What may come next. -/
inductive Awaiting
  | value
  | valueOrClose
  | key
  | keyOrClose
  | colon
  | separator
  | nothing
  deriving DecidableEq

/-- The lexeme that the reader is inside of. -/
inductive Lexeme
  | outside
  | word (reversed : List Char)
  | quoted (text : Quoted)
  | escape (text : Quoted)
  | unit (text : Quoted) (digits : Nat) (value : Nat)

/-- Where the reader stands. -/
structure Reader where
  lexeme : Lexeme
  awaiting : Awaiting
  frames : List Frame
  /-- The finished value, once nothing more may come. -/
  result : Json

namespace Reader

/-- Before the first character. -/
def start : Reader := ⟨.outside, .value, [], .null⟩

/-- Takes a finished value at a place where one may stand. -/
def accept (r : Reader) (v : Json) : Reader :=
  match r.frames with
  | [] => ⟨.outside, .nothing, [], v⟩
  | .array items :: frames => ⟨.outside, .separator, .array (v :: items) :: frames, .null⟩
  | .object fields key :: frames =>
      let fields := match fields, key with
        | some fields, some key => some ((key, v) :: fields)
        | _, _ => none
      ⟨.outside, .separator, .object fields none :: frames, .null⟩

/-- Takes a finished value, if one may stand here. -/
def value? (r : Reader) (v : Json) : Option Reader :=
  match r.awaiting with
  | .value | .valueOrClose => some (r.accept v)
  | _ => none

/-- Takes a finished string, which is a key or a value. -/
def string? (r : Reader) (text : Option String) : Option Reader :=
  match r.awaiting, r.frames with
  | .key, .object fields _ :: frames | .keyOrClose, .object fields _ :: frames =>
      some ⟨.outside, .colon, .object fields text :: frames, .null⟩
  | _, _ => r.value? ((text.map Json.string).getD .meaningless)

/-- The object with the given fields, last field first. -/
def ofReversed : Option (List (String × Json)) → Json
  | some fields => .object fields.reverse
  | none => .meaningless

/-- Closes the innermost array or object. -/
def close? (r : Reader) (square : Bool) : Option Reader :=
  match r.frames, square with
  | .array items :: frames, true =>
      if r.awaiting = .valueOrClose ∨ r.awaiting = .separator then
        some ({ r with frames }.accept (.array items.reverse))
      else none
  | .object fields _ :: frames, false =>
      if r.awaiting = .keyOrClose ∨ r.awaiting = .separator then
        some ({ r with frames }.accept (ofReversed fields))
      else none
  | _, _ => none

/-- Opens an array or object, if a value may stand here. -/
def open? (r : Reader) (frame : Frame) (next : Awaiting) : Option Reader :=
  match r.awaiting with
  | .value | .valueOrClose => some ⟨.outside, next, frame :: r.frames, .null⟩
  | _ => none

/-- Takes one of the marks of JSON. -/
def mark? (r : Reader) (c : Char) : Option Reader :=
  if c = '[' then r.open? (.array []) .valueOrClose
  else if c = '\x7b' then r.open? (.object (some []) none) .keyOrClose
  else if c = ']' then r.close? true
  else if c = '\x7d' then r.close? false
  else if c = ':' then
    if r.awaiting = .colon then some { r with lexeme := .outside, awaiting := .value } else none
  else match r.awaiting, r.frames with
    | .separator, .array _ :: _ => some { r with lexeme := .outside, awaiting := .value }
    | .separator, .object _ _ :: _ => some { r with lexeme := .outside, awaiting := .key }
    | _, _ => none

/-- Takes a character outside of any lexeme. -/
def begin? (r : Reader) (c : Char) : Option Reader :=
  if isBlank c then some { r with lexeme := .outside }
  else if isMark c then r.mark? c
  else if c = '"' then some { r with lexeme := .quoted .empty }
  else some { r with lexeme := .word [c] }

/-- Takes one character. -/
def step? (r : Reader) (c : Char) : Option Reader :=
  match r.lexeme with
  | .outside => r.begin? c
  | .word reversed =>
      if isBlank c || isMark c || c = '"' then do
        let v ← ofWord? reversed.reverse
        let r ← r.value? v
        r.begin? c
      else some { r with lexeme := .word (c :: reversed) }
  | .quoted text =>
      if c = '"' then r.string? text.text?
      else if c = '\\' then some { r with lexeme := .escape text }
      else if c.toNat < 0x20 then none
      else some { r with lexeme := .quoted (text.push c) }
  | .escape text =>
      if c = 'u' then some { r with lexeme := .unit text 0 0 }
      else (escaped? c).map fun c => { r with lexeme := .quoted (text.push c) }
  | .unit text digits value =>
      (hexDigit? c).map fun digit =>
        let value := 16 * value + digit
        if digits = 3 then { r with lexeme := .quoted (text.pushUnit value) }
        else { r with lexeme := .unit text (digits + 1) value }

/-- The value read, if the text may end here. -/
def finish? (r : Reader) : Option Json :=
  match r.lexeme with
  | .word reversed => do
      let v ← ofWord? reversed.reverse
      let r ← r.value? v
      if r.awaiting = .nothing then some r.result else none
  | .outside => if r.awaiting = .nothing then some r.result else none
  | _ => none

end Reader

/-- Reads a text that is one JSON value, with blanks around it. -/
def ofText? (text : String) : Option Json :=
  (text.toList.foldlM Reader.step? Reader.start).bind Reader.finish?

/-- The depth to which the arrays and objects of a document may be nested. -/
def maxDepth : Nat := 127

/-- Reads a text as `ofText?` does, if it is not nested too deeply and every part of it
has a meaning. -/
def strict? (text : String) : Option Json :=
  (ofText? text).filter fun v => v.isMeaningful && v.depth ≤ maxDepth

end Storyboard.Json
