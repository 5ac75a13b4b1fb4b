import Storyboard.Numeric.Decimal

/-! # Numbers in JSON

A literal that is a whole number of at most 64 bits is kept exactly. Every other literal is
read as a binary64 number: the leading digits that fit into 64 bits are scaled by a power
of ten. That is one rounding more than the nearest number would take, and a literal too
large for binary64 has no value.
-/

namespace Storyboard.Json

/-- A number of a JSON value. -/
inductive Number
  /-- A whole number between `-2 ^ 63` and `2 ^ 64 - 1`. -/
  | integer (n : Int)
  | double (x : Float)
  /-- A binary32 number; it is written with the fewest digits that identify it. -/
  | single (x : Float32)

namespace Number

/-- The nearest binary32 number. Whole numbers are rounded once, all others from
their binary64 value. -/
def toSingle : Number → Float32
  | .integer (.ofNat n) => n.toUInt64.toFloat32
  | .integer (.negSucc n) => -(n + 1).toUInt64.toFloat32
  | .double x => narrow x
  | .single x => x

/-- The nearest binary64 number. -/
def toDouble : Number → Float
  | .integer (.ofNat n) => n.toUInt64.toFloat
  | .integer (.negSucc n) => -(n + 1).toUInt64.toFloat
  | .double x => x
  | .single x => widen x

end Number

/-- A number as it is spelled: sign, digits before the point, and if present digits after
the point and a signed exponent. -/
structure Literal where
  negative : Bool
  whole : List Char
  fraction : Option (List Char)
  exponent : Option (Bool × List Char)

namespace Literal

/-- The digits at the start of a text, which must not be none, and what follows. -/
def digits? (text : List Char) : Option (List Char × List Char) :=
  let digits := text.takeWhile Char.isDigit
  if digits.isEmpty then none else some (digits, text.dropWhile Char.isDigit)

/-- Reads an exponent, the letter of which has been read. -/
def exponent? : List Char → Option (Bool × List Char)
  | '+' :: text => unsigned false text
  | '-' :: text => unsigned true text
  | text => unsigned false text
where
  unsigned (negative : Bool) (text : List Char) : Option (Bool × List Char) :=
    match digits? text with
    | some (digits, []) => some (negative, digits)
    | _ => none

/-- Reads what follows the digits of the fraction. -/
def afterFraction? (negative : Bool) (whole : List Char) (fraction : Option (List Char)) :
    List Char → Option Literal
  | [] => some ⟨negative, whole, fraction, none⟩
  | c :: text =>
      if c = 'e' ∨ c = 'E' then
        (exponent? text).map fun exponent => ⟨negative, whole, fraction, some exponent⟩
      else none

/-- Reads a number without its sign. Only a lone zero may begin with a zero. -/
def unsigned? (negative : Bool) (text : List Char) : Option Literal := do
  let (whole, rest) ← digits? text
  if whole.head? = some '0' ∧ whole.length ≠ 1 then none
  else match rest with
    | '.' :: rest => do
        let (fraction, rest) ← digits? rest
        afterFraction? negative whole (some fraction) rest
    | rest => afterFraction? negative whole none rest

/-- The literal that a text spells. -/
def ofText? : List Char → Option Literal
  | '-' :: text => unsigned? true text
  | text => unsigned? false text

/-- Appends digits to a significand as long as it fits into 64 bits. Yields the
significand and the digits left over. -/
def gather (significand : Nat) : List Char → Nat × List Char
  | [] => (significand, [])
  | c :: rest =>
      let next := 10 * significand + digitValue c
      if next < Nat.pow 2 64 then gather next rest else (significand, c :: rest)

/-- The power of ten that binary64 has nearest to `10 ^ n`. -/
def powerOfTen (n : Nat) : Float :=
  OfScientific.ofScientific 1 false n

/-- Divides by `10 ^ n`, in steps that binary64 can express; zero stays zero. -/
def shrink (x : Float) (n : Nat) : Float :=
  if n ≤ 308 then x / powerOfTen n
  else if x == 0 then x
  else shrink (x / powerOfTen 308) (n - 308)
termination_by n

/-- Multiplies by `10 ^ exponent`. There is no result beyond binary64. -/
def scale? (x : Float) (exponent : Int) : Option Float :=
  match exponent with
  | .ofNat n =>
      if n ≤ 308 then
        let y := x * powerOfTen n
        if y.isInf then none else some y
      else if x == 0 then some x
      else none
  | .negSucc n => some (shrink x (n + 1))

/-- Exponents from here on are not computed with. -/
def exponentLimit : Nat :=
  Nat.pow 2 31

/-- The number that a literal denotes; none when it is too large. -/
def value? (l : Literal) : Option Number :=
  let (significand, excess) := gather 0 l.whole
  match l.fraction, l.exponent, excess with
  | none, none, [] =>
      if l.negative then
        if significand = 0 ∨ Nat.pow 2 63 < significand then
          some (.double (-significand.toUInt64.toFloat))
        else some (.integer (-significand))
      else some (.integer significand)
  | fraction, exponent, _ =>
      let fraction := fraction.getD []
      let (significand, unused) := gather significand fraction
      let shift : Int := excess.length - (fraction.length - unused.length : Nat)
      let signed (x : Float) : Number := .double (if l.negative then -x else x)
      let (down, power) := (exponent.map fun e => (e.1, ofDigits e.2)).getD (false, 0)
      if power < exponentLimit then
        let exponent := shift + if down then -(power : Int) else power
        (scale? significand.toUInt64.toFloat exponent).map signed
      else if significand = 0 ∨ down then some (signed 0)
      else none

end Literal

end Storyboard.Json
