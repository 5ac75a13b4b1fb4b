import Storyboard.Numeric.Binary

/-! # Decimals

A decimal is a whole number of units of a power of ten. This module reads decimals from
text and rounds them to binary32, in one step and to the nearest number.
-/

namespace Storyboard

/-- The value of a digit. -/
def digitValue (c : Char) : Nat :=
  c.toNat - '0'.toNat

/-- The whole number that digits spell. -/
def ofDigits (digits : List Char) : Nat :=
  digits.foldl (fun n c => 10 * n + digitValue c) 0

/-- The decimal `digits * 10 ^ exponent`. -/
structure Decimal where
  digits : Nat
  exponent : Int

namespace Decimal

/-- The nearest binary32 number, ties to even. What has more than 39 digits before the
point is infinite, and what has 46 zeros or more behind it is zero. -/
def toSingle (d : Decimal) : Float32 :=
  let lead := d.exponent + (Nat.toDigits 10 d.digits).length
  if d.digits = 0 ∨ lead ≤ -46 then 0
  else if 39 < lead then 1 / 0
  else OfScientific.ofScientific d.digits (decide (d.exponent < 0)) d.exponent.natAbs

/-- Reads an exponent with its letter; without one it is zero. -/
def exponent? : List Char → Option Int
  | [] => some 0
  | letter :: text =>
      if letter = 'e' ∨ letter = 'E' then
        match text with
        | '-' :: text => (unsigned? text).map (-·)
        | '+' :: text => unsigned? text
        | text => unsigned? text
      else none
where
  unsigned? (text : List Char) : Option Int :=
    if text.isEmpty || !text.all Char.isDigit then none else some (ofDigits text)

/-- Reads a decimal without a sign: digits, of which some may stand behind a point, and
an exponent. -/
def ofText? (text : List Char) : Option Decimal :=
  let whole := text.takeWhile Char.isDigit
  let rest := text.dropWhile Char.isDigit
  let fraction := match rest with
    | '.' :: rest => rest.takeWhile Char.isDigit
    | _ => []
  let rest := match rest with
    | '.' :: rest => rest.dropWhile Char.isDigit
    | rest => rest
  if whole.isEmpty && fraction.isEmpty then none
  else (exponent? rest).map fun exponent =>
    ⟨ofDigits (whole ++ fraction), exponent - fraction.length⟩

end Decimal

/-- Reads a number: a decimal, or the word for a number that is not finite, in letters of
either case; in front there may be a sign. -/
def numberOfText? (text : String) : Option Float32 :=
  match text.toList with
  | '-' :: rest => (unsigned? rest).map (-·)
  | '+' :: rest => unsigned? rest
  | rest => unsigned? rest
where
  unsigned? (text : List Char) : Option Float32 :=
    let word := String.ofList (text.map Char.toLower)
    if word = "nan" then some (0 / 0)
    else if word = "inf" ∨ word = "infinity" then some (1 / 0)
    else (Decimal.ofText? text).map Decimal.toSingle

end Storyboard
