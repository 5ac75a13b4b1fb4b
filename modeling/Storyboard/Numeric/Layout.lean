import Storyboard.Numeric.Shortest

/-! # Layouts of number text

A number is written with its fewest digits. Where the digits stand, whether there is an
exponent and what is written around it is a `Layout`; the library writes numbers in three
of them, each defined where its text is produced.
-/

namespace Storyboard

/-- How the fewest digits of a number are laid out as text. -/
structure Layout where
  /-- The exponents of the leading digit for which no exponent is written. -/
  positional : Int → Bool
  /-- Whether a whole number is written with a fraction `.0`, when no exponent is. -/
  fraction : Bool
  /-- Whether a positive exponent is written with a plus. -/
  plus : Bool
  /-- Which of two equally near decimals is written. -/
  tie : Tie

/-- A number of either format, split into sign and magnitude. -/
inductive Reading
  | nan
  | infinite (negative : Bool)
  | zero (negative : Bool)
  | finite (negative : Bool) (magnitude : Magnitude)

open Float.Model in
/-- Splits an unpacked number. `implicit` is the least mantissa of a normal number, and
`least` the least exponent of the format. -/
def Reading.ofUnpacked (implicit : Nat) (least : Int) : UnpackedFloat → Reading
  | .notANumber => .nan
  | .infinity sign => .infinite (sign == .negative)
  | .zero sign => .zero (sign == .negative)
  | .finite sign mantissa exponent _ =>
      .finite (sign == .negative) ⟨mantissa, exponent, mantissa == implicit && least < exponent⟩

/-- Splits a binary32 number. -/
def Reading.single (x : Float32) : Reading :=
  .ofUnpacked (Nat.pow 2 23) (-149) x.toModel.unpack

/-- Splits a binary64 number. -/
def Reading.double (x : Float) : Reading :=
  .ofUnpacked (Nat.pow 2 52) (-1074) x.toModel.unpack

namespace Layout

/-- A run of zeros. -/
def zeros (count : Int) : List Char :=
  List.replicate count.toNat '0'

/-- Writes digits, the first of which has the weight `10 ^ exponent`. -/
def place (layout : Layout) (digits : List Char) (exponent : Int) : List Char :=
  if layout.positional exponent then
    if exponent < 0 then
      '0' :: '.' :: zeros (-exponent - 1) ++ digits
    else
      let whole := digits.take (exponent + 1).toNat
      let rest := digits.drop (exponent + 1).toNat
      whole ++ zeros (exponent + 1 - whole.length) ++
        if rest.isEmpty then (if layout.fraction then ['.', '0'] else []) else '.' :: rest
  else
    let tail := if digits.length ≤ 1 then [] else '.' :: digits.drop 1
    let mark := if exponent < 0 then ['-'] else if layout.plus then ['+'] else []
    digits.take 1 ++ tail ++ 'e' :: mark ++ Nat.toDigits 10 exponent.natAbs

/-- Writes a decimal; zeros at the end of its digits carry nothing and are left out. -/
def decimal (layout : Layout) (d : Decimal) : List Char :=
  let digits := Nat.toDigits 10 d.digits
  let kept := (digits.reverse.dropWhile (· == '0')).reverse
  layout.place kept (d.exponent + digits.length - 1)

/-- The text of a number. -/
def render (layout : Layout) : Reading → String
  | .nan => "NaN"
  | .infinite negative => if negative then "-inf" else "inf"
  | .zero negative => signed negative (if layout.fraction then ['0', '.', '0'] else ['0'])
  | .finite negative magnitude =>
      signed negative (layout.decimal (magnitude.shortest layout.tie))
where
  signed (negative : Bool) (text : List Char) : String :=
    String.ofList (if negative then '-' :: text else text)

/-- Plain numbers never have an exponent, and whole ones no fraction. -/
def plain : Layout where
  positional := fun _ => true
  fraction := false
  plus := false
  tie := .away

end Layout

/-- The plain text of a number, as it stands in messages and style values. -/
def plainText (x : Float32) : String :=
  Layout.plain.render (.single x)

end Storyboard
