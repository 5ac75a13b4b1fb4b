import Storyboard.Numeric.Decimal

/-! # The fewest digits of a number

A binary number stands for every real that rounds to it. Among the decimals in that
interval this module finds one with the fewest digits, and of those the one nearest to
the number itself. All arithmetic is exact.
-/

namespace Storyboard

/-- A positive number `mantissa * 2 ^ exponent` of some binary format. -/
structure Magnitude where
  mantissa : Nat
  exponent : Int
  /-- The next number below is half as far away as the next number above. -/
  closeBelow : Bool

/-- Which of two equally near decimals is taken. -/
inductive Tie
  | even
  | away
  deriving DecidableEq

namespace Magnitude

/-- Quarters of a unit in the last place are counted in numerators over
`10 ^ grid`: a quarter is `numerator grid / denominator grid` of a grid step. -/
def numerator (m : Magnitude) (grid : Int) : Nat :=
  Nat.pow 2 (m.exponent - 2).toNat * Nat.pow 10 (-grid).toNat

@[inherit_doc numerator]
def denominator (m : Magnitude) (grid : Int) : Nat :=
  Nat.pow 2 (2 - m.exponent).toNat * Nat.pow 10 grid.toNat

/-- Whether `digits * 10 ^ grid` rounds to the number. The two ends of the interval do
so when the mantissa is even. -/
def Admits (m : Magnitude) (grid : Int) (digits : Nat) : Prop :=
  let point := digits * m.denominator grid
  let low := (4 * m.mantissa - if m.closeBelow then 1 else 2) * m.numerator grid
  let high := (4 * m.mantissa + 2) * m.numerator grid
  if m.mantissa % 2 = 0 then low ≤ point ∧ point ≤ high else low < point ∧ point < high

instance (m : Magnitude) (grid : Int) (digits : Nat) : Decidable (m.Admits grid digits) := by
  unfold Admits; infer_instance

/-- The nearest multiple of `10 ^ grid` among those that round to the number. If any
does, one of the two neighbours of the number on the grid does. -/
def nearestOn (m : Magnitude) (tie : Tie) (grid : Int) : Option Nat :=
  let value := 4 * m.mantissa * m.numerator grid
  let step := m.denominator grid
  let below := value / step
  let above := below + 1
  if m.Admits grid below then
    if m.Admits grid above then
      match compare (2 * value) ((2 * below + 1) * step) with
      | .lt => some below
      | .gt => some above
      | .eq => some (if tie = .even ∧ below % 2 = 0 then below else above)
    else some below
  else if m.Admits grid above then some above else none

/-- The exponent of the leading decimal digit. -/
def leadingExponent (m : Magnitude) : Int :=
  let value := 4 * m.mantissa * m.numerator 0
  let one := m.denominator 0
  let length (n : Nat) : Int := (Nat.toDigits 10 n).length
  let shift := length one - length value
  if one * Nat.pow 10 (-shift).toNat ≤ value * Nat.pow 10 shift.toNat then -shift
  else -shift - 1

/-- The decimal with the fewest digits that rounds to the number. Seventeen digits tell
apart all numbers of the formats in use. -/
def shortest (m : Magnitude) (tie : Tie) : Decimal :=
  let lead := m.leadingExponent
  let attempt (count : Nat) : Option Decimal :=
    (m.nearestOn tie (lead - count)).map (⟨·, lead - count⟩)
  ((List.range 17).findSome? attempt).getD ⟨m.mantissa, m.exponent⟩

end Magnitude

end Storyboard
