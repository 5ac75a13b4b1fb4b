/-! # Binary numbers

Every quantity of a timeline is a binary32 number. This module holds the few operations
on them that the rest of the library needs beyond arithmetic, and the passage between
binary32 and binary64.
-/

namespace Storyboard

/-- The larger of two numbers. A NaN gives way to the other operand, and of two
equal numbers, which the zeros of both signs are, the second is taken. -/
def maxNumber (a b : Float32) : Float32 :=
  if a.isNaN then b else if a ≤ b then b else a

/-- The smaller of two numbers. A NaN gives way to the other operand, and of two
equal numbers, which the zeros of both signs are, the second is taken. -/
def minNumber (a b : Float32) : Float32 :=
  if a.isNaN then b else if b ≤ a then b else a

/-- Keeps a number between 0 and 1; a NaN stays. -/
def clampUnit (t : Float32) : Float32 :=
  if t < 0 then 0 else if 1 < t then 1 else t

/-- The point `a + (b - a) * t`: `a` for `t = 0`, and the line through `a` and `b`
elsewhere. -/
def lerp (a b t : Float32) : Float32 :=
  a + (b - a) * t

/-- The binary32 number nearest to a count. -/
def ofCount (n : Nat) : Float32 :=
  n.toUInt64.toFloat32

/-- The whole part of a non-negative number. A NaN counts as 0, and a number beyond
64 bits as the largest count of 64 bits. -/
def wholePart (x : Float32) : Nat :=
  x.toUInt64.toNat

/-- Rounds a binary64 number to binary32, ties to even; what is too large becomes
infinite. -/
def narrow (x : Float) : Float32 :=
  .ofModel <| .pack <| match x.toModel.unpack with
    | .finite sign mantissa exponent _ =>
        Float.Model.UnpackedFloat.round .binary32 sign mantissa exponent
    | other => other

/-- The binary64 number of the same value. -/
def widen (x : Float32) : Float :=
  .ofModel <| .pack <| match x.toModel.unpack with
    | .finite sign mantissa exponent _ =>
        Float.Model.UnpackedFloat.round .binary64 sign mantissa exponent
    | other => other

end Storyboard
