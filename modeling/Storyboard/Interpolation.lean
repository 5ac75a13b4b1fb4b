import Storyboard.Config
import Storyboard.Driver
import Storyboard.PropertyMap

/-! # From positions to style values

A driver stands at a position on the axis of step numbers. The interpolation of a property
reads the values committed for it at that position: table entry `k` at position `k`, and a
straight line between neighbours. Before the first and behind the last entry the outermost
lines are continued.
-/

namespace Storyboard

/-- How the values of a property are presented. -/
inductive OutputFormat
  | number
  | angle (unit : AngleUnit)
  deriving DecidableEq, Repr

/-- Rotations are angles, all else are numbers. -/
def OutputFormat.ofProperty (p : Property) (unit : AngleUnit) : OutputFormat :=
  if p.isRotation then .angle unit else .number

/-- A value of a style. -/
inductive StyleValue
  | number (value : Float32)
  | angle (value : Float32) (unit : AngleUnit)

namespace StyleValue

/-- The number, without a unit. -/
def value : StyleValue → Float32
  | number value => value
  | angle value _ => value

/-- Whether the value has a unit. -/
def isAngle : StyleValue → Bool
  | number _ => false
  | angle _ _ => true

/-- The text of a value. -/
def text : StyleValue → String
  | number value => plainText value
  | angle value unit => plainText value ++ unit.suffix

/-- Numbers are JSON numbers, angles are strings. -/
def toJson : StyleValue → Json
  | number value => .ofSingle value
  | angle value unit => .string (angle value unit).text

end StyleValue

/-- The number of the segment in which a position lies, for a table of `size` entries:
the whole part of the position, kept between the first and the last segment. -/
def segmentAt (size : Nat) (position : Float32) : Nat :=
  if position ≤ 0 then 0 else min (wholePart position) (size - 2)

/-- The value at a position of a table. A table with one entry is constant, and an
empty one yields the fallback. -/
def valueAt (fallback : Float32) (table : Array Float32) (position : Float32) : Float32 :=
  match h : table.size with
  | 0 => fallback
  | 1 => table[0]
  | n + 2 =>
      let s := segmentAt table.size position
      have hs : s + 1 < table.size := by
        simp only [s, segmentAt]; split <;> omega
      lerp table[s] table[s + 1] (position - ofCount s)

/-- The table of one property, the driver whose position it is read at, and how its
values are presented. -/
structure Interpolation where
  property : Property
  driver : Driver
  table : Array Float32
  format : OutputFormat

namespace Interpolation

/-- The interpolation of a property, in its usual format. -/
def ofProperty (p : Property) (driver : Driver) (table : Array Float32) (unit : AngleUnit) :
    Interpolation :=
  ⟨p, driver, table, .ofProperty p unit⟩

/-- The positions of the table entries. -/
def inputRange (i : Interpolation) : List Float32 :=
  (List.range i.table.size).map ofCount

/-- The number at a position. -/
def valueAt (i : Interpolation) (position : Float32) : Float32 :=
  Storyboard.valueAt i.property.defaultSeed i.table position

/-- The style value where the driver stands. -/
def sample (i : Interpolation) (bank : DriverBank) : StyleValue :=
  let value := i.valueAt (bank.get i.driver)
  match i.format with
  | .number => .number value
  | .angle unit => .angle value unit

end Interpolation

end Storyboard
