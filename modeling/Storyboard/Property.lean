import Storyboard.Numeric.Binary

/-! # Animatable properties

The nine style properties that a timeline can drive, in a fixed order: first those that
go into a transform, then the others.
-/

namespace Storyboard

/-- An animatable style property. -/
inductive Property
  | translateX
  | translateY
  | rotate
  | rotateX
  | rotateY
  | scale
  | scaleX
  | scaleY
  | opacity
  deriving DecidableEq, Repr

namespace Property

/-- The properties that are parts of a transform, in order. -/
def transform : List Property :=
  [translateX, translateY, rotate, rotateX, rotateY, scale, scaleX, scaleY]

/-- The properties that stand by themselves. -/
def other : List Property :=
  [opacity]

/-- Every property, in order. -/
def all : List Property :=
  transform ++ other

/-- The position in `all`. -/
def index : Property → Nat
  | translateX => 0
  | translateY => 1
  | rotate => 2
  | rotateX => 3
  | rotateY => 4
  | scale => 5
  | scaleX => 6
  | scaleY => 7
  | opacity => 8

/-- The name by which style sheets and documents call the property. -/
def name : Property → String
  | translateX => "translateX"
  | translateY => "translateY"
  | rotate => "rotate"
  | rotateX => "rotateX"
  | rotateY => "rotateY"
  | scale => "scale"
  | scaleX => "scaleX"
  | scaleY => "scaleY"
  | opacity => "opacity"

/-- The property of that name. -/
def ofName? (name : String) : Option Property :=
  all.find? (·.name == name)

/-- Whether the property is part of a transform. -/
def isTransform : Property → Bool
  | opacity => false
  | _ => true

/-- Whether values of the property are angles. -/
def isRotation : Property → Bool
  | rotate | rotateX | rotateY => true
  | _ => false

/-- Whether values of the property are factors of size. -/
def isScale : Property → Bool
  | scale | scaleX | scaleY => true
  | _ => false

/-- The value of a property that nothing has set: 1 for what multiplies, else 0. -/
def defaultSeed (p : Property) : Float32 :=
  if p.isScale || p == opacity then 1 else 0

@[simp] theorem mem_all (p : Property) : p ∈ all := by
  cases p <;> decide

theorem getElem?_all_index (p : Property) : all[p.index]? = some p := by
  cases p <;> rfl

theorem index_lt (p : Property) : p.index < all.length :=
  (List.getElem?_eq_some_iff.mp p.getElem?_all_index).1

theorem getElem?_all_iff {k : Nat} {p : Property} : all[k]? = some p ↔ k = p.index := by
  constructor
  · intro h
    have hnodup : all.Nodup := by decide
    obtain ⟨hk, -⟩ := List.getElem?_eq_some_iff.mp h
    exact (List.getElem?_inj hk hnodup).mp (h.trans p.getElem?_all_index.symm)
  · rintro rfl
    exact p.getElem?_all_index

theorem index_inj {p q : Property} : p.index = q.index ↔ p = q := by
  refine ⟨fun h => ?_, congrArg index⟩
  have hp := p.getElem?_all_index
  rw [h, q.getElem?_all_index] at hp
  exact (Option.some.inj hp).symm

theorem exists_index {k : Nat} (h : k < all.length) : ∃ p : Property, p.index = k :=
  ⟨all[k], (getElem?_all_iff.mp (List.getElem?_eq_getElem h)).symm⟩

@[simp] theorem ofName?_name (p : Property) : ofName? p.name = some p := by
  cases p <;> decide

theorem name_of_ofName? {n : String} {p : Property} (h : ofName? n = some p) : p.name = n := by
  simpa using List.find?_some h

end Property

end Storyboard
