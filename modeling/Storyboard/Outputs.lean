import Storyboard.Error
import Storyboard.PropertyMap

/-! # Initial and committed values

A timeline commits one value of every property per configuring step. The values of a
property form a track: first its seed, which an initial value can replace, and then what
the steps commit, in their order.
-/

namespace Storyboard

/-- Values that replace the seeds of some properties. -/
structure InitialValues where
  values : PropertyMap (Option Float32)

namespace InitialValues

/-- No seed is replaced. -/
def none : InitialValues := ⟨.ofFn fun _ => Option.none⟩

instance : Inhabited InitialValues := ⟨none⟩

/-- Replaces the seed of a property. -/
def set (i : InitialValues) (p : Property) (value : Float32) : InitialValues :=
  ⟨i.values.set p (some value)⟩

/-- The value that replaces the seed of a property. -/
def get? (i : InitialValues) (p : Property) : Option Float32 :=
  i.values.get p

/-- The value a property begins with. -/
def seed (i : InitialValues) (p : Property) : Float32 :=
  (i.get? p).getD p.defaultSeed

/-- Whether no seed is replaced. -/
def isEmpty (i : InitialValues) : Bool :=
  i.values.values.all Option.isNone

/-- All initial values have to be finite; the first that is not is reported. -/
def validate (i : InitialValues) : Except TimelineError Unit :=
  Property.all.forM fun p =>
    match i.get? p with
    | some value => if value.isFinite then .ok () else .error (.invalidInitialValue p value)
    | Option.none => .ok ()

end InitialValues

/-- The values of one property: its seed and what has been committed since. -/
structure Track where
  seed : Float32
  committed : Array Float32 := #[]

namespace Track

/-- The value that was committed last. -/
def last (t : Track) : Float32 :=
  t.committed.back?.getD t.seed

/-- Commits a value. -/
def push (t : Track) (value : Float32) : Track :=
  { t with committed := t.committed.push value }

/-- All values, the seed first. -/
def values (t : Track) : Array Float32 :=
  #[t.seed] ++ t.committed

/-- The number of values. -/
def length (t : Track) : Nat :=
  t.committed.size + 1

@[simp] theorem last_push (t : Track) (value : Float32) : (t.push value).last = value := by
  simp [last, push]

@[simp] theorem values_push (t : Track) (value : Float32) :
    (t.push value).values = t.values.push value := by
  simp [values, push]

@[simp] theorem length_push (t : Track) (value : Float32) :
    (t.push value).length = t.length + 1 := by
  simp [length, push]

@[simp] theorem size_values (t : Track) : t.values.size = t.length := by
  simp [values, length, Nat.add_comm]

end Track

/-- The tracks of all properties. -/
structure Outputs where
  tracks : PropertyMap Track

namespace Outputs

/-- Tracks on which nothing has been committed yet. -/
def seeded (i : InitialValues) : Outputs :=
  ⟨.ofFn fun p => { seed := i.seed p }⟩

/-- The current value of a property: what was committed last, or its seed. -/
def last (o : Outputs) (p : Property) : Float32 :=
  (o.tracks.get p).last

/-- Commits a value of one property. -/
def commit (o : Outputs) (p : Property) (value : Float32) : Outputs :=
  ⟨o.tracks.set p ((o.tracks.get p).push value)⟩

/-- Commits a value of every property. -/
def commitAll (o : Outputs) (value : Property → Float32) : Outputs :=
  ⟨o.tracks.map fun p track => track.push (value p)⟩

/-- The values of a property, the seed first. -/
def values (o : Outputs) (p : Property) : Array Float32 :=
  (o.tracks.get p).values

/-- The number of values of a property. -/
def lengthOf (o : Outputs) (p : Property) : Nat :=
  (o.tracks.get p).length

/-- The number of values that all properties share while values are only committed
for all of them; that of the first property otherwise. -/
def length (o : Outputs) : Nat :=
  o.lengthOf .translateX

/-- The highest position that a driver can reach. -/
def lastIndex (o : Outputs) : Nat :=
  o.length - 1

/-- The JSON form: the list of values of each property. -/
def toJson (o : Outputs) : Json :=
  .object <| Property.all.map fun p =>
    (p.name, .array ((o.values p).toList.map .ofSingle))

@[simp] theorem last_commitAll (o : Outputs) (value : Property → Float32) (p : Property) :
    (o.commitAll value).last p = value p := by
  simp [last, commitAll]

@[simp] theorem values_commitAll (o : Outputs) (value : Property → Float32) (p : Property) :
    (o.commitAll value).values p = (o.values p).push (value p) := by
  simp [values, commitAll]

@[simp] theorem lengthOf_commitAll (o : Outputs) (value : Property → Float32) (p : Property) :
    (o.commitAll value).lengthOf p = o.lengthOf p + 1 := by
  simp [lengthOf, commitAll]

theorem last_commit (o : Outputs) (p q : Property) (value : Float32) :
    (o.commit p value).last q = if q = p then value else o.last q := by
  simp only [last, commit, PropertyMap.get_set]
  split <;> simp

end Outputs

end Storyboard
