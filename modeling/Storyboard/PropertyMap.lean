import Storyboard.Property

/-! # Tables over the properties

A `PropertyMap` holds exactly one entry for each property. Two tables with equal entries
are equal, and a table is changed one entry at a time.
-/

namespace Storyboard

universe u v

/-- One entry for each property. -/
structure PropertyMap (α : Type u) where
  translateX : α
  translateY : α
  rotate : α
  rotateX : α
  rotateY : α
  scale : α
  scaleX : α
  scaleY : α
  opacity : α

namespace PropertyMap

variable {α : Type u} {β : Type u}

/-- The entry of a property. -/
def get (table : PropertyMap α) : Property → α
  | .translateX => table.translateX
  | .translateY => table.translateY
  | .rotate => table.rotate
  | .rotateX => table.rotateX
  | .rotateY => table.rotateY
  | .scale => table.scale
  | .scaleX => table.scaleX
  | .scaleY => table.scaleY
  | .opacity => table.opacity

/-- The table with the given entries. -/
def ofFn (entry : Property → α) : PropertyMap α where
  translateX := entry .translateX
  translateY := entry .translateY
  rotate := entry .rotate
  rotateX := entry .rotateX
  rotateY := entry .rotateY
  scale := entry .scale
  scaleX := entry .scaleX
  scaleY := entry .scaleY
  opacity := entry .opacity

/-- Builds the entries one after another, in the order of the properties. -/
def ofFnM {m : Type u → Type v} [Monad m] (entry : Property → m α) : m (PropertyMap α) := do
  let translateX ← entry .translateX
  let translateY ← entry .translateY
  let rotate ← entry .rotate
  let rotateX ← entry .rotateX
  let rotateY ← entry .rotateY
  let scale ← entry .scale
  let scaleX ← entry .scaleX
  let scaleY ← entry .scaleY
  let opacity ← entry .opacity
  return { translateX, translateY, rotate, rotateX, rotateY, scale, scaleX, scaleY, opacity }

/-- Replaces the entry of one property. -/
def set (table : PropertyMap α) (p : Property) (value : α) : PropertyMap α :=
  match p with
  | .translateX => { table with translateX := value }
  | .translateY => { table with translateY := value }
  | .rotate => { table with rotate := value }
  | .rotateX => { table with rotateX := value }
  | .rotateY => { table with rotateY := value }
  | .scale => { table with scale := value }
  | .scaleX => { table with scaleX := value }
  | .scaleY => { table with scaleY := value }
  | .opacity => { table with opacity := value }

/-- Applies a function to every entry. -/
def map (f : Property → α → β) (table : PropertyMap α) : PropertyMap β :=
  ofFn fun p => f p (table.get p)

/-- The entries in the order of the properties. -/
def values (table : PropertyMap α) : List α :=
  Property.all.map table.get

/-- The entries with their properties, in order. -/
def toList (table : PropertyMap α) : List (Property × α) :=
  Property.all.map fun p => (p, table.get p)

instance [Inhabited α] : Inhabited (PropertyMap α) := ⟨ofFn fun _ => default⟩

@[ext] theorem ext_get {s t : PropertyMap α} (h : ∀ p, s.get p = t.get p) : s = t := by
  cases s; cases t
  simp only [mk.injEq]
  exact ⟨h .translateX, h .translateY, h .rotate, h .rotateX, h .rotateY, h .scale, h .scaleX,
    h .scaleY, h .opacity⟩

@[simp] theorem get_ofFn (entry : Property → α) (p : Property) : (ofFn entry).get p = entry p := by
  cases p <;> rfl

@[simp] theorem get_map (f : Property → α → β) (table : PropertyMap α) (p : Property) :
    (table.map f).get p = f p (table.get p) := get_ofFn _ p

theorem get_set (table : PropertyMap α) (p q : Property) (value : α) :
    (table.set p value).get q = if q = p then value else table.get q := by
  cases p <;> cases q <;> rfl

@[simp] theorem get_set_self (table : PropertyMap α) (p : Property) (value : α) :
    (table.set p value).get p = value := by
  simp [get_set]

theorem get_set_of_ne (table : PropertyMap α) {p q : Property} (value : α) (h : q ≠ p) :
    (table.set p value).get q = table.get q := by
  simp [get_set, h]

end PropertyMap

end Storyboard
