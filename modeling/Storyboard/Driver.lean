import Storyboard.Numeric.Binary

/-! # Drivers

A driver is a number that playback moves and that styles are read from. All drivers live
in one bank and are known by their cell, so that several owners can share one, and two
drivers are the same exactly when their cells are.
-/

namespace Storyboard

/-- A driver, known by its cell in the bank. -/
structure Driver where
  cell : Nat
  deriving DecidableEq, Repr

/-- The current positions of all drivers. -/
structure DriverBank where
  cells : Array Float32

namespace DriverBank

/-- The bank without drivers. -/
def empty : DriverBank := ⟨#[]⟩

/-- The position of a driver. -/
def get (bank : DriverBank) (d : Driver) : Float32 :=
  bank.cells[d.cell]?.getD 0

/-- Moves a driver. -/
def set (bank : DriverBank) (d : Driver) (position : Float32) : DriverBank :=
  ⟨bank.cells.setIfInBounds d.cell position⟩

/-- Adds a driver that is no other. -/
def add (bank : DriverBank) (position : Float32) : Driver × DriverBank :=
  (⟨bank.cells.size⟩, ⟨bank.cells.push position⟩)

/-- Whether the driver has been added to the bank. -/
def Has (bank : DriverBank) (d : Driver) : Prop :=
  d.cell < bank.cells.size

theorem get_set_self {bank : DriverBank} {d : Driver} (h : bank.Has d) (position : Float32) :
    (bank.set d position).get d = position := by
  simp [get, set, show d.cell < bank.cells.size from h]

theorem get_set_of_ne (bank : DriverBank) {d e : Driver} (h : e ≠ d) (position : Float32) :
    (bank.set d position).get e = bank.get e := by
  have hcell : d.cell ≠ e.cell := by
    intro heq
    apply h
    cases d; cases e
    simp_all
  simp [get, set, hcell]

theorem has_set (bank : DriverBank) (d e : Driver) (position : Float32) :
    (bank.set d position).Has e ↔ bank.Has e := by
  simp [Has, set]

theorem not_has_add (bank : DriverBank) (position : Float32) :
    ¬ bank.Has (bank.add position).1 := by
  simp [Has, add]

theorem get_add_self (bank : DriverBank) (position : Float32) :
    (bank.add position).2.get (bank.add position).1 = position := by
  simp [get, add]

theorem get_add_of_has {bank : DriverBank} {d : Driver} (h : bank.Has d) (position : Float32) :
    (bank.add position).2.get d = bank.get d := by
  simp [get, add, Array.getElem?_push, Nat.ne_of_lt h]

end DriverBank

end Storyboard
