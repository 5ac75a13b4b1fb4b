import Storyboard.Animation.Basic

/-! # Animations one after another

The children of a sequence play in turn. The cursor counts those that are over, and the
child at the cursor alone is played. Time that a child leaves over in a tick goes to the
next one in the same tick.
-/

namespace Storyboard

/-- Animations that play in turn. -/
structure Sequence (α : Type) where
  children : List α
  /-- The index of the child that plays; the number of children if all are over. -/
  cursor : Nat := 0
  running : Bool := false

/-- What a tick did to a child and those behind it. -/
structure SequenceTick (α W : Type) where
  tick : Tick
  children : List α
  /-- How many of them were over in this tick. -/
  passed : Nat
  world : W

namespace Sequence

variable {α W : Type}

/-- The sequence of some children. -/
def ofList (children : List α) : Sequence α :=
  { children }

/-- The number of children. -/
def length (s : Sequence α) : Nat :=
  s.children.length

/-- Whether all children are over. -/
def isComplete (s : Sequence α) : Bool :=
  s.length ≤ s.cursor

variable [Animation α W]

/-- Starts or resumes the child at the cursor. -/
def start (s : Sequence α) (w : W) : Sequence α × W :=
  let (children, w) := visitAt Animation.start s.cursor s.children w
  ({ s with children, running := true }, w)

/-- Gives a tick to a child. If that is over, the next one is started and given what is
left over, and so on. -/
def advance (dt : Float32) (child : α) : List α → W → SequenceTick α W
  | rest, w =>
      match Animation.update dt child w, rest with
      | (.finished leftover, child, w), [] => ⟨.finished leftover, [child], 1, w⟩
      | (.finished leftover, child, w), next :: rest =>
          let (next, w) := Animation.start next w
          let tail := advance leftover next rest w
          { tail with children := child :: tail.children, passed := tail.passed + 1 }
      | (_, child, w), rest => ⟨.running, child :: rest, 0, w⟩

/-- Gives a tick to the child at the cursor. A sequence without children left is over at
once. -/
def update (dt : Float32) (s : Sequence α) (w : W) : Tick × Sequence α × W :=
  if s.running then
    match s.children.drop s.cursor with
    | [] => (.finished dt, { s with running := false }, w)
    | child :: rest =>
        let step := advance dt child rest w
        (step.tick,
          { children := s.children.take s.cursor ++ step.children
            cursor := s.cursor + step.passed
            running := !step.tick.isFinished },
          step.world)
  else (.idle, s, w)

/-- Halts the child at the cursor. -/
def stop (s : Sequence α) (w : W) : Sequence α × W :=
  let (children, w) := visitAt Animation.stop s.cursor s.children w
  ({ s with children, running := false }, w)

/-- Resets every child and goes back to the first. -/
def reset (s : Sequence α) (w : W) : Sequence α × W :=
  let (children, w) := visitAll Animation.reset s.children w
  ({ children }, w)

instance : Animation (Sequence α) W := ⟨start, update, stop, reset⟩

end Sequence

end Storyboard
