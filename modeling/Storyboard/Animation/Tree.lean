import Storyboard.Timeline

/-! # Trees of animations

Parallel animations, sequences and timelines can be nested to any depth. The type of trees
goes by depth: a tree of depth `n + 1` is a leaf or is composed of trees of depth `n`.
-/

namespace Storyboard

/-- A leaf of type `L`, or what is composed of animations of type `α`. -/
inductive Composite (H L α : Type)
  | leaf (animation : L)
  | parallel (animation : Parallel α)
  | sequence (animation : Sequence α)
  | timeline (animation : Timeline H α)

namespace Composite

variable {H L α : Type} [Animation L (Stage H)] [Animation α (Stage H)]

/-- Starts the animation. -/
def start : Composite H L α → Stage H → Composite H L α × Stage H
  | leaf a, s => (Animation.start a s).map leaf id
  | parallel a, s => (Animation.start a s).map parallel id
  | sequence a, s => (Animation.start a s).map sequence id
  | timeline a, s => (Animation.start a s).map timeline id

/-- Gives the animation a tick. -/
def update (dt : Float32) :
    Composite H L α → Stage H → Tick × Composite H L α × Stage H
  | leaf a, s => (Animation.update dt a s).map id (·.map leaf id)
  | parallel a, s => (Animation.update dt a s).map id (·.map parallel id)
  | sequence a, s => (Animation.update dt a s).map id (·.map sequence id)
  | timeline a, s => (Animation.update dt a s).map id (·.map timeline id)

/-- Halts the animation. -/
def stop : Composite H L α → Stage H → Composite H L α × Stage H
  | leaf a, s => (Animation.stop a s).map leaf id
  | parallel a, s => (Animation.stop a s).map parallel id
  | sequence a, s => (Animation.stop a s).map sequence id
  | timeline a, s => (Animation.stop a s).map timeline id

/-- Resets the animation. -/
def reset : Composite H L α → Stage H → Composite H L α × Stage H
  | leaf a, s => (Animation.reset a s).map leaf id
  | parallel a, s => (Animation.reset a s).map parallel id
  | sequence a, s => (Animation.reset a s).map sequence id
  | timeline a, s => (Animation.reset a s).map timeline id

instance : Animation (Composite H L α) (Stage H) := ⟨start, update, stop, reset⟩

end Composite

/-- Trees of animations whose depth is at most `n`, with leaves of type `L`. -/
def Tree (H L : Type) : Nat → Type
  | 0 => L
  | n + 1 => Composite H L (Tree H L n)

namespace Tree

variable {H L : Type}

/-- A leaf is a tree of any depth. -/
def leaf (animation : L) : (n : Nat) → Tree H L n
  | 0 => animation
  | _ + 1 => Composite.leaf animation

/-- Trees are animations. -/
instance animation [Animation L (Stage H)] : (n : Nat) → Animation (Tree H L n) (Stage H)
  | 0 => inferInstanceAs (Animation L (Stage H))
  | n + 1 =>
      let _ := animation n
      inferInstanceAs (Animation (Composite H L (Tree H L n)) (Stage H))

end Tree

end Storyboard
