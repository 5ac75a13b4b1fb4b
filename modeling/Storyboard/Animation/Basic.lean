import Storyboard.Driver

/-! # Animations

An animation is advanced by ticks. It may act on a world that it shares with others; most
act only on the drivers in it. This module says what an animation is and what it answers
to a tick.
-/

namespace Storyboard

/-- The answer to a tick. -/
inductive Tick
  /-- Not started, or stopped; no time was taken. -/
  | idle
  | running
  /-- Finished, with so many milliseconds left over. -/
  | finished (leftover : Float32)

/-- Whether the animation is over. -/
def Tick.isFinished : Tick → Bool
  | finished _ => true
  | _ => false

/-- What can be played. States of `α` act on worlds of `W`. -/
class Animation (α : Type) (W : Type) where
  /-- Begins, or goes on after a stop. -/
  start : α → W → α × W
  /-- Lets milliseconds pass. -/
  update : Float32 → α → W → Tick × α × W
  /-- Halts where it is. -/
  stop : α → W → α × W
  /-- Goes back to the beginning. -/
  reset : α → W → α × W

/-- A call to an animation. -/
inductive Call
  | start
  | update (dt : Float32)
  | stop
  | reset

namespace Animation

variable {α W : Type} [Animation α W]

/-- Makes a call. Only a tick has an answer. -/
def perform : Call → α → W → Option Tick × α × W
  | .start, a, w => (none, start a w)
  | .update dt, a, w =>
      let (tick, a, w) := update dt a w
      (some tick, a, w)
  | .stop, a, w => (none, stop a w)
  | .reset, a, w => (none, reset a w)

/-- Makes calls one after another, and collects the answers. -/
def run : List Call → α → W → List (Option Tick) × α × W
  | [], a, w => ([], a, w)
  | call :: rest, a, w =>
      let (answer, a, w) := perform call a w
      let (answers, a, w) := run rest a w
      (answer :: answers, a, w)

end Animation

/-- A world with drivers; `H` is what else the host keeps in it. -/
abbrev Stage (H : Type) : Type :=
  DriverBank × H

/-- Passes the world through the elements of a list, in order. -/
def visitAll {α W : Type} (f : α → W → α × W) : List α → W → List α × W
  | [], w => ([], w)
  | a :: rest, w =>
      let (a, w) := f a w
      let (rest, w) := visitAll f rest w
      (a :: rest, w)

/-- Passes the world through one element of a list, if there is one at the index. -/
def visitAt {α W : Type} (f : α → W → α × W) : Nat → List α → W → List α × W
  | _, [], w => ([], w)
  | 0, a :: rest, w =>
      let (a, w) := f a w
      (a :: rest, w)
  | index + 1, a :: rest, w =>
      let (rest, w) := visitAt f index rest w
      (a :: rest, w)

/-- How many ticks an animation took, and how it ended. -/
structure Playback (α W : Type) where
  ticks : Nat
  last : Tick
  animation : α
  world : W

/-- Gives ticks of equal length until the animation is over, at most `limit` of them. -/
def playFor {α W : Type} [Animation α W] (dt : Float32) : Nat → Nat → Tick → α → W → Playback α W
  | 0, ticks, last, a, w => ⟨ticks, last, a, w⟩
  | limit + 1, ticks, _, a, w =>
      match Animation.update dt a w with
      | (.finished leftover, a, w) => ⟨ticks + 1, .finished leftover, a, w⟩
      | (tick, a, w) => playFor dt limit (ticks + 1) tick a w

/-- Starts an animation and gives it ticks until it is over, at most `limit` of them. -/
def play {α W : Type} [Animation α W] (dt : Float32) (limit : Nat) (a : α) (w : W) :
    Playback α W :=
  let (a, w) := Animation.start a w
  playFor dt limit 0 .idle a w

/-- Either of two kinds of animation. -/
instance {α β W : Type} [Animation α W] [Animation β W] : Animation (α ⊕ β) W where
  start
    | .inl a, w => (Animation.start a w).map .inl id
    | .inr b, w => (Animation.start b w).map .inr id
  update dt
    | .inl a, w => (Animation.update dt a w).map id (·.map .inl id)
    | .inr b, w => (Animation.update dt b w).map id (·.map .inr id)
  stop
    | .inl a, w => (Animation.stop a w).map .inl id
    | .inr b, w => (Animation.stop b w).map .inr id
  reset
    | .inl a, w => (Animation.reset a w).map .inl id
    | .inr b, w => (Animation.reset b w).map .inr id

end Storyboard
