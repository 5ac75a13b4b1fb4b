import Mathlib.Data.List.Forall2
import Storyboard.Proofs.Compile.Recurrence
import Storyboard.Proofs.Playback.Lanes
import Storyboard.Proofs.Playback.Line
import Storyboard.Timeline

/-! # The course of an animation

An animation is halted, plays, or is over. This module says what each of these comes to for
timed moves and for what is composed of animations, and how calls lead from one to another. A
part of an animation that plays is in one of these states as well: it plays, or it is over, or
it is still as it was built. So a halt can be undone by a start.
-/

namespace Storyboard

/-- What an animation is doing. -/
inductive Standing
  /-- It has not been started, or has been stopped on its way. -/
  | halted
  | playing
  | ended
  deriving DecidableEq

/-- Whether an animation plays. -/
def Standing.plays : Standing → Bool
  | playing => true
  | _ => false

theorem Standing.plays_iff {x : Standing} : x.plays = true ↔ x = playing := by
  cases x <;> decide

theorem Standing.plays_eq_false {x : Standing} (hx : x ≠ playing) : x.plays = false :=
  Bool.eq_false_iff.mpr (mt plays_iff.mp hx)

/-- What is known of an animation that stands so, next to the state in which it was built. -/
abbrev Course (α : Type) : Type :=
  Standing → α → α → Prop

namespace Course

variable {α β W : Type}

/-- What calls do to an animation, by where it stands. An animation that is over need not stay
so when it is started: a timeline plays again, and side by side there is nothing left to play. -/
structure Lawful (W : Type) [Animation α W] (C : Course α) : Prop where
  fresh : ∀ {x a₀ a}, C x a₀ a → C .halted a₀ a₀
  reset : ∀ {x a₀ a}, C x a₀ a → ∀ w : W, (Animation.reset a w).1 = a₀
  start : ∀ {a₀ a}, C .halted a₀ a → ∀ w : W, C .playing a₀ (Animation.start a w).1
  start_playing : ∀ {a₀ a}, C .playing a₀ a → ∀ w : W, Animation.start a w = (a, w)
  start_ended : ∀ {a₀ a}, C .ended a₀ a → ∀ w : W,
    C .playing a₀ (Animation.start a w).1 ∨ C .ended a₀ (Animation.start a w).1
  update_halted : ∀ {a₀ a}, C .halted a₀ a → ∀ dt (w : W),
    Animation.update dt a w = (.idle, a, w)
  update_playing : ∀ {a₀ a}, C .playing a₀ a → ∀ dt (w : W),
    ((∃ leftover, (Animation.update dt a w).1 = .finished leftover) ∧
      C .ended a₀ (Animation.update dt a w).2.1) ∨
    ((Animation.update dt a w).1 = .running ∧ C .playing a₀ (Animation.update dt a w).2.1)
  update_ended : ∀ {a₀ a}, C .ended a₀ a → ∀ dt (w : W), (Animation.update dt a w).2 = (a, w)
  stop_still : ∀ {x a₀ a}, C x a₀ a → x ≠ .playing → ∀ w : W, Animation.stop a w = (a, w)
  /-- A start undoes a stop. -/
  stop_playing : ∀ {a₀ a}, C .playing a₀ a →
    ∃ b, C .halted a₀ b ∧ ∀ w : W, Animation.stop a w = (b, w) ∧ Animation.start b w = (a, w)

/-! ## Animations of several kinds -/

/-- The course of one kind of animation, among others. -/
def via (wrap : α → β) (C : Course α) : Course β :=
  fun x b₀ b => ∃ a₀ a, b₀ = wrap a₀ ∧ b = wrap a ∧ C x a₀ a

/-- The course of animations of two kinds. -/
def either (C C' : Course α) : Course α :=
  fun x a₀ a => C x a₀ a ∨ C' x a₀ a

namespace Lawful

variable [Animation α W] {C C' : Course α}

theorem via [Animation β W] {wrap : α → β} (h : C.Lawful W)
    (hpass : ∀ (c : Call) (a : α) (w : W), Animation.perform c (wrap a) w =
      ((Animation.perform c a w).1, wrap (Animation.perform c a w).2.1,
        (Animation.perform c a w).2.2)) :
    (C.via wrap).Lawful W := by
  have hstart : ∀ (a : α) (w : W), Animation.start (wrap a) w =
      (wrap (Animation.start a w).1, (Animation.start a w).2) :=
    fun a w => (Prod.mk.inj (hpass .start a w)).2
  have hstop : ∀ (a : α) (w : W), Animation.stop (wrap a) w =
      (wrap (Animation.stop a w).1, (Animation.stop a w).2) :=
    fun a w => (Prod.mk.inj (hpass .stop a w)).2
  have hreset : ∀ (a : α) (w : W), Animation.reset (wrap a) w =
      (wrap (Animation.reset a w).1, (Animation.reset a w).2) :=
    fun a w => (Prod.mk.inj (hpass .reset a w)).2
  have hupdate : ∀ dt (a : α) (w : W), Animation.update dt (wrap a) w =
      ((Animation.update dt a w).1, wrap (Animation.update dt a w).2.1,
        (Animation.update dt a w).2.2) := by
    intro dt a w
    obtain ⟨hanswer, hrest⟩ := Prod.mk.inj (hpass (.update dt) a w)
    exact Prod.ext (Option.some.inj hanswer) hrest
  constructor
  case fresh =>
    rintro x _ _ ⟨a₀, a, rfl, rfl, ha⟩
    exact ⟨a₀, a₀, rfl, rfl, h.fresh ha⟩
  case reset =>
    rintro x _ _ ⟨a₀, a, rfl, rfl, ha⟩ w
    rw [hreset, h.reset ha w]
  case start =>
    rintro _ _ ⟨a₀, a, rfl, rfl, ha⟩ w
    rw [hstart]
    exact ⟨a₀, _, rfl, rfl, h.start ha w⟩
  case start_playing =>
    rintro _ _ ⟨a₀, a, rfl, rfl, ha⟩ w
    rw [hstart, h.start_playing ha w]
  case start_ended =>
    rintro _ _ ⟨a₀, a, rfl, rfl, ha⟩ w
    rw [hstart]
    exact (h.start_ended ha w).imp (⟨a₀, _, rfl, rfl, ·⟩) (⟨a₀, _, rfl, rfl, ·⟩)
  case update_halted =>
    rintro _ _ ⟨a₀, a, rfl, rfl, ha⟩ dt w
    rw [hupdate, h.update_halted ha dt w]
  case update_playing =>
    rintro _ _ ⟨a₀, a, rfl, rfl, ha⟩ dt w
    rw [hupdate]
    exact (h.update_playing ha dt w).imp (And.imp_right (⟨a₀, _, rfl, rfl, ·⟩))
      (And.imp_right (⟨a₀, _, rfl, rfl, ·⟩))
  case update_ended =>
    rintro _ _ ⟨a₀, a, rfl, rfl, ha⟩ dt w
    rw [hupdate, h.update_ended ha dt w]
  case stop_still =>
    rintro x _ _ ⟨a₀, a, rfl, rfl, ha⟩ hx w
    rw [hstop, h.stop_still ha hx w]
  case stop_playing =>
    rintro _ _ ⟨a₀, a, rfl, rfl, ha⟩
    obtain ⟨b, hb, hstopped⟩ := h.stop_playing ha
    refine ⟨wrap b, ⟨a₀, b, rfl, rfl, hb⟩, fun w => ?_⟩
    rw [hstop, hstart, (hstopped w).1, (hstopped w).2]
    exact ⟨rfl, rfl⟩

theorem either (h : C.Lawful W) (h' : C'.Lawful W) : (C.either C').Lawful W where
  fresh := Or.imp h.fresh h'.fresh
  reset ha := ha.elim h.reset h'.reset
  start ha w := ha.imp (h.start · w) (h'.start · w)
  start_playing ha := ha.elim h.start_playing h'.start_playing
  start_ended := by
    rintro a₀ a (ha | ha) w
    · exact (h.start_ended ha w).imp .inl .inl
    · exact (h'.start_ended ha w).imp .inr .inr
  update_halted ha := ha.elim h.update_halted h'.update_halted
  update_playing := by
    rintro a₀ a (ha | ha) dt w
    · exact (h.update_playing ha dt w).imp (And.imp_right .inl) (And.imp_right .inl)
    · exact (h'.update_playing ha dt w).imp (And.imp_right .inr) (And.imp_right .inr)
  update_ended ha := ha.elim h.update_ended h'.update_ended
  stop_still ha := ha.elim h.stop_still h'.stop_still
  stop_playing := by
    rintro a₀ a (ha | ha)
    · obtain ⟨b, hb, hstopped⟩ := h.stop_playing ha
      exact ⟨b, .inl hb, hstopped⟩
    · obtain ⟨b, hb, hstopped⟩ := h'.stop_playing ha
      exact ⟨b, .inr hb, hstopped⟩

end Lawful

end Course

/-! ## Timed moves -/

/-- The phase of a timed move that stands so. -/
def Standing.phase : Standing → Phase
  | halted => .idle
  | playing => .running
  | ended => .done

theorem Standing.phase_eq_running {x : Standing} : x.phase = .running ↔ x = playing := by
  cases x <;> decide

namespace Timing

/-- A timed move that has been built and called. While it plays, it knows where it set out. -/
structure OnCourse (x : Standing) (t₀ t : Timing) : Prop where
  built : { t with departure := none, elapsed := 0, phase := .idle } = t₀
  phase : t.phase = x.phase
  departure : x = .playing → t.departure.isSome

theorem OnCourse.ticked {x : Standing} {t₀ t : Timing} (h : OnCourse .playing t₀ t)
    (dt : Float32) (hx : (t.ticked dt).phase = x.phase) : OnCourse x t₀ (t.ticked dt) := by
  have hticked : t.ticked dt =
      { t with elapsed := t.elapse dt, phase := if t.Expires dt then .done else .running } :=
    if_pos h.phase
  rw [hticked] at hx ⊢
  exact ⟨h.built, hx, fun _ => h.departure rfl⟩

/-- A move that knows where it set out is only set in motion again. -/
theorem start_again {H : Type} {t : Timing} (hphase : t.phase ≠ .done)
    (hdeparture : t.departure.isSome) (s : Stage H) :
    t.start s = ({ t with phase := .running }, s) := by
  obtain ⟨departure, hdeparture⟩ := Option.isSome_iff_exists.mp hdeparture
  rw [Timing.start, if_neg hphase, hdeparture, Option.getD_some, ← hdeparture]

theorem lawful_onCourse (H : Type) : Course.Lawful (Stage H) OnCourse := by
  have hupdate : ∀ (t : Timing) dt (s : Stage H), Animation.update dt t s =
      (t.answer dt, t.ticked dt, t.move dt s.1, s.2) := fun t dt s => t.update_eq dt s
  constructor
  case fresh =>
    rintro x _ t ⟨rfl, -, -⟩
    exact ⟨rfl, rfl, fun hx => absurd hx (by decide)⟩
  case reset =>
    intro x t₀ t h s
    exact h.built
  case start =>
    intro t₀ t h s
    change OnCourse .playing t₀ (t.start s).1
    rw [Timing.start, if_neg (by rw [h.phase]; decide)]
    exact ⟨h.built, rfl, fun _ => rfl⟩
  case start_playing =>
    intro t₀ t h s
    have hphase : t.phase = .running := h.phase
    refine (start_again (by rw [hphase]; decide) (h.departure rfl) s).trans ?_
    rw [← hphase]
  case start_ended =>
    intro t₀ t h s
    have hstart : t.start s = (t, s) := if_pos h.phase
    exact .inr ((congrArg Prod.fst hstart).symm ▸ h)
  case update_halted =>
    intro t₀ t h dt s
    have hphase : t.phase = .idle := h.phase
    simp [hupdate, answer, Timing.ticked, move, hphase]
  case update_playing =>
    intro t₀ t h dt s
    have hphase : t.phase = .running := h.phase
    rw [hupdate]
    by_cases hexpires : t.Expires dt
    · refine .inl ⟨⟨t.surplus dt, ?_⟩, h.ticked dt ?_⟩
      · simp [answer, hphase, hexpires]
      · simp [Timing.ticked, hphase, hexpires, Standing.phase]
    · refine .inr ⟨?_, h.ticked dt ?_⟩
      · simp [answer, hphase, hexpires]
      · simp [Timing.ticked, hphase, hexpires, Standing.phase]
  case update_ended =>
    intro t₀ t h dt s
    have hphase : t.phase = .done := h.phase
    simp [hupdate, Timing.ticked, move, hphase]
  case stop_still =>
    intro x t₀ t h hx s
    have hphase : t.phase ≠ .running := h.phase ▸ mt Standing.phase_eq_running.mp hx
    exact congrArg (·, s) (if_neg hphase)
  case stop_playing =>
    intro t₀ t h
    have hphase : t.phase = .running := h.phase
    have hhalted : OnCourse .halted t₀ { t with phase := .idle } :=
      ⟨h.built, rfl, fun hx => absurd hx (by decide)⟩
    refine ⟨{ t with phase := .idle }, hhalted, fun s => ⟨?_, ?_⟩⟩
    · exact congrArg (·, s) (if_pos hphase)
    · have hidle : Phase.idle ≠ Phase.done := by decide
      refine (start_again (t := { t with phase := .idle }) hidle (h.departure rfl) s).trans ?_
      rw [← hphase]

end Timing

/-! ## Lists of animations -/

section Lists

variable {α β W : Type} {R S : α → β → Prop} {l₀ : List α} {l : List β}

theorem forall₂_left {T : α → α → Prop} (h : List.Forall₂ R l₀ l)
    (hfresh : ∀ a₀ a, R a₀ a → T a₀ a₀) : List.Forall₂ T l₀ l₀ := by
  induction h with
  | nil => exact .nil
  | cons ha _ ih => exact .cons (hfresh _ _ ha) ih

theorem forall₂_visitAll {f : β → W → β × W} (h : List.Forall₂ R l₀ l)
    (hvisit : ∀ a₀ a w, R a₀ a → S a₀ (f a w).1) (w : W) :
    List.Forall₂ S l₀ (visitAll f l w).1 := by
  induction h generalizing w with
  | nil => exact .nil
  | cons ha _ ih => exact .cons (hvisit _ _ w ha) (ih _)

theorem visitAll_eq_self {f : β → W → β × W} (h : List.Forall₂ R l₀ l)
    (hvisit : ∀ a₀ a w, R a₀ a → f a w = (a, w)) (w : W) : visitAll f l w = (l, w) := by
  induction h with
  | nil => rfl
  | cons ha _ ih => simp only [visitAll, hvisit _ _ w ha, ih]

/-- Elements are changed one after another, and a second time. -/
theorem exists_visitAll_visitAll {f g : β → W → β × W} (h : List.Forall₂ R l₀ l)
    (hvisit : ∀ a₀ a, R a₀ a → ∃ b, S a₀ b ∧ ∀ w, f a w = (b, w) ∧ g b w = (a, w)) :
    ∃ l', List.Forall₂ S l₀ l' ∧ ∀ w, visitAll f l w = (l', w) ∧ visitAll g l' w = (l, w) := by
  induction h with
  | nil => exact ⟨[], .nil, fun _ => ⟨rfl, rfl⟩⟩
  | cons ha _ ih =>
      obtain ⟨b, hb, hvisited⟩ := hvisit _ _ ha
      obtain ⟨l', hl', hrest⟩ := ih
      refine ⟨b :: l', .cons hb hl', fun w => ⟨?_, ?_⟩⟩
      · simp only [visitAll, (hvisited w).1, (hrest w).1]
      · simp only [visitAll, (hvisited w).2, (hrest w).2]

end Lists

/-! ## Side by side -/

variable {α W : Type} {C : Course α} {x : Standing}

namespace Parallel

variable [Animation α W]

/-- Halts a child, whether it is over or not. -/
def stopLane (lane : Lane α) (w : W) : Lane α × W :=
  let (child, w) := Animation.stop lane.child w
  ({ lane with child }, w)

/-- Resets a child. -/
def resetLane (lane : Lane α) (w : W) : Lane α × W :=
  let (child, w) := Animation.reset lane.child w
  (⟨child, false⟩, w)

theorem stop_eq (p : Parallel α) (w : W) :
    Animation.stop p w =
      (⟨(visitAll stopLane p.lanes w).1, false⟩, (visitAll stopLane p.lanes w).2) := rfl

theorem reset_eq (p : Parallel α) (w : W) :
    Animation.reset p w =
      (⟨(visitAll resetLane p.lanes w).1, false⟩, (visitAll resetLane p.lanes w).2) := rfl

theorem start_eq (p : Parallel α) (w : W) :
    Animation.start p w =
      (⟨(visitAll startLane p.lanes w).1, true⟩, (visitAll startLane p.lanes w).2) := rfl

theorem update_of_running {p : Parallel α} (hrunning : p.running = true) (dt : Float32) (w : W) :
    Animation.update dt p w =
      let tick := updateLanes dt dt p.lanes w
      if tick.lanes.all (·.finished) then
        (.finished tick.leftover, ⟨tick.lanes, false⟩, tick.world)
      else (.running, ⟨tick.lanes, true⟩, tick.world) :=
  if_pos hrunning

theorem update_of_halted {p : Parallel α} (hrunning : p.running = false) (dt : Float32) (w : W) :
    Animation.update dt p w = (.idle, p, w) :=
  if_neg (by rw [hrunning]; nofun)

end Parallel

/-- A child of a parallel animation that stands so. A child that is over stays so until the next
reset, whatever the others do. -/
inductive Lane.OnCourse (C : Course α) (x : Standing) : Lane α → Lane α → Prop
  | finished {a₀ a : α} : C .ended a₀ a → OnCourse C x ⟨a₀, false⟩ ⟨a, true⟩
  | going {a₀ a : α} : x ≠ .ended → C x a₀ a → OnCourse C x ⟨a₀, false⟩ ⟨a, false⟩

/-- A parallel animation that has been built and called. -/
structure Parallel.OnCourse (C : Course α) (x : Standing) (p₀ p : Parallel α) : Prop where
  fresh : p₀.running = false
  lanes : List.Forall₂ (Lane.OnCourse C x) p₀.lanes p.lanes
  running : p.running = x.plays

namespace Lane.OnCourse

variable {lane₀ lane : Lane α}

theorem elsewhere {x' : Standing} (h : Lane.OnCourse C x lane₀ lane)
    (hfinished : lane.finished = true) : Lane.OnCourse C x' lane₀ lane := by
  cases h with
  | finished ha => exact .finished ha
  | going _ _ => cases hfinished

theorem finished_of_ended (h : Lane.OnCourse C .ended lane₀ lane) : lane.finished = true := by
  cases h with
  | finished _ => rfl
  | going hx _ => exact absurd rfl hx

variable [Animation α W]

theorem rested (hC : C.Lawful W) (h : Lane.OnCourse C x lane₀ lane) :
    Lane.OnCourse C .halted lane₀ lane₀ := by
  cases h with
  | finished ha => exact .going nofun (hC.fresh ha)
  | going _ ha => exact .going nofun (hC.fresh ha)

theorem reset (hC : C.Lawful W) (h : Lane.OnCourse C x lane₀ lane) (w : W) :
    (Parallel.resetLane lane w).1 = lane₀ := by
  cases h with
  | finished ha => simp only [Parallel.resetLane, hC.reset ha w]
  | going _ ha => simp only [Parallel.resetLane, hC.reset ha w]

theorem start (hC : C.Lawful W) (h : Lane.OnCourse C .halted lane₀ lane) (w : W) :
    Lane.OnCourse C .playing lane₀ (Parallel.startLane lane w).1 := by
  cases h with
  | finished ha => exact .finished ha
  | going _ ha => exact .going nofun (hC.start ha w)

theorem start_playing (hC : C.Lawful W) (h : Lane.OnCourse C .playing lane₀ lane) (w : W) :
    Parallel.startLane lane w = (lane, w) := by
  cases h with
  | finished _ => rfl
  | going _ ha => simp [Parallel.startLane, hC.start_playing ha w]

theorem stop_still (hC : C.Lawful W) (h : Lane.OnCourse C x lane₀ lane) (hx : x ≠ .playing)
    (w : W) : Parallel.stopLane lane w = (lane, w) := by
  cases h with
  | finished ha => simp only [Parallel.stopLane, hC.stop_still ha nofun w]
  | going _ ha => simp only [Parallel.stopLane, hC.stop_still ha hx w]

/-- A child that is over is neither halted nor started. -/
theorem stop_playing (hC : C.Lawful W) (h : Lane.OnCourse C .playing lane₀ lane) :
    ∃ lane', Lane.OnCourse C .halted lane₀ lane' ∧ ∀ w : W,
      Parallel.stopLane lane w = (lane', w) ∧ Parallel.startLane lane' w = (lane, w) := by
  cases h with
  | @finished a₀ a ha =>
      refine ⟨⟨a, true⟩, .finished ha, fun w => ⟨?_, rfl⟩⟩
      simp only [Parallel.stopLane, hC.stop_still ha nofun w]
  | @going a₀ a _ ha =>
      obtain ⟨b, hb, hcalled⟩ := hC.stop_playing ha
      refine ⟨⟨b, false⟩, .going nofun hb, fun w => ⟨?_, ?_⟩⟩
      · simp only [Parallel.stopLane, (hcalled w).1]
      · simp [Parallel.startLane, (hcalled w).2]

end Lane.OnCourse

namespace Parallel

theorem onCourse_ofList {l : List α} (h : ∀ a ∈ l, C .halted a a) :
    OnCourse C .halted (.ofList l) (.ofList l) where
  fresh := rfl
  lanes := by
    refine List.forall₂_same.mpr fun lane hlane => ?_
    obtain ⟨a, ha, rfl⟩ := List.mem_map.mp hlane
    exact .going nofun (h a ha)
  running := rfl

variable {p₀ p : Parallel α}

/-- Lanes that are all over stand so in whatever company. -/
theorem forall₂_elsewhere {x' : Standing} {l₀ l : List (Lane α)}
    (h : List.Forall₂ (Lane.OnCourse C x) l₀ l) (hall : l.all (·.finished) = true) :
    List.Forall₂ (Lane.OnCourse C x') l₀ l := by
  induction h with
  | nil => exact .nil
  | cons hlane _ ih =>
      rw [List.all_cons, Bool.and_eq_true] at hall
      exact .cons (hlane.elsewhere hall.1) (ih hall.2)

theorem all_finished_of_ended {l₀ l : List (Lane α)}
    (h : List.Forall₂ (Lane.OnCourse C .ended) l₀ l) : l.all (·.finished) = true := by
  induction h with
  | nil => rfl
  | cons hlane _ ih =>
      rw [List.all_cons, ih, hlane.finished_of_ended]
      rfl

variable [Animation α W]

/-- A tick leaves each child playing or over. -/
theorem forall₂_updateLanes (hC : C.Lawful W) {l₀ l : List (Lane α)}
    (h : List.Forall₂ (Lane.OnCourse C .playing) l₀ l) (dt leftover : Float32) (w : W) :
    List.Forall₂ (Lane.OnCourse C .playing) l₀ (updateLanes dt leftover l w).lanes := by
  induction h generalizing leftover w with
  | nil => exact .nil
  | cons hlane _ ih =>
      cases hlane with
      | finished ha => exact .cons (.finished ha) (ih _ _)
      | @going a₀ a _ ha =>
          have hchild := hC.update_playing ha dt w
          rw [updateLanes, if_neg nofun]
          generalize Animation.update dt a w = result at hchild ⊢
          obtain ⟨tick, a', w'⟩ := result
          rcases hchild with ⟨⟨surplus, rfl⟩, ha'⟩ | ⟨rfl, ha'⟩
          · exact .cons (.finished ha') (ih _ _)
          · exact .cons (.going nofun ha') (ih _ _)

theorem lawful_onCourse (hC : C.Lawful W) : Course.Lawful W (OnCourse C) := by
  constructor
  case fresh =>
    intro x p₀ p h
    exact ⟨h.fresh, forall₂_left h.lanes fun _ _ hlane => hlane.rested hC, h.fresh⟩
  case reset =>
    intro x p₀ p h w
    have hlanes : List.Forall₂ Eq p₀.lanes (visitAll resetLane p.lanes w).1 :=
      forall₂_visitAll h.lanes (fun _ _ w hlane => (hlane.reset hC w).symm) w
    rw [List.forall₂_eq_eq_eq] at hlanes
    rw [reset_eq, ← hlanes, ← h.fresh]
  case start =>
    intro p₀ p h w
    exact ⟨h.fresh, forall₂_visitAll h.lanes (fun _ _ w hlane => hlane.start hC w) w, rfl⟩
  case start_playing =>
    intro p₀ p h w
    rw [start_eq, visitAll_eq_self h.lanes (fun _ _ w hlane => hlane.start_playing hC w) w,
      show true = p.running from h.running.symm]
  case start_ended =>
    intro p₀ p h w
    -- there is nothing to be started, and the animation plays until the next tick
    have hlanes : List.Forall₂ (Lane.OnCourse C .playing) p₀.lanes p.lanes :=
      forall₂_elsewhere h.lanes (all_finished_of_ended h.lanes)
    rw [start_eq, visitAll_eq_self hlanes (fun _ _ w hlane => hlane.start_playing hC w) w]
    exact .inl ⟨h.fresh, hlanes, rfl⟩
  case update_halted =>
    intro p₀ p h dt w
    exact update_of_halted h.running dt w
  case update_playing =>
    intro p₀ p h dt w
    have hlanes := forall₂_updateLanes hC h.lanes dt dt w
    rw [update_of_running h.running]
    dsimp only
    split
    · next hall => exact .inl ⟨⟨_, rfl⟩, h.fresh, forall₂_elsewhere hlanes hall, rfl⟩
    · exact .inr ⟨rfl, h.fresh, hlanes, rfl⟩
  case update_ended =>
    intro p₀ p h dt w
    rw [update_of_halted h.running]
  case stop_still =>
    intro x p₀ p h hx w
    have hrunning : p.running = false := h.running.trans (Standing.plays_eq_false hx)
    rw [stop_eq, visitAll_eq_self h.lanes (fun _ _ w hlane => hlane.stop_still hC hx w) w,
      ← hrunning]
  case stop_playing =>
    intro p₀ p h
    obtain ⟨lanes, hlanes, hcalled⟩ := exists_visitAll_visitAll (W := W) h.lanes
      fun _ _ hlane => hlane.stop_playing hC
    refine ⟨⟨lanes, false⟩, ⟨h.fresh, hlanes, rfl⟩, fun w => ⟨?_, ?_⟩⟩
    · rw [stop_eq, (hcalled w).1]
    · rw [start_eq, (hcalled w).2, show true = p.running from h.running.symm]

end Parallel

/-! ## One after another -/

namespace Course

/-- The child of that index stands so. -/
def At (C : Course α) (l₀ : List α) (x : Standing) (i : ℕ) (a : α) : Prop :=
  ∃ a₀, l₀[i]? = some a₀ ∧ C x a₀ a

/-- The child of that index is as it was built. -/
def Untouched (C : Course α) (l₀ : List α) (i : ℕ) (a : α) : Prop :=
  l₀[i]? = some a ∧ C .halted a a

/-- The children of a sequence that stands so, with the cursor at `k`. -/
abbrev Row (C : Course α) (l₀ : List α) (x : Standing) (k : ℕ) (l : List α) (w : W) : Prop :=
  Line (C.At l₀ .ended) (C.Untouched l₀) (fun i a _ => C.At l₀ x i a) (fun _ _ => True) 0 k l w

/-- What a tick does to children in turn. -/
theorem Lawful.relay [Animation α W] (hC : C.Lawful W) (l₀ : List α) :
    Relay (C.At l₀ .ended) (C.Untouched l₀) (fun i a (_ : W) => C.At l₀ .playing i a)
      (fun _ _ => True) (fun i _ a _ => C.At l₀ .playing i a) fun _ _ _ => True where
  finish := by
    rintro i dt a w leftover ⟨a₀, ha₀, ha⟩ hfinished
    rcases hC.update_playing ha dt w with ⟨-, hover⟩ | ⟨hrunning, -⟩
    · exact ⟨⟨a₀, ha₀, hover⟩, trivial⟩
    · cases hrunning.symm.trans hfinished
  go := by
    rintro i dt a w ⟨a₀, ha₀, ha⟩ hgo
    rcases hC.update_playing ha dt w with ⟨⟨leftover, hfinished⟩, -⟩ | ⟨-, hplaying⟩
    · rw [hfinished] at hgo
      cases hgo
    · exact ⟨a₀, ha₀, hplaying⟩
  start h _ := ⟨_, h.1, hC.start h.2 _⟩
  ended _ := trivial

section Row

variable {V : Type} {l₀ l : List α} {k : ℕ} {w : W}

theorem Row.anywhere (h : C.Row l₀ x k l w) (v : V) : C.Row l₀ x k l v :=
  h.change (fun _ _ ha => ha) fun _ _ => trivial

/-- Where all children are over it does not matter what the sequence does. -/
theorem Row.of_length {y : Standing} (h : C.Row l₀ x k l w) (hk : k = l.length) (v : V) :
    C.Row l₀ y k l v := by
  subst hk
  have hended : C.Row l₀ y l.length l w := Line.of_length h fun _ _ => trivial
  exact hended.anywhere v

/-- Every child stands somehow. -/
theorem Row.along (h : C.Row l₀ x k l w) : Along (fun i a => ∃ y, C.At l₀ y i a) 0 l :=
  Line.along h (fun _ _ ha => ⟨_, ha⟩) (fun _ _ ha => ⟨_, _, ha.1, ha.2⟩) fun _ _ _ ha => ⟨_, ha⟩

end Row

end Course

/-- A sequence that has been built and called. -/
structure Sequence.OnCourse (C : Course α) (x : Standing) (s₀ s : Sequence α) : Prop where
  fresh : s₀ = .ofList s₀.children
  length : s.length = s₀.length
  row : C.Row s₀.children x s.cursor s.children ()
  running : s.running = x.plays
  ended : x = .ended → s.cursor = s.length

namespace Sequence

theorem onCourse_ofList {l : List α} (h : ∀ a ∈ l, C .halted a a) :
    OnCourse C .halted (.ofList l) (.ofList l) where
  fresh := rfl
  length := rfl
  row := by
    have huntouched : Along (C.Untouched l) 0 l := by
      refine Along.iff_getElem?.mpr fun i a ha => ?_
      rw [Nat.zero_add]
      exact ⟨ha, h a (List.mem_of_getElem? ha)⟩
    exact .ofAlong huntouched (fun a ha => ⟨a, ha.1, ha.2⟩) trivial
  running := rfl
  ended := nofun

variable [Animation α W]

namespace OnCourse

variable {s₀ s : Sequence α}

theorem rested (hC : C.Lawful W) (h : OnCourse C x s₀ s) : OnCourse C .halted s₀ s₀ := by
  have hchildren : ∀ a ∈ s₀.children, C .halted a a := by
    intro a₀ hmem
    obtain ⟨i, hi, ha₀⟩ := List.mem_iff_getElem.mp hmem
    have hlt : i < s.children.length := Nat.lt_of_lt_of_eq hi h.length.symm
    obtain ⟨y, b₀, hb₀, hb⟩ := h.row.along.of_getElem? (List.getElem?_eq_getElem hlt)
    rw [List.getElem?_eq_getElem hi, ha₀, Option.some.injEq] at hb₀
    exact hb₀ ▸ hC.fresh hb
  rw [h.fresh]
  exact onCourse_ofList hchildren

theorem reset (hC : C.Lawful W) (h : OnCourse C x s₀ s) (w : W) :
    (Animation.reset s w).1 = s₀ := by
  have hreset : ∀ i a (w : W), (∃ y, C.At s₀.children y i a) → True →
      s₀.children[i]? = some (Animation.reset a w).1 ∧ True := by
    rintro i a w ⟨y, a₀, ha₀, ha⟩ -
    rw [hC.reset ha w]
    exact ⟨ha₀, trivial⟩
  have hchildren : (visitAll Animation.reset s.children w).1 = s₀.children :=
    (h.row.along.visitAll hreset trivial).1.eq_of_length
      ((length_visitAll _ _ _).trans h.length)
  rw [h.fresh, ← hchildren]
  rfl

theorem start (hC : C.Lawful W) (h : OnCourse C .halted s₀ s) (w : W) :
    OnCourse C .playing s₀ (Animation.start s w).1 := by
  have hrow : C.Row s₀.children .playing s.cursor
      (visitAt Animation.start s.cursor s.children w).1 _ :=
    (h.row.anywhere w).visitAt (fun i a ⟨a₀, ha₀, ha⟩ => ⟨a₀, ha₀, hC.start ha w⟩)
      fun _ _ => trivial
  exact ⟨h.fresh, (length_visitAt _ _ _ _).trans h.length, hrow.anywhere (), rfl, nofun⟩

theorem start_playing (hC : C.Lawful W) (h : OnCourse C .playing s₀ s) (w : W) :
    Animation.start s w = (s, w) := by
  have hchildren : visitAt Animation.start s.cursor s.children w = (s.children, w) :=
    h.row.visitAt_eq_self fun i a ⟨a₀, _, ha⟩ => hC.start_playing ha w
  rw [start_eq, hchildren, show true = s.running from h.running.symm]

/-- There is nothing to be started, and the sequence plays until the next tick. -/
theorem start_ended (hC : C.Lawful W) (h : OnCourse C .ended s₀ s) (w : W) :
    OnCourse C .playing s₀ (Animation.start s w).1 := by
  have hrow : C.Row s₀.children .playing s.cursor s.children () := h.row.of_length (h.ended rfl) ()
  have hchildren : visitAt Animation.start s.cursor s.children w = (s.children, w) :=
    hrow.visitAt_eq_self fun i a ⟨a₀, _, ha⟩ => hC.start_playing ha w
  rw [start_eq, hchildren]
  exact ⟨h.fresh, h.length, hrow, rfl, nofun⟩

theorem update_playing (hC : C.Lawful W) (h : OnCourse C .playing s₀ s) (dt : Float32) (w : W) :
    ((∃ leftover, (s.update dt w).1 = .finished leftover) ∧
      OnCourse C .ended s₀ (s.update dt w).2.1) ∨
    ((s.update dt w).1 = .running ∧ OnCourse C .playing s₀ (s.update dt w).2.1) := by
  rcases Nat.lt_or_eq_of_le (show s.cursor ≤ s.length from h.row.le_length) with hlt | hend
  · obtain ⟨hrow, hlength, hgoes, hends⟩ :=
      (hC.relay s₀.children).update dt (h.row.anywhere w) (fun _ _ ha => ha) h.running hlt
    have hsame := hlength.trans h.length
    rcases hends with ⟨leftover, htick, hpassed, -⟩ | ⟨htick, -⟩
    · rw [htick] at hgoes
      have hend : (s.update dt w).2.1.cursor = (s.update dt w).2.1.length :=
        hpassed.trans hlength.symm
      have hover := Course.Row.of_length (y := .ended) hrow hend ()
      exact .inl ⟨⟨leftover, htick⟩, h.fresh, hsame, hover, hgoes, fun _ => hend⟩
    · rw [htick] at hgoes
      exact .inr ⟨htick, h.fresh, hsame, Course.Row.anywhere hrow (), hgoes, nofun⟩
  · rw [update_of_complete h.running hend]
    exact .inl ⟨⟨dt, rfl⟩, h.fresh, h.length, h.row.of_length hend (), rfl, fun _ => hend⟩

theorem stop_still (hC : C.Lawful W) (h : OnCourse C x s₀ s) (hx : x ≠ .playing) (w : W) :
    Animation.stop s w = (s, w) := by
  have hrunning : s.running = false := h.running.trans (Standing.plays_eq_false hx)
  have hchildren : visitAt Animation.stop s.cursor s.children w = (s.children, w) :=
    h.row.visitAt_eq_self fun i a ⟨a₀, _, ha⟩ => hC.stop_still ha hx w
  rw [stop_eq, hchildren, ← hrunning]

theorem stop_playing (hC : C.Lawful W) (h : OnCourse C .playing s₀ s) :
    ∃ s', OnCourse C .halted s₀ s' ∧ ∀ w : W,
      Animation.stop s w = (s', w) ∧ Animation.start s' w = (s, w) := by
  have hchild : ∀ i a, C.At s₀.children .playing i a → ∃ b, C.At s₀.children .halted i b ∧
      ∀ w : W, Animation.stop a w = (b, w) ∧ Animation.start b w = (a, w) := by
    rintro i a ⟨a₀, ha₀, ha⟩
    obtain ⟨b, hb, hcalled⟩ := hC.stop_playing ha
    exact ⟨b, ⟨a₀, ha₀, hb⟩, hcalled⟩
  obtain ⟨l, hrow, hlength, hcalled⟩ : ∃ l, C.Row s₀.children .halted s.cursor l () ∧
      l.length = s.children.length ∧ ∀ w : W,
        visitAt Animation.stop s.cursor s.children w = (l, w) ∧
        visitAt Animation.start s.cursor l w = (s.children, w) :=
    h.row.exists_visitAt_visitAt hchild fun _ _ => trivial
  refine ⟨⟨l, s.cursor, false⟩, ⟨h.fresh, hlength.trans h.length, hrow, rfl, nofun⟩,
    fun w => ⟨?_, ?_⟩⟩
  · rw [stop_eq, (hcalled w).1]
  · rw [start_eq, (hcalled w).2, show true = s.running from h.running.symm]

end OnCourse

theorem lawful_onCourse (hC : C.Lawful W) : Course.Lawful W (OnCourse C) where
  fresh h := h.rested hC
  reset h := h.reset hC
  start h := h.start hC
  start_playing h := h.start_playing hC
  start_ended h w := .inl (h.start_ended hC w)
  update_halted h := update_of_halted h.running
  update_playing h := h.update_playing hC
  update_ended h dt w := by rw [update_of_halted h.running]
  stop_still h := h.stop_still hC
  stop_playing h := h.stop_playing hC

end Sequence

end Storyboard
