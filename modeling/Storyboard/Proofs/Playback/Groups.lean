import Storyboard.Proofs.Compile.Recurrence
import Storyboard.Proofs.Playback.Lanes
import Storyboard.Proofs.Playback.Line
import Storyboard.Timeline

/-! # The groups of a timeline

A timeline owns its drivers, and only its own moves are to lead them. This module says what
that asks of embedded animations and of the host, and what a group has in common with the
step of the plan that it was built for.
-/

namespace Storyboard

variable {H α : Type} [Animation α (Stage H)]

/-! ## Ownership -/

/-- Drivers stay in place from one stage to another. -/
def Keeps (own : PropertyMap Driver) (s s' : Stage H) : Prop :=
  ∀ p, s.1.Has (own.get p) → s'.1.Has (own.get p) ∧ s'.1.get (own.get p) = s.1.get (own.get p)

/-- The states to which calls on any stages can bring an animation. -/
inductive Descends (H : Type) [Animation α (Stage H)] (a : α) : α → Prop
  | refl : Descends H a a
  | call {b : α} (c : Call) (s : Stage H) :
      Descends H a b → Descends H a (Animation.perform c b s).2.1

/-- Whatever the calls, the animation leaves drivers where they are. -/
def Detached (own : PropertyMap Driver) (H : Type) [Animation α (Stage H)] (a : α) : Prop :=
  ∀ b, Descends H a b → ∀ (c : Call) (s : Stage H), Keeps own s (Animation.perform c b s).2.2

theorem Detached.call {own : PropertyMap Driver} {a : α} (h : Detached own H a) (c : Call)
    (s : Stage H) : Detached own H (Animation.perform c a s).2.1 := by
  intro b hb
  refine h b ?_
  induction hb with
  | refl => exact .call c s .refl
  | call c s _ ih => exact .call c s ih

theorem Detached.keeps {own : PropertyMap Driver} {a : α} (h : Detached own H a) (c : Call)
    (s : Stage H) : Keeps own s (Animation.perform c a s).2.2 :=
  h a .refl c s

/-- All drivers of the timeline stand at one count. -/
def Rests (own : PropertyMap Driver) (n : ℕ) (s : Stage H) : Prop :=
  ∀ p, s.1.Has (own.get p) ∧ s.1.get (own.get p) = ofCount n

theorem Rests.keeps {own : PropertyMap Driver} {n : ℕ} {s s' : Stage H} (h : Rests own n s)
    (hkeeps : Keeps own s s') : Rests own n s' := by
  intro p
  obtain ⟨hhas, hget⟩ := hkeeps p (h p).1
  exact ⟨hhas, hget.trans (h p).2⟩

/-! ## Groups and steps -/

/-- The move carries out an advance of a driver. -/
structure Timing.Follows (t : Timing) (d : Driver) (a : Advance) : Prop where
  driver : t.driver = d
  goal : t.goal = ofCount a.toIndex
  duration : t.duration = a.duration
  easing : t.easing = a.easing

/-- The lane has not been started since the last reset. -/
structure Lane.Waits (lane : Lane Timing) : Prop where
  finished : lane.finished = false
  phase : lane.child.phase = .idle
  departure : lane.child.departure = none
  elapsed : lane.child.elapsed = 0

namespace Lane

variable {lane : Lane Timing} {d : Driver} {a : Advance}

theorem follows_started (h : lane.child.Follows d a) (x : Float32) :
    (lane.started x).child.Follows d a := by
  obtain ⟨h₁, h₂, h₃, h₄⟩ := h
  unfold started Timing.started
  split
  · exact ⟨h₁, h₂, h₃, h₄⟩
  · split <;> exact ⟨h₁, h₂, h₃, h₄⟩

theorem follows_ticked (h : lane.child.Follows d a) (dt : Float32) :
    (lane.ticked dt).child.Follows d a := by
  obtain ⟨h₁, h₂, h₃, h₄⟩ := h
  unfold ticked Timing.ticked
  split
  · exact ⟨h₁, h₂, h₃, h₄⟩
  · split <;> exact ⟨h₁, h₂, h₃, h₄⟩

theorem follows_stopped (h : lane.child.Follows d a) : lane.stopped.child.Follows d a := by
  obtain ⟨h₁, h₂, h₃, h₄⟩ := h
  unfold stopped
  split <;> exact ⟨h₁, h₂, h₃, h₄⟩

theorem follows_cleared (h : lane.child.Follows d a) : lane.cleared.child.Follows d a :=
  ⟨h.driver, h.goal, h.duration, h.easing⟩

theorem waits_cleared (lane : Lane Timing) : lane.cleared.Waits := ⟨rfl, rfl, rfl, rfl⟩

end Lane

/-- The group was built for a step of a plan. Of the lanes of its moves something more may
be known. -/
inductive Group.Carries (own : PropertyMap Driver) (known : Property → Lane Timing → Prop) :
    PlanStep (Embedded (Stage H) α) → Group α → Prop
  | advance {advances : PropertyMap Advance} {lane : Property → Lane Timing} (running : Bool)
      (follows : ∀ p, (lane p).child.Follows (own.get p) (advances.get p))
      (lanes : ∀ p, known p (lane p)) :
      Carries own known (.advance advances) (.advance (.ofLanes lane running))
  | embed (e : Embedded (Stage H) α) {a : α} (detached : Detached own H a) :
      Carries own known (.embed e) (.embed a)

namespace Group

variable {own : PropertyMap Driver} {known known' : Property → Lane Timing → Prop}
  {step : PlanStep (Embedded (Stage H) α)} {steps : List (PlanStep (Embedded (Stage H) α))}
  {g : Group α}

theorem Carries.imp (h : Carries own known step g)
    (hknown : ∀ p lane, known p lane → known' p lane) :
    Carries own known' step g := by
  cases h with
  | advance running follows lanes => exact .advance running follows fun p => hknown p _ (lanes p)
  | embed e detached => exact .embed e detached

/-- The group of index `i` was built for that step. -/
def BuiltFor (steps : List (PlanStep (Embedded (Stage H) α))) (own : PropertyMap Driver)
    (known : Property → Lane Timing → Prop) (i : ℕ) (g : Group α) : Prop :=
  ∃ step, steps[i]? = some step ∧ Carries own known step g

/-- The group has been built, and may be in any state. -/
abbrev Past (steps : List (PlanStep (Embedded (Stage H) α))) (own : PropertyMap Driver) :
    ℕ → Group α → Prop :=
  BuiltFor steps own fun _ _ => True

/-- The group has been built, and its moves have not been started since the last reset. -/
abbrev Fresh (steps : List (PlanStep (Embedded (Stage H) α))) (own : PropertyMap Driver) :
    ℕ → Group α → Prop :=
  BuiltFor steps own fun _ lane => lane.Waits

theorem BuiltFor.past {i : ℕ} (h : BuiltFor steps own known i g) : Past steps own i g := by
  obtain ⟨step, hstep, hcarries⟩ := h
  exact ⟨step, hstep, hcarries.imp fun _ _ _ => trivial⟩

theorem perform_advance (c : Call) (moves : Parallel Timing) (s : Stage H) :
    Animation.perform c (advance moves : Group α) s =
      let result := Animation.perform c moves s
      (result.1, advance result.2.1, result.2.2) := by
  cases c <;> rfl

theorem perform_embed (c : Call) (a : α) (s : Stage H) :
    Animation.perform c (embed a) s =
      let result := Animation.perform c a s
      (result.1, embed result.2.1, result.2.2) := by
  cases c <;> rfl

section Moves

variable (lane : Property → Lane Timing) (running : Bool) (s : Stage H)

theorem start_moves :
    Animation.start (advance (.ofLanes lane running) : Group α) s =
      (advance (.ofLanes (fun p => (lane p).started (s.1.get (lane p).child.driver)) true), s) := by
  change (let r := (Parallel.ofLanes lane running).start s; (advance r.1, r.2)) = _
  rw [Parallel.start_ofLanes]

theorem stop_moves :
    Animation.stop (advance (.ofLanes lane running) : Group α) s =
      (advance (.ofLanes (fun p => (lane p).stopped) false), s) := by
  change (let r := (Parallel.ofLanes lane running).stop s; (advance r.1, r.2)) = _
  rw [Parallel.stop_ofLanes]

theorem reset_moves :
    Animation.reset (advance (.ofLanes lane running) : Group α) s =
      (advance (.ofLanes (fun p => (lane p).cleared) false), s) := by
  change (let r := (Parallel.ofLanes lane running).reset s; (advance r.1, r.2)) = _
  rw [Parallel.reset_ofLanes]

theorem update_moves_halted (dt : Float32) :
    Animation.update dt (advance (.ofLanes lane false) : Group α) s =
      (.idle, advance (.ofLanes lane false), s) :=
  rfl

variable (α) in
/-- A tick of running moves: the answer, the lanes and the drivers. -/
theorem update_moves (dt : Float32) :
    ∃ running, Animation.update dt (advance (.ofLanes lane true) : Group α) s =
      (if running then .running else .finished (Parallel.surplus dt lane),
        advance (.ofLanes (fun p => (lane p).ticked dt) running),
        Parallel.move dt lane s.1, s.2) ∧
      (running = false ↔ ∀ p, ((lane p).ticked dt).finished) := by
  have hupdate : Animation.update dt (advance (.ofLanes lane true) : Group α) s =
      let result := (Parallel.ofLanes lane true).update dt s
      (result.1, advance result.2.1, result.2.2) := rfl
  rw [hupdate, Parallel.update_ofLanes, ← Parallel.all_finished_iff]
  dsimp only
  split
  · next h => exact ⟨false, rfl, fun _ => h, fun _ => rfl⟩
  · next h => exact ⟨true, rfl, nofun, fun hall => absurd hall h⟩

variable {lane s}

/-- A tick leads each driver of the timeline where its lane does. -/
theorem move_own {own : PropertyMap Driver} {advances : PropertyMap Advance}
    (hown : Function.Injective own.get)
    (hfollows : ∀ p, (lane p).child.Follows (own.get p) (advances.get p))
    (hhas : ∀ p, s.1.Has (own.get p)) (dt : Float32) (p : Property) :
    (Parallel.move dt lane s.1).Has (own.get p) ∧
      (Parallel.move dt lane s.1).get (own.get p) = (lane p).place dt (s.1.get (own.get p)) := by
  have hinjective : Function.Injective fun p => (lane p).child.driver := by
    intro p q hpq
    dsimp only at hpq
    rw [(hfollows p).driver, (hfollows q).driver] at hpq
    exact hown hpq
  refine ⟨(Parallel.has_move dt s.1 _).mpr (hhas p), ?_⟩
  have hget := Parallel.get_move dt s.1 hinjective p ((hfollows p).driver ▸ hhas p)
  rwa [(hfollows p).driver] at hget

end Moves

/-- A reset moves no driver of the timeline. -/
theorem fresh_reset {i : ℕ} (h : Past steps own i g) (s : Stage H) :
    Fresh steps own i (Animation.reset g s).1 ∧ Keeps own s (Animation.reset g s).2 := by
  obtain ⟨step, hstep, hcarries⟩ := h
  cases hcarries with
  | @advance advances lane running follows lanes =>
      rw [reset_moves]
      refine ⟨⟨_, hstep, .advance false (fun p => ?_) fun p => (lane p).waits_cleared⟩, ?_⟩
      · exact Lane.follows_cleared (follows p)
      · exact fun p hp => ⟨hp, rfl⟩
  | @embed e a detached =>
      exact ⟨⟨_, hstep, .embed e (detached.call .reset s)⟩, detached.keeps .reset s⟩

end Group

namespace Timeline

variable {own : PropertyMap Driver}

/-- Embedded animations are built without moving drivers of the timeline, once these are there,
and do not move them later. They may have drivers of their own. -/
def Secluded (own : PropertyMap Driver) (steps : List (PlanStep (Embedded (Stage H) α))) : Prop :=
  ∀ e, .embed e ∈ steps → ∀ s : Stage H, (∀ p, s.1.Has (own.get p)) →
    Keeps own s (e.build s).2 ∧ Detached own H (e.build s).1

/-- Only the steps of a script have to be looked at. -/
theorem secluded_of_flatten {script : Script (Embedded (Stage H) α)}
    (h : ∀ e, .embed e ∈ script.spec.flatten → ∀ s : Stage H, (∀ p, s.1.Has (own.get p)) →
      Keeps own s (e.build s).2 ∧ Detached own H (e.build s).1) :
    Secluded own script.plan.steps :=
  fun e he => h e (script.embed_mem he)

theorem moves_eq_ofLanes (own : PropertyMap Driver) (advances : PropertyMap Advance) :
    moves own advances = .ofLanes (fun p =>
      { child := { driver := own.get p, goal := ofCount (advances.get p).toIndex
                   duration := (advances.get p).duration
                   easing := (advances.get p).easing } }) false := by
  simp [moves, Parallel.ofList, Parallel.ofLanes]

theorem fresh_buildGroups {steps rest : List (PlanStep (Embedded (Stage H) α))} {i n : ℕ}
    (hrest : steps.drop i = rest) (hsecluded : Secluded own steps) {s : Stage H}
    (hs : Rests own n s) :
    Along (Group.Fresh steps own) i (buildGroups own rest s).1 ∧
      Rests own n (buildGroups own rest s).2 ∧
      (buildGroups own rest s).1.length = rest.length := by
  induction rest generalizing i s with
  | nil => exact ⟨trivial, hs, rfl⟩
  | cons step rest ih =>
      obtain ⟨hstep, htail⟩ := List.of_drop_eq_cons hrest
      cases step with
      | advance advances =>
          obtain ⟨hgroups, hs', hlength⟩ := ih htail hs
          refine ⟨⟨⟨_, hstep, ?_⟩, hgroups⟩, hs', congrArg (· + 1) hlength⟩
          rw [moves_eq_ofLanes]
          exact .advance false (fun p => ⟨rfl, rfl, rfl, rfl⟩) fun p => ⟨rfl, rfl, rfl, rfl⟩
      | embed e =>
          obtain ⟨hkeeps, hdetached⟩ := hsecluded e (List.mem_of_getElem? hstep) s
            fun p => (hs p).1
          obtain ⟨hgroups, hs', hlength⟩ := ih htail (hs.keeps hkeeps)
          exact ⟨⟨⟨_, hstep, .embed e hdetached⟩, hgroups⟩, hs', congrArg (· + 1) hlength⟩

/-! ## The drivers of a timeline -/

theorem injective_addDrivers (bank : DriverBank) :
    Function.Injective (addDrivers bank).1.get := by
  intro p q hpq
  simp only [addDrivers, PropertyMap.get_ofFn, Driver.mk.injEq] at hpq
  exact Property.index_inj.mp (Nat.add_left_cancel hpq)

theorem rests_addDrivers (bank : DriverBank) (host : H) :
    Rests (addDrivers bank).1 0 ((addDrivers bank).2, host) := by
  intro p
  have hlt := p.index_lt
  simp only [addDrivers, PropertyMap.get_ofFn]
  constructor
  · simp only [DriverBank.Has, Array.size_append, Array.size_replicate]
    omega
  · have hzero : ofCount 0 = 0 := rfl
    simp [DriverBank.get, hlt, hzero]

/-- Drivers that are all set to the same count. -/
theorem rests_foldl_set (hown : Function.Injective own.get) {n : ℕ} {s : Stage H}
    (hhas : ∀ p, s.1.Has (own.get p)) :
    Rests own n (own.values.foldl (fun bank d => bank.set d (ofCount n)) s.1, s.2) := by
  intro p
  have hmoves : ∀ p, DriverBank.Moves (fun bank => bank.set (own.get p) (ofCount n)) (own.get p)
      fun _ => ofCount n := fun p => DriverBank.moves_set _ _
  unfold PropertyMap.values
  rw [List.foldl_map]
  exact ⟨(DriverBank.has_foldl hmoves _ _ _).mpr (hhas p),
    DriverBank.get_foldl_of_mem hmoves (Parallel.pairwise_all hown) s.1 (Property.mem_all p)
      (hhas p)⟩

/-! ## Calls to a timeline -/

theorem update_of_running {t : Timeline H α} (h : t.state = .running) (dt : Float32)
    (s : Stage H) :
    t.update dt s =
      let result := t.sequence.update dt s
      (result.1,
        { t with sequence := result.2.1
                 state := if result.1.isFinished then .completed else .running },
        result.2.2) := by
  unfold update
  rw [h]
  rfl

/-- The script and the drivers of a timeline are the same for ever. -/
theorem perform_fixes (t : Timeline H α) (s : Stage H) (c : Call) :
    (Animation.perform c t s).2.1.script = t.script ∧
      (Animation.perform c t s).2.1.drivers = t.drivers := by
  cases c with
  | start =>
      change (t.start s).1.script = _ ∧ (t.start s).1.drivers = _
      unfold start
      by_cases h : t.state = .completed
      · rw [if_pos h]
        exact ⟨rfl, rfl⟩
      · rw [if_neg h]
        exact ⟨rfl, rfl⟩
  | update dt =>
      change (t.update dt s).2.1.script = _ ∧ (t.update dt s).2.1.drivers = _
      unfold update
      split <;> exact ⟨rfl, rfl⟩
  | stop =>
      change (t.stop s).1.script = _ ∧ (t.stop s).1.drivers = _
      unfold stop
      split <;> exact ⟨rfl, rfl⟩
  | reset => exact ⟨rfl, rfl⟩

end Timeline

end Storyboard
