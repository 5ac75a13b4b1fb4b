import Storyboard.Proofs.Numeric.Order
import Storyboard.Proofs.Playback.Rewind

/-! # The clocks of the moves

A timeline of which all steps set properties consists of timed moves alone. Each of them has a
clock: the time for which it has been under way. Whatever is called, a clock never shows less
than 0, and as long as a move is not over its clock is behind the duration of the move, or has
not left 0.
-/

namespace Storyboard

/-! ## Timelines of moves -/

namespace Script

variable {ε : Type} {script : Script ε}

/-- All steps set properties. -/
def Configures (script : Script ε) : Prop :=
  ∀ step ∈ script.spec.flatten, ∃ c, step = .configure c

/-- The steps of the plan move the drivers, for times that are valid. -/
theorem Configures.advance (h : script.Configures) {step : PlanStep ε}
    (hstep : step ∈ script.plan.steps) :
    ∃ advances, step = .advance advances ∧ ∀ p, isDuration (advances.get p).duration := by
  cases step with
  | embed animation =>
      obtain ⟨c, hc⟩ := h _ (script.embed_mem hstep)
      cases hc
  | advance advances =>
      obtain ⟨i, hi⟩ := List.mem_iff_getElem?.mp hstep
      obtain ⟨_, -, hspec⟩ := script.advance_spec hi
      exact ⟨advances, rfl, fun p => (hspec p).2.2.2⟩

end Script

variable {H α : Type}

/-- There is nothing that could move drivers of others. -/
theorem Script.Configures.secluded [Animation α (Stage H)]
    {script : Script (Embedded (Stage H) α)} (h : script.Configures) (own : PropertyMap Driver) :
    Timeline.Secluded own script.plan.steps := by
  intro e he
  obtain ⟨advances, hadvance, -⟩ := h.advance he
  cases hadvance

/-! ## One lane -/

/-- A start leaves the clock of a lane where it is. -/
theorem Lane.clock_started (lane : Lane Timing) (x : Float32) :
    (lane.started x).finished = lane.finished ∧
      (lane.started x).child.elapsed = lane.child.elapsed ∧
      (lane.started x).child.duration = lane.child.duration := by
  unfold started Timing.started
  split
  · exact ⟨rfl, rfl, rfl⟩
  · split <;> exact ⟨rfl, rfl, rfl⟩

/-- The clock of a lane whose group is running, or is not. -/
inductive Lane.Clocked (running : Bool) : Lane Timing → Prop
  | ended {t : Timing} (valid : isDuration t.duration) (nonneg : 0 ≤ t.elapsed) :
      Clocked running ⟨t, true⟩
  | going {t : Timing} (valid : isDuration t.duration) (nonneg : 0 ≤ t.elapsed)
      (phase : t.phase = if running then .running else .idle)
      (behind : t.elapsed = 0 ∨ t.elapsed < t.duration) : Clocked running ⟨t, false⟩

namespace Lane.Clocked

variable {running : Bool} {lane : Lane Timing}

theorem nonneg (h : lane.Clocked running) : 0 ≤ lane.child.elapsed := by
  cases h <;> assumption

/-- Once a lane is over it does not matter whether its group is running. -/
theorem of_finished (h : lane.Clocked running) (hfinished : lane.finished = true)
    (running' : Bool) : lane.Clocked running' := by
  cases h with
  | ended valid nonneg => exact .ended valid nonneg
  | going => cases hfinished

theorem started (h : lane.Clocked running) (x : Float32) : (lane.started x).Clocked true := by
  cases h with
  | ended valid nonneg => exact .ended valid nonneg
  | going valid nonneg phase behind =>
      rw [Lane.started_of_running x (by rw [phase]; split <;> nofun)]
      exact .going valid nonneg rfl behind

theorem stopped (h : lane.Clocked running) : lane.stopped.Clocked false := by
  cases h with
  | ended valid nonneg =>
      unfold Lane.stopped
      split <;> exact .ended valid nonneg
  | @going t valid nonneg phase behind =>
      unfold Lane.stopped
      split
      · exact .going valid nonneg rfl behind
      · next hphase =>
        refine .going valid nonneg (phase.trans ?_) behind
        cases running with
        | false => rfl
        | true => exact absurd phase hphase

theorem cleared (h : lane.Clocked running) : lane.cleared.Clocked false := by
  have hvalid : isDuration lane.child.duration := by cases h <;> assumption
  exact .going hvalid ((zero_le_iff 0).mpr (.inr ⟨rfl, le_rfl⟩)) rfl (.inl rfl)

/-- A move that is not over after a tick is behind its duration. -/
theorem ticked (h : lane.Clocked true) (dt : Float32) : (lane.ticked dt).Clocked true := by
  cases h with
  | ended valid nonneg => exact .ended valid nonneg
  | @going t valid nonneg phase behind =>
      have helapse : 0 ≤ t.elapse dt := zero_le_add nonneg (zero_le_maxNumber dt)
      by_cases hexpires : t.Expires dt
      · rw [(Lane.ticked_of_expires 0 phase hexpires).1]
        exact .ended valid helapse
      · rw [(Lane.ticked_of_not_expires 0 phase hexpires).1]
        refine .going valid helapse phase (.inr ?_)
        exact lt_of_not_le (isFinite_of_isDuration valid) helapse fun hle => hexpires (.inr hle)

end Lane.Clocked

/-- What moves leave over of a tick is all of it, or what one of them does. -/
theorem Parallel.surplus_cases (dt : Float32) (lane : Property → Lane Timing) :
    surplus dt lane = dt ∨ ∃ p, (lane p).surplus? dt = some (surplus dt lane) := by
  obtain ⟨hmem, -⟩ :=
    least_foldl_minNumber dt (Property.all.filterMap fun p => (lane p).surplus? dt)
  rcases List.mem_cons.mp hmem with hall | hmem
  · exact .inl hall
  · obtain ⟨p, -, hp⟩ := List.mem_filterMap.mp hmem
    exact .inr ⟨p, hp⟩

/-! ## Groups -/

/-- The lanes of a group. An embedded animation has none. -/
def Group.lanes : Group α → List (Lane Timing)
  | advance moves => moves.lanes
  | embed _ => []

/-- The group consists of moves with clocks. -/
inductive Group.Clocked : Group α → Prop
  | moves {lane : Property → Lane Timing} (running : Bool)
      (clocks : ∀ p, (lane p).Clocked running) : Clocked (.advance (.ofLanes lane running))

namespace Group.Clocked

variable [Animation α (Stage H)] {g : Group α}

theorem start (h : g.Clocked) (s : Stage H) : (Animation.start g s).1.Clocked := by
  cases h with
  | moves running clocks =>
      rw [start_moves]
      exact .moves true fun p => (clocks p).started _

theorem update (h : g.Clocked) (dt : Float32) (s : Stage H) :
    (Animation.update dt g s).2.1.Clocked := by
  cases h with
  | @moves lane running clocks =>
      cases running with
      | false => exact .moves false clocks
      | true =>
          obtain ⟨running, hupdate, hrunning⟩ := update_moves α lane s dt
          rw [hupdate]
          refine .moves running fun p => ?_
          cases running with
          | true => exact (clocks p).ticked dt
          | false => exact ((clocks p).ticked dt).of_finished (hrunning.mp rfl p) false

theorem stop (h : g.Clocked) (s : Stage H) : (Animation.stop g s).1.Clocked := by
  cases h with
  | moves running clocks =>
      rw [stop_moves]
      exact .moves false fun p => (clocks p).stopped

theorem reset (h : g.Clocked) (s : Stage H) : (Animation.reset g s).1.Clocked := by
  cases h with
  | moves running clocks =>
      rw [reset_moves]
      exact .moves false fun p => (clocks p).cleared

theorem perform (h : g.Clocked) (c : Call) (s : Stage H) :
    (Animation.perform c g s).2.1.Clocked := by
  cases c with
  | start => exact h.start s
  | update dt => exact h.update dt s
  | stop => exact h.stop s
  | reset => exact h.reset s

end Group.Clocked

/-! ## Timelines -/

namespace Timeline

theorem clocked_buildGroups {own : PropertyMap Driver}
    {steps : List (PlanStep (Embedded (Stage H) α))}
    (hsteps : ∀ step ∈ steps, ∃ advances, step = .advance advances ∧
      ∀ p, isDuration (advances.get p).duration) (s : Stage H) (i : ℕ) :
    Along (fun _ g => Group.Clocked g) i (buildGroups own steps s).1 := by
  induction steps generalizing i with
  | nil => trivial
  | cons step rest ih =>
      obtain ⟨⟨advances, rfl, hvalid⟩, hrest⟩ := List.forall_mem_cons.mp hsteps
      refine ⟨?_, ih hrest (i + 1)⟩
      rw [moves_eq_ofLanes]
      refine .moves false fun p => ?_
      exact .going (hvalid p) ((zero_le_iff 0).mpr (.inr ⟨rfl, le_rfl⟩)) rfl (.inl rfl)

namespace Reaches

variable [Animation α (Stage H)] {t₀ t : Timeline H α} {s₀ s : Stage H}

/-- What the host does in between does not matter to the timeline itself. -/
theorem descends (h : Reaches t₀ s₀ t s) : Descends H t₀ t := by
  induction h with
  | refl => exact .refl
  | call c _ ih => exact .call c _ ih
  | host _ _ ih => exact ih

variable {script : Script (Embedded (Stage H) α)}

theorem plays_of_configures (hscript : script.Configures)
    (h : Reaches (build script s₀).1 (build script s₀).2 t s) : t.Plays s ∧ t.script = script := by
  obtain ⟨hplays, hsame, -⟩ := h.plays (plays_build script s₀ (hscript.secluded _))
  exact ⟨hplays, hsame⟩

/-- In every state that calls lead to, the clocks of all groups are in order. -/
theorem clocked (hscript : script.Configures)
    (h : Reaches (build script s₀).1 (build script s₀).2 t s) :
    Along (fun _ g => Group.Clocked g) 0 t.sequence.children := by
  induction h with
  | refl => exact clocked_buildGroups (fun _ hstep => hscript.advance hstep) _ 0
  | call c hreaches ih =>
      have hplays := (hreaches.plays_of_configures hscript).1
      exact hplays.along_perform (fun _ _ c s hg => hg.perform c s) ih c
  | host _ _ ih => exact ih

theorem clocked_of_mem (hscript : script.Configures)
    (h : Reaches (build script s₀).1 (build script s₀).2 t s) {g : Group α}
    (hg : g ∈ t.sequence.children) : g.Clocked := by
  obtain ⟨i, hi⟩ := List.mem_iff_getElem?.mp hg
  exact (h.clocked hscript).of_getElem? hi

end Reaches

end Timeline

end Storyboard
