import Storyboard.Proofs.Numeric.Progress
import Storyboard.Proofs.Playback.Clocks
import Storyboard.Proofs.Playback.Coherence

/-! # Ticks without time

A time that is negative or undefined counts as none for a move, but only there: a group takes the
least of what its moves leave over and of the tick as it was given, and a sequence hands that on.
So such times do get from one group to the next when these have nothing to play. This module
shows that they do no more than a tick of 0 does, and that no tick turns a clock back.
-/

namespace Storyboard

variable {α W : Type}

/-! ## Times that are none -/

/-- The time is negative, zero or undefined. -/
def Timeless (dt : Float32) : Prop :=
  dt.isNaN = true ∨ dt ≤ 0

theorem timeless_zero : Timeless 0 :=
  .inr (le_refl_number rfl)

theorem Timeless.maxNumber_eq {dt : Float32} (h : Timeless dt) : maxNumber dt 0 = 0 := by
  unfold maxNumber
  split
  · rfl
  · next hnan => exact if_pos (h.resolve_left hnan)

/-- Two answers are the same, up to times left over that are none. -/
inductive Tick.Agrees : Tick → Tick → Prop
  | idle : Agrees .idle .idle
  | running : Agrees .running .running
  | finished {l l' : Float32} (left : Timeless l) (right : Timeless l') :
      Agrees (.finished l) (.finished l')

theorem Tick.Agrees.isFinished_eq {tick tick' : Tick} (h : tick.Agrees tick') :
    tick.isFinished = tick'.isFinished := by
  cases h <;> rfl

theorem Tick.Agrees.cases_finished {tick tick' : Tick} (h : tick.Agrees tick') :
    (tick.isFinished = false ∧ tick'.isFinished = false) ∨
      ∃ l l', tick = .finished l ∧ tick' = .finished l' ∧ Timeless l ∧ Timeless l' := by
  cases h with
  | finished left right => exact .inr ⟨_, _, rfl, rfl, left, right⟩
  | _ => exact .inl ⟨rfl, rfl⟩

/-- It does not matter which of the times that are none an animation is given. -/
def Calm (W : Type) [Animation α W] (a : α) : Prop :=
  ∀ (dt dt' : Float32) (w : W), Timeless dt → Timeless dt' →
    (Animation.update dt a w).1.Agrees (Animation.update dt' a w).1 ∧
      (Animation.update dt a w).2 = (Animation.update dt' a w).2

/-! ## Sequences -/

/-- Two ticks did the same to a child and those behind it, and have answers that agree. -/
structure SequenceTick.Agrees (step step' : SequenceTick α W) : Prop where
  tick : step.tick.Agrees step'.tick
  children : step.children = step'.children
  passed : step.passed = step'.passed
  world : step.world = step'.world

namespace Sequence

variable [Animation α W] {dt dt' : Float32}

/-- Whatever a calm child leaves over of a time that is none, the next one takes it as none. -/
theorem agrees_advance {a : α} {rest : List α} (ha : Calm W a)
    (hrest : ∀ b ∈ rest, ∀ w : W, Calm W (Animation.start b w).1) (hdt : Timeless dt)
    (hdt' : Timeless dt') (w : W) : (advance dt a rest w).Agrees (advance dt' a rest w) := by
  induction rest generalizing a dt dt' w with
  | nil =>
      obtain ⟨htick, hsame⟩ := ha dt dt' w hdt hdt'
      rcases htick.cases_finished with ⟨hgo, hgo'⟩ | ⟨l, l', hfinished, hfinished', hl, hl'⟩
      · rw [advance_of_not_finished hgo, advance_of_not_finished hgo', hsame]
        exact ⟨.running, rfl, rfl, rfl⟩
      · rw [advance_nil hfinished, advance_nil hfinished', hsame]
        exact ⟨.finished hl hl', rfl, rfl, rfl⟩
  | cons next rest ih =>
      obtain ⟨htick, hsame⟩ := ha dt dt' w hdt hdt'
      rcases htick.cases_finished with ⟨hgo, hgo'⟩ | ⟨l, l', hfinished, hfinished', hl, hl'⟩
      · rw [advance_of_not_finished hgo, advance_of_not_finished hgo', hsame]
        exact ⟨.running, rfl, rfl, rfl⟩
      · obtain ⟨hnext, hbehind⟩ := List.forall_mem_cons.mp hrest
        rw [advance_cons hfinished, advance_cons hfinished', hsame]
        obtain ⟨htail, hchildren, hpassed, hworld⟩ := ih (hnext _) hbehind hl hl' _
        exact ⟨htail, congrArg (_ :: ·) hchildren, congrArg (· + 1) hpassed, hworld⟩

/-- A sequence of calm children is calm. -/
theorem calm_of_children {s : Sequence α} (hwithin : s.cursor ≤ s.length)
    (hchildren : ∀ a ∈ s.children, Calm W a)
    (hstarted : ∀ a ∈ s.children, ∀ w : W, Calm W (Animation.start a w).1) : Calm W s := by
  intro dt dt' w hdt hdt'
  change (s.update dt w).1.Agrees (s.update dt' w).1 ∧ (s.update dt w).2 = (s.update dt' w).2
  cases hrunning : s.running with
  | false =>
      rw [show s.update dt w = _ from update_of_halted hrunning dt w,
        show s.update dt' w = _ from update_of_halted hrunning dt' w]
      exact ⟨.idle, rfl⟩
  | true =>
      rcases Nat.lt_or_eq_of_le hwithin with hlt | hend
      · obtain ⟨a, rest, hdrop⟩ := exists_drop_eq hlt
        have hmem : ∀ b ∈ a :: rest, b ∈ s.children :=
          fun b hb => List.mem_of_mem_drop (hdrop ▸ hb)
        obtain ⟨ha, hrest⟩ := List.forall_mem_cons.mp hmem
        obtain ⟨htick, hafter, hpassed, hworld⟩ :=
          agrees_advance (hchildren a ha) (fun b hb => hstarted b (hrest b hb)) hdt hdt' w
        rw [update_of_drop hrunning hdrop, update_of_drop hrunning hdrop]
        dsimp only
        rw [hafter, hpassed, hworld, htick.isFinished_eq]
        exact ⟨htick, rfl⟩
      · rw [update_of_complete hrunning hend, update_of_complete hrunning hend]
        exact ⟨.finished hdt hdt', rfl⟩

end Sequence

/-! ## Moves -/

section Lanes

variable {dt dt' : Float32}

theorem Timing.elapse_of_timeless (t : Timing) (hdt : Timeless dt) :
    t.elapse dt = t.elapsed + 0 := by
  unfold elapse
  rw [hdt.maxNumber_eq]

theorem Timing.expires_congr {t : Timing} (h : t.elapse dt = t.elapse dt') :
    t.Expires dt ↔ t.Expires dt' := by
  unfold Expires
  rw [h]

namespace Lane

/-- A tick leads a lane wherever another one does that its move takes for the same time. -/
theorem ticked_congr {lane : Lane Timing} (h : lane.child.elapse dt = lane.child.elapse dt') :
    lane.ticked dt = lane.ticked dt' ∧ lane.move dt = lane.move dt' := by
  have hexpires := Timing.expires_congr h
  constructor
  · unfold ticked Timing.ticked Timing.answer
    simp only [h, hexpires]
    cases lane.child.phase with
    | running =>
        by_cases hlast : lane.child.Expires dt' <;> simp [hlast, Tick.isFinished]
    | _ => rfl
  · unfold move Timing.move
    simp only [h, hexpires]

/-- A move that is over in a tick without time was so before, and leaves nothing over. -/
theorem Clocked.timeless_surplus {lane : Lane Timing} (h : lane.Clocked true) (hdt : Timeless dt)
    {leftover : Float32} (hsurplus : lane.surplus? dt = some leftover) : Timeless leftover := by
  cases h with
  | ended => cases hsurplus
  | @going t valid nonneg phase behind =>
      have helapse := t.elapse_of_timeless hdt
      by_cases hexpires : t.Expires dt
      · rw [(ticked_of_expires 0 phase hexpires).2.2, Option.some_inj] at hsurplus
        unfold Timing.Expires at hexpires
        rw [helapse] at hexpires
        -- a clock that is behind the duration does not reach it without time, and so it shows 0
        rcases behind with hzero | hlt
        · have hnone : t.duration ≤ 0 := by
            rw [hzero] at hexpires
            exact hexpires.elim id id
          rw [← hsurplus, Timing.surplus, helapse, hzero, Timeless.maxNumber_eq (.inr hnone)]
          exact timeless_zero
        · have hduration := isFinite_of_isDuration valid
          obtain ⟨hfinite, hnonneg, hlt⟩ := finite_of_lt nonneg hlt hduration
          obtain ⟨hsum, hvalue⟩ := add_zero_number hfinite (y := 0) rfl toRat_zero
          rw [le_iff_toRat_le hduration rfl, le_iff_toRat_le hduration hsum, hvalue,
            toRat_zero] at hexpires
          rcases hexpires with hexpires | hexpires <;> linarith
      · rw [(ticked_of_not_expires 0 phase hexpires).2.2] at hsurplus
        cases hsurplus

end Lane

/-- The least of what moves leave over of a time that is none. -/
theorem Parallel.timeless_surplus {lane : Property → Lane Timing}
    (hlane : ∀ p, (lane p).Clocked true) (hdt : Timeless dt) : Timeless (surplus dt lane) := by
  rcases surplus_cases dt lane with hall | ⟨p, hp⟩
  · rwa [hall]
  · exact (hlane p).timeless_surplus hdt hp

variable {H : Type} [Animation α (Stage H)]

theorem Group.Clocked.calm {g : Group α} (h : g.Clocked) : Calm (Stage H) g := by
  intro dt dt' s hdt hdt'
  cases h with
  | @moves lane running clocks =>
      cases running with
      | false => exact ⟨.idle, rfl⟩
      | true =>
          have hsame : ∀ p, (lane p).ticked dt = (lane p).ticked dt' ∧
              (lane p).move dt = (lane p).move dt' := by
            intro p
            refine Lane.ticked_congr ?_
            rw [Timing.elapse_of_timeless _ hdt, Timing.elapse_of_timeless _ hdt']
          have hmove : Parallel.move dt lane = Parallel.move dt' lane := by
            unfold Parallel.move
            simp only [fun p => (hsame p).2]
          obtain ⟨running, hupdate, hrunning⟩ := Group.update_moves α lane s dt
          obtain ⟨running', hupdate', hrunning'⟩ := Group.update_moves α lane s dt'
          simp only [fun p => (hsame p).1] at hupdate hrunning
          obtain rfl : running = running' := by
            rw [Bool.eq_iff_iff, ← not_iff_not, Bool.not_eq_true, Bool.not_eq_true, hrunning,
              hrunning']
          rw [hupdate, hupdate', hmove]
          refine ⟨?_, rfl⟩
          cases running with
          | true => exact .running
          | false =>
              exact .finished (Parallel.timeless_surplus clocks hdt)
                (Parallel.timeless_surplus clocks hdt')

end Lanes

/-! ## Clocks that only go forward -/

theorem forall₂_le_trans {l₁ l₂ l₃ : List Float32} (h : List.Forall₂ (· ≤ ·) l₁ l₂)
    (h' : List.Forall₂ (· ≤ ·) l₂ l₃) : List.Forall₂ (· ≤ ·) l₁ l₃ := by
  induction h generalizing l₃ with
  | nil => exact h'
  | cons hxy _ ih =>
      cases h' with
      | cons hyz hrest => exact .cons (le_trans_number hxy hyz) (ih hrest)

namespace Group

/-- The times for which the moves of a group have been under way. -/
def clocks (g : Group α) : List Float32 :=
  g.lanes.map (·.child.elapsed)

/-- No clock of the first group is ahead of that of the second one. -/
def Before (g g' : Group α) : Prop :=
  List.Forall₂ (· ≤ ·) g.clocks g'.clocks

theorem Before.trans {g₁ g₂ g₃ : Group α} (h : Before g₁ g₂) (h' : Before g₂ g₃) :
    Before g₁ g₃ :=
  forall₂_le_trans h h'

theorem before_moves {lane lane' : Property → Lane Timing} (running running' : Bool)
    (h : ∀ p, (lane p).child.elapsed ≤ (lane' p).child.elapsed) :
    Before (advance (.ofLanes lane running) : Group α) (advance (.ofLanes lane' running')) := by
  simpa [Before, clocks, lanes, Parallel.ofLanes, List.forall₂_map_left_iff,
    List.forall₂_map_right_iff, List.forall₂_same] using h

end Group

namespace Lane.Clocked

variable {running : Bool} {lane : Lane Timing}

theorem le_started (h : lane.Clocked running) (x : Float32) :
    lane.child.elapsed ≤ (lane.started x).child.elapsed := by
  rw [(lane.clock_started x).2.1]
  exact le_refl_number (isNaN_of_le h.nonneg).2

theorem le_ticked (h : lane.Clocked true) (dt : Float32) :
    lane.child.elapsed ≤ (lane.ticked dt).child.elapsed := by
  cases h with
  | ended valid nonneg => exact le_refl_number (isNaN_of_le nonneg).2
  | @going t valid nonneg phase behind =>
      have hgrows : t.elapsed ≤ t.elapse dt := le_add_number nonneg (zero_le_maxNumber dt)
      by_cases hexpires : t.Expires dt
      · rwa [(ticked_of_expires 0 phase hexpires).1]
      · rwa [(ticked_of_not_expires 0 phase hexpires).1]

end Lane.Clocked

namespace Group.Clocked

variable {H : Type} [Animation α (Stage H)] {g : Group α}

theorem before_self (h : g.Clocked) : Before g g := by
  cases h with
  | moves running clocks =>
      exact before_moves _ _ fun p => le_refl_number (isNaN_of_le (clocks p).nonneg).2

theorem before_start (h : g.Clocked) (s : Stage H) : Before g (Animation.start g s).1 := by
  cases h with
  | moves running clocks =>
      rw [start_moves]
      exact before_moves _ _ fun p => (clocks p).le_started _

theorem before_update (h : g.Clocked) (dt : Float32) (s : Stage H) :
    Before g (Animation.update dt g s).2.1 := by
  cases h with
  | @moves lane running clocks =>
      cases running with
      | false => exact (Clocked.moves false clocks).before_self
      | true =>
          obtain ⟨running, hupdate, -⟩ := update_moves α lane s dt
          rw [hupdate]
          exact before_moves _ _ fun p => (clocks p).le_ticked dt

end Group.Clocked

/-! ## Timelines -/

namespace Timeline

variable {H : Type}

/-- The times for which the moves of each group have been under way. -/
def clocks (t : Timeline H α) : List (List Float32) :=
  t.sequence.children.map Group.clocks

variable [Animation α (Stage H)] {t : Timeline H α} {s : Stage H}

theorem calm_of_sequence (h : Calm (Stage H) t.sequence) : Calm (Stage H) t := by
  intro dt dt' s hdt hdt'
  change (t.update dt s).1.Agrees (t.update dt' s).1 ∧ (t.update dt s).2 = (t.update dt' s).2
  cases hstate : t.state with
  | idle =>
      rw [update_of_idle hstate, update_of_idle hstate]
      exact ⟨.idle, rfl⟩
  | completed =>
      rw [update_of_completed hstate, update_of_completed hstate]
      exact ⟨.finished hdt hdt', rfl⟩
  | running =>
      obtain ⟨htick, hsame⟩ :
        (t.sequence.update dt s).1.Agrees (t.sequence.update dt' s).1 ∧
          (t.sequence.update dt s).2 = (t.sequence.update dt' s).2 := h dt dt' s hdt hdt'
      rw [update_of_running hstate, update_of_running hstate]
      dsimp only
      rw [hsame, htick.isFinished_eq]
      exact ⟨htick, rfl⟩

namespace Reaches

variable {script : Script (Embedded (Stage H) α)} {s₀ : Stage H}

theorem calm (hscript : script.Configures)
    (h : Reaches (build script s₀).1 (build script s₀).2 t s) : Calm (Stage H) t := by
  have hcoherent := (coherent_build script s₀).descends h.descends
  exact calm_of_sequence (Sequence.calm_of_children hcoherent.within
    (fun g hg => (h.clocked_of_mem hscript hg).calm)
    fun g hg s => ((h.clocked_of_mem hscript hg).start s).calm)

/-- Whatever the tick, no clock goes back or is lost. -/
theorem clocks_update (hscript : script.Configures)
    (h : Reaches (build script s₀).1 (build script s₀).2 t s) (dt : Float32) :
    List.Forall₂ (List.Forall₂ (· ≤ ·)) t.clocks (t.update dt s).2.1.clocks := by
  have hcoherent := (coherent_build script s₀).descends h.descends
  have hbefore : Along (fun i g => g.Clocked ∧ ∃ g₀, t.sequence.children[i]? = some g₀ ∧
      Group.Before g₀ g) 0 t.sequence.children := by
    refine Along.iff_getElem?.mpr fun i g hg => ?_
    rw [Nat.zero_add]
    have hclocked := (h.clocked hscript).of_getElem? hg
    exact ⟨hclocked, g, hg, hclocked.before_self⟩
  have hafter : Along (fun i g => g.Clocked ∧ ∃ g₀, t.sequence.children[i]? = some g₀ ∧
      Group.Before g₀ g) 0 (t.update dt s).2.1.sequence.children := by
    cases hstate : t.state with
    | idle => rwa [update_of_idle hstate]
    | completed => rwa [update_of_completed hstate]
    | running =>
        rw [update_of_running hstate]
        refine hbefore.update ?_ ?_ hcoherent.within dt s
        · rintro _ g s ⟨hclocked, g₀, hg₀, hle⟩
          exact ⟨hclocked.start s, g₀, hg₀, hle.trans (hclocked.before_start s)⟩
        · rintro _ g dt s ⟨hclocked, g₀, hg₀, hle⟩
          exact ⟨hclocked.update dt s, g₀, hg₀, hle.trans (hclocked.before_update dt s)⟩
  unfold clocks
  rw [List.forall₂_map_left_iff, List.forall₂_map_right_iff]
  exact forall₂_of_along (hafter.imp fun _ _ hg => hg.2)
    (hcoherent.groupCount_perform (.update dt) s)

end Reaches

/-- A tick of a negative or undefined time does no harm to a timeline of moves. In every state
that calls lead to, it leaves the timeline and the stage as a tick of 0 would, and so whatever is
called from then on has the same answers and effects. The answers to the tick itself agree up to
times left over that are none. No clock is lost, becomes undefined or goes back. -/
theorem timeless_tick (script : Script (Embedded (Stage H) α)) (s₀ : Stage H)
    (hscript : script.Configures) (h : Reaches (build script s₀).1 (build script s₀).2 t s)
    {dt : Float32} (hdt : dt.isNaN = true ∨ dt ≤ 0) :
    (t.update dt s).2 = (t.update 0 s).2 ∧ (t.update dt s).1.Agrees (t.update 0 s).1 ∧
      List.Forall₂ (List.Forall₂ (· ≤ ·)) t.clocks (t.update dt s).2.1.clocks ∧
      ∀ calls : List Call,
        (Animation.run (.update dt :: calls) t s).2 = (Animation.run (.update 0 :: calls) t s).2 ∧
        (Animation.run (.update dt :: calls) t s).1.tail =
          (Animation.run (.update 0 :: calls) t s).1.tail := by
  obtain ⟨htick, hsame⟩ :
    (t.update dt s).1.Agrees (t.update 0 s).1 ∧ (t.update dt s).2 = (t.update 0 s).2 :=
      h.calm hscript dt 0 s hdt timeless_zero
  refine ⟨hsame, htick, h.clocks_update hscript dt, fun calls => ?_⟩
  have hrun : ∀ x : Float32, Animation.run (.update x :: calls) t s =
      (some (t.update x s).1 :: (Animation.run calls (t.update x s).2.1 (t.update x s).2.2).1,
        (Animation.run calls (t.update x s).2.1 (t.update x s).2.2).2) := fun _ => rfl
  rw [hrun, hrun, hsame]
  exact ⟨rfl, rfl⟩

/-- A negative tick of a timeline at play whose first step takes no time: the second step is
reached, and would be reached by a tick of 0 as well. -/
theorem timeless_tick_fades :
    ∃ (script : Script (Embedded (Stage Unit) Wait)) (t : Timeline Unit Wait) (s : Stage Unit),
      script.Configures ∧ Reaches (build script (.empty, ())).1 (build script (.empty, ())).2 t s ∧
      t.state = .running ∧ t.currentGroup = 0 ∧ (t.update (-16) s).2.1.currentGroup = 1 ∧
      ((-16 : Float32).isNaN = true ∨ (-16 : Float32) ≤ 0) ∧
      (t.update (-16) s).2 = (t.update 0 s).2 ∧ (t.update (-16) s).1.Agrees (t.update 0 s).1 ∧
      List.Forall₂ (List.Forall₂ (· ≤ ·)) t.clocks (t.update (-16) s).2.1.clocks := by
  let script : Script (Embedded (Stage Unit) Wait) :=
    ⟨{ steps := [.configure (.set .empty .opacity { target := .value 0 }),
        .nested .none [.configure (.set .empty .opacity
          { target := .value 1, duration := some 300 })]] }, { defaultDuration := 0 }, _, rfl⟩
  have hscript : script.Configures := by
    intro step hstep
    obtain rfl | rfl : step = _ ∨ step = _ := by
      simpa [script, Spec.flatten, Step.flattenAll, Step.flatten] using hstep
    · exact ⟨_, rfl⟩
    · exact ⟨_, rfl⟩
  let built := build script (.empty, ())
  let played := (Animation.run [.start] built.1 built.2).2
  have hreaches : Reaches built.1 built.2 played.1 played.2 := .call .start .refl
  have hdt : (-16 : Float32).isNaN = true ∨ (-16 : Float32) ≤ 0 := by decide +kernel
  obtain ⟨hsame, htick, hclocks, -⟩ := timeless_tick script (.empty, ()) hscript hreaches hdt
  exact ⟨script, played.1, played.2, hscript, hreaches, by decide +kernel, by decide +kernel,
    by decide +kernel, hdt, hsame, htick, hclocks⟩

end Timeline

end Storyboard
