import Storyboard.Animation.Wait
import Storyboard.Proofs.Compile.Recurrence
import Storyboard.Proofs.Numeric.Arithmetic
import Storyboard.Proofs.Playback.Groups

/-! # Drivers stay aligned with the committed values

Between two groups all drivers of a timeline stand at one count, the number of values that
have been committed. In a group each of them is still there, or on the way to the next
count, or has landed on it. Nothing that can be called changes that.
-/

namespace Storyboard

variable {H α : Type} [Animation α (Stage H)]

/-! ## One lane -/

/-- Where a lane has led its driver from a count. -/
inductive Lane.Stands (n : ℕ) (x : Float32) : Lane Timing → Prop
  | waiting {t : Timing} (phase : t.phase = .idle) (departure : t.departure = none)
      (elapsed : t.elapsed = 0) (position : x = ofCount n) : Stands n x ⟨t, false⟩
  | moving {t : Timing} (phase : t.phase ≠ .done) (departure : t.departure = some (ofCount n))
      (elapsed : 0 ≤ t.elapsed)
      (position : x = ofCount n ∨ (t.elapsed < t.duration ∧ x = t.positionAt t.elapsed)) :
      Stands n x ⟨t, false⟩
  | landed {t : Timing} (phase : t.phase = .done) (position : x = t.goal) : Stands n x ⟨t, true⟩

namespace Lane

variable {n : ℕ} {x : Float32} {lane : Lane Timing}

theorem Waits.stands (h : lane.Waits) (hx : x = ofCount n) : lane.Stands n x := by
  obtain ⟨t, finished⟩ := lane
  obtain ⟨rfl, hphase, hdeparture, helapsed⟩ := h
  exact .waiting hphase hdeparture helapsed hx

theorem Stands.started (h : lane.Stands n x) : (lane.started x).Stands n x := by
  cases h with
  | @waiting t phase departure elapsed position =>
      rw [started_of_running x (by rw [phase]; nofun), departure]
      exact .moving nofun (congrArg some position)
        (elapsed ▸ (zero_le_iff 0).mpr (.inr ⟨rfl, le_rfl⟩)) (.inl position)
  | @moving t phase departure elapsed position =>
      rw [started_of_running x phase, departure]
      refine .moving nofun rfl elapsed (position.imp_right fun h => ⟨h.1, h.2.trans ?_⟩)
      simp [Timing.positionAt, departure]
  | landed phase position => exact .landed phase position

theorem Stands.stopped (h : lane.Stands n x) : lane.stopped.Stands n x := by
  cases h with
  | waiting phase departure elapsed position =>
      unfold Lane.stopped
      rw [if_neg (by rw [phase]; nofun)]
      exact .waiting phase departure elapsed position
  | moving phase departure elapsed position =>
      unfold Lane.stopped
      split
      · exact .moving nofun departure elapsed position
      · exact .moving phase departure elapsed position
  | landed phase position =>
      unfold Lane.stopped
      rw [if_neg (by rw [phase]; nofun)]
      exact .landed phase position

/-- A tick keeps a driver where it may be. Times may be infinite or undefined. -/
theorem Stands.ticked (h : lane.Stands n x) (hfinite : lane.child.duration.isFinite)
    (dt : Float32) : (lane.ticked dt).Stands n (lane.place dt x) := by
  cases h with
  | @waiting t phase departure elapsed position =>
      obtain ⟨htick, hplace⟩ := ticked_of_idle x dt phase
      rw [htick, hplace]
      exact .waiting phase departure elapsed position
  | @moving t phase departure elapsed position =>
      cases hphase : t.phase with
      | idle =>
          obtain ⟨htick, hplace⟩ := ticked_of_idle x dt hphase
          rw [htick, hplace]
          exact .moving phase departure elapsed position
      | running =>
          by_cases hexpires : t.Expires dt
          · obtain ⟨htick, hplace, -⟩ := ticked_of_expires x hphase hexpires
            rw [htick, hplace]
            exact .landed rfl rfl
          · obtain ⟨htick, hplace, -⟩ := ticked_of_not_expires x hphase hexpires
            -- a sum of times may overflow, but it is never less than 0 and never undefined
            have helapse : 0 ≤ t.elapse dt := zero_le_add elapsed (zero_le_maxNumber dt)
            rw [htick, hplace]
            refine .moving phase departure helapse (.inr ⟨?_, rfl⟩)
            exact lt_of_not_le hfinite helapse fun hle => hexpires (.inr hle)
      | done => exact absurd hphase phase
  | landed phase position => exact .landed phase position

theorem Stands.of_finished (h : lane.Stands n x) (hfinished : lane.finished) :
    x = lane.child.goal := by
  cases h with
  | waiting => cases hfinished
  | moving => cases hfinished
  | landed phase position => exact position

end Lane

/-- Where a driver may stand while its move leads it from a count to the next one: at
either, or where the move has led it by now. -/
def Timing.Between (t : Timing) (n : ℕ) (x : Float32) : Prop :=
  x = ofCount n ∨ (x = ofCount (n + 1) ∧ t.phase = .done) ∨
    (0 ≤ t.elapsed ∧ t.elapsed < t.duration ∧
      x = ofCount n + (ofCount (n + 1) - ofCount n) * t.easing.apply (t.elapsed / t.duration))

theorem Lane.Stands.between {n : ℕ} {x : Float32} {lane : Lane Timing} (h : lane.Stands n x)
    (hgoal : lane.child.goal = ofCount (n + 1)) : lane.child.Between n x := by
  cases h with
  | waiting phase departure elapsed position => exact .inl position
  | @moving t phase departure elapsed position =>
      rcases position with hx | ⟨hlt, hx⟩
      · exact .inl hx
      · refine .inr (.inr ⟨elapsed, hlt, hx.trans ?_⟩)
        change t.goal = _ at hgoal
        simp only [Timing.positionAt, departure, Option.getD_some, lerp, hgoal]
  | landed phase position => exact .inr (.inl ⟨position.trans hgoal, phase⟩)

/-! ## One group -/

section Group

variable (script : Script (Embedded (Stage H) α)) (own : PropertyMap Driver)

/-- The group plays, and has led the drivers from where its step begins. -/
inductive Group.Here (i : ℕ) : Group α → Stage H → Prop
  | advance {advances : PropertyMap Advance} {lane : Property → Lane Timing} {s : Stage H}
      (running : Bool) (step : script.plan.steps[i]? = some (.advance advances))
      (follows : ∀ p, (lane p).child.Follows (own.get p) (advances.get p))
      (has : ∀ p, s.1.Has (own.get p))
      (stands : ∀ p, (lane p).Stands (script.level i) (s.1.get (own.get p))) :
      Here i (.advance (.ofLanes lane running)) s
  | embed {e : Embedded (Stage H) α} {a : α} {s : Stage H}
      (step : script.plan.steps[i]? = some (.embed e)) (detached : Detached own H a)
      (rests : Rests own (script.level i) s) : Here i (.embed a) s

variable {script own} {i : ℕ} {g : Group α} {s : Stage H}

namespace Group

theorem Here.past (h : Here script own i g s) : Past script.plan.steps own i g := by
  cases h with
  | advance running step follows has stands =>
      exact ⟨_, step, .advance running follows fun _ => trivial⟩
  | embed step detached rests => exact ⟨_, step, .embed _ detached⟩

theorem Here.keeps (h : Here script own i g s) {s' : Stage H} (hkeeps : Keeps own s s') :
    Here script own i g s' := by
  cases h with
  | advance running step follows has stands =>
      refine .advance running step follows (fun p => (hkeeps p (has p)).1) fun p => ?_
      rw [(hkeeps p (has p)).2]
      exact stands p
  | embed step detached rests => exact .embed step detached (rests.keeps hkeeps)

/-- A group that has been reached but not started. -/
theorem BuiltFor.here (h : Fresh script.plan.steps own i g) (hs : Rests own (script.level i) s) :
    Here script own i g s := by
  obtain ⟨step, hstep, hcarries⟩ := h
  cases hcarries with
  | advance running follows waits =>
      exact .advance running hstep follows (fun p => (hs p).1) fun p => (waits p).stands (hs p).2
  | embed e detached => exact .embed hstep detached hs

theorem Here.start (h : Here script own i g s) :
    Here script own i (Animation.start g s).1 (Animation.start g s).2 := by
  cases h with
  | advance running step follows has stands =>
      rw [start_moves]
      refine .advance true step (fun p => Lane.follows_started (follows p) _) has fun p => ?_
      rw [(follows p).driver]
      exact (stands p).started
  | embed step detached rests =>
      exact .embed step (detached.call .start s) (rests.keeps (detached.keeps .start s))

theorem Here.stop (h : Here script own i g s) :
    Here script own i (Animation.stop g s).1 (Animation.stop g s).2 := by
  cases h with
  | advance running step follows has stands =>
      rw [stop_moves]
      exact .advance false step (fun p => Lane.follows_stopped (follows p)) has
        fun p => (stands p).stopped
  | embed step detached rests =>
      exact .embed step (detached.call .stop s) (rests.keeps (detached.keeps .stop s))

/-- What a tick leaves behind: the group where it may be and, if it is over, the drivers
where the next step begins. -/
theorem Here.update (hown : Function.Injective own.get) (h : Here script own i g s)
    (dt : Float32) :
    Here script own i (Animation.update dt g s).2.1 (Animation.update dt g s).2.2 ∧
      ((Animation.update dt g s).1.isFinished →
        Rests own (script.level (i + 1)) (Animation.update dt g s).2.2) := by
  cases h with
  | @advance advances lane _ running step follows has stands =>
      cases running with
      | false =>
          rw [update_moves_halted]
          exact ⟨.advance false step follows has stands, nofun⟩
      | true =>
          obtain ⟨configuring, hconfiguring, hspec⟩ := script.advance_spec step
          have hduration : ∀ p, (lane p).child.duration.isFinite := by
            intro p
            rw [(follows p).duration]
            exact isFinite_of_isDuration (hspec p).2.2.2
          have hmove := move_own hown follows has dt
          have hhas := fun p => (hmove p).1
          have hstands : ∀ p, ((lane p).ticked dt).Stands (script.level i)
              ((Parallel.move dt lane s.1).get (own.get p)) := by
            intro p
            rw [(hmove p).2]
            exact (stands p).ticked (hduration p) dt
          obtain ⟨running, hupdate, hrunning⟩ := update_moves α lane s dt
          rw [hupdate]
          refine ⟨.advance running step (fun p => Lane.follows_ticked (follows p) dt) hhas hstands,
            fun hfinished p => ⟨hhas p, ?_⟩⟩
          -- all lanes are over, and so each driver has landed on the next count
          have hall : running = false := by
            cases running with
            | false => rfl
            | true => cases hfinished
          have hgoal := (hstands p).of_finished (hrunning.mp hall p)
          rw [(Lane.follows_ticked (follows p) dt).goal, (hspec p).1] at hgoal
          rw [script.level_succ_of_configure hconfiguring]
          exact hgoal
  | embed step detached rests =>
      have hrests := rests.keeps (detached.keeps (.update dt) s)
      refine ⟨.embed step (detached.call (.update dt) s) hrests, fun _ => ?_⟩
      rw [script.level_succ_of_embed (script.embed_spec step)]
      exact hrests

end Group

end Group

/-! ## Embedded animations -/

/-- Waiting leaves every driver in place. -/
theorem detached_wait (own : PropertyMap Driver) (a : Wait) : Detached own H a := by
  intro b _ c s p hp
  cases c <;> exact ⟨hp, rfl⟩

/-- A timed move leaves all drivers but its own in place. -/
theorem detached_timing {own : PropertyMap Driver} {t : Timing}
    (h : ∀ p, own.get p ≠ t.driver) : Detached own H t := by
  intro b hb c s p hp
  have hdriver : b.driver = t.driver := by
    induction hb with
    | refl => rfl
    | call c s _ ih => exact (Timing.driver_perform c _ s).trans ih
  obtain ⟨change, place, hmoves, hperform⟩ := b.exists_moves_perform (H := H) c
  rw [hperform]
  exact ⟨(hmoves.has s.1 _).mpr hp, hmoves.other s.1 _ (hdriver ▸ h p)⟩

namespace Embedded

/-- A timed move of a driver that is added for it. -/
def ofMove (goal duration : Float32) (easing : Easing) : Embedded (Stage H) Timing where
  build s :=
    let (driver, bank) := s.1.add 0
    ({ driver, goal, duration, easing }, bank, s.2)

/-- It keeps off all drivers that are there. -/
theorem secluded_ofMove {own : PropertyMap Driver} {goal duration : Float32} {easing : Easing}
    {s : Stage H} (hs : ∀ p, s.1.Has (own.get p)) :
    Keeps own s ((ofMove goal duration easing).build s).2 ∧
      Detached own H ((ofMove goal duration easing).build s).1 := by
  have hnew : ∀ p, own.get p ≠ (s.1.add 0).1 := by
    intro p hp
    exact DriverBank.not_has_add s.1 0 (hp ▸ hs p)
  refine ⟨fun p hp => ⟨?_, DriverBank.get_add_of_has hp 0⟩, detached_timing hnew⟩
  exact Nat.lt_of_lt_of_eq (Nat.lt_succ_of_lt hp) (Array.size_push 0).symm

end Embedded

/-! ## The timeline -/

namespace Timeline

/-- What holds of a timeline and its stage between any two calls. -/
structure Plays (t : Timeline H α) (s : Stage H) : Prop where
  distinct : Function.Injective t.drivers.get
  line : Line (Group.Past t.script.plan.steps t.drivers) (Group.Fresh t.script.plan.steps t.drivers)
    (Group.Here t.script t.drivers) (fun i s => Rests t.drivers (t.script.level i) s) 0
    t.sequence.cursor t.sequence.children s
  length : t.sequence.length = t.script.plan.steps.length
  running : t.state = .running → t.sequence.running = true
  completed : t.state = .completed → t.sequence.cursor = t.sequence.length

namespace Plays

variable {t : Timeline H α} {s : Stage H}

theorem has (h : t.Plays s) (p : Property) : s.1.Has (t.drivers.get p) := by
  rcases h.line.cases_drop with ⟨-, -, hrests⟩ | ⟨g, rest, -, -, -, hhere, -⟩
  · exact (hrests p).1
  · cases hhere with
    | advance running step follows has stands => exact has p
    | embed step detached rests => exact (rests p).1

theorem along (h : t.Plays s) :
    Along (Group.Past t.script.plan.steps t.drivers) 0 t.sequence.children :=
  h.line.along (fun _ _ h => h) (fun _ _ h => h.past) fun _ _ _ h => h.past

theorem keeps (h : t.Plays s) {s' : Stage H} (hkeeps : Keeps t.drivers s s') : t.Plays s' :=
  { h with line := h.line.change (fun _ _ h => h.keeps hkeeps) fun _ h => h.keeps hkeeps }

/-- A reset brings back all drivers and groups. -/
theorem fresh_reset (h : t.Plays s) :
    Along (Group.Fresh t.script.plan.steps t.drivers) 0 (t.reset s).1.sequence.children ∧
      Rests t.drivers 0 (t.reset s).2 := by
  have hkept : ∀ i (g : Group α) (s : Stage H), Group.Past t.script.plan.steps t.drivers i g →
      Rests t.drivers 0 s → Group.Fresh t.script.plan.steps t.drivers i (Animation.reset g s).1 ∧
        Rests t.drivers 0 (Animation.reset g s).2 := by
    intro i g s hg hs
    obtain ⟨hfresh, hkeeps⟩ := Group.fresh_reset hg s
    exact ⟨hfresh, hs.keeps hkeeps⟩
  exact h.along.visitAll hkept (rests_foldl_set h.distinct h.has)

theorem reset (h : t.Plays s) : (t.reset s).1.Plays (t.reset s).2 := by
  obtain ⟨hfresh, hrests⟩ := h.fresh_reset
  have hlevel := t.script.level_zero
  exact {
    distinct := h.distinct
    line := .ofAlong hfresh (fun g hg => hg.here (hlevel ▸ hrests)) (hlevel ▸ hrests)
    length := (length_visitAll _ _ _).trans h.length
    running := nofun
    completed := nofun }

/-- The group that plays is started, with the timeline in any state. -/
theorem resume (h : t.Plays s) :
    Plays { t with sequence := (Animation.start t.sequence s).1, state := .running }
      (Animation.start t.sequence s).2 where
  distinct := h.distinct
  line := h.line.visitAt (fun _ _ h => h.start) fun _ h => h
  length := (length_visitAt _ _ _ _).trans h.length
  running _ := rfl
  completed := nofun

theorem start (h : t.Plays s) : (t.start s).1.Plays (t.start s).2 := by
  by_cases hstate : t.state = .completed
  · simp only [Timeline.start, if_pos hstate]
    exact h.reset.resume
  · simp only [Timeline.start, if_neg hstate]
    exact h.resume

theorem stop (h : t.Plays s) : (t.stop s).1.Plays (t.stop s).2 := by
  unfold Timeline.stop
  split
  · exact {
      distinct := h.distinct
      line := h.line.visitAt (fun _ _ h => h.stop) fun _ h => h
      length := (length_visitAt _ _ _ _).trans h.length
      running := nofun
      completed := nofun }
  · exact h

theorem relay (h : t.Plays s) :
    Relay (Group.Past t.script.plan.steps t.drivers) (Group.Fresh t.script.plan.steps t.drivers)
      (Group.Here t.script t.drivers) (fun i s => Rests t.drivers (t.script.level i) s)
      (fun i _ g s => Group.Here t.script t.drivers i g s)
      (fun i _ s => Rests t.drivers (t.script.level i) s) where
  finish hready htick :=
    let ⟨hhere, hrests⟩ := hready.update h.distinct _
    ⟨hhere.past, hrests (htick ▸ rfl)⟩
  go hready _ := (hready.update h.distinct _).1
  start hfresh hrests := (hfresh.here hrests).start
  ended hrests := hrests

theorem update (h : t.Plays s) (dt : Float32) :
    (t.update dt s).2.1.Plays (t.update dt s).2.2 := by
  by_cases hstate : t.state = .running
  · have hrunning := h.running hstate
    rw [update_of_running hstate]
    rcases Nat.lt_or_eq_of_le h.line.le_length with hcursor | hcursor
    · obtain ⟨hline, hlength, hgoes, hends⟩ := h.relay.update dt h.line
        (fun _ _ h => h) hrunning hcursor
      refine ⟨h.distinct, hline, hlength.trans h.length, fun hstate => hgoes.trans ?_,
        fun hstate => ?_⟩
      · dsimp only at hstate
        split at hstate
        · cases hstate
        · next hfinished => simpa using hfinished
      · rcases hends with ⟨leftover, htick, hpassed, -⟩ | ⟨htick, -⟩
        · exact hpassed.trans hlength.symm
        · dsimp only at hstate
          rw [htick] at hstate
          cases hstate
    · rw [Sequence.update_of_complete hrunning hcursor]
      exact ⟨h.distinct, h.line, h.length, nofun, fun _ => hcursor⟩
  · unfold Timeline.update
    split
    · exact h
    · exact h
    · next hrunning => exact absurd hrunning hstate

theorem perform (h : t.Plays s) (c : Call) :
    (Animation.perform c t s).2.1.Plays (Animation.perform c t s).2.2 := by
  cases c with
  | start => exact h.start
  | update dt => exact h.update dt
  | stop => exact h.stop
  | reset => exact h.reset

end Plays

/-- A timeline has just been built. -/
theorem plays_build (script : Script (Embedded (Stage H) α)) (s : Stage H)
    (h : Secluded (build script s).1.drivers script.plan.steps) :
    (build script s).1.Plays (build script s).2 := by
  obtain ⟨hfresh, hrests, hlength⟩ :=
    fresh_buildGroups (List.drop_zero (l := script.plan.steps)) h (rests_addDrivers s.1 s.2)
  have hlevel := script.level_zero
  exact {
    distinct := injective_addDrivers s.1
    line := .ofAlong hfresh (fun g hg => hg.here (hlevel ▸ hrests)) (hlevel ▸ hrests)
    length := hlength
    running := nofun
    completed := nofun }

/-- What calls to a timeline lead to, while between them the host does what it likes to
everything but the drivers of the timeline. -/
inductive Reaches (t₀ : Timeline H α) (s₀ : Stage H) : Timeline H α → Stage H → Prop
  | refl : Reaches t₀ s₀ t₀ s₀
  | call {t : Timeline H α} {s : Stage H} (c : Call) : Reaches t₀ s₀ t s →
      Reaches t₀ s₀ (Animation.perform c t s).2.1 (Animation.perform c t s).2.2
  | host {t : Timeline H α} {s s' : Stage H} : Keeps t₀.drivers s s' → Reaches t₀ s₀ t s →
      Reaches t₀ s₀ t s'

theorem Reaches.plays {t₀ t : Timeline H α} {s₀ s : Stage H} (h : Reaches t₀ s₀ t s)
    (hplays : t₀.Plays s₀) :
    t.Plays s ∧ t.script = t₀.script ∧ t.drivers = t₀.drivers := by
  induction h with
  | refl => exact ⟨hplays, rfl, rfl⟩
  | @call t s c _ ih =>
      obtain ⟨hplays, hscript, hdrivers⟩ := ih
      obtain ⟨hscript', hdrivers'⟩ := perform_fixes t s c
      exact ⟨hplays.perform c, hscript'.trans hscript, hdrivers'.trans hdrivers⟩
  | host hkeeps _ ih =>
      obtain ⟨hplays, hscript, hdrivers⟩ := ih
      exact ⟨hplays.keeps (hdrivers ▸ hkeeps), hscript, hdrivers⟩

/-- The drivers of a timeline are aligned with the values it has committed. -/
structure Aligned (t : Timeline H α) (s : Stage H) : Prop where
  /-- There is one group for each step. -/
  groups : t.currentGroup ≤ t.groupCount ∧ t.groupCount = t.script.spec.flatten.length
  /-- Between configuring steps all drivers stand at one count. -/
  rest : (t.currentGroup = t.groupCount ∨
      ∃ e, t.script.spec.flatten[t.currentGroup]? = some (.embed e)) →
    ∀ p, s.1.get (t.drivers.get p) = ofCount (t.script.level t.currentGroup)
  /-- In a configuring step each driver has a move of its own. -/
  move : ∀ step, t.script.spec.flatten[t.currentGroup]? = some (.configure step) →
    ∃ moves, t.sequence.children[t.currentGroup]? = some (.advance moves) ∧
      ∀ p, ∃ lane, moves.lanes[p.index]? = some lane ∧
        lane.child.driver = t.drivers.get p ∧
        lane.child.duration = step.durationOf t.script.config p ∧
        lane.child.easing = step.easingOf p ∧
        lane.child.Between (t.script.level t.currentGroup) (s.1.get (t.drivers.get p))
  /-- A timeline is completed with all groups over and all drivers at the last values. -/
  completed : t.state = .completed →
    t.currentGroup = t.groupCount ∧
      ∀ p, s.1.get (t.drivers.get p) = ofCount t.outputs.lastIndex

theorem Plays.aligned {t : Timeline H α} {s : Stage H} (h : t.Plays s) : t.Aligned s where
  groups := ⟨h.line.le_length, h.length.trans t.script.length_steps⟩
  rest hrest p := by
    rcases h.line.cases_drop with ⟨-, -, hover⟩ | ⟨g, rest, hlt, hdrop, -, hhere, -⟩
    · rw [Nat.zero_add] at hover
      exact (hover p).2
    · rw [Nat.zero_add] at hhere
      cases hhere with
      | advance running step follows has stands =>
          obtain ⟨configuring, hconfiguring, -⟩ := t.script.advance_spec step
          rcases hrest with hend | ⟨e, he⟩
          · exact absurd hlt (Nat.not_lt_of_le hend.ge)
          · cases hconfiguring.symm.trans he
      | embed step detached rests => exact (rests p).2
  move step hstep := by
    rcases h.line.cases_drop with ⟨hend, -, -⟩ | ⟨g, rest, hlt, hdrop, -, hhere, -⟩
    · have hlength : t.script.spec.flatten.length ≤ t.currentGroup := by
        rw [← t.script.length_steps, ← h.length]
        exact hend.ge
      rw [List.getElem?_eq_none hlength] at hstep
      cases hstep
    · have hg : t.sequence.children[t.sequence.cursor]? = some g := by
        rw [← List.head?_drop, hdrop]
        rfl
      rw [Nat.zero_add] at hhere
      cases hhere with
      | @advance advances lane _ running hadvance follows has stands =>
          obtain ⟨configuring, hconfiguring, hspec⟩ := t.script.advance_spec hadvance
          cases hconfiguring.symm.trans hstep
          refine ⟨_, hg, fun p => ⟨lane p, ?_, (follows p).driver, ?_, ?_, ?_⟩⟩
          · change (Property.all.map lane)[p.index]? = _
            rw [List.getElem?_map, p.getElem?_all_index]
            rfl
          · exact (follows p).duration.trans (hspec p).2.1
          · exact (follows p).easing.trans (hspec p).2.2.1
          · refine (stands p).between ((follows p).goal.trans ?_)
            rw [(hspec p).1]
      | embed hembed detached rests => cases hstep.symm.trans (t.script.embed_spec hembed)
  completed hstate := by
    have hend : t.sequence.cursor = t.sequence.children.length := h.completed hstate
    have hline := h.line
    rw [hend] at hline
    have hover := hline.ended_of_length
    rw [Nat.zero_add] at hover
    have hlevel : t.script.level t.sequence.children.length = t.outputs.lastIndex := by
      rw [show t.sequence.children.length = _ from h.length]
      exact t.script.level_length
    exact ⟨hend, fun p => hlevel ▸ (hover p).2⟩

/-- In every state that calls can lead to, the drivers are aligned with the committed
values, if no one else moves them. -/
theorem aligned_of_reaches (script : Script (Embedded (Stage H) α)) (s₀ : Stage H)
    (hsecluded : Secluded (build script s₀).1.drivers script.plan.steps)
    {t : Timeline H α} {s : Stage H}
    (h : Reaches (build script s₀).1 (build script s₀).2 t s) : t.Aligned s :=
  (h.plays (plays_build script s₀ hsecluded)).1.aligned

/-- A timeline that fades, makes a move of its own and then slides, half way through the slide
after a pause in the move, and at its end. -/
theorem aligned_of_reaches_sliding :
    ∃ (script : Script (Embedded (Stage Unit) Timing)) (t t' : Timeline Unit Timing)
      (s s' : Stage Unit),
      script.spec.flatten = [.configure (.set .empty .opacity { target := .value 0 }),
        .embed (.ofMove 1 (ofCount 100) .linear),
        .configure (.set .empty .translateX { target := .value 1 })] ∧
      Secluded (build script (.empty, ())).1.drivers script.plan.steps ∧
      Reaches (build script (.empty, ())).1 (build script (.empty, ())).2 t s ∧
      t.state = .running ∧ t.currentGroup = 2 ∧ t.Aligned s ∧
      Reaches (build script (.empty, ())).1 (build script (.empty, ())).2 t' s' ∧
      t'.state = .completed ∧ t'.Aligned s' := by
  let script : Script (Embedded (Stage Unit) Timing) :=
    ⟨{ steps := [.configure (.set .empty .opacity { target := .value 0 }),
        .embed (.ofMove 1 (ofCount 100) .linear),
        .configure (.set .empty .translateX { target := .value 1 })] }, {}, _, rfl⟩
  have hsecluded : Secluded (build script (.empty, ())).1.drivers script.plan.steps := by
    refine secluded_of_flatten fun e he s hs => ?_
    obtain rfl : e = .ofMove 1 (ofCount 100) .linear := by
      simpa [script, Spec.flatten, Step.flattenAll, Step.flatten] using he
    exact Embedded.secluded_ofMove hs
  have hslides : Reaches (build script (.empty, ())).1 (build script (.empty, ())).2 _ _ :=
    .call (.update (ofCount 200)) (.call .start (.call .stop
      (.call (.update (ofCount 350)) (.call .start .refl))))
  have hends := hslides.call (.update (ofCount 1000))
  exact ⟨script, _, _, _, _, rfl, hsecluded, hslides, by decide +kernel, by decide +kernel,
    aligned_of_reaches script (.empty, ()) hsecluded hslides, hends, by decide +kernel,
    aligned_of_reaches script (.empty, ()) hsecluded hends⟩

end Timeline

end Storyboard
