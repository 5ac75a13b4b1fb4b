import Storyboard.Animation.Wait
import Storyboard.Proofs.Compile.Recurrence
import Storyboard.Proofs.Numeric.Counts
import Storyboard.Proofs.Playback.Groups

/-! # The schedule of a timeline

A timeline without embedded animations whose durations and ticks are whole numbers keeps to
a schedule: where it stands depends on the time that has passed since the start, and not on
how that time was cut into ticks. All sums of times stay below `2 ^ 24`, where they are exact.
-/

namespace Storyboard

/-! ## Times -/

/-- The longest of the durations of a group. -/
def longest (duration : Property → ℕ) : ℕ :=
  (Property.all.map duration).foldr max 0

theorem le_longest (duration : Property → ℕ) (p : Property) : duration p ≤ longest duration :=
  List.le_max_of_le (List.mem_map_of_mem (Property.mem_all p)) le_rfl

theorem exists_eq_foldr_max {ι : Type} (f : ι → ℕ) (i : ι) (l : List ι) :
    ∃ j, f j = ((i :: l).map f).foldr max 0 := by
  induction l generalizing i with
  | nil => exact ⟨i, (Nat.max_zero _).symm⟩
  | cons k l ih =>
      obtain ⟨j, hj⟩ := ih k
      rw [List.map_cons, List.foldr_cons, ← hj]
      rcases le_total (f i) (f j) with h | h
      · exact ⟨j, (max_eq_right h).symm⟩
      · exact ⟨i, (max_eq_left h).symm⟩

theorem exists_eq_longest (duration : Property → ℕ) : ∃ p, duration p = longest duration :=
  exists_eq_foldr_max duration _ _

/-- When the groups of a timeline begin. -/
def beginning (duration : ℕ → Property → ℕ) : ℕ → ℕ
  | 0 => 0
  | i + 1 => beginning duration i + longest (duration i)

theorem beginning_mono (duration : ℕ → Property → ℕ) {i j : ℕ} (h : i ≤ j) :
    beginning duration i ≤ beginning duration j := by
  induction h with
  | refl => exact le_rfl
  | step _ ih => exact ih.trans (Nat.le_add_right _ _)

/-! ## One lane -/

namespace Timing

variable {t : Timing} {d e m : ℕ} {dt : Float32}

theorem elapse_eq (helapsed : t.elapsed = ofCount e) (hdt : IsWhole dt m) (h : e + m < 2 ^ 24) :
    t.elapse dt = ofCount (e + m) := by
  unfold elapse
  rw [helapsed, hdt.maxNumber_zero (by omega), ofCount_add h.le]

theorem expires_iff (hduration : IsWhole t.duration d) (helapsed : t.elapsed = ofCount e)
    (hdt : IsWhole dt m) (h : e + m < 2 ^ 24) : t.Expires dt ↔ d ≤ e + m := by
  unfold Expires
  rw [elapse_eq helapsed hdt h, hduration.le_iff .zero, hduration.le_iff (ofCount_isWhole h.le)]
  omega

theorem surplus_eq (hduration : IsWhole t.duration d) (helapsed : t.elapsed = ofCount e)
    (hdt : IsWhole dt m) (h : e + m < 2 ^ 24) (hd : d ≤ e + m) :
    t.surplus dt = ofCount (e + m - d) := by
  unfold surplus
  rw [elapse_eq helapsed hdt h, hduration.maxNumber_zero (by omega), ofCount_sub hd h.le,
    (ofCount_isWhole (by omega)).maxNumber_zero (by omega)]

end Timing

namespace Lane

/-- The lane has been at play for so long, from count `n` on. -/
inductive Due (n d e : ℕ) (x : Float32) : Lane Timing → Prop
  | moving {t : Timing} (phase : t.phase = .running) (departure : t.departure = some (ofCount n))
      (elapsed : t.elapsed = ofCount e) : Due n d e x ⟨t, false⟩
  | landed {t : Timing} (time : d ≤ e) (position : x = t.goal) : Due n d e x ⟨t, true⟩

/-- The lane has been at play for so long, and the driver shows it. -/
structure Shown (n d e : ℕ) (x : Float32) (lane : Lane Timing) : Prop where
  due : lane.Due n d e x
  position : lane.finished = false → e < d ∧ x = lane.child.positionAt (ofCount e)

variable {n d e m : ℕ} {x dt : Float32} {lane : Lane Timing}

/-- A tick adds its time. -/
theorem Due.ticked (h : lane.Due n d e x) (hduration : IsWhole lane.child.duration d)
    (hdt : IsWhole dt m) (hlt : e + m < 2 ^ 24) :
    (lane.ticked dt).Shown n d (e + m) (lane.place dt x) ∧
      lane.surplus? dt =
        if lane.finished = false ∧ d ≤ e + m then some (ofCount (e + m - d)) else none := by
  cases h with
  | @moving t phase departure elapsed =>
      have hexpires := Timing.expires_iff hduration elapsed hdt hlt
      by_cases hd : d ≤ e + m
      · obtain ⟨htick, hplace, hsurplus⟩ := ticked_of_expires x phase (hexpires.mpr hd)
        rw [htick, hplace, hsurplus, if_pos ⟨rfl, hd⟩,
          Timing.surplus_eq hduration elapsed hdt hlt hd]
        exact ⟨⟨.landed hd rfl, nofun⟩, rfl⟩
      · obtain ⟨htick, hplace, hsurplus⟩ :=
          ticked_of_not_expires x phase (mt hexpires.mp hd)
        rw [htick, hplace, hsurplus, if_neg fun h => hd h.2, Timing.elapse_eq elapsed hdt hlt]
        exact ⟨⟨.moving phase departure rfl, fun _ => ⟨Nat.lt_of_not_le hd, rfl⟩⟩, rfl⟩
  | @landed t time position =>
      exact ⟨⟨.landed (by omega) position, nofun⟩, rfl⟩

theorem Due.of_finished (h : lane.Due n d e x) (hfinished : lane.finished = true) :
    d ≤ e ∧ x = lane.child.goal := by
  cases h with
  | moving => cases hfinished
  | landed time position => exact ⟨time, position⟩

/-- The position at which a driver is shown. -/
theorem Shown.eq_position (h : lane.Shown n d e x) (hgoal : lane.child.goal = ofCount (n + 1))
    (hn : n + 1 ≤ 2 ^ 24) :
    x = if d ≤ e then ofCount (n + 1)
        else ofCount n + lane.child.easing.apply (ofCount e / lane.child.duration) := by
  obtain ⟨due, position⟩ := h
  cases due with
  | @moving t phase departure elapsed =>
      obtain ⟨hlt, hx⟩ := position rfl
      rw [if_neg (Nat.not_le_of_lt hlt), hx]
      change t.goal = _ at hgoal
      simp only [Timing.positionAt, departure, Option.getD_some, hgoal]
      exact lerp_ofCount hn _
  | landed time hx =>
      rw [if_pos time, hx]
      exact hgoal

theorem Waits.due (h : lane.Waits) (hx : x = ofCount n) : (lane.started x).Due n d 0 x := by
  obtain ⟨t, finished⟩ := lane
  obtain ⟨rfl, hphase, hdeparture, helapsed⟩ := h
  change t.phase = .idle at hphase
  change t.departure = none at hdeparture
  rw [started_of_running _ (by rw [hphase]; nofun)]
  refine .moving rfl ?_ helapsed
  rw [hdeparture, hx]
  rfl

end Lane

/-- What the lanes leave over is what the longest one does. -/
theorem isWhole_surplus {lane : Property → Lane Timing} {d : Property → ℕ} {e m : ℕ} {dt : Float32}
    (hdt : IsWhole dt m) (hlt : e + m < 2 ^ 24)
    (hsurplus : ∀ p, (lane p).surplus? dt =
      if (lane p).finished = false ∧ d p ≤ e + m then some (ofCount (e + m - d p)) else none)
    (hrest : ∃ p, d p = longest d ∧ (lane p).finished = false) (hwithin : e ≤ longest d)
    (hover : longest d ≤ e + m) : IsWhole (Parallel.surplus dt lane) (e + m - longest d) := by
  have hwhole : ∀ p, IsWhole (ofCount (e + m - d p)) (e + m - d p) := fun p =>
    ofCount_isWhole (by omega)
  -- no lane leaves over less than the longest one, and that one is among them
  obtain ⟨least, hleast, hge, -, hall⟩ := IsWhole.foldl_minNumber
    (l := Property.all.filterMap fun p => (lane p).surplus? dt) hdt
    (show e + m - longest d ≤ m by omega) fun y hy => by
      obtain ⟨p, -, hp⟩ := List.mem_filterMap.mp hy
      rw [hsurplus p] at hp
      split at hp
      · cases hp
        exact ⟨_, hwhole p, Nat.sub_le_sub_left (le_longest d p) _⟩
      · cases hp
  obtain ⟨p, hp, hfinished⟩ := hrest
  have hmem : ofCount (e + m - d p) ∈ Property.all.filterMap fun p => (lane p).surplus? dt :=
    List.mem_filterMap.mpr ⟨p, Property.mem_all p, by
      rw [hsurplus p, if_pos ⟨hfinished, by omega⟩]⟩
  have hle := hall _ hmem _ (hwhole p)
  rw [hp] at hle
  rwa [Nat.le_antisymm hle hge] at hleast

/-! ## One group -/

/-- A script of configuring steps whose durations are whole numbers of milliseconds. -/
structure Script.Timed {ε : Type} (script : Script ε) (duration : ℕ → Property → ℕ) : Prop where
  configures : ∀ step ∈ script.spec.flatten, ∃ c, step = .configure c
  whole : ∀ (i : ℕ) (step : StepConfig), script.spec.flatten[i]? = some (.configure step) →
    ∀ p, IsWhole (step.durationOf script.config p) (duration i p)

/-- Where every step commits values, the drivers count the steps. -/
theorem Script.Timed.level_eq {ε : Type} {script : Script ε} {duration : ℕ → Property → ℕ}
    (h : script.Timed duration) {i : ℕ} (hi : i ≤ script.spec.flatten.length) :
    script.level i = i := by
  have hall : ∀ step ∈ script.spec.flatten.take i, step.config?.isSome := by
    intro step hstep
    obtain ⟨c, rfl⟩ := h.configures step (List.mem_of_mem_take hstep)
    rfl
  unfold Script.level configured
  rw [List.filterMap_length_eq_length.mpr hall, List.length_take_of_le hi]

variable {H α : Type} [Animation α (Stage H)]

namespace Group

section

variable (script : Script (Embedded (Stage H) α)) (own : PropertyMap Driver)
  (duration : ℕ → Property → ℕ) (time i : ℕ)

/-- At this time the group plays, and its longest move is not over. -/
inductive Held : Group α → Stage H → Prop
  | advance {advances : PropertyMap Advance} {lane : Property → Lane Timing} {s : Stage H} {e : ℕ}
      (step : script.plan.steps[i]? = some (.advance advances))
      (follows : ∀ p, (lane p).child.Follows (own.get p) (advances.get p))
      (has : ∀ p, s.1.Has (own.get p)) (since : beginning duration i + e = time)
      (within : e ≤ longest (duration i))
      (due : ∀ p, (lane p).Due (script.level i) (duration i p) e (s.1.get (own.get p)))
      (rest : ∃ p, duration i p = longest (duration i) ∧ (lane p).finished = false) :
      Held (.advance (.ofLanes lane true)) s

/-- At this time the group plays, and its drivers show it. -/
inductive Shown : Group α → Stage H → Prop
  | advance {advances : PropertyMap Advance} {lane : Property → Lane Timing} {s : Stage H} {e : ℕ}
      (step : script.plan.steps[i]? = some (.advance advances))
      (follows : ∀ p, (lane p).child.Follows (own.get p) (advances.get p))
      (has : ∀ p, s.1.Has (own.get p)) (since : beginning duration i + e = time)
      (within : e < longest (duration i))
      (shown : ∀ p, (lane p).Shown (script.level i) (duration i p) e (s.1.get (own.get p))) :
      Shown (.advance (.ofLanes lane true)) s

end

variable {script : Script (Embedded (Stage H) α)} {own : PropertyMap Driver}
  {duration : ℕ → Property → ℕ} {time i m : ℕ} {g : Group α} {s : Stage H} {dt : Float32}

omit [Animation α (Stage H)] in
theorem Shown.held (h : Shown script own duration time i g s) :
    Held script own duration time i g s := by
  cases h with
  | @advance advances lane _ e step follows has since within shown =>
      refine .advance step follows has since within.le (fun p => (shown p).due) ?_
      obtain ⟨p, hp⟩ := exists_eq_longest (duration i)
      refine ⟨p, hp, Bool.eq_false_iff.mpr fun hfinished => ?_⟩
      have hle := ((shown p).due.of_finished hfinished).1
      omega

/-- A group that is reached is started at once. -/
theorem BuiltFor.held (hscript : script.Timed duration) (h : Fresh script.plan.steps own i g)
    (hs : Rests own (script.level i) s) :
    Held script own duration (beginning duration i) i (Animation.start g s).1
      (Animation.start g s).2 := by
  obtain ⟨step, hstep, hcarries⟩ := h
  cases hcarries with
  | @advance advances lane running follows waits =>
      rw [start_moves]
      refine .advance hstep (fun p => Lane.follows_started (follows p) _) (fun p => (hs p).1)
        (Nat.add_zero _) (Nat.zero_le _) (fun p => ?_) ?_
      · rw [(follows p).driver]
        exact (waits p).due (hs p).2
      · obtain ⟨p, hp⟩ := exists_eq_longest (duration i)
        refine ⟨p, hp, ?_⟩
        unfold Lane.started
        rw [if_neg (by rw [(waits p).finished]; nofun)]
        exact (waits p).finished
  | embed e detached =>
      obtain ⟨c, hc⟩ := hscript.configures _ (List.mem_of_getElem? (script.embed_spec hstep))
      cases hc

/-- A tick leads a group to a later time. If that is behind its end, the tick leaves over
what is behind it. -/
theorem Held.update (hscript : script.Timed duration) (hown : Function.Injective own.get)
    (h : Held script own duration time i g s) (hdt : IsWhole dt m) (hlt : time + m < 2 ^ 24) :
    let result := Animation.update dt g s
    (result.1.isFinished = false →
      Shown script own duration (time + m) i result.2.1 result.2.2) ∧
    ∀ leftover, result.1 = .finished leftover →
      Past script.plan.steps own i result.2.1 ∧
      Rests own (script.level (i + 1)) result.2.2 ∧
      ∃ n, IsWhole leftover n ∧ beginning duration (i + 1) + n = time + m := by
  cases h with
  | @advance advances lane _ e step follows has since within due rest =>
      obtain ⟨configuring, hconfiguring, hspec⟩ := script.advance_spec step
      have helapsed : e + m < 2 ^ 24 := by omega
      have hduration : ∀ p, IsWhole (lane p).child.duration (duration i p) := by
        intro p
        rw [(follows p).duration, (hspec p).2.1]
        exact hscript.whole i configuring hconfiguring p
      have hticked := fun p => (due p).ticked (hduration p) hdt helapsed
      have hmove := move_own hown follows has dt
      have hhas := fun p => (hmove p).1
      have hshown : ∀ p, ((lane p).ticked dt).Shown (script.level i) (duration i p) (e + m)
          ((Parallel.move dt lane s.1).get (own.get p)) := by
        intro p
        rw [(hmove p).2]
        exact (hticked p).1
      have hfollows := fun p => Lane.follows_ticked (follows p) dt
      obtain ⟨running, hupdate, hrunning⟩ := update_moves α lane s dt
      rw [hupdate]
      cases running with
      | true =>
          refine ⟨fun _ => ?_, nofun⟩
          -- a move that is not over shows that the longest one is not over either
          obtain ⟨p, hp⟩ : ∃ p, ((lane p).ticked dt).finished = false := by
            by_contra hnone
            have hall : ∀ p, ((lane p).ticked dt).finished := by simpa using hnone
            cases hrunning.mpr hall
          have hbefore := ((hshown p).position hp).1
          have hlongest := le_longest (duration i) p
          exact .advance step hfollows hhas (by omega) (by omega) hshown
      | false =>
          refine ⟨nofun, fun leftover htick => ?_⟩
          have hfinished := hrunning.mp rfl
          have hover : longest (duration i) ≤ e + m := by
            obtain ⟨p, hp⟩ := exists_eq_longest (duration i)
            exact hp ▸ ((hshown p).due.of_finished (hfinished p)).1
          refine ⟨⟨_, step, .advance false hfollows fun _ => trivial⟩, fun p => ⟨hhas p, ?_⟩, ?_⟩
          · have hgoal := ((hshown p).due.of_finished (hfinished p)).2
            rw [(hfollows p).goal, (hspec p).1] at hgoal
            rw [script.level_succ_of_configure hconfiguring]
            exact hgoal
          · cases htick
            refine ⟨_, isWhole_surplus hdt helapsed (fun p => (hticked p).2) rest within hover, ?_⟩
            rw [beginning]
            omega

end Group

/-! ## The timeline -/

namespace Timeline

/-- How a timeline gets on after a start: it plays a group, or it is over. One without
groups is over with its first tick. -/
inductive GetsOn (time : ℕ) (t : Timeline H α) : Prop
  | plays (state : t.state = .running) (running : t.sequence.running = true)
      (cursor : t.sequence.cursor < t.sequence.length)
  | ends (state : t.state = .completed) (cursor : t.sequence.cursor = t.sequence.length)
  | empty (state : t.state = .running) (running : t.sequence.running = true)
      (cursor : t.sequence.cursor = t.sequence.length) (length : t.sequence.length = 0)
      (start : time = 0)

/-- What holds of a timeline at a time after its start. Of the group that plays a little
more is known after a tick than before the first one. -/
structure OnTime (duration : ℕ → Property → ℕ) (here : ℕ → Group α → Stage H → Prop) (time : ℕ)
    (t : Timeline H α) (s : Stage H) : Prop where
  distinct : Function.Injective t.drivers.get
  line : Line (Group.Past t.script.plan.steps t.drivers) (Group.Fresh t.script.plan.steps t.drivers)
    here (fun i s => beginning duration i ≤ time ∧ Rests t.drivers (t.script.level i) s) 0
    t.sequence.cursor t.sequence.children s
  length : t.sequence.length = t.script.plan.steps.length
  getsOn : GetsOn time t

/-- The timeline is on time and can be given a tick. -/
abbrev HeldAt (duration : ℕ → Property → ℕ) (time : ℕ) (t : Timeline H α) (s : Stage H) : Prop :=
  t.OnTime duration (Group.Held t.script t.drivers duration time) time s

/-- The timeline is on time and its drivers show it. -/
abbrev ShownAt (duration : ℕ → Property → ℕ) (time : ℕ) (t : Timeline H α) (s : Stage H) : Prop :=
  t.OnTime duration (Group.Shown t.script t.drivers duration time) time s

variable {duration : ℕ → Property → ℕ} {time m : ℕ} {t : Timeline H α} {s : Stage H} {dt : Float32}

theorem ShownAt.held (h : t.ShownAt duration time s) : t.HeldAt duration time s :=
  { h with line := h.line.change (fun _ _ hshown => hshown.held) fun _ hover => hover }

theorem relay_schedule (hscript : t.script.Timed duration)
    (hown : Function.Injective t.drivers.get) (hlt : time < 2 ^ 24) :
    Relay (Group.Past t.script.plan.steps t.drivers) (Group.Fresh t.script.plan.steps t.drivers)
      (Group.Shown t.script t.drivers duration time)
      (fun i s => beginning duration i ≤ time ∧ Rests t.drivers (t.script.level i) s)
      (fun i dt g s => ∃ past m, Group.Held t.script t.drivers duration past i g s ∧
        IsWhole dt m ∧ past + m = time)
      (fun i dt s => Rests t.drivers (t.script.level i) s ∧
        ∃ m, IsWhole dt m ∧ beginning duration i + m = time) where
  finish := by
    rintro i dt g s leftover ⟨past, m, hheld, hdt, rfl⟩ htick
    obtain ⟨-, hfinish⟩ := hheld.update hscript hown hdt hlt
    obtain ⟨hpast, hrests, hleftover⟩ := hfinish leftover htick
    exact ⟨hpast, hrests, hleftover⟩
  go := by
    rintro i dt g s ⟨past, m, hheld, hdt, rfl⟩ htick
    exact (hheld.update hscript hown hdt hlt).1 htick
  start := by
    rintro i dt g s hfresh ⟨hrests, m, hdt, hm⟩
    exact ⟨_, m, hfresh.held hscript hrests, hdt, hm⟩
  ended := by
    rintro i dt s ⟨hrests, m, -, hm⟩
    exact ⟨by omega, hrests⟩

/-- Once all groups are over, time does not matter any more. -/
theorem OnTime.line_of_complete {here here' : ℕ → Group α → Stage H → Prop} {later : ℕ}
    (h : t.OnTime duration here time s) (hcursor : t.sequence.cursor = t.sequence.length)
    (hle : time ≤ later) :
    Line (Group.Past t.script.plan.steps t.drivers) (Group.Fresh t.script.plan.steps t.drivers)
      here' (fun i s => beginning duration i ≤ later ∧ Rests t.drivers (t.script.level i) s) 0
      t.sequence.cursor t.sequence.children s := by
  have hline := h.line
  change _ = t.sequence.children.length at hcursor
  rw [hcursor] at hline ⊢
  exact hline.of_length fun i hover => ⟨hover.1.trans hle, hover.2⟩

/-- A tick leads a timeline to a later time. If it completes the timeline, it leaves over
what is behind the end. -/
theorem HeldAt.update (hscript : t.script.Timed duration) (h : t.HeldAt duration time s)
    (hdt : IsWhole dt m) (hlt : time + m < 2 ^ 24) :
    let result := t.update dt s
    result.2.1.ShownAt duration (time + m) result.2.2 ∧
    (result.2.1.state = .running → result.2.1.currentGroup < result.2.1.groupCount) ∧
    (t.state ≠ .completed → result.2.1.state = .completed →
      ∃ leftover n, result.1 = .finished leftover ∧ IsWhole leftover n ∧
        beginning duration t.groupCount + n = time + m) := by
  cases h.getsOn with
  | plays state running cursor =>
      have hrelay := relay_schedule hscript h.distinct hlt
      obtain ⟨hline, hlength, hgoes, hends⟩ := hrelay.update dt h.line
        (fun i g hheld => ⟨time, m, hheld, hdt, rfl⟩) running cursor
      rw [update_of_running state]
      rcases hends with ⟨leftover, htick, hpassed, -, n, hn, hsum⟩ | ⟨htick, hpassed⟩
      · have hstate : (if (t.sequence.update dt s).1.isFinished then PlaybackState.completed
            else .running) = .completed := by rw [htick]; rfl
        refine ⟨⟨h.distinct, hline, hlength.trans h.length, .ends hstate ?_⟩, ?_, ?_⟩
        · exact hpassed.trans hlength.symm
        · exact fun hrunning => by cases hrunning.symm.trans hstate
        · refine fun _ _ => ⟨leftover, n, htick, hn, ?_⟩
          rwa [Nat.zero_add] at hsum
      · have hstate : (if (t.sequence.update dt s).1.isFinished then PlaybackState.completed
            else .running) = .running := by rw [htick]; rfl
        rw [htick] at hgoes
        have hcursor := Nat.lt_of_lt_of_eq hpassed hlength.symm
        refine ⟨⟨h.distinct, hline, hlength.trans h.length, .plays hstate hgoes hcursor⟩,
          fun _ => hcursor, fun _ hcompleted => ?_⟩
        cases hcompleted.symm.trans hstate
  | ends state cursor =>
      have hupdate : t.update dt s = (.finished dt, t, s) := by
        unfold Timeline.update
        rw [state]
      rw [hupdate]
      refine ⟨⟨h.distinct, h.line_of_complete cursor (Nat.le_add_right _ _), h.length,
        .ends state cursor⟩, fun hrunning => ?_, fun hne => absurd state hne⟩
      cases hrunning.symm.trans state
  | empty state running cursor length start =>
      -- without groups the first tick completes the timeline and is left over as a whole
      rw [update_of_running state, Sequence.update_of_complete running cursor]
      refine ⟨⟨h.distinct, h.line_of_complete cursor (Nat.le_add_right _ _), h.length,
        .ends rfl cursor⟩, nofun, fun _ _ => ⟨dt, m, rfl, hdt, ?_⟩⟩
      change beginning duration t.sequence.length + m = time + m
      rw [length, start, beginning]

/-- Ticks lead a timeline from time to time. -/
theorem HeldAt.run {ticks : List Float32} {times : List ℕ}
    (hticks : List.Forall₂ IsWhole ticks times)
    (hscript : t.script.Timed duration) (h : t.HeldAt duration time s)
    (hlt : time + times.sum < 2 ^ 24) :
    let result := (Animation.run (ticks.map .update) t s).2
    result.1.script = t.script ∧ result.1.HeldAt duration (time + times.sum) result.2 := by
  induction hticks generalizing t s time with
  | nil => exact ⟨rfl, h⟩
  | @cons dt m ticks times hdt _ ih =>
      rw [List.sum_cons, ← Nat.add_assoc] at hlt ⊢
      obtain ⟨hnext, -⟩ := h.update hscript hdt (by omega)
      obtain ⟨hfixed, -⟩ := perform_fixes t s (.update dt)
      obtain ⟨hscript', hheld⟩ := ih (hfixed ▸ hscript) hnext.held hlt
      exact ⟨hscript'.trans hfixed, hheld⟩

theorem heldAt_start (script : Script (Embedded (Stage H) α)) (hscript : script.Timed duration)
    (s : Stage H) :
    let built := build script s
    (built.1.start built.2).1.script = script ∧
      (built.1.start built.2).1.HeldAt duration 0 (built.1.start built.2).2 := by
  have hsecluded : Secluded (addDrivers s.1).1 script.plan.steps := by
    refine secluded_of_flatten fun e he => ?_
    obtain ⟨c, hc⟩ := hscript.configures _ he
    cases hc
  obtain ⟨hfresh, hrests, hlength⟩ := fresh_buildGroups (List.drop_zero (l := script.plan.steps))
    hsecluded (rests_addDrivers s.1 s.2)
  have hlevel := script.level_zero
  have hline : Line (Group.Past script.plan.steps (addDrivers s.1).1)
      (Group.Fresh script.plan.steps (addDrivers s.1).1)
      (fun i g s' => beginning duration i = 0 ∧
        Group.Fresh script.plan.steps (addDrivers s.1).1 i g ∧
        Rests (addDrivers s.1).1 (script.level i) s')
      (fun i s' => beginning duration i ≤ 0 ∧ Rests (addDrivers s.1).1 (script.level i) s')
      0 0 (build script s).1.sequence.children (build script s).2 :=
    .ofAlong hfresh (fun g hg => ⟨rfl, hg, hlevel ▸ hrests⟩) ⟨le_rfl, hlevel ▸ hrests⟩
  refine ⟨rfl, injective_addDrivers s.1, ?_, (length_visitAt _ _ _ _).trans hlength, ?_⟩
  · -- the group that is started is one that begins at 0, since the line is at its beginning
    refine hline.visitAt (fun i g hhere => ?_) fun _ hover => hover
    obtain ⟨hbeginning, hg, hs⟩ := hhere
    exact hbeginning ▸ hg.held hscript hs
  · have hcount := (length_visitAt Animation.start 0 (build script s).1.sequence.children
      (build script s).2).trans hlength
    rcases Nat.eq_zero_or_pos script.plan.steps.length with hempty | hpos
    · exact .empty rfl rfl (hcount.trans hempty).symm (hcount.trans hempty) rfl
    · exact .plays rfl rfl (Nat.lt_of_lt_of_eq hpos hcount.symm)

/-- What a timeline shows once it has been given a tick. -/
theorem ShownAt.shows (h : t.ShownAt duration time s) (hscript : t.script.Timed duration)
    (hcount : t.script.spec.flatten.length < 2 ^ 24)
    (hplays : t.state = .running → t.currentGroup < t.groupCount) :
    (beginning duration t.script.spec.flatten.length ≤ time →
      t.state = .completed ∧ t.currentGroup = t.script.spec.flatten.length ∧
        ∀ p, s.1.get (t.drivers.get p) = ofCount t.script.spec.flatten.length) ∧
    (time < beginning duration t.script.spec.flatten.length →
      t.state = .running ∧ ∃ e step, beginning duration t.currentGroup + e = time ∧
        time < beginning duration (t.currentGroup + 1) ∧
        t.script.spec.flatten[t.currentGroup]? = some (.configure step) ∧
        ∀ p, s.1.get (t.drivers.get p) =
          if duration t.currentGroup p ≤ e then ofCount (t.currentGroup + 1)
          else ofCount t.currentGroup +
            (step.easingOf p).apply (ofCount e / step.durationOf t.script.config p)) := by
  have hlength : t.sequence.length = t.script.spec.flatten.length :=
    h.length.trans t.script.length_steps
  cases h.getsOn with
  | plays state running cursor =>
      rw [hlength] at cursor
      rcases h.line.cases_drop with ⟨hend, -⟩ | ⟨g, rest, -, -, -, hhere, -⟩
      · exact absurd (hend.trans hlength) (Nat.ne_of_lt cursor)
      · rw [Nat.zero_add] at hhere
        cases hhere with
        | @advance advances lane _ e step follows has since within shown =>
            obtain ⟨configuring, hconfiguring, hspec⟩ := t.script.advance_spec step
            have hlevel := hscript.level_eq cursor.le
            have hnext : time < beginning duration (t.sequence.cursor + 1) := by
              rw [beginning]
              omega
            have hmono : beginning duration (t.sequence.cursor + 1) ≤ _ :=
              beginning_mono duration cursor
            refine ⟨fun hle => absurd hle (by omega), fun _ => ⟨state, e, configuring, since, hnext,
              hconfiguring, fun p => ?_⟩⟩
            have hgoal : (lane p).child.goal = ofCount (t.script.level t.sequence.cursor + 1) :=
              (follows p).goal.trans (by rw [(hspec p).1])
            have hposition := (shown p).eq_position hgoal (by rw [hlevel]; omega)
            rw [hlevel, (follows p).easing, (follows p).duration, (hspec p).2.1,
              (hspec p).2.2.1] at hposition
            exact hposition
  | ends state cursor =>
      have hline := h.line
      change _ = t.sequence.children.length at cursor
      rw [cursor] at hline
      obtain ⟨hle, hrests⟩ := hline.ended_of_length
      rw [Nat.zero_add] at hle hrests
      change beginning duration t.sequence.length ≤ time at hle
      change Rests _ (t.script.level t.sequence.length) s at hrests
      rw [hlength] at hle hrests
      rw [hscript.level_eq le_rfl] at hrests
      exact ⟨fun _ => ⟨state, cursor.trans hlength, fun p => (hrests p).2⟩,
        fun hlt => absurd hle (Nat.not_le_of_lt hlt)⟩
  | empty state running cursor length start =>
      exact absurd (hplays state) (Nat.not_lt_of_le (Nat.le_of_eq cursor.symm))

/-- After a start and ticks the timeline is on time. -/
theorem heldAt_run (script : Script (Embedded (Stage H) α)) (hscript : script.Timed duration)
    (s : Stage H) {ticks : List Float32} {times : List ℕ}
    (hticks : List.Forall₂ IsWhole ticks times)
    (hlt : times.sum < 2 ^ 24) :
    let result := (Animation.run (.start :: ticks.map .update) (build script s).1
      (build script s).2).2
    result.1.script = script ∧ result.1.HeldAt duration times.sum result.2 := by
  obtain ⟨hstarted, hheld⟩ := heldAt_start script hscript s
  obtain ⟨hrun, hheld⟩ := hheld.run hticks (by rwa [hstarted]) (by omega)
  rw [Nat.zero_add] at hheld
  exact ⟨hrun.trans hstarted, hheld⟩

/-- The schedule of a timeline. Let there be ticks after a start, at least one, and let `T` be
the sum of their times. If the groups take no longer than that, the timeline is completed with
all drivers at the last count, and if it was the last of the ticks that completed it, that has
left over what was too much. Otherwise the group plays into whose time `T` falls, and each
driver has landed, or is where its easing leads it in the time since the group began. -/
theorem schedule (script : Script (Embedded (Stage H) α)) (hscript : script.Timed duration)
    (hcount : script.spec.flatten.length < 2 ^ 24) (s₀ : Stage H) {earlier : List Float32}
    {last : Float32} {times : List ℕ} (hearlier : List.Forall₂ IsWhole earlier times)
    (hlast : IsWhole last m) (hlt : times.sum + m < 2 ^ 24) :
    let before := (Animation.run (.start :: earlier.map .update) (build script s₀).1
      (build script s₀).2).2
    let result := Animation.update last before.1 before.2
    let t := result.2.1
    let position := fun p => result.2.2.1.get (t.drivers.get p)
    let count := script.spec.flatten.length
    let T := times.sum + m
    (beginning duration count ≤ T →
      t.state = .completed ∧ t.currentGroup = count ∧ (∀ p, position p = ofCount count) ∧
      (before.1.state ≠ .completed → ∃ leftover, result.1 = .finished leftover ∧
        IsWhole leftover (T - beginning duration count))) ∧
    (T < beginning duration count →
      t.state = .running ∧ ∃ e step, beginning duration t.currentGroup + e = T ∧
        T < beginning duration (t.currentGroup + 1) ∧
        script.spec.flatten[t.currentGroup]? = some (.configure step) ∧
        ∀ p, position p =
          if duration t.currentGroup p ≤ e then ofCount (t.currentGroup + 1)
          else ofCount t.currentGroup +
            (step.easingOf p).apply (ofCount e / step.durationOf script.config p)) := by
  obtain ⟨hsame, hheld⟩ := heldAt_run script hscript s₀ hearlier (by omega)
  dsimp only
  generalize (Animation.run (.start :: earlier.map .update) (build script s₀).1
    (build script s₀).2).2 = before at hsame hheld ⊢
  obtain ⟨t, s⟩ := before
  subst hsame
  obtain ⟨hshown, hplays, hcompletes⟩ := hheld.update hscript hlast hlt
  have hfixed : (t.update last s).2.1.script = t.script := (perform_fixes t s (.update last)).1
  have hgroups : t.groupCount = t.script.spec.flatten.length :=
    hheld.length.trans t.script.length_steps
  have hshows := hshown.shows (by rwa [hfixed]) (by rwa [hfixed]) hplays
  rw [hfixed] at hshows
  obtain ⟨hover, hplaying⟩ := hshows
  refine ⟨fun hle => ?_, hplaying⟩
  obtain ⟨hstate, hgroup, hposition⟩ := hover hle
  refine ⟨hstate, hgroup, hposition, fun hbefore => ?_⟩
  obtain ⟨leftover, n, htick, hwhole, hsum⟩ := hcompletes hbefore hstate
  rw [hgroups] at hsum
  refine ⟨leftover, htick, ?_⟩
  rwa [← hsum, Nat.add_sub_cancel_left]

/-- A timeline of one step of 300 milliseconds is completed by ticks of 100 and 250. -/
theorem schedule_two_ticks :
    ∃ script : Script (Embedded (Stage Unit) Wait), script.spec.flatten = [.configure .empty] ∧
      let before := (Animation.run [.start, .update (ofCount 100)] (build script (.empty, ())).1
        (build script (.empty, ())).2).2
      let result := Animation.update (ofCount 250) before.1 before.2
      result.2.1.state = .completed ∧
        ∀ p, result.2.2.1.get (result.2.1.drivers.get p) = ofCount 1 := by
  obtain ⟨script, hflatten, hconfig⟩ : ∃ script : Script (Embedded (Stage Unit) Wait),
      script.spec.flatten = [.configure .empty] ∧ script.config = {} := by
    obtain ⟨plan, hplan⟩ : ∃ plan : Plan (Embedded (Stage Unit) Wait), Plan.ofSpec {}
        { steps := [.configure .empty] } = .ok plan := ⟨_, rfl⟩
    exact ⟨⟨_, {}, plan, hplan⟩, rfl, rfl⟩
  have hscript : script.Timed fun _ _ => 300 := by
    refine ⟨fun step hstep => ⟨.empty, by simpa [hflatten] using hstep⟩, fun i step hstep p => ?_⟩
    have hmem := List.mem_of_getElem? hstep
    rw [hflatten] at hmem
    cases List.mem_singleton.mp hmem
    have hdefault : StepConfig.empty.durationOf {} p = ofCount 300 := by cases p <;> rfl
    rw [hconfig, hdefault]
    exact ofCount_isWhole (by norm_num)
  have hshown := schedule script hscript (by rw [hflatten]; norm_num) (.empty, ())
    (.cons (ofCount_isWhole (by norm_num : 100 ≤ 2 ^ 24)) .nil)
    (ofCount_isWhole (by norm_num : 250 ≤ 2 ^ 24)) (by norm_num)
  obtain ⟨hstate, -, hposition, -⟩ := hshown.1 (by rw [hflatten]; decide)
  rw [hflatten] at hposition
  exact ⟨script, hflatten, hstate, hposition⟩

end Timeline

end Storyboard
