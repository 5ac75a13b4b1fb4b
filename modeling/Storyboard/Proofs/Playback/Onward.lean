import Storyboard.Proofs.Numeric.Lines
import Storyboard.Proofs.Playback.Causality
import Storyboard.Proofs.Playback.Clocks

/-! # Straight on

Where all easings are linear, a driver does not leave the way from one count to the next one, and
never turns back on it. Nor does it when it lands, or when a tick leads it through several groups.
Only a reset takes it back, and a start of a completed timeline, which begins with one.
-/

namespace Storyboard

/-! ## Linear timelines -/

namespace Script

variable {ε : Type} {script : Script ε}

/-- All steps set properties, and lead all drivers in straight lines. -/
def Linear (script : Script ε) : Prop :=
  ∀ step ∈ script.spec.flatten, ∃ c, step = .configure c ∧ ∀ p, c.easingOf p = .linear

theorem Linear.configures (h : script.Linear) : script.Configures := by
  intro step hstep
  obtain ⟨c, hc, -⟩ := h step hstep
  exact ⟨c, hc⟩

/-- Where all steps set properties, each of them commits one value more. -/
theorem Configures.level_eq (h : script.Configures) {i : ℕ} (hi : i ≤ script.spec.flatten.length) :
    script.level i = i := by
  induction i with
  | zero => exact script.level_zero
  | succ i ih =>
      have hget := List.getElem?_eq_getElem hi
      obtain ⟨c, hc⟩ := h _ (List.getElem_mem hi)
      rw [script.level_succ_of_configure (hget.trans (congrArg some hc)), ih (Nat.le_of_succ_le hi)]

/-- The moves of a linear timeline are linear, for times that are finite. -/
theorem Linear.advance_spec (h : script.Linear) {i : ℕ} {advances : PropertyMap Advance}
    (hstep : script.plan.steps[i]? = some (.advance advances)) :
    i < script.spec.flatten.length ∧ script.level i = i ∧ ∀ p,
      (advances.get p).toIndex = i + 1 ∧ (advances.get p).easing = .linear ∧
        (advances.get p).duration.isFinite := by
  obtain ⟨step, hflat, hspec⟩ := script.advance_spec hstep
  obtain ⟨hlt, hget⟩ := List.getElem?_eq_some_iff.mp hflat
  have hlevel := h.configures.level_eq hlt.le
  obtain ⟨c, hc, heasing⟩ := h _ (hget ▸ List.getElem_mem hlt)
  cases hc
  refine ⟨hlt, hlevel, fun p => ?_⟩
  obtain ⟨hindex, -, heasing', hduration⟩ := hspec p
  exact ⟨hlevel ▸ hindex, heasing'.trans (heasing p), isFinite_of_isDuration hduration⟩

end Script

/-! ## One lane -/

namespace Lane

variable {n : ℕ} {x : Float32} {lane : Lane Timing}

/-- The lane leads its driver from a count to the next one in a straight line. -/
structure Straight (n : ℕ) (lane : Lane Timing) : Prop where
  goal : lane.child.goal = ofCount (n + 1)
  easing : lane.child.easing = .linear
  duration : lane.child.duration.isFinite
  bits : n + 1 < 2 ^ 64

theorem Straight.positionAt (h : lane.Straight n)
    (hdeparture : lane.child.departure = some (ofCount n)) (e : Float32) :
    lane.child.positionAt e = lerp (ofCount n) (ofCount (n + 1)) (e / lane.child.duration) := by
  rw [Timing.positionAt, hdeparture, Option.getD_some, h.goal, h.easing]
  rfl

/-- The driver stands between the counts. -/
theorem Stands.within (h : lane.Stands n x) (hlane : lane.Straight n) :
    ofCount n ≤ x ∧ x ≤ ofCount (n + 1) := by
  have hstart := le_refl_number (isNaN_of_isFinite (isFinite_ofCount n))
  have hend := le_refl_number (isNaN_of_isFinite (isFinite_ofCount (n + 1)))
  have hsteps : ofCount n ≤ ofCount (n + 1) :=
    (le_iff_toRat_le (isFinite_ofCount n) (isFinite_ofCount _)).mpr (ofCount_le_succ hlane.bits)
  cases h with
  | waiting phase departure elapsed position =>
      rw [position]
      exact ⟨hstart, hsteps⟩
  | moving phase departure elapsed position =>
      rcases position with rfl | ⟨hlt, rfl⟩
      · exact ⟨hstart, hsteps⟩
      · rw [hlane.positionAt departure]
        exact lerp_div_between hlane.bits elapsed hlt hlane.duration
  | landed phase position =>
      rw [position, show _ = ofCount (n + 1) from hlane.goal]
      exact ⟨hsteps, hend⟩

/-- A tick does not lead the driver back. -/
theorem Stands.le_place (h : lane.Stands n x) (hlane : lane.Straight n) (dt : Float32) :
    x ≤ lane.place dt x := by
  obtain ⟨hlow, hhigh⟩ := h.within hlane
  have hself := le_refl_number (isNaN_of_le hlow).2
  cases h with
  | @waiting t phase departure elapsed position =>
      rw [(ticked_of_idle x dt phase).2]
      exact hself
  | @moving t phase departure elapsed position =>
      cases hphase : t.phase with
      | idle =>
          rw [(ticked_of_idle x dt hphase).2]
          exact hself
      | running =>
          by_cases hexpires : t.Expires dt
          · rw [(ticked_of_expires x hphase hexpires).2.1]
            exact hlane.goal ▸ hhigh
          · have hgrown : t.elapsed ≤ t.elapse dt := le_add_number elapsed (zero_le_maxNumber dt)
            have helapse := le_trans_number elapsed hgrown
            have hbefore : t.elapse dt < t.duration :=
              lt_of_not_le hlane.duration helapse fun hle => hexpires (.inr hle)
            rw [(ticked_of_not_expires x hphase hexpires).2.1, hlane.positionAt departure]
            rcases position with rfl | ⟨-, rfl⟩
            · exact (lerp_div_between hlane.bits helapse hbefore hlane.duration).1
            · rw [hlane.positionAt departure]
              exact lerp_div_mono hlane.bits elapsed hgrown hbefore hlane.duration
      | done => exact absurd hphase phase
  | @landed t phase position =>
      rw [Lane.place, if_pos rfl]
      exact hself

end Lane

variable {H α : Type} [Animation α (Stage H)]

/-! ## One group -/

namespace Group

variable {script : Script (Embedded (Stage H) α)} {own : PropertyMap Driver} {i : ℕ}
  {g : Group α} {s : Stage H}

/-- What is known of the lanes of the group that plays. -/
structure Straight (own : PropertyMap Driver) (i : ℕ) (lane : Property → Lane Timing)
    (s : Stage H) : Prop where
  straight : ∀ p, (lane p).Straight i
  stands : ∀ p, (lane p).Stands i (s.1.get (own.get p))

theorem Here.exists_straight (h : Here script own i g s) (hlinear : script.Linear)
    (hlength : script.spec.flatten.length < 2 ^ 64) :
    ∃ (advances : PropertyMap Advance) (lane : Property → Lane Timing) (running : Bool),
      g = .advance (.ofLanes lane running) ∧
        (∀ p, (lane p).child.Follows (own.get p) (advances.get p)) ∧
        (∀ p, s.1.Has (own.get p)) ∧ Straight own i lane s := by
  cases h with
  | @advance advances lane _ running step follows has stands =>
      obtain ⟨hlt, hlevel, hspec⟩ := hlinear.advance_spec step
      refine ⟨advances, lane, running, rfl, follows, has, fun p => ?_, hlevel ▸ stands⟩
      obtain ⟨hindex, heasing, hduration⟩ := hspec p
      exact ⟨hindex ▸ (follows p).goal, (follows p).easing.trans heasing,
        (follows p).duration ▸ hduration, by omega⟩
  | embed step detached rests =>
      obtain ⟨c, hc, -⟩ := hlinear _ (script.embed_mem (List.mem_of_getElem? step))
      cases hc

/-- The group that plays keeps all drivers between two counts. -/
theorem Here.within (h : Here script own i g s) (hlinear : script.Linear)
    (hlength : script.spec.flatten.length < 2 ^ 64) (p : Property) :
    ofCount i ≤ s.1.get (own.get p) ∧ s.1.get (own.get p) ≤ ofCount (i + 1) := by
  obtain ⟨advances, lane, running, rfl, -, -, hstraight⟩ := h.exists_straight hlinear hlength
  exact (hstraight.stands p).within (hstraight.straight p)

/-- A tick of the group that plays leads no driver back. -/
theorem Here.le_update (h : Here script own i g s) (hlinear : script.Linear)
    (hlength : script.spec.flatten.length < 2 ^ 64) (hown : Function.Injective own.get)
    (dt : Float32) (p : Property) :
    s.1.get (own.get p) ≤ (Animation.update dt g s).2.2.1.get (own.get p) := by
  have hself := le_refl_number (isNaN_of_le (h.within hlinear hlength p).1).2
  obtain ⟨advances, lane, running, rfl, hfollows, hhas, hstraight⟩ :=
    h.exists_straight hlinear hlength
  cases running with
  | false =>
      rw [update_moves_halted]
      exact hself
  | true =>
      obtain ⟨running, hupdate, -⟩ := update_moves α lane s dt
      rw [hupdate, (move_own hown hfollows hhas dt p).2]
      exact (hstraight.stands p).le_place (hstraight.straight p) dt

/-- A start or a halt of the group that plays moves no driver. -/
theorem Here.stage_start (h : Here script own i g s) (hlinear : script.Linear)
    (hlength : script.spec.flatten.length < 2 ^ 64) :
    (Animation.start g s).2 = s ∧ (Animation.stop g s).2 = s := by
  obtain ⟨advances, lane, running, rfl, -⟩ := h.exists_straight hlinear hlength
  rw [start_moves, stop_moves]
  exact ⟨rfl, rfl⟩

end Group

/-! ## The timeline -/

namespace Timeline

/-- The call does not begin anew. -/
def GoesOn (c : Call) (t : Timeline H α) : Prop :=
  c ≠ .reset ∧ (c = .start → t.state ≠ .completed)

/-- None of the calls begins anew, each made where those before it have led. -/
def GoOn : List Call → Timeline H α → Stage H → Prop
  | [], _, _ => True
  | c :: rest, t, s =>
      GoesOn c t ∧ GoOn rest (Animation.perform c t s).2.1 (Animation.perform c t s).2.2

/-- No driver stands before where it stood. -/
def Risen (own : PropertyMap Driver) (from₀ : Property → Float32) (s : Stage H) : Prop :=
  ∀ p, from₀ p ≤ s.1.get (own.get p)

namespace Plays

variable {t : Timeline H α} {s : Stage H}

/-- As long as a group plays, it leads the drivers. -/
theorem exists_here (h : t.Plays s) (hplaying : t.currentGroup < t.groupCount) :
    ∃ g, Group.Here t.script t.drivers t.currentGroup g s := by
  rcases h.line.cases_drop with ⟨hend, -, -⟩ | ⟨g, rest, -, -, -, hhere, -⟩
  · exact absurd hend (Nat.ne_of_lt hplaying)
  · rw [Nat.zero_add] at hhere
    exact ⟨g, hhere⟩

/-- Where the drivers are while a group plays. -/
theorem within (h : t.Plays s) (hlinear : t.script.Linear)
    (hlength : t.script.spec.flatten.length < 2 ^ 64) (hplaying : t.currentGroup < t.groupCount)
    (p : Property) :
    ofCount t.currentGroup ≤ s.1.get (t.drivers.get p) ∧
      s.1.get (t.drivers.get p) ≤ ofCount (t.currentGroup + 1) := by
  obtain ⟨g, hhere⟩ := h.exists_here hplaying
  exact hhere.within hlinear hlength p

theorem risen_self (h : t.Plays s) (hlinear : t.script.Linear)
    (hlength : t.script.spec.flatten.length < 2 ^ 64) :
    Risen t.drivers (fun p => s.1.get (t.drivers.get p)) s := by
  intro p
  refine le_refl_number ?_
  change (s.1.get (t.drivers.get p)).isNaN = false
  rcases h.line.cases_drop with ⟨-, -, hrests⟩ | ⟨g, rest, -, -, -, hhere, -⟩
  · rw [(hrests p).2]
    exact isNaN_of_isFinite (isFinite_ofCount _)
  · exact (isNaN_of_le (hhere.within hlinear hlength p).1).2

/-- A tick hands on from group to group that no driver was led back. -/
theorem relay_risen (h : t.Plays s) (hlinear : t.script.Linear)
    (hlength : t.script.spec.flatten.length < 2 ^ 64) (from₀ : Property → Float32) :
    Relay (Group.Past t.script.plan.steps t.drivers) (Group.Fresh t.script.plan.steps t.drivers)
      (fun _ _ s => Risen t.drivers from₀ s) (fun _ s => Risen t.drivers from₀ s)
      (fun i _ g s => Group.Here t.script t.drivers i g s ∧ Risen t.drivers from₀ s)
      (fun i _ s => Rests t.drivers (t.script.level i) s ∧ Risen t.drivers from₀ s) where
  finish hready htick :=
    let ⟨hhere, hrests⟩ := hready.1.update h.distinct _
    ⟨hhere.past, hrests (htick ▸ rfl), fun p => le_trans_number (hready.2 p)
      (hready.1.le_update hlinear hlength h.distinct _ p)⟩
  go hready _ p := le_trans_number (hready.2 p) (hready.1.le_update hlinear hlength h.distinct _ p)
  start hfresh harrive := by
    have hhere := hfresh.here harrive.1
    refine ⟨hhere.start, ?_⟩
    rw [(hhere.stage_start hlinear hlength).1]
    exact harrive.2
  ended harrive := harrive.2

/-- A tick leads no driver back. -/
theorem risen_update (h : t.Plays s) (hlinear : t.script.Linear)
    (hlength : t.script.spec.flatten.length < 2 ^ 64) (dt : Float32) :
    Risen t.drivers (fun p => s.1.get (t.drivers.get p)) (t.update dt s).2.2 := by
  have hself := h.risen_self hlinear hlength
  by_cases hstate : t.state = .running
  · have hrunning := h.running hstate
    rw [update_of_running hstate]
    rcases Nat.lt_or_eq_of_le h.line.le_length with hcursor | hcursor
    · obtain ⟨hline, -⟩ := (h.relay_risen hlinear hlength _).update dt h.line
        (fun _ _ hhere => ⟨hhere, hself⟩) hrunning hcursor
      rcases hline.cases_drop with ⟨-, -, hrisen⟩ | ⟨g, rest, -, -, -, hrisen, -⟩
      · exact hrisen
      · exact hrisen
    · rw [Sequence.update_of_complete hrunning hcursor]
      exact hself
  · unfold Timeline.update
    split
    · exact hself
    · exact hself
    · next hrunning => exact absurd hrunning hstate

/-- A call that does not begin anew leads no driver back. -/
theorem risen_perform (h : t.Plays s) (hlinear : t.script.Linear)
    (hlength : t.script.spec.flatten.length < 2 ^ 64) {c : Call} (hc : GoesOn c t) :
    Risen t.drivers (fun p => s.1.get (t.drivers.get p)) (Animation.perform c t s).2.2 := by
  have hself := h.risen_self hlinear hlength
  cases c with
  | start =>
      have hstage : (visitAt Animation.start t.sequence.cursor t.sequence.children s).2 = s :=
        h.line.visitAt_world fun _ _ hhere => (hhere.stage_start hlinear hlength).1
      change Risen _ _ (t.start s).2
      simp only [Timeline.start, if_neg (hc.2 rfl), Sequence.start_eq, hstage]
      exact hself
  | update dt => exact h.risen_update hlinear hlength dt
  | stop =>
      have hstage : (visitAt Animation.stop t.sequence.cursor t.sequence.children s).2 = s :=
        h.line.visitAt_world fun _ _ hhere => (hhere.stage_start hlinear hlength).2
      change Risen _ _ (t.stop s).2
      unfold Timeline.stop
      split
      · simp only [Sequence.stop_eq, hstage]
        exact hself
      · exact hself
  | reset => exact absurd rfl hc.1

/-- However many calls follow each other, no driver is led back. -/
theorem pairwise_moments (h : t.Plays s) (hlinear : t.script.Linear)
    (hlength : t.script.spec.flatten.length < 2 ^ 64) {calls : List Call} (hcalls : GoOn calls t s)
    (p : Property) :
    (s.1.get (t.drivers.get p) :: (moments calls t s).map (·.drivers p)).Pairwise (· ≤ ·) := by
  induction calls generalizing t s with
  | nil => exact List.pairwise_singleton _ _
  | cons c rest ih =>
      obtain ⟨hscript, hdrivers⟩ := perform_fixes t s c
      have hfirst : s.1.get (t.drivers.get p) ≤ (Animation.perform c t s).2.2.1.get
          ((Animation.perform c t s).2.1.drivers.get p) := by
        rw [hdrivers]
        exact h.risen_perform hlinear hlength hcalls.1 p
      have hrest := ih (h.perform c) (hscript ▸ hlinear) (hscript ▸ hlength) hcalls.2
      refine List.pairwise_cons.mpr ⟨fun x hx => ?_, hrest⟩
      rcases List.mem_cons.mp hx with rfl | hx
      · exact hfirst
      · exact le_trans_number hfirst (List.rel_of_pairwise_cons hrest hx)

end Plays

/-- In a timeline of linear steps, wherever calls have led, each driver stands between the counts
of the step that plays and of the next one. And whatever is called from there, for any times, no
driver is ever led back, as long as nothing begins anew. Counts have 64 bits, and so there cannot
be more steps than these can count. -/
theorem linear_onward (script : Script (Embedded (Stage H) α)) (s₀ : Stage H)
    (hlinear : script.Linear) (hlength : script.spec.flatten.length < 2 ^ 64)
    {t : Timeline H α} {s : Stage H} (h : Reaches (build script s₀).1 (build script s₀).2 t s) :
    (t.currentGroup < t.groupCount → ∀ p, ofCount t.currentGroup ≤ s.1.get (t.drivers.get p) ∧
      s.1.get (t.drivers.get p) ≤ ofCount (t.currentGroup + 1)) ∧
    ∀ calls, GoOn calls t s → ∀ p,
      (s.1.get (t.drivers.get p) :: (moments calls t s).map (·.drivers p)).Pairwise (· ≤ ·) := by
  obtain ⟨hplays, hscript, -⟩ :=
    h.plays (plays_build script s₀ (hlinear.configures.secluded _))
  change t.script = script at hscript
  subst hscript
  exact ⟨hplays.within hlinear hlength, fun calls hcalls =>
    hplays.pairwise_moments hlinear hlength hcalls⟩

/-- Two steps that fade in straight lines, the second one nested, in the middle of the first. A
NaN, a halt and a time that is enough for everything come after it. -/
theorem linear_onward_fades :
    ∃ (script : Script (Embedded (Stage Unit) Wait)) (t : Timeline Unit Wait) (s : Stage Unit),
      let calls : List Call := [.update (0 / 0), .stop, .start, .update 16, .update 2000]
      script.Linear ∧ script.spec.flatten.length < 2 ^ 64 ∧
        Reaches (build script (.empty, ())).1 (build script (.empty, ())).2 t s ∧
        t.currentGroup < t.groupCount ∧ GoOn calls t s ∧
        (∀ p, ofCount t.currentGroup ≤ s.1.get (t.drivers.get p) ∧
          s.1.get (t.drivers.get p) ≤ ofCount (t.currentGroup + 1)) ∧
        (∀ p, (s.1.get (t.drivers.get p) ::
          (moments calls t s).map (·.drivers p)).Pairwise (· ≤ ·)) ∧
        (moments calls t s).map (·.drivers .opacity) = [0.5, 0.5, 0.5, 0.58, 2] := by
  let script : Script (Embedded (Stage Unit) Wait) :=
    ⟨{ steps := [.configure (.set .empty .opacity { target := .value 0, duration := some 200 }),
        .nested .none [.configure (.set .empty .opacity
          { target := .value 1, duration := some 300 })]] }, {}, _, rfl⟩
  have hlinear : script.Linear := by
    intro step hstep
    obtain rfl | rfl : step = _ ∨ step = _ := by
      simpa [script, Spec.flatten, Step.flattenAll, Step.flatten] using hstep
    · exact ⟨_, rfl, fun p => by cases p <;> rfl⟩
    · exact ⟨_, rfl, fun p => by cases p <;> rfl⟩
  let built := build script (.empty, ())
  let played := (Animation.run [.start, .update 100] built.1 built.2).2
  have hreaches : Reaches built.1 built.2 played.1 played.2 :=
    .call (.update 100) (.call .start .refl)
  have hplaying : played.1.currentGroup < played.1.groupCount := by decide +kernel
  have hupdate : ∀ (dt : Float32) (t : Timeline Unit Wait), GoesOn (.update dt) t :=
    fun _ _ => ⟨by simp, by simp⟩
  have hcalls : GoOn [.update (0 / 0), .stop, .start, .update 16, .update 2000] played.1
      played.2 :=
    ⟨hupdate _ _, ⟨by simp, by simp⟩, ⟨by simp, fun _ => by decide +kernel⟩, hupdate _ _,
      hupdate _ _, trivial⟩
  obtain ⟨hwithin, honward⟩ :=
    linear_onward script (.empty, ()) hlinear (by decide +kernel) hreaches
  exact ⟨script, played.1, played.2, hlinear, by decide +kernel, hreaches, hplaying, hcalls,
    hwithin hplaying, honward _ hcalls, by decide +kernel⟩

end Timeline

end Storyboard
