import Storyboard.Proofs.Numeric.Counts
import Storyboard.Proofs.Numeric.Progress
import Storyboard.Proofs.Playback.Leftovers
import Storyboard.Proofs.Playback.Pauses

/-! # When ticks lead to the end

A clock advances by the sum of what it shows and the tick, and that is rounded. Once the clock has
outgrown the tick by 24 bits the tick is rounded off, and the clock stands still from then on. So
equal ticks lead a timeline to its end if and only if none of its moves takes longer than a clock
can be brought by them.
-/

namespace Storyboard

variable {α : Type} {dt y : Float32}

/-! ## Moves -/

theorem maxNumber_zero_value (hy : y.isFinite) (hnonneg : 0 ≤ toRat y) :
    (maxNumber y 0).isFinite ∧ toRat (maxNumber y 0) = toRat y := by
  unfold maxNumber
  rw [if_neg (Bool.eq_false_iff.mp (isNaN_of_isFinite hy))]
  split
  · next hle =>
    rw [le_iff_toRat_le hy rfl, toRat_zero] at hle
    exact ⟨rfl, le_antisymm hnonneg hle⟩
  · exact ⟨hy, rfl⟩

/-- A move is over if the rounded sum reaches its duration, also if the sum overflows. -/
theorem Timing.expires_iff_nearest {t : Timing} (hduration : t.duration.isFinite)
    (helapsed : t.elapsed.isFinite) (hnonneg : 0 ≤ toRat t.elapsed) (hy : y.isFinite)
    (hyv : 0 ≤ toRat y) :
    t.Expires y ↔ toRat t.duration ≤ nearest (toRat t.elapsed + toRat y) := by
  obtain ⟨hpassed, hvalue⟩ := maxNumber_zero_value hy hyv
  unfold Expires elapse
  rw [le_add_iff hduration helapsed hpassed hnonneg (hvalue ▸ hyv), hvalue,
    le_iff_toRat_le hduration rfl, toRat_zero]
  constructor
  · rintro (hnone | hreached)
    · exact hnone.trans (nearest_nonneg (add_nonneg hnonneg hyv))
    · exact hreached
  · exact .inr

namespace Lane

variable {running : Bool} {lane : Lane Timing}

theorem Clocked.elapsed_finite (h : lane.Clocked running) (hgoing : lane.finished = false) :
    lane.child.elapsed.isFinite = true ∧ 0 ≤ toRat lane.child.elapsed := by
  cases h with
  | ended => cases hgoing
  | @going t valid nonneg phase behind =>
      rcases behind with hzero | hlt
      · rw [hzero]
        exact ⟨rfl, le_rfl⟩
      · obtain ⟨hfinite, hnonneg, -⟩ := finite_of_lt nonneg hlt (isFinite_of_isDuration valid)
        exact ⟨hfinite, hnonneg⟩

/-- A tick of a lane that is not over ends its move, or moves its clock to the rounded sum. -/
theorem Clocked.ticked_cases (h : lane.Clocked true) (hgoing : lane.finished = false)
    (hy : y.isFinite) (hyv : 0 ≤ toRat y) :
    (toRat lane.child.duration ≤ nearest (toRat lane.child.elapsed + toRat y) ∧
        (lane.ticked y).finished = true) ∨
      (nearest (toRat lane.child.elapsed + toRat y) < toRat lane.child.duration ∧
        (lane.ticked y).finished = false ∧
        (lane.ticked y).child.duration = lane.child.duration ∧
        toRat (lane.ticked y).child.elapsed = nearest (toRat lane.child.elapsed + toRat y)) := by
  obtain ⟨helapsed, hnonneg⟩ := h.elapsed_finite hgoing
  cases h with
  | ended => cases hgoing
  | @going t valid nonneg phase behind =>
      have hduration := isFinite_of_isDuration valid
      have hiff := Timing.expires_iff_nearest hduration helapsed hnonneg hy hyv
      by_cases hexpires : t.Expires y
      · rw [(ticked_of_expires 0 phase hexpires).1]
        exact .inl ⟨hiff.mp hexpires, rfl⟩
      · rw [(ticked_of_not_expires 0 phase hexpires).1]
        refine .inr ⟨not_le.mp (mt hiff.mpr hexpires), rfl, rfl, ?_⟩
        obtain ⟨hpassed, hvalue⟩ := maxNumber_zero_value hy hyv
        have helapse : 0 ≤ t.elapse y := zero_le_add nonneg (zero_le_maxNumber y)
        have hlt := lt_of_not_le hduration helapse fun hle => hexpires (.inr hle)
        have hsum := (finite_of_lt helapse hlt hduration).1
        rw [← hvalue]
        exact toRat_add helapsed hpassed hnonneg (hvalue ▸ hyv) hsum

theorem ticked_of_finished (h : lane.finished = true) (y : Float32) : lane.ticked y = lane :=
  if_pos h

/-- Ticks of `dt` get the move of a lane to its end. -/
def Ends (dt : Float32) (lane : Lane Timing) : Prop :=
  lane.finished = true ∨ toRat lane.child.duration ≤ reach dt lane.child.elapsed

theorem ends_started (x : Float32) : (lane.started x).Ends dt ↔ lane.Ends dt := by
  obtain ⟨hfinished, helapsed, hduration⟩ := lane.clock_started x
  unfold Ends
  rw [hfinished, helapsed, hduration]

/-- A tick, or a part of one for a clock within the horizon, does not decide whether ticks get a
move to its end. -/
theorem Clocked.ends_ticked (h : lane.Clocked true) (hdt : 0 < toRat dt) (hy : y.isFinite)
    (hyv : 0 ≤ toRat y) (hle : toRat y ≤ toRat dt)
    (hpart : y = dt ∨ toRat lane.child.elapsed ≤ horizon dt) :
    (lane.ticked y).Ends dt ↔ lane.Ends dt := by
  cases hgoing : lane.finished with
  | true => rw [ticked_of_finished hgoing]
  | false =>
      obtain ⟨-, hnonneg⟩ := h.elapsed_finite hgoing
      have hpart : toRat y = toRat dt ∨ toRat lane.child.elapsed ≤ horizon dt :=
        hpart.imp_left (congrArg toRat)
      rcases h.ticked_cases hgoing hy hyv with
        ⟨hreached, hover⟩ | ⟨-, hstill, hduration, helapsed⟩
      · exact iff_of_true (.inl hover)
          (.inr (hreached.trans (nearest_add_le_reach hnonneg hdt hyv hle hpart)))
      · unfold Ends
        rw [hstill, hgoing, hduration, reach_add hnonneg hdt hyv hle hpart helapsed]

/-- How many steps of its clock a lane is away from being over. -/
def distance (lane : Lane Timing) : ℕ :=
  if lane.finished then 0 else units lane.child.duration - units lane.child.elapsed + 1

theorem distance_of_going (h : lane.finished = false) :
    lane.distance = units lane.child.duration - units lane.child.elapsed + 1 :=
  if_neg (Bool.eq_false_iff.mp h)

theorem distance_started (x : Float32) : (lane.started x).distance = lane.distance := by
  obtain ⟨hfinished, helapsed, hduration⟩ := lane.clock_started x
  unfold distance
  rw [hfinished, helapsed, hduration]

theorem Clocked.distance_ticked_le (h : lane.Clocked true) (hy : y.isFinite)
    (hyv : 0 ≤ toRat y) : (lane.ticked y).distance ≤ lane.distance := by
  cases hgoing : lane.finished with
  | true => rw [ticked_of_finished hgoing]
  | false =>
      obtain ⟨-, hnonneg⟩ := h.elapsed_finite hgoing
      rcases h.ticked_cases hgoing hy hyv with
        ⟨-, hover⟩ | ⟨-, hstill, hduration, helapsed⟩
      · exact (if_pos hover).trans_le (Nat.zero_le _)
      · have hgrows : toRat lane.child.elapsed ≤ toRat (lane.ticked y).child.elapsed :=
          helapsed ▸ toRat_le_nearest hnonneg (le_add_of_nonneg_right hyv)
        rw [distance_of_going hstill, distance_of_going hgoing, hduration]
        exact Nat.succ_le_succ (Nat.sub_le_sub_left (units_le_units hgrows) _)

/-- Each tick brings a move nearer to its end, if ticks get it there. -/
theorem Clocked.distance_ticked_lt (h : lane.Clocked true) (hfinite : dt.isFinite)
    (hdt : 0 < toRat dt) (hends : lane.Ends dt) (hstill : (lane.ticked dt).finished = false) :
    (lane.ticked dt).distance < lane.distance := by
  have hgoing : lane.finished = false := by
    rw [← Bool.not_eq_true]
    intro hover
    rw [ticked_of_finished hover, hover] at hstill
    cases hstill
  obtain ⟨-, hnonneg⟩ := h.elapsed_finite hgoing
  rcases h.ticked_cases hgoing hfinite hdt.le with
    ⟨-, hover⟩ | ⟨hbehind, -, hduration, helapsed⟩
  · rw [hover] at hstill
    cases hstill
  · -- the move is not over in this tick, and so its duration is within the horizon
    have hwithin : toRat lane.child.duration ≤ horizon dt := by
      have hreach := hends.resolve_left (Bool.eq_false_iff.mp hgoing)
      exact (le_max_iff.mp hreach).resolve_right (not_le.mpr hbehind)
    have hnear : toRat lane.child.elapsed < horizon dt := by
      have hle := toRat_le_nearest hnonneg (le_add_of_nonneg_right hdt.le)
      exact (hle.trans_lt hbehind).trans_le hwithin
    have hgrows : toRat lane.child.elapsed < toRat (lane.ticked dt).child.elapsed :=
      helapsed ▸ lt_nearest_add hnonneg hdt hnear
    rw [← helapsed, ← hduration] at hbehind
    have hstep := units_lt_units hnonneg hgrows
    have hleft := units_lt_units (hnonneg.trans hgrows.le) hbehind
    rw [distance_of_going hstill, distance_of_going hgoing, ← hduration]
    omega

end Lane

/-! ## Groups -/

variable {H : Type}

namespace Group

/-- A group of moves that plays. -/
inductive Playing : Group α → Prop
  | moves {lane : Property → Lane Timing} (clocks : ∀ p, (lane p).Clocked true) :
      Playing (.advance (.ofLanes lane true))

/-- A group of moves of which none has been given time. -/
structure Poised (g : Group α) : Prop where
  clocked : g.Clocked
  fresh : ∀ lane ∈ g.lanes, lane.finished = false ∧ lane.child.elapsed = 0

/-- Ticks of `dt` get the group to its end. -/
def Ends (dt : Float32) (g : Group α) : Prop :=
  ∀ lane ∈ g.lanes, lane.Ends dt

/-- How many steps of its clocks a group is away from being over. -/
def distance (g : Group α) : ℕ :=
  (g.lanes.map Lane.distance).sum + 1

section Moves

variable (lane : Property → Lane Timing) (running : Bool)

theorem lanes_moves :
    lanes (.advance (.ofLanes lane running) : Group α) = Property.all.map lane := rfl

theorem forall_lanes_moves {P : Lane Timing → Prop} :
    (∀ l ∈ lanes (.advance (.ofLanes lane running) : Group α), P l) ↔ ∀ p, P (lane p) := by
  rw [lanes_moves, List.forall_mem_map]
  exact ⟨fun h p => h p (Property.mem_all p), fun h p _ => h p⟩

theorem distance_moves :
    distance (.advance (.ofLanes lane running) : Group α) =
      (Property.all.map fun p => (lane p).distance).sum + 1 := by
  rw [distance, lanes_moves, List.map_map]
  rfl

end Moves

variable [Animation α (Stage H)] {g : Group α}

theorem Playing.clocked (h : g.Playing) : g.Clocked := by
  cases h with
  | moves clocks => exact .moves true clocks

/-- What a tick, or a part of one, does to a group that plays. -/
theorem Playing.tick (h : g.Playing) (hfinite : dt.isFinite) (hdt : 0 < toRat dt) (hy : 0 ≤ y)
    (hle : y ≤ dt) (hpart : y = dt ∨ ∀ lane ∈ g.lanes, toRat lane.child.elapsed ≤ horizon dt)
    (s : Stage H) :
    let result := Animation.update y g s
    (∃ leftover, result.1 = .finished leftover ∧ 0 ≤ leftover ∧ leftover ≤ y ∧ g.Ends dt) ∨
      (result.1 = .running ∧ result.2.1.Playing ∧ (result.2.1.Ends dt ↔ g.Ends dt) ∧
        result.2.1.distance ≤ g.distance ∧
        (y = dt → g.Ends dt → result.2.1.distance < g.distance)) := by
  obtain ⟨hfy, hvy, hley⟩ := finite_of_le hy hle hfinite
  cases h with
  | @moves lane clocks =>
      rw [forall_lanes_moves] at hpart
      have hends : ∀ p, ((lane p).ticked y).Ends dt ↔ (lane p).Ends dt := fun p =>
        (clocks p).ends_ticked hdt hfy hvy hley (hpart.imp_right fun hnear => hnear p)
      obtain ⟨running, hupdate, hrunning⟩ := update_moves α lane s y
      rw [hupdate]
      cases running with
      | false =>
          obtain ⟨hnonneg, hleft⟩ := Parallel.surplus_bounds hy lane
          refine .inl ⟨_, rfl, hnonneg, hleft, (forall_lanes_moves _ _).mpr fun p => ?_⟩
          exact (hends p).mp (.inl (hrunning.mp rfl p))
      | true =>
          refine .inr ⟨rfl, .moves fun p => (clocks p).ticked y, ?_, ?_, ?_⟩
          · unfold Ends
            rw [forall_lanes_moves, forall_lanes_moves]
            exact forall_congr' hends
          · rw [distance_moves, distance_moves]
            exact Nat.succ_le_succ
              (List.sum_le_sum fun p _ => (clocks p).distance_ticked_le hfy hvy)
          · rintro rfl hall
            have hall := (forall_lanes_moves _ _).mp hall
            obtain ⟨p, hp⟩ : ∃ p, ((lane p).ticked y).finished = false := by
              simpa using mt hrunning.mpr
            rw [distance_moves, distance_moves]
            have hnear := (clocks p).distance_ticked_lt hfinite hdt (hall p) hp
            refine Nat.succ_lt_succ (List.sum_lt_sum _ _ (fun p _ => ?_) ⟨p, p.mem_all, hnear⟩)
            exact (clocks p).distance_ticked_le hfy hvy

/-- A start gives no time to a group. -/
theorem Poised.start (h : g.Poised) (s : Stage H) :
    (Animation.start g s).1.Playing ∧ (Animation.start g s).1.Poised ∧
      (∀ dt, (Animation.start g s).1.Ends dt ↔ g.Ends dt) ∧
      (Animation.start g s).1.distance = g.distance := by
  obtain ⟨hclocked, hfresh⟩ := h
  cases hclocked with
  | @moves lane running clocks =>
      rw [forall_lanes_moves] at hfresh
      rw [start_moves]
      have hplays : ∀ p, ((lane p).started (s.1.get (lane p).child.driver)).Clocked true :=
        fun p => (clocks p).started _
      refine ⟨.moves hplays, ⟨.moves true hplays, ?_⟩, fun dt => ?_, ?_⟩
      · rw [forall_lanes_moves]
        intro p
        obtain ⟨hfinished, helapsed, -⟩ :=
          (lane p).clock_started (s.1.get (lane p).child.driver)
        exact ⟨hfinished.trans (hfresh p).1, helapsed.trans (hfresh p).2⟩
      · unfold Ends
        rw [forall_lanes_moves, forall_lanes_moves]
        exact forall_congr' fun p => Lane.ends_started _
      · rw [distance_moves, distance_moves]
        simp only [Lane.distance_started]

end Group

/-! ## Groups in turn -/

/-- The groups that are not over, while the first of them plays. -/
inductive Lined : List (Group α) → Prop
  | nil : Lined []
  | cons {g : Group α} {rest : List (Group α)} (plays : g.Playing)
      (poised : ∀ g ∈ rest, g.Poised) : Lined (g :: rest)

/-- Ticks of `dt` get all groups to their ends. -/
def AllEnd (dt : Float32) (l : List (Group α)) : Prop :=
  ∀ g ∈ l, g.Ends dt

/-- How many steps of clocks some groups are away from being over. -/
def totalDistance (l : List (Group α)) : ℕ :=
  (l.map Group.distance).sum

/-- What a tick, or a part of one, leaves of the groups that are not over. -/
structure Nears (dt y : Float32) (l l' : List (Group α)) : Prop where
  lined : Lined l'
  ends : AllEnd dt l' ↔ AllEnd dt l
  distance_le : totalDistance l' ≤ totalDistance l
  /-- A whole tick brings them nearer to their ends, if ticks get them there. -/
  distance_lt : y = dt → AllEnd dt l → totalDistance l' < totalDistance l

theorem allEnd_cons {g : Group α} {rest : List (Group α)} :
    AllEnd dt (g :: rest) ↔ g.Ends dt ∧ AllEnd dt rest :=
  List.forall_mem_cons

theorem totalDistance_cons (g : Group α) (rest : List (Group α)) :
    totalDistance (g :: rest) = g.distance + totalDistance rest :=
  rfl

namespace Nears

variable {g g' : Group α} {rest l : List (Group α)}

/-- The first group still plays. -/
theorem stay (hplays : g'.Playing) (hrest : ∀ b ∈ rest, b.Poised) (hends : g'.Ends dt ↔ g.Ends dt)
    (hle : g'.distance ≤ g.distance) (hlt : y = dt → g.Ends dt → g'.distance < g.distance) :
    Nears dt y (g :: rest) (g' :: rest) where
  lined := .cons hplays hrest
  ends := by rw [allEnd_cons, allEnd_cons, hends]
  distance_le := Nat.add_le_add_right hle _
  distance_lt htick hall := Nat.add_lt_add_right (hlt htick (allEnd_cons.mp hall).1) _

/-- The first group is over. -/
theorem pass (hends : g.Ends dt) (hlined : Lined l) (hall : AllEnd dt l ↔ AllEnd dt rest)
    (hle : totalDistance l ≤ totalDistance rest) : Nears dt y (g :: rest) l := by
  have hlt : totalDistance l < totalDistance (g :: rest) := by
    rw [totalDistance_cons, Group.distance]
    omega
  exact {
    lined := hlined
    ends := by rw [hall, allEnd_cons, and_iff_right hends]
    distance_le := hlt.le
    distance_lt := fun _ _ => hlt }

end Nears

variable [Animation α (Stage H)]

/-- One tick of the groups that are not over. -/
theorem nears_advance (hfinite : dt.isFinite) (hdt : 0 < toRat dt) {g : Group α}
    {rest : List (Group α)} (hg : g.Playing) (hrest : ∀ b ∈ rest, b.Poised) (hy : 0 ≤ y)
    (hle : y ≤ dt) (hpart : y = dt ∨ ∀ lane ∈ g.lanes, toRat lane.child.elapsed ≤ horizon dt)
    (s : Stage H) :
    let step := Sequence.advance y g rest s
    Nears dt y (g :: rest) (step.children.drop step.passed) := by
  -- the next group is given a part of the tick, and so the tick has to be general
  induction rest generalizing y g s with
  | nil =>
      rcases hg.tick hfinite hdt hy hle hpart s with
        ⟨leftover, hfinished, -, -, hends⟩ | ⟨hgo, hplays, hends, hnear, hnearer⟩
      · rw [Sequence.advance_nil hfinished]
        exact .pass hends .nil Iff.rfl le_rfl
      · rw [Sequence.advance_of_not_finished (by rw [hgo]; rfl)]
        exact .stay hplays hrest hends hnear hnearer
  | cons next rest ih =>
      rcases hg.tick hfinite hdt hy hle hpart s with
        ⟨leftover, hfinished, hnonneg, hleft, hends⟩ | ⟨hgo, hplays, hends, hnear, hnearer⟩
      · rw [Sequence.advance_cons hfinished]
        obtain ⟨hnext, hbehind⟩ := List.forall_mem_cons.mp hrest
        obtain ⟨hplays, hpoised, hsame, hdistance⟩ := hnext.start (Animation.update y g s).2.2
        have hwithin : ∀ lane ∈ (Animation.start next (Animation.update y g s).2.2).1.lanes,
            toRat lane.child.elapsed ≤ horizon dt := by
          intro lane hlane
          rw [(hpoised.fresh lane hlane).2, toRat_zero]
          exact (hdt.trans_le (toRat_le_horizon hdt)).le
        have htail := ih hplays hbehind hnonneg (le_trans_number hleft hle) (.inr hwithin)
          (Animation.start next (Animation.update y g s).2.2).2
        refine .pass hends htail.lined ?_ ?_
        · exact htail.ends.trans (by rw [allEnd_cons, allEnd_cons, hsame])
        · refine htail.distance_le.trans (le_of_eq ?_)
          rw [totalDistance_cons, totalDistance_cons, hdistance]
      · rw [Sequence.advance_of_not_finished (by rw [hgo]; rfl)]
        exact .stay hplays hrest hends hnear hnearer

/-! ## Timelines -/

/-- The course of animations of which there are none. -/
def Course.nowhere : Course α :=
  fun _ _ _ => False

theorem Course.lawful_nowhere : (nowhere : Course α).Lawful (Stage H) :=
  ⟨nofun, nofun, nofun, nofun, nofun, nofun, nofun, nofun, nofun, nofun⟩

/-- No step of the script gives a property more time than so many milliseconds. -/
def Script.Within {ε : Type} (limit : ℚ) (script : Script ε) : Prop :=
  ∀ c, .configure c ∈ script.spec.flatten → ∀ p, toRat (c.durationOf script.config p) ≤ limit

namespace Timeline

/-- The groups that are not over. -/
def ahead (t : Timeline H α) : List (Group α) :=
  t.sequence.children.drop t.currentGroup

variable {t : Timeline H α} {s : Stage H}

theorem nears_ahead (hcoherent : t.Coherent) (hstate : t.state = .running)
    (hlined : Lined t.ahead) (hlt : t.currentGroup < t.groupCount) (hfinite : dt.isFinite)
    (hdt : 0 < dt) (s : Stage H) : Nears dt dt t.ahead (t.update dt s).2.1.ahead := by
  obtain ⟨a, rest, hdrop⟩ := Sequence.exists_drop_eq hlt
  have hahead : t.ahead = a :: rest := hdrop
  have hafter : (t.update dt s).2.1.ahead =
      (Sequence.advance dt a rest s).children.drop (Sequence.advance dt a rest s).passed := by
    have hcut : (t.sequence.children.take t.sequence.cursor).length = t.sequence.cursor :=
      List.length_take_of_le hcoherent.within
    rw [update_of_running hstate]
    dsimp only
    rw [Sequence.update_of_drop (hcoherent.running.mp hstate) hdrop]
    change List.drop (t.sequence.cursor + _) (List.take _ _ ++ _) = _
    rw [← List.drop_drop, List.drop_left' hcut]
  rw [hafter, hahead]
  rw [hahead] at hlined
  cases hlined with
  | cons hplays hpoised =>
      have hpos := toRat_pos hfinite hdt
      have hnonneg : 0 ≤ dt := (zero_le_iff dt).mpr (.inr ⟨hfinite, hpos.le⟩)
      exact nears_advance hfinite hpos hplays hpoised hnonneg
        (le_refl_number (isNaN_of_isFinite hfinite)) (.inl rfl) s

/-- One tick of a timeline at play: it is over, and all its groups come to their ends, or it goes
on, with the groups ahead nearer to theirs. -/
theorem tick_ahead (hcoherent : t.Coherent) (hstate : t.state = .running)
    (hlined : Lined t.ahead) (hfinite : dt.isFinite) (hdt : 0 < dt) (s : Stage H) :
    let after := (t.update dt s).2.1
    (after.state = .completed ∧ AllEnd dt t.ahead) ∨
      (after.state = .running ∧ Nears dt dt t.ahead after.ahead) := by
  obtain ⟨hcount, hforward, -, hends⟩ := hcoherent.update_of_running hstate dt s
  rcases Nat.lt_or_eq_of_le hcoherent.within with hlt | hend
  · have hnears := nears_ahead hcoherent hstate hlined hlt hfinite hdt s
    rcases hends with ⟨leftover, -, hcompleted, hcursor⟩ | ⟨-, hrunning, -⟩
    · refine .inl ⟨hcompleted, hnears.ends.mp ?_⟩
      have hnone : (t.update dt s).2.1.ahead = [] :=
        List.drop_eq_nil_of_le (Nat.le_of_eq (hcount.trans hcursor.symm))
      rw [hnone]
      nofun
    · exact .inr ⟨hrunning, hnears⟩
  · rcases hends with ⟨leftover, -, hcompleted, -⟩ | ⟨-, -, hcursor⟩
    · refine .inl ⟨hcompleted, ?_⟩
      have hnone : t.ahead = [] := List.drop_eq_nil_of_le (Nat.le_of_eq hend.symm)
      rw [hnone]
      nofun
    · exact absurd (hend ▸ hforward) (Nat.not_le_of_lt hcursor)

/-- Equal ticks get a timeline at play to its end if and only if they do so with all its moves. -/
theorem completes_ahead (hcoherent : t.Coherent) (hstate : t.state = .running)
    (hlined : Lined t.ahead) (hfinite : dt.isFinite) (hdt : 0 < dt) (s : Stage H) :
    (∃ n, (Animation.run (List.replicate n (.update dt)) t s).2.1.state = .completed) ↔
      AllEnd dt t.ahead := by
  constructor
  · rintro ⟨n, hn⟩
    induction n generalizing t s with
    | zero =>
        change t.state = .completed at hn
        rw [hstate] at hn
        cases hn
    | succ n ih =>
        rcases tick_ahead hcoherent hstate hlined hfinite hdt s with
          ⟨-, hall⟩ | ⟨hrunning, hnears⟩
        · exact hall
        · exact hnears.ends.mp (ih (hcoherent.update dt s) hrunning hnears.lined _ hn)
  · intro hall
    -- the groups ahead come nearer to their ends with every tick
    induction hdistance : totalDistance t.ahead using Nat.strong_induction_on generalizing t s with
    | h k ih =>
        rcases tick_ahead hcoherent hstate hlined hfinite hdt s with
          ⟨hcompleted, -⟩ | ⟨hrunning, hnears⟩
        · exact ⟨1, hcompleted⟩
        · obtain ⟨n, hn⟩ := ih _ (hdistance ▸ hnears.distance_lt rfl hall)
            (hcoherent.update dt s) hrunning hnears.lined (t.update dt s).2.2
            (hnears.ends.mpr hall) rfl
          exact ⟨n + 1, hn⟩

/-! ## What calls lead to -/

theorem poised_of_halted {g : Group α} (hclocked : g.Clocked)
    (h : Course.nowhere.group .halted g g) : g.Poised := by
  refine ⟨hclocked, ?_⟩
  rcases h with ⟨moves, moves', rfl, hsame, hmoves⟩ | ⟨_, _, _, _, hnowhere⟩
  · cases hsame
    intro lane hlane
    cases List.forall₂_same.mp hmoves.lanes lane hlane with
    | going _ hmove => exact ⟨rfl, (congrArg Timing.elapsed hmove.built).symm⟩
  · exact hnowhere.elim

theorem playing_of_course {g₀ g : Group α} (hclocked : g.Clocked)
    (h : Course.nowhere.group .playing g₀ g) : g.Playing := by
  rcases h with ⟨moves₀, moves, rfl, rfl, hmoves⟩ | ⟨_, _, _, _, hnowhere⟩
  · cases hclocked with
    | moves running clocks =>
        obtain rfl : running = true := hmoves.running
        exact .moves clocks
  · exact hnowhere.elim

variable {script : Script (Embedded (Stage H) α)} {s₀ : Stage H}

theorem Reaches.lined (hscript : script.Configures)
    (h : Reaches (build script s₀).1 (build script s₀).2 t s) (hstate : t.state = .running) :
    Lined t.ahead := by
  have hbuilt : OnCourse .nowhere .halted (build script s₀).1 (build script s₀).1 := by
    refine onCourse_build (fun e he => ?_) s₀
    obtain ⟨c, hc⟩ := hscript _ he
    cases hc
  obtain ⟨x, hcourse⟩ := (lawful_onCourse Course.lawful_nowhere).descends h.descends hbuilt
  obtain rfl : x = .playing := Standing.state_eq_running.mp (hcourse.state ▸ hstate)
  unfold ahead currentGroup
  rcases hcourse.sequence.row.cases_drop with
    ⟨-, hnone, -⟩ | ⟨g, rest, -, hdrop, -, ⟨g₀, -, hg⟩, hrest⟩
  · rw [hnone]
    exact .nil
  · have hmem : ∀ b ∈ g :: rest, b.Clocked :=
      fun b hb => h.clocked_of_mem hscript (List.mem_of_mem_drop (hdrop ▸ hb))
    rw [hdrop]
    refine .cons (playing_of_course (hmem g List.mem_cons_self) hg) fun b hb => ?_
    obtain ⟨i, hi⟩ := List.mem_iff_getElem?.mp hb
    exact poised_of_halted (hmem b (List.mem_cons_of_mem _ hb))
      (Along.iff_getElem?.mp hrest i b hi).2

/-- The moves of a group have the durations of its step. -/
theorem Reaches.moves_of_step (hscript : script.Configures)
    (h : Reaches (build script s₀).1 (build script s₀).2 t s) {i : ℕ} {g : Group α}
    (hg : t.sequence.children[i]? = some g) :
    ∃ c lane running, script.spec.flatten[i]? = some (.configure c) ∧
      g = .advance (.ofLanes lane running) ∧
      ∀ p, (lane p).child.duration = c.durationOf script.config p := by
  obtain ⟨hplays, rfl⟩ := h.plays_of_configures hscript
  obtain ⟨step, hstep, hcarries⟩ := hplays.along.of_getElem? hg
  cases hcarries with
  | @advance advances lane running follows _ =>
      obtain ⟨c, hc, hspec⟩ := t.script.advance_spec hstep
      exact ⟨c, lane, running, hc, rfl, fun p => (follows p).duration.trans (hspec p).2.1⟩
  | embed e _ =>
      obtain ⟨advances, hadvance, -⟩ := hscript.advance (List.mem_of_getElem? hstep)
      cases hadvance

theorem Reaches.exists_moves (hscript : script.Configures)
    (h : Reaches (build script s₀).1 (build script s₀).2 t s) {i : ℕ} {c : StepConfig}
    (hc : script.spec.flatten[i]? = some (.configure c)) :
    ∃ lane running, t.sequence.children[i]? = some (.advance (.ofLanes lane running)) ∧
      ∀ p, (lane p).child.duration = c.durationOf script.config p := by
  obtain ⟨g, hg⟩ : ∃ g, t.sequence.children[i]? = some g := by
    obtain ⟨hplays, rfl⟩ := h.plays_of_configures hscript
    have hlength : t.sequence.children.length = t.script.spec.flatten.length :=
      hplays.length.trans t.script.length_steps
    obtain ⟨hlt, -⟩ := List.getElem?_eq_some_iff.mp hc
    exact ⟨_, List.getElem?_eq_getElem (hlength ▸ hlt)⟩
  obtain ⟨c', lane, running, hc', rfl, hduration⟩ := h.moves_of_step hscript hg
  cases hc.symm.trans hc'
  exact ⟨lane, running, hg, hduration⟩

theorem Reaches.allEnd (hscript : script.Configures)
    (h : Reaches (build script s₀).1 (build script s₀).2 t s)
    (hwithin : script.Within (horizon dt)) : AllEnd dt t.ahead := by
  intro g hg
  obtain ⟨i, hi⟩ := List.mem_iff_getElem?.mp (List.mem_of_mem_drop hg)
  obtain ⟨c, lane, running, hc, rfl, hduration⟩ := h.moves_of_step hscript hi
  unfold Group.Ends
  rw [Group.forall_lanes_moves]
  intro p
  refine .inr ((le_of_eq (congrArg toRat (hduration p))).trans ?_)
  exact (hwithin c (List.mem_of_getElem? hc) p).trans (le_max_left _ _)

/-- A timeline that has just been started for the first time. -/
theorem poised_start (hscript : script.Configures) (s₀ : Stage H) :
    let t := ((build script s₀).1.start (build script s₀).2).1
    t.state = .running ∧ t.ahead = t.sequence.children ∧ ∀ g ∈ t.ahead, g.Poised := by
  have hidle : (build script s₀).1.state ≠ .completed := nofun
  have hbuilt : Along (fun _ g => Group.Poised g) 0 (build script s₀).1.sequence.children := by
    have hreaches : Reaches (build script s₀).1 (build script s₀).2 _ _ := .refl
    refine Along.iff_getElem?.mpr fun i g hg => ?_
    have hmem := List.mem_of_getElem? hg
    refine poised_of_halted (hreaches.clocked_of_mem hscript hmem) ?_
    refine course_buildGroups (fun e he => ?_) _ g hmem
    obtain ⟨advances, hadvance, -⟩ := hscript.advance he
    cases hadvance
  rw [start_of_not_completed hidle]
  have hstarted := hbuilt.visitAt (f := Animation.start)
    (fun _ g (s : Stage H) hg => (hg.start s).2.1) 0 (build script s₀).2
  refine ⟨rfl, rfl, fun g hg => ?_⟩
  obtain ⟨i, hi⟩ := List.mem_iff_getElem?.mp hg
  exact hstarted.of_getElem? hi

/-- Equal ticks of a timeline that has just been started lead to its end if and only if all its
durations are within the horizon. -/
theorem start_completes_iff (script : Script (Embedded (Stage H) α)) (s₀ : Stage H)
    (hscript : script.Configures) (hfinite : dt.isFinite) (hdt : 0 < dt) :
    let started := (build script s₀).1.start (build script s₀).2
    (∃ n, (Animation.run (List.replicate n (.update dt)) started.1 started.2).2.1.state =
        .completed) ↔ script.Within (horizon dt) := by
  intro started
  have hreaches : Reaches (build script s₀).1 (build script s₀).2 started.1 started.2 :=
    .call .start .refl
  obtain ⟨hstate, hahead, hpoised⟩ := poised_start hscript s₀
  have hcoherent := (coherent_build script s₀).descends hreaches.descends
  rw [completes_ahead hcoherent hstate (hreaches.lined hscript hstate) hfinite hdt]
  refine ⟨fun hall c hc p => ?_, hreaches.allEnd hscript⟩
  obtain ⟨i, hi⟩ := List.mem_iff_getElem?.mp hc
  obtain ⟨lane, running, hg, hduration⟩ := hreaches.exists_moves hscript hi
  have hmem := hahead ▸ List.mem_of_getElem? hg
  obtain ⟨hfinished, helapsed⟩ := (Group.forall_lanes_moves _ _).mp (hpoised _ hmem).fresh p
  have hends := ((Group.forall_lanes_moves _ _).mp (hall _ hmem) p).resolve_left
    (Bool.eq_false_iff.mp hfinished)
  have hpos := toRat_pos hfinite hdt
  have hstill : toRat (lane p).child.elapsed = 0 := by rw [helapsed, toRat_zero]
  rw [hduration p, reach_of_le_horizon hstill.ge hpos (hstill.trans_le
    (hpos.le.trans (toRat_le_horizon hpos)))] at hends
  exact hends

/-- When equal ticks get a timeline of moves to its end, in every state at play that calls lead
to: if and only if each move of the groups ahead is over or does not take longer than its clock
can be brought. For that it is enough that no duration of the script is beyond the horizon of the
tick, which is at `2 ^ 24` of them or more. -/
theorem completes_iff (script : Script (Embedded (Stage H) α)) (s₀ : Stage H)
    (hscript : script.Configures) (h : Reaches (build script s₀).1 (build script s₀).2 t s)
    (hstate : t.state = .running) (hfinite : dt.isFinite) (hdt : 0 < dt) :
    ((∃ n, (Animation.run (List.replicate n (.update dt)) t s).2.1.state = .completed) ↔
      AllEnd dt t.ahead) ∧
    (script.Within (horizon dt) →
      ∃ n, (Animation.run (List.replicate n (.update dt)) t s).2.1.state = .completed) := by
  have hcoherent := (coherent_build script s₀).descends h.descends
  have hiff := completes_ahead hcoherent hstate (h.lined hscript hstate) hfinite hdt s
  exact ⟨hiff, fun hwithin => hiff.mpr (h.allEnd hscript hwithin)⟩

/-- A fade of 300 milliseconds, halfway. -/
theorem completes_iff_fade :
    ∃ (script : Script (Embedded (Stage Unit) Wait)) (t : Timeline Unit Wait) (s : Stage Unit),
      script.Configures ∧ Reaches (build script (.empty, ())).1 (build script (.empty, ())).2 t s ∧
      t.state = .running ∧ (ofCount 16).isFinite ∧ 0 < ofCount 16 ∧
      script.Within (horizon (ofCount 16)) ∧ AllEnd (ofCount 16) t.ahead ∧
      ∃ n, (Animation.run (List.replicate n (.update (ofCount 16))) t s).2.1.state =
        .completed := by
  let script : Script (Embedded (Stage Unit) Wait) :=
    ⟨{ steps := [.configure (.set .empty .opacity { target := .value 0 })] }, {}, _, rfl⟩
  have hflatten : ∀ step ∈ script.spec.flatten,
      step = .configure (.set .empty .opacity { target := .value 0 }) := by
    intro step hstep
    simpa [script, Spec.flatten, Step.flattenAll, Step.flatten] using hstep
  have hscript : script.Configures := fun step hstep => ⟨_, hflatten step hstep⟩
  let built := build script (.empty, ())
  let played := (Animation.run [.start, .update (ofCount 150)] built.1 built.2).2
  have hreaches : Reaches built.1 built.2 played.1 played.2 :=
    .call (.update (ofCount 150)) (.call .start .refl)
  have hstate : played.1.state = .running := by decide +kernel
  have hfinite : (ofCount 16).isFinite := by decide +kernel
  have hdt : 0 < ofCount 16 := by decide +kernel
  have hwithin : script.Within (horizon (ofCount 16)) := by
    intro c hc p
    cases hflatten _ hc
    have hduration : StepConfig.durationOf (.set .empty .opacity { target := .value 0 })
        script.config p = ofCount 300 := by cases p <;> rfl
    have hvalue := (ofCount_isWhole (n := 16) (by norm_num)).value
    have hpos : 0 < toRat (ofCount 16) := by
      rw [hvalue]
      norm_num
    have hfar := two_pow_mul_le_horizon hpos
    rw [hvalue] at hfar
    rw [hduration, (ofCount_isWhole (n := 300) (by norm_num)).value]
    exact le_trans (by norm_num) hfar
  obtain ⟨hiff, hends⟩ := completes_iff script (.empty, ()) hscript hreaches hstate hfinite hdt
  exact ⟨script, played.1, played.2, hscript, hreaches, hstate, hfinite, hdt, hwithin,
    hiff.mp (hends hwithin), hends hwithin⟩

theorem horizon_sixteen : horizon 16 = 2 ^ 28 := by
  have htick : toRat 16 = ((2 : ℕ) : ℚ) ^ (4 : ℤ) := by
    change signed .positive ((2 ^ 23 : ℕ) * 2 ^ (-19 : ℤ)) = _
    norm_num [signed]
  rw [horizon_eq (k := 4) (by rw [htick, Int.clog_zpow (by norm_num)])]
  norm_num

/-- Ticks of 16 milliseconds never lead to the end of a fade of `2 ^ 28 + 64` milliseconds: not
from its start, and not from 64 milliseconds before its end either. -/
theorem endless_fade :
    ∃ (script : Script (Embedded (Stage Unit) Wait)) (t : Timeline Unit Wait) (s : Stage Unit),
      script.Configures ∧ Reaches (build script (.empty, ())).1 (build script (.empty, ())).2 t s ∧
      t.state = .running ∧ (16 : Float32).isFinite ∧ (1 : Float32) ≤ 16 ∧
      (∀ n, (Animation.run (List.replicate n (.update 16)) t s).2.1.state ≠ .completed) ∧
      let started := (build script (.empty, ())).1.start (build script (.empty, ())).2
      ∀ n, (Animation.run (List.replicate n (.update 16)) started.1 started.2).2.1.state ≠
        .completed := by
  let script : Script (Embedded (Stage Unit) Wait) :=
    ⟨{ steps := [.configure (.set .empty .opacity
        { target := .value 0, duration := some 268435520 })] }, {}, _, rfl⟩
  have hscript : script.Configures := by
    intro step hstep
    obtain rfl : step = _ := by
      simpa [script, Spec.flatten, Step.flattenAll, Step.flatten] using hstep
    exact ⟨_, rfl⟩
  let built := build script (.empty, ())
  let played := (Animation.run [.start, .update 268435456] built.1 built.2).2
  have hreaches : Reaches built.1 built.2 played.1 played.2 :=
    .call (.update 268435456) (.call .start .refl)
  have hstate : played.1.state = .running := by decide +kernel
  have hfinite : (16 : Float32).isFinite := by decide +kernel
  have hdt : (0 : Float32) < 16 := by decide +kernel
  have hduration : toRat 268435520 = 2 ^ 28 + 64 := by
    change signed .positive ((2 ^ 23 + 2 : ℕ) * 2 ^ (5 : ℤ)) = _
    norm_num [signed]
  have helapsed : toRat 268435456 = 2 ^ 28 := by
    change signed .positive ((2 ^ 23 : ℕ) * 2 ^ (5 : ℤ)) = _
    norm_num [signed]
  refine ⟨script, played.1, played.2, hscript, hreaches, hstate, hfinite, by decide +kernel,
    fun n hn => ?_, fun n hn => ?_⟩
  · have hcoherent := (coherent_build script (.empty, ())).descends hreaches.descends
    have hall := (completes_ahead hcoherent hstate (hreaches.lined hscript hstate) hfinite hdt
      played.2).mp ⟨n, hn⟩
    obtain ⟨g, hg, lane, hlane, hgoing, hclock, hlong⟩ : ∃ g ∈ played.1.ahead, ∃ lane ∈ g.lanes,
        lane.finished = false ∧ lane.child.elapsed = 268435456 ∧
        lane.child.duration = 268435520 := by decide +kernel
    have hle := (hall g hg lane hlane).resolve_left (Bool.eq_false_iff.mp hgoing)
    rw [hclock, hlong, hduration, reach_of_le_horizon (by rw [helapsed]; norm_num)
      (toRat_pos hfinite hdt) (by rw [helapsed, horizon_sixteen]), horizon_sixteen] at hle
    norm_num at hle
  · have hwithin := (start_completes_iff script (.empty, ()) hscript hfinite hdt).mp ⟨n, hn⟩
    have hle : toRat 268435520 ≤ horizon 16 := hwithin _ List.mem_cons_self .opacity
    rw [hduration, horizon_sixteen] at hle
    norm_num at hle

end Timeline

end Storyboard
