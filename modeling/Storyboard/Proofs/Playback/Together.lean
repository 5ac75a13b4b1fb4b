import Storyboard.Animation.Wait
import Storyboard.Proofs.Numeric.Order
import Storyboard.Proofs.Playback.Course
import Storyboard.Proofs.Playback.Events

/-! # Playing together

The children of a parallel animation play at the same time, whatever they are and whatever is
called. A child that has reported that it is over is flagged, and neither started nor given a
tick until it has been reset. So the flags say nothing but what the children have reported.
-/

namespace Storyboard

variable {α W : Type}

/-! ## Flags -/

namespace Lane

/-- Of the lanes from that index on, those are flagged whose children are over. -/
def Flagged (ended : ℕ → Prop) : ℕ → List (Lane α) → Prop :=
  Along fun i lane => lane.finished = true ↔ ended i

theorem Flagged.ofMatches {β : Type} {M : α → β → Prop} {ended : ℕ → Prop} {i : ℕ}
    {l : List (Lane α)} {l' : List (Lane β)} (h : Flagged ended i l)
    (hmatches : List.Forall₂ (Lane.Matches M) l l') : Flagged ended i l' := by
  induction hmatches generalizing i with
  | nil => trivial
  | cons hlane _ ih => exact ⟨(Bool.eq_iff_iff.mp hlane.finished).symm.trans h.1, ih h.2⟩

theorem Flagged.congr {ended ended' : ℕ → Prop} {i : ℕ} {l : List (Lane α)} (h : Flagged ended i l)
    (hiff : ∀ j, ended j ↔ ended' j) : Flagged ended' i l :=
  h.imp fun j _ hj => hj.trans (hiff j)

/-- What is neither a tick nor a reset has no part in what the flags say. -/
theorem Flagged.append [Animation α W] {β : Type} {c : Call} {who : ℕ → Prop}
    {log events : List (Event α W)} {i : ℕ} {l : List (Lane β)} (h : Flagged (Over log) i l)
    (honce : EachOnce events c who) (hupdate : ∀ dt, c ≠ .update dt) (hreset : c ≠ .reset) :
    Flagged (Over (log ++ events)) i l := by
  refine h.congr fun j => ?_
  rw [honce.over_append hreset, or_iff_left]
  rintro ⟨e, he, hends⟩
  exact honce.not_ends hupdate j e he hends

/-- All children are over if all lanes are flagged. -/
theorem Flagged.all_iff {ended : ℕ → Prop} {l : List (Lane α)} (h : Flagged ended 0 l) :
    l.all (·.finished) = true ↔ ∀ i < l.length, ended i := by
  rw [List.all_eq_true]
  constructor
  · intro hall i hi
    exact (h.of_getElem? (List.getElem?_eq_getElem hi)).mp (hall _ (List.getElem_mem hi))
  · intro hall lane hlane
    obtain ⟨i, hi, rfl⟩ := List.mem_iff_getElem.mp hlane
    exact (h.of_getElem? (List.getElem?_eq_getElem hi)).mpr (hall i hi)

/-- Puts the children of lanes under observation; the first has that index. -/
def number : ℕ → List (Lane α) → List (Lane (Observed α))
  | _, [] => []
  | i, lane :: rest => ⟨⟨i, lane.child⟩, lane.finished⟩ :: number (i + 1) rest

theorem length_number (i : ℕ) (l : List (Lane α)) : (number i l).length = l.length := by
  induction l generalizing i with
  | nil => rfl
  | cons lane l ih => exact congrArg (· + 1) (ih (i + 1))

theorem forall₂_number (i : ℕ) (l : List (Lane α)) :
    List.Forall₂ (Lane.Matches fun (o : Observed α) a => o.inner = a) (number i l) l := by
  induction l generalizing i with
  | nil => exact .nil
  | cons lane l ih => exact .cons ⟨rfl, rfl⟩ (ih (i + 1))

/-- What is known of the lanes is their index, and whether they are flagged. -/
theorem along_number {ended : ℕ → Prop} {i : ℕ} {l : List (Lane α)} (h : Flagged ended i l) :
    Along (fun j (lane : Lane (Observed α)) =>
      lane.child.index = j ∧ (lane.finished = true ↔ ended j)) i (number i l) := by
  induction l generalizing i with
  | nil => trivial
  | cons lane l ih => exact ⟨⟨rfl, h.1⟩, ih h.2⟩

end Lane

/-! ## One tick -/

/-- What a tick does to the `n` lanes from index `i` on, of which those are flagged whose
children are over. It comes with what the children before them have left over. -/
structure Shared [Animation α W] {β : Type} (dt : Float32) (ended : ℕ → Prop) (i n : ℕ)
    (leftover : Float32) (events : List (Event α W)) (leftover' : Float32)
    (lanes : List (Lane β)) : Prop where
  once : EachOnce events (.update dt) fun j => i ≤ j ∧ j < i + n ∧ ¬ ended j
  leftover : leftover' = (leftovers events).foldl minNumber leftover
  flagged : Lane.Flagged (fun j => ended j ∨ ∃ e ∈ events, e.Ends j) i lanes

namespace Shared

variable [Animation α W] {β : Type} {dt leftover leftover' : Float32} {ended : ℕ → Prop} {i n : ℕ}
  {e : Event α W} {events : List (Event α W)} {lane : Lane β} {lanes : List (Lane β)}

theorem nil : Shared dt ended i 0 leftover ([] : List (Event α W)) leftover ([] : List (Lane β)) :=
  ⟨.nil fun j => by omega, rfl, trivial⟩

/-- A flagged lane is put in front. -/
theorem skip (h : Shared dt ended (i + 1) n leftover events leftover' lanes) (hover : ended i)
    (hfinished : lane.finished = true) :
    Shared dt ended i (n + 1) leftover events leftover' (lane :: lanes) where
  once := by
    refine h.once.congr fun j => ⟨fun ⟨hle, hlt, hj⟩ => ⟨by omega, by omega, hj⟩, ?_⟩
    rintro ⟨hle, hlt, hj⟩
    have hne : j ≠ i := by
      rintro rfl
      exact hj hover
    exact ⟨by omega, by omega, hj⟩
  leftover := h.leftover
  flagged := ⟨iff_of_true hfinished (.inl hover), h.flagged⟩

/-- A lane that is given the tick is put in front. -/
theorem give
    (h : Shared dt ended (i + 1) n (e.leftover?.elim leftover (minNumber leftover)) events leftover'
      lanes)
    (hgoing : ¬ ended i) (honce : EachOnce [e] (.update dt) (· = i))
    (hfinished : lane.finished = e.leftover?.isSome) :
    Shared dt ended i (n + 1) leftover (e :: events) leftover' (lane :: lanes) where
  once := by
    refine (honce.append h.once fun j k hj hk => by omega).congr fun j => ?_
    constructor
    · rintro (rfl | ⟨hle, hlt, hj⟩)
      · exact ⟨Nat.le_refl _, by omega, hgoing⟩
      · exact ⟨by omega, by omega, hj⟩
    · rintro ⟨hle, hlt, hj⟩
      rcases Nat.eq_or_lt_of_le hle with heq | hlt'
      · exact .inl heq.symm
      · exact .inr ⟨hlt', by omega, hj⟩
  leftover := by
    rw [h.leftover, leftovers, leftovers, List.filterMap_cons]
    cases e.leftover? <;> rfl
  flagged := by
    have hchild : e.child = i := honce.who_child (List.mem_singleton_self e)
    -- what comes after it is about the lanes behind it
    have hafter : ∀ e' ∈ events, i + 1 ≤ e'.child := fun e' he' => (h.once.who_child he').1
    refine ⟨?_, Along.imp_of_le (fun j lane' hj hlane' => hlane'.trans ?_) h.flagged⟩
    · change lane.finished = true ↔ ended i ∨ ∃ e' ∈ e :: events, e'.Ends i
      rw [hfinished, List.exists_mem_cons_iff, or_iff_right hgoing]
      refine ⟨fun hsome => .inl ⟨hchild, hsome⟩, ?_⟩
      rintro (hends | ⟨e', he', hends⟩)
      · exact hends.2
      · have hlt := hends.1 ▸ hafter e' he'
        omega
    · have hends : ¬ e.Ends j := by
        rintro ⟨heq, -⟩
        omega
      simp only [List.exists_mem_cons_iff, or_iff_right hends]

end Shared

/-! ## Parallel animations under observation -/

namespace Parallel

variable [Animation α W]

theorem updateLanes_of_flagged {dt leftover : Float32} {lane : Lane α} {rest : List (Lane α)}
    {w : W} (h : lane.finished = true) :
    updateLanes dt leftover (lane :: rest) w =
      let tail := updateLanes dt leftover rest w
      { tail with lanes := lane :: tail.lanes } :=
  if_pos h

theorem updateLanes_of_not_flagged {dt leftover : Float32} {lane : Lane α} {rest : List (Lane α)}
    {w : W} (h : ¬ lane.finished = true) :
    updateLanes dt leftover (lane :: rest) w =
      let (tick, child, w) := Animation.update dt lane.child w
      let tail := updateLanes dt (tick.leftover?.elim leftover (minNumber leftover)) rest w
      { tail with lanes := ⟨child, tick.leftover?.isSome⟩ :: tail.lanes } := by
  rw [updateLanes, if_neg h]
  generalize Animation.update dt lane.child w = result
  obtain ⟨tick, child, w'⟩ := result
  cases tick <;> rfl

theorem length_updateLanes (dt leftover : Float32) (l : List (Lane α)) (w : W) :
    (updateLanes dt leftover l w).lanes.length = l.length := by
  induction l generalizing leftover w with
  | nil => rfl
  | cons lane l ih =>
      by_cases hfinished : lane.finished = true
      · rw [updateLanes_of_flagged hfinished]
        exact congrArg (· + 1) (ih _ _)
      · rw [updateLanes_of_not_flagged hfinished]
        exact congrArg (· + 1) (ih _ _)

/-- A tick reaches children that are not flagged, as they are. -/
theorem before_of_mem_updateLanes {l : List (Lane (Observed α))} {dt leftover : Float32}
    {v : W × List (Event α W)} {e : Event α W}
    (he : e ∈ (updateLanes dt leftover l v).world.2) :
    e ∈ v.2 ∨ ∃ lane ∈ l, lane.finished = false ∧ e.before = lane.child.inner := by
  induction l generalizing leftover v with
  | nil => exact .inl he
  | cons lane l ih =>
      have hrest : ∀ {leftover : Float32} {v : W × List (Event α W)},
          e ∈ (updateLanes dt leftover l v).world.2 →
          e ∈ v.2 ∨ ∃ other ∈ lane :: l, other.finished = false ∧
            e.before = other.child.inner := by
        intro leftover v he
        exact (ih he).imp_right fun ⟨other, hother, hgoing⟩ => ⟨other, .tail _ hother, hgoing⟩
      by_cases hfinished : lane.finished = true
      · rw [updateLanes_of_flagged hfinished] at he
        exact hrest he
      · rw [updateLanes_of_not_flagged hfinished] at he
        rcases hrest he with he | hother
        · rcases List.mem_append.mp he with he | he
          · exact .inl he
          · refine .inr ⟨lane, List.mem_cons_self, by simpa using hfinished, ?_⟩
            rw [List.mem_singleton.mp he]
            rfl
        · exact .inr hother

/-- What no call takes from a child stays true of all children of a parallel animation. -/
theorem along_updateLanes {known : ℕ → α → Prop}
    (hknown : ∀ i a dt (w : W), known i a → known i (Animation.update dt a w).2.1) {i : ℕ}
    {l : List (Lane α)} (h : Along (fun i lane => known i lane.child) i l) (dt leftover : Float32)
    (w : W) : Along (fun i lane => known i lane.child) i (updateLanes dt leftover l w).lanes := by
  induction l generalizing i leftover w with
  | nil => trivial
  | cons lane l ih =>
      by_cases hfinished : lane.finished = true
      · rw [updateLanes_of_flagged hfinished]
        exact ⟨h.1, ih h.2 _ _⟩
      · rw [updateLanes_of_not_flagged hfinished]
        exact ⟨hknown _ _ _ _ h.1, ih h.2 _ _⟩

theorem lanes_update_of_running {p : Parallel α} (hrunning : p.running = true) (dt : Float32)
    (w : W) : (Animation.update dt p w).2.1.lanes = (updateLanes dt dt p.lanes w).lanes := by
  rw [update_of_running hrunning]
  dsimp only
  split <;> rfl

theorem along_perform {known : ℕ → α → Prop}
    (hknown : ∀ i a (c : Call) (w : W), known i a → known i (Animation.perform c a w).2.1)
    {p : Parallel α} (h : Along (fun i lane => known i lane.child) 0 p.lanes) (c : Call) (w : W) :
    Along (fun i lane => known i lane.child) 0 (Animation.perform c p w).2.1.lanes := by
  cases c with
  | start =>
      have hstart : ∀ i (lane : Lane α) (w : W), known i lane.child → True →
          known i (startLane lane w).1.child ∧ True := by
        intro i lane w hlane _
        unfold startLane
        split
        · exact ⟨hlane, trivial⟩
        · exact ⟨hknown i lane.child .start w hlane, trivial⟩
      exact (Along.visitAll hstart h trivial).1
  | update dt =>
      change Along _ 0 (Animation.update dt p w).2.1.lanes
      by_cases hrunning : p.running = true
      · rw [lanes_update_of_running hrunning]
        exact along_updateLanes (fun i a dt w ha => hknown i a (.update dt) w ha) h dt dt w
      · rw [Bool.not_eq_true] at hrunning
        rw [update_of_halted hrunning]
        exact h
  | stop =>
      have hstop : ∀ i (lane : Lane α) (w : W), known i lane.child → True →
          known i (stopLane lane w).1.child ∧ True :=
        fun i lane w hlane _ => ⟨hknown i lane.child .stop w hlane, trivial⟩
      exact (Along.visitAll hstop h trivial).1
  | reset =>
      have hreset : ∀ i (lane : Lane α) (w : W), known i lane.child → True →
          known i (resetLane lane w).1.child ∧ True :=
        fun i lane w hlane _ => ⟨hknown i lane.child .reset w hlane, trivial⟩
      exact (Along.visitAll hreset h trivial).1

/-- A tick reaches the children that are not flagged. -/
theorem exists_shared_updateLanes {ended : ℕ → Prop} {i : ℕ} {l : List (Lane (Observed α))}
    (h : Along (fun j (lane : Lane (Observed α)) =>
      lane.child.index = j ∧ (lane.finished = true ↔ ended j)) i l)
    (dt leftover : Float32) (v : W × List (Event α W)) :
    let tick := updateLanes dt leftover l v
    ∃ events, tick.world.2 = v.2 ++ events ∧
      Shared dt ended i l.length leftover events tick.leftover tick.lanes := by
  -- what is left over so far is handed on from lane to lane
  induction l generalizing i leftover v with
  | nil => exact ⟨[], (List.append_nil _).symm, .nil⟩
  | cons lane l ih =>
      obtain ⟨⟨hindex, hflag⟩, hrest⟩ := h
      by_cases hfinished : lane.finished = true
      · obtain ⟨events, hlog, hshared⟩ := ih hrest leftover v
        rw [updateLanes_of_flagged hfinished]
        exact ⟨events, hlog, hshared.skip (hflag.mp hfinished) hfinished⟩
      · let e := lane.child.event (.update dt) v.1
        obtain ⟨events, hlog, hshared⟩ :=
          ih hrest (e.leftover?.elim leftover (minNumber leftover))
            (Animation.update dt lane.child v).2.2
        rw [updateLanes_of_not_flagged hfinished]
        refine ⟨e :: events, ?_, hshared.give (mt hflag.mpr hfinished) ?_ rfl⟩
        · rw [List.append_cons]
          exact hlog
        · exact hindex ▸ lane.child.eachOnce_event (.update dt) v.1

/-- The parallel animation with its children under observation. -/
def observed (p : Parallel α) : Parallel (Observed α) :=
  ⟨Lane.number 0 p.lanes, p.running⟩

/-- What reaches the children when a call is made. -/
def events (c : Call) (p : Parallel α) (w : W) : List (Event α W) :=
  (Animation.perform c p.observed (w, [])).2.2.2

/-- Nothing changes under observation: neither the answer, nor what becomes of the animation and
of the world. -/
theorem perform_observed (c : Call) (p : Parallel α) (w : W) (log : List (Event α W)) :
    (Animation.perform c p.observed (w, log)).1 = (Animation.perform c p w).1 ∧
      Paired (Parallel.Matches fun (o : Observed α) a => o.inner = a)
        (fun (v : W × List (Event α W)) w => v.1 = w)
        (Animation.perform c p.observed (w, log)).2 (Animation.perform c p w).2 :=
  Observed.lockstep.parallel.perform c ⟨Lane.forall₂_number 0 p.lanes, rfl⟩ rfl

/-! ## Calls to a parallel animation -/

variable {p : Parallel α} {log : List (Event α W)} {n : ℕ}

/-- A call other than a tick reaches some of the children, by whether they are over. -/
theorem eachOnce_visitAll {c : Call} {ended : ℕ → Prop} (chosen : ℕ → Prop) {l : List (Lane α)}
    {f : Lane (Observed α) → W × List (Event α W) → Lane (Observed α) × W × List (Event α W)}
    (hflags : Lane.Flagged ended 0 l)
    (h : ∀ (lane : Lane (Observed α)) (v : W × List (Event α W)),
      (lane.finished = true ↔ ended lane.child.index) → ∃ events, (f lane v).2.2 = v.2 ++ events ∧
        EachOnce events c fun j => j = lane.child.index ∧ chosen lane.child.index) (w : W) :
    EachOnce (visitAll f (Lane.number 0 l) (w, [])).2.2 c fun i => i < l.length ∧ chosen i := by
  have hvisit := (Lane.along_number hflags).imp fun i lane ⟨hindex, hlane⟩ =>
    fun v => hindex ▸ h lane v (hindex ▸ hlane)
  obtain ⟨events, hevents, honce⟩ := exists_events_visitAll hvisit (w, [])
  rw [hevents]
  refine honce.congr fun j => ?_
  rw [Lane.length_number]
  simp

theorem eachOnce_events_start (hflags : Lane.Flagged (Over log) 0 p.lanes) (w : W) :
    EachOnce (p.events .start w) .start fun i => i < p.length ∧ ¬ Over log i := by
  refine eachOnce_visitAll (f := startLane) (fun i => ¬ Over log i) hflags
    (fun lane v hlane => ?_) w
  unfold startLane
  split
  · next hfinished =>
    exact ⟨[], (List.append_nil _).symm, .nil fun j hj => hj.2 (hlane.mp hfinished)⟩
  · next hfinished =>
    refine ⟨_, rfl, (lane.child.eachOnce_event .start v.1).congr fun j => ?_⟩
    rw [and_iff_left (mt hlane.mpr hfinished)]

theorem eachOnce_events_stop (hflags : Lane.Flagged (Over log) 0 p.lanes) (w : W) :
    EachOnce (p.events .stop w) .stop (· < p.length) := by
  refine (eachOnce_visitAll (f := stopLane) (fun _ => True) hflags
    (fun lane v _ => ?_) w).congr fun j => Iff.of_eq (and_true _)
  refine ⟨_, rfl, (lane.child.eachOnce_event .stop v.1).congr fun j => ?_⟩
  rw [and_true]

theorem eachOnce_events_reset (hflags : Lane.Flagged (Over log) 0 p.lanes) (w : W) :
    EachOnce (p.events .reset w) .reset (· < p.length) := by
  refine (eachOnce_visitAll (f := resetLane) (fun _ => True) hflags
    (fun lane v _ => ?_) w).congr fun j => Iff.of_eq (and_true _)
  refine ⟨_, rfl, (lane.child.eachOnce_event .reset v.1).congr fun j => ?_⟩
  rw [and_true]

theorem events_update_of_halted (hrunning : p.running = false) (dt : Float32) (w : W) :
    p.events (.update dt) w = [] := by
  have hupdate := update_of_halted (p := p.observed) hrunning dt (w, ([] : List (Event α W)))
  exact congrArg (fun r => r.2.2.2) hupdate

theorem events_update_of_running (hrunning : p.running = true) (dt : Float32) (w : W) :
    p.events (.update dt) w =
      (updateLanes dt dt p.observed.lanes (w, ([] : List (Event α W)))).world.2 := by
  have hupdate := update_of_running (p := p.observed) hrunning dt (w, ([] : List (Event α W)))
  change (Animation.update dt p.observed (w, [])).2.2.2 = _
  rw [hupdate]
  dsimp only
  split <;> rfl

theorem shared_update (hflags : Lane.Flagged (Over log) 0 p.lanes) (hrunning : p.running = true)
    (dt : Float32) (w : W) :
    let tick := updateLanes dt dt p.lanes w
    Shared dt (Over log) 0 p.length dt (p.events (.update dt) w) tick.leftover tick.lanes := by
  obtain ⟨events, hlog, hshared⟩ :=
    exists_shared_updateLanes (Lane.along_number hflags) dt dt (w, ([] : List (Event α W)))
  obtain ⟨hleftover, hlanes, -⟩ := Observed.lockstep.updateLanes (Lane.forall₂_number 0 p.lanes)
    (rfl : (w, ([] : List (Event α W))).1 = w) dt dt
  have hevents : p.events (.update dt) w = events :=
    (events_update_of_running hrunning dt w).trans hlog
  rw [hevents]
  refine ⟨?_, hleftover.symm.trans hshared.leftover, hshared.flagged.ofMatches hlanes⟩
  rw [length, ← Lane.length_number 0 p.lanes]
  exact hshared.once

/-- The ticks reach children that are not flagged, as they are. -/
theorem before_of_mem_events {dt : Float32} {w : W} {e : Event α W}
    (he : e ∈ p.events (.update dt) w) :
    ∃ lane ∈ p.lanes, lane.finished = false ∧ e.before = lane.child := by
  cases hrunning : p.running with
  | false => simp [events_update_of_halted hrunning] at he
  | true =>
      rw [events_update_of_running hrunning] at he
      rcases before_of_mem_updateLanes he with hnil | ⟨lane, hlane, hgoing, hbefore⟩
      · cases hnil
      · obtain ⟨lane', hlane', hsame⟩ :=
          exists_of_mem_forall₂ (Lane.forall₂_number 0 p.lanes) hlane
        exact ⟨lane', hlane', hsame.finished.symm.trans hgoing, hbefore.trans hsame.child⟩

/-- The flags are true to the log whatever is called. -/
theorem flagged_perform (hflags : Lane.Flagged (Over log) 0 p.lanes) (c : Call) (w : W) :
    Lane.Flagged (Over (log ++ p.events c w)) 0 (Animation.perform c p w).2.1.lanes ∧
      (Animation.perform c p w).2.1.length = p.length := by
  cases c with
  | start =>
      have hstart : ∀ i (lane : Lane α) (w : W), (lane.finished = true ↔ Over log i) → True →
          ((startLane lane w).1.finished = true ↔ Over log i) ∧ True := by
        intro i lane w hlane _
        unfold startLane
        split <;> exact ⟨hlane, trivial⟩
      have hsame : Lane.Flagged (Over log) 0 (visitAll startLane p.lanes w).1 :=
        (Along.visitAll hstart hflags trivial).1
      exact ⟨hsame.append (eachOnce_events_start hflags w) nofun nofun, length_visitAll _ _ _⟩
  | stop =>
      have hstop : ∀ i (lane : Lane α) (w : W), (lane.finished = true ↔ Over log i) → True →
          ((stopLane lane w).1.finished = true ↔ Over log i) ∧ True :=
        fun i lane w hlane _ => ⟨hlane, trivial⟩
      have hsame : Lane.Flagged (Over log) 0 (visitAll stopLane p.lanes w).1 :=
        (Along.visitAll hstop hflags trivial).1
      exact ⟨hsame.append (eachOnce_events_stop hflags w) nofun nofun, length_visitAll _ _ _⟩
  | reset =>
      have hreset : ∀ i (lane : Lane α) (w : W), (lane.finished = true ↔ Over log i) → True →
          (resetLane lane w).1.finished = false ∧ True :=
        fun i lane w _ _ => ⟨rfl, trivial⟩
      have hlength : (visitAll resetLane p.lanes w).1.length = p.length := length_visitAll _ _ _
      have hvisit : Along (fun _ lane => lane.finished = false) 0
          (visitAll resetLane p.lanes w).1 := (Along.visitAll hreset hflags trivial).1
      refine ⟨Along.iff_getElem?.mpr fun j lane hj => ?_, hlength⟩
      rw [hvisit.of_getElem? hj, Nat.zero_add]
      refine iff_of_false nofun ((eachOnce_events_reset hflags w).not_over fun _ => ?_)
      exact Nat.lt_of_lt_of_eq (List.getElem?_eq_some_iff.mp hj).1 hlength
  | update dt =>
      change Lane.Flagged _ 0 (Animation.update dt p w).2.1.lanes ∧
        (Animation.update dt p w).2.1.length = p.length
      by_cases hrunning : p.running = true
      · have hshared := shared_update hflags hrunning dt w
        rw [length, lanes_update_of_running hrunning]
        refine ⟨hshared.flagged.congr fun j => ?_, length_updateLanes _ _ _ _⟩
        rw [hshared.once.over_append nofun]
      · rw [Bool.not_eq_true] at hrunning
        rw [events_update_of_halted hrunning, update_of_halted hrunning, List.append_nil]
        exact ⟨hflags, rfl⟩

theorem flagged_of_chronicle {children : List α} (h : Chronicle events (.ofList children) log p) :
    Lane.Flagged (Over log) 0 p.lanes ∧ p.length = children.length := by
  induction h with
  | built =>
      have hfalse : Along (fun _ (lane : Lane α) => lane.finished = false) 0
          (ofList children).lanes := by
        refine Along.iff_getElem?.mpr fun i lane hlane => ?_
        obtain ⟨a, -, rfl⟩ := List.mem_map.mp (List.mem_of_getElem? hlane)
        rfl
      refine ⟨hfalse.imp fun i lane hlane => ?_, List.length_map _⟩
      exact iff_of_false (by rw [hlane]; nofun) (not_over_nil i)
  | call c w _ ih =>
      obtain ⟨hflags, hlength⟩ := flagged_perform ih.1 c w
      exact ⟨hflags, hlength.trans ih.2⟩

/-- Whatever the children are, and whatever is called, they play together. A start reaches those
that are not over, and from then on so does a tick, until the animation is stopped or reset, or is
over. The tick ends with the report that the animation is over exactly if all children are over by
then, and leaves over the least of what is left by those that are over in this tick, and of the
tick itself. -/
theorem plays_together {children : List α} (h : Chronicle events (.ofList children) log p) :
    (ofList children).running = false ∧
      (∀ w : W, EachOnce (p.events .start w) .start (fun i => i < children.length ∧ ¬ Over log i) ∧
        (Animation.start p w).1.running = true) ∧
      (∀ w : W, EachOnce (p.events .stop w) .stop (· < children.length) ∧
        (Animation.stop p w).1.running = false) ∧
      (∀ w : W, EachOnce (p.events .reset w) .reset (· < children.length) ∧
        (Animation.reset p w).1.running = false) ∧
      ∀ (dt : Float32) (w : W),
        let reached := p.events (.update dt) w
        let result := Animation.update dt p w
        (p.running = false → reached = [] ∧ result = (.idle, p, w)) ∧
          (p.running = true →
            EachOnce reached (.update dt) (fun i => i < children.length ∧ ¬ Over log i) ∧
              (((∀ i < children.length, Over (log ++ reached) i) ∧ result.2.1.running = false ∧
                  ∃ leftover, result.1 = .finished leftover ∧
                    Least (dt :: leftovers reached) leftover) ∨
                ((∃ i < children.length, ¬ Over (log ++ reached) i) ∧
                  result.2.1.running = true ∧ result.1 = .running))) := by
  obtain ⟨hflags, hlength⟩ := flagged_of_chronicle h
  rw [← hlength]
  refine ⟨rfl, fun w => ⟨eachOnce_events_start hflags w, rfl⟩,
    fun w => ⟨eachOnce_events_stop hflags w, rfl⟩, fun w => ⟨eachOnce_events_reset hflags w, rfl⟩,
    fun dt w => ⟨fun hrunning => ?_, fun hrunning => ?_⟩⟩
  · exact ⟨events_update_of_halted hrunning dt w, update_of_halted hrunning dt w⟩
  · have hshared := shared_update hflags hrunning dt w
    have hover : ∀ i, Over (log ++ p.events (.update dt) w) i ↔
        Over log i ∨ ∃ e ∈ p.events (.update dt) w, e.Ends i :=
      fun i => hshared.once.over_append nofun
    have hall := hshared.flagged.all_iff
    simp only [← hover, length_updateLanes] at hall
    refine ⟨hshared.once.congr fun i => by simp, ?_⟩
    rw [update_of_running hrunning]
    dsimp only
    split
    · next hfinished =>
      exact .inl ⟨hall.mp hfinished, rfl, _, rfl, hshared.leftover ▸ least_foldl_minNumber _ _⟩
    · next hgoing =>
      have hsome := mt hall.mpr hgoing
      push Not at hsome
      exact .inr ⟨hsome, rfl, rfl⟩

/-- Waits of 100 and of 300 milliseconds, after a start and a tick of 150, and the tick after
that: what the shorter one has left over does not matter any more. -/
theorem plays_together_waits :
    ∃ (log : List (Event Wait Unit)) (p : Parallel Wait),
      Chronicle events (.ofList [{ duration := ofCount 100 }, { duration := ofCount 300 }]) log p ∧
      log.map (·.child) = [0, 1, 0, 1] ∧ p.running = true ∧
      EachOnce (p.events (.update (ofCount 400)) ()) (.update (ofCount 400))
        (fun i => i < 2 ∧ ¬ Over log i) ∧
      (p.events (.update (ofCount 400)) ()).map (·.child) = [1] ∧
      ∃ leftover, (Animation.update (ofCount 400) p ()).1 = .finished leftover ∧
        Least [ofCount 400, ofCount 250] leftover := by
  have hbuilt : Chronicle (W := Unit) events
      (.ofList [{ duration := ofCount 100 }, { duration := ofCount 300 }] : Parallel Wait) []
      (.ofList [{ duration := ofCount 100 }, { duration := ofCount 300 }]) := .built
  have hchronicle := (hbuilt.call .start ()).call (.update (ofCount 150)) ()
  obtain ⟨-, -, -, -, htick⟩ := plays_together hchronicle
  obtain ⟨-, hrunning⟩ := htick (ofCount 400) ()
  obtain ⟨honce, hends⟩ := hrunning (by decide +kernel)
  refine ⟨_, _, hchronicle, by decide +kernel, by decide +kernel, honce, by decide +kernel, ?_⟩
  rcases hends with ⟨-, -, leftover, hfinished, hleast⟩ | ⟨-, hgoing, -⟩
  · exact ⟨leftover, hfinished, hleast⟩
  · exact absurd hgoing (by decide +kernel)

end Parallel

end Storyboard
