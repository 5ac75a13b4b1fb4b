import Mathlib.Data.List.Basic
import Storyboard.Animation.Parallel
import Storyboard.Animation.Timing
import Storyboard.PropertyMap

/-! # Moves side by side

What a call does to a timed move depends on nothing but the move and the position of its
driver, and it moves no other driver. So nine moves of nine different drivers can be
followed one by one.
-/

namespace Storyboard

/-! ## Moving drivers one after another -/

namespace DriverBank

/-- A change of a bank that moves one driver, to where depends on where it stands. -/
structure Moves (change : DriverBank → DriverBank) (d : Driver) (place : Float32 → Float32) :
    Prop where
  has : ∀ bank e, (change bank).Has e ↔ bank.Has e
  here : ∀ bank, bank.Has d → (change bank).get d = place (bank.get d)
  other : ∀ bank e, e ≠ d → (change bank).get e = bank.get e

theorem moves_set (d : Driver) (position : Float32) :
    Moves (·.set d position) d fun _ => position where
  has bank e := has_set bank d e position
  here _ h := get_set_self h position
  other bank _ h := get_set_of_ne bank h position

theorem moves_id (d : Driver) : Moves id d id :=
  ⟨fun _ _ => Iff.rfl, fun _ _ => rfl, fun _ _ _ => rfl⟩

section Foldl

variable {ι : Type} {driver : ι → Driver} {change : ι → DriverBank → DriverBank}
  {place : ι → Float32 → Float32}

theorem has_foldl (h : ∀ i, Moves (change i) (driver i) (place i)) (l : List ι)
    (bank : DriverBank) (e : Driver) :
    (l.foldl (fun bank i => change i bank) bank).Has e ↔ bank.Has e := by
  induction l generalizing bank with
  | nil => exact Iff.rfl
  | cons i l ih => exact (ih (change i bank)).trans ((h i).has bank e)

theorem get_foldl_of_notMem (h : ∀ i, Moves (change i) (driver i) (place i)) {l : List ι}
    (bank : DriverBank) {e : Driver} (he : ∀ i ∈ l, e ≠ driver i) :
    (l.foldl (fun bank i => change i bank) bank).get e = bank.get e := by
  induction l generalizing bank with
  | nil => rfl
  | cons i l ih =>
      rw [List.forall_mem_cons] at he
      exact (ih (change i bank) he.2).trans ((h i).other bank e he.1)

/-- Of drivers that are moved one after another each is moved once. -/
theorem get_foldl_of_mem (h : ∀ i, Moves (change i) (driver i) (place i)) {l : List ι}
    (hne : l.Pairwise fun i j => driver i ≠ driver j) (bank : DriverBank) {i : ι} (hi : i ∈ l)
    (hhas : bank.Has (driver i)) :
    (l.foldl (fun bank i => change i bank) bank).get (driver i) =
      place i (bank.get (driver i)) := by
  induction l generalizing bank with
  | nil => cases hi
  | cons j l ih =>
      rw [List.pairwise_cons] at hne
      rw [List.foldl_cons]
      rcases List.mem_cons.mp hi with rfl | hi
      · rw [get_foldl_of_notMem h _ hne.1, (h i).here bank hhas]
      · rw [ih hne.2 (change j bank) hi (((h j).has bank _).mpr hhas),
          (h j).other bank _ (hne.1 i hi).symm]

end Foldl

end DriverBank

/-! ## One move -/

namespace Timing

variable {H : Type}

/-- A tick is the last of the move. -/
def Expires (dt : Float32) (t : Timing) : Prop :=
  t.duration ≤ 0 ∨ t.duration ≤ t.elapse dt

instance (dt : Float32) (t : Timing) : Decidable (t.Expires dt) := by
  unfold Expires; infer_instance

/-- The move after a start with its driver at a position. -/
def started (position : Float32) (t : Timing) : Timing :=
  if t.phase = .done then t
  else { t with departure := some (t.departure.getD position), phase := .running }

/-- The move after a tick. -/
def ticked (dt : Float32) (t : Timing) : Timing :=
  if t.phase = .running then
    { t with elapsed := t.elapse dt, phase := if t.Expires dt then .done else .running }
  else t

/-- The time that the last tick leaves over. -/
def surplus (dt : Float32) (t : Timing) : Float32 :=
  maxNumber (t.elapse dt - maxNumber t.duration 0) 0

/-- The answer to a tick. -/
def answer (dt : Float32) (t : Timing) : Tick :=
  match t.phase with
  | .idle => .idle
  | .done => .finished dt
  | .running => if t.Expires dt then .finished (t.surplus dt) else .running

/-- Where a tick leads the driver from a position. -/
def place (dt : Float32) (t : Timing) (position : Float32) : Float32 :=
  if t.phase = .running then
    if t.Expires dt then t.goal else t.positionAt (t.elapse dt)
  else position

/-- What a tick does to the drivers. -/
def move (dt : Float32) (t : Timing) (bank : DriverBank) : DriverBank :=
  if t.phase = .running then
    bank.set t.driver (if t.Expires dt then t.goal else t.positionAt (t.elapse dt))
  else bank

theorem update_eq (dt : Float32) (t : Timing) (s : Stage H) :
    t.update dt s = (t.answer dt, t.ticked dt, t.move dt s.1, s.2) := by
  unfold update answer ticked move
  cases t.phase with
  | idle => rfl
  | done => rfl
  | running =>
      dsimp only
      by_cases h : t.Expires dt
      · rw [if_pos h, if_pos (show t.duration ≤ 0 ∨ t.duration ≤ t.elapse dt from h)]
        simp only [if_pos h]
        rfl
      · rw [if_neg h, if_neg (show ¬ (t.duration ≤ 0 ∨ t.duration ≤ t.elapse dt) from h)]
        simp only [if_neg h]
        rfl

theorem start_eq (t : Timing) (s : Stage H) : t.start s = (t.started (s.1.get t.driver), s) := by
  unfold start started
  split <;> rfl

theorem moves_move (dt : Float32) (t : Timing) :
    DriverBank.Moves (t.move dt) t.driver (t.place dt) := by
  unfold move place
  split
  · exact DriverBank.moves_set _ _
  · exact DriverBank.moves_id _

theorem driver_perform (c : Call) (t : Timing) (s : Stage H) :
    (Animation.perform c t s).2.1.driver = t.driver := by
  cases c with
  | start =>
      change (t.start s).1.driver = _
      rw [start_eq]
      unfold started
      split <;> rfl
  | update dt =>
      change (t.update dt s).2.1.driver = _
      rw [update_eq]
      unfold ticked
      split <;> rfl
  | stop =>
      change (t.stop s).1.driver = _
      unfold stop
      dsimp only
      split <;> rfl
  | reset => rfl

/-- No call moves another driver than that of the move. -/
theorem exists_moves_perform (c : Call) (t : Timing) :
    ∃ change place, DriverBank.Moves change t.driver place ∧
      ∀ s : Stage H, (Animation.perform c t s).2.2 = (change s.1, s.2) := by
  cases c with
  | update dt =>
      refine ⟨_, _, t.moves_move dt, fun s => ?_⟩
      exact congrArg (fun r => r.2.2) (t.update_eq dt s)
  | start =>
      refine ⟨_, _, DriverBank.moves_id _, fun s => ?_⟩
      exact congrArg (fun r => r.2) (t.start_eq s)
  | stop => exact ⟨_, _, DriverBank.moves_id _, fun _ => rfl⟩
  | reset => exact ⟨_, _, DriverBank.moves_id _, fun _ => rfl⟩

end Timing

/-! ## Lanes -/

namespace Lane

/-- The lane after a start with its driver at a position. -/
def started (position : Float32) (lane : Lane Timing) : Lane Timing :=
  if lane.finished then lane else { lane with child := lane.child.started position }

/-- The lane after a tick. -/
def ticked (dt : Float32) (lane : Lane Timing) : Lane Timing :=
  if lane.finished then lane
  else ⟨lane.child.ticked dt, (lane.child.answer dt).isFinished⟩

/-- Where a tick leads the driver from a position. -/
def place (dt : Float32) (lane : Lane Timing) (position : Float32) : Float32 :=
  if lane.finished then position else lane.child.place dt position

/-- What a tick does to the drivers. -/
def move (dt : Float32) (lane : Lane Timing) (bank : DriverBank) : DriverBank :=
  if lane.finished then bank else lane.child.move dt bank

/-- The time left over if the tick is the last of the lane. -/
def surplus? (dt : Float32) (lane : Lane Timing) : Option Float32 :=
  if lane.finished then none
  else match lane.child.answer dt with
    | .finished leftover => some leftover
    | _ => none

/-- The lane after a halt. -/
def stopped (lane : Lane Timing) : Lane Timing :=
  { lane with child := if lane.child.phase = .running then { lane.child with phase := .idle }
                       else lane.child }

/-- The lane after a reset. -/
def cleared (lane : Lane Timing) : Lane Timing :=
  ⟨{ lane.child with departure := none, elapsed := 0, phase := .idle }, false⟩

theorem moves_move (dt : Float32) (lane : Lane Timing) :
    DriverBank.Moves (lane.move dt) lane.child.driver (lane.place dt) := by
  unfold move place
  split
  · exact DriverBank.moves_id _
  · exact lane.child.moves_move dt

end Lane

namespace Lane

variable {t : Timing} (x : Float32) {dt : Float32}

theorem started_of_running (h : t.phase ≠ .done) :
    started x ⟨t, false⟩ =
      ⟨{ t with departure := some (t.departure.getD x), phase := .running }, false⟩ := by
  simp [started, Timing.started, h]

theorem ticked_of_idle (dt : Float32) (h : t.phase = .idle) :
    ticked dt ⟨t, false⟩ = ⟨t, false⟩ ∧ place dt ⟨t, false⟩ x = x := by
  simp [ticked, place, Timing.ticked, Timing.place, Timing.answer, h, Tick.isFinished]

/-- The last tick of a move. -/
theorem ticked_of_expires (h : t.phase = .running) (hexpires : t.Expires dt) :
    ticked dt ⟨t, false⟩ = ⟨{ t with elapsed := t.elapse dt, phase := .done }, true⟩ ∧
      place dt ⟨t, false⟩ x = t.goal ∧ surplus? dt ⟨t, false⟩ = some (t.surplus dt) := by
  simp [ticked, place, surplus?, Timing.ticked, Timing.place, Timing.answer, h, hexpires,
    Tick.isFinished]

/-- A tick on the way. -/
theorem ticked_of_not_expires (h : t.phase = .running) (hexpires : ¬ t.Expires dt) :
    ticked dt ⟨t, false⟩ = ⟨{ t with elapsed := t.elapse dt }, false⟩ ∧
      place dt ⟨t, false⟩ x = t.positionAt (t.elapse dt) ∧ surplus? dt ⟨t, false⟩ = none := by
  simp [ticked, place, surplus?, Timing.ticked, Timing.place, Timing.answer, h, hexpires,
    Tick.isFinished]

end Lane

/-! ## All lanes -/

theorem visitAll_eq_map {α W : Type} {f : α → W → α × W} {g : W → α → α}
    (h : ∀ a w, f a w = (g w a, w)) (l : List α) (w : W) :
    visitAll f l w = (l.map (g w), w) := by
  induction l with
  | nil => rfl
  | cons a l ih =>
      unfold visitAll
      simp only [h, ih, List.map_cons]

namespace Parallel

variable {H : Type}

theorem updateLanes_eq (dt leftover : Float32) (lanes : List (Lane Timing)) (s : Stage H) :
    updateLanes dt leftover lanes s =
      ⟨(lanes.filterMap (Lane.surplus? dt)).foldl minNumber leftover, lanes.map (Lane.ticked dt),
        (lanes.foldl (fun bank lane => lane.move dt bank) s.1, s.2)⟩ := by
  induction lanes generalizing leftover s with
  | nil => rfl
  | cons lane lanes ih =>
      have hupdate : Animation.update dt lane.child s =
          (lane.child.answer dt, lane.child.ticked dt, lane.child.move dt s.1, s.2) :=
        lane.child.update_eq dt s
      unfold updateLanes
      cases hfinished : lane.finished with
      | true => simp [ih, Lane.surplus?, Lane.ticked, Lane.move, hfinished]
      | false =>
          cases hanswer : lane.child.answer dt <;>
            simp [ih, hupdate, hanswer, Lane.surplus?, Lane.ticked, Lane.move, hfinished,
              Tick.isFinished]

theorem start_eq_map (p : Parallel Timing) (s : Stage H) :
    p.start s = (⟨p.lanes.map fun lane => lane.started (s.1.get lane.child.driver), true⟩, s) := by
  have hlane : ∀ (l : Lane Timing) (s : Stage H),
      startLane l s = (l.started (s.1.get l.child.driver), s) := by
    intro l s
    have hstart : Animation.start l.child s = (l.child.started (s.1.get l.child.driver), s) :=
      l.child.start_eq s
    unfold startLane Lane.started
    split
    · rfl
    · rw [hstart]
  unfold start
  rw [visitAll_eq_map (g := fun s l => l.started (s.1.get l.child.driver)) hlane]

theorem stop_eq_map (p : Parallel Timing) (s : Stage H) :
    p.stop s = (⟨p.lanes.map Lane.stopped, false⟩, s) := by
  have hlane : ∀ (l : Lane Timing) (s : Stage H),
      (let (child, s) := Animation.stop l.child s
       ({ l with child }, s)) = (l.stopped, s) := fun _ _ => rfl
  unfold stop
  rw [visitAll_eq_map (g := fun _ l => l.stopped) hlane]

theorem reset_eq_map (p : Parallel Timing) (s : Stage H) :
    p.reset s = (⟨p.lanes.map Lane.cleared, false⟩, s) := by
  have hlane : ∀ (l : Lane Timing) (s : Stage H),
      (let (child, s) := Animation.reset l.child s
       (⟨child, false⟩, s)) = (l.cleared, s) := fun _ _ => rfl
  unfold reset
  rw [visitAll_eq_map (g := fun _ l => l.cleared) hlane]

/-- Moves side by side, one for each property. -/
def ofLanes (lane : Property → Lane Timing) (running : Bool) : Parallel Timing :=
  ⟨Property.all.map lane, running⟩

variable (lane : Property → Lane Timing) (running : Bool) (s : Stage H)

theorem start_ofLanes :
    (ofLanes lane running).start s =
      (ofLanes (fun p => (lane p).started (s.1.get (lane p).child.driver)) true, s) := by
  rw [start_eq_map]
  simp [ofLanes]

theorem stop_ofLanes :
    (ofLanes lane running).stop s = (ofLanes (fun p => (lane p).stopped) false, s) := by
  rw [stop_eq_map]
  simp [ofLanes]

theorem reset_ofLanes :
    (ofLanes lane running).reset s = (ofLanes (fun p => (lane p).cleared) false, s) := by
  rw [reset_eq_map]
  simp [ofLanes]

/-- The least time that the lanes over in a tick leave over. -/
def surplus (dt : Float32) (lane : Property → Lane Timing) : Float32 :=
  (Property.all.filterMap fun p => (lane p).surplus? dt).foldl minNumber dt

/-- What a tick of all lanes does to the drivers. -/
def move (dt : Float32) (lane : Property → Lane Timing) (bank : DriverBank) : DriverBank :=
  Property.all.foldl (fun bank p => (lane p).move dt bank) bank

theorem update_ofLanes (dt : Float32) :
    (ofLanes lane true).update dt s =
      let lanes := (ofLanes lane true).lanes.map (Lane.ticked dt)
      if lanes.all (·.finished) then
        (.finished (surplus dt lane), ofLanes (fun p => (lane p).ticked dt) false,
          move dt lane s.1, s.2)
      else (.running, ofLanes (fun p => (lane p).ticked dt) true, move dt lane s.1, s.2) := by
  unfold update ofLanes
  rw [if_pos rfl, updateLanes_eq]
  simp [surplus, move, List.filterMap_map, List.foldl_map, Function.comp_def]

theorem all_finished_iff (dt : Float32) :
    (((ofLanes lane true).lanes.map (Lane.ticked dt)).all (·.finished) = true) ↔
      ∀ p, ((lane p).ticked dt).finished := by
  simp [ofLanes]

theorem pairwise_all {α : Type} {f : Property → α} (h : Function.Injective f) :
    Property.all.Pairwise fun p q => f p ≠ f q := by
  have hnodup : Property.all.Nodup := by decide
  exact hnodup.imp fun hne heq => hne (h heq)

variable {lane s}

theorem has_move (dt : Float32) (bank : DriverBank) (d : Driver) :
    (move dt lane bank).Has d ↔ bank.Has d :=
  DriverBank.has_foldl (fun p => (lane p).moves_move dt) _ bank d

/-- A tick leads each driver where its own lane does. -/
theorem get_move (dt : Float32) (bank : DriverBank)
    (hne : Function.Injective fun p => (lane p).child.driver) (p : Property)
    (hhas : bank.Has (lane p).child.driver) :
    (move dt lane bank).get (lane p).child.driver =
      (lane p).place dt (bank.get (lane p).child.driver) :=
  DriverBank.get_foldl_of_mem (fun p => (lane p).moves_move dt) (pairwise_all hne) bank
    (Property.mem_all p) hhas

end Parallel

end Storyboard
