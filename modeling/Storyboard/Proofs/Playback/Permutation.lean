import Storyboard.Proofs.Playback.Lanes
import Storyboard.Proofs.Playback.Lockstep

/-! # The order of moves side by side

Moves of different drivers get in each other's way neither at the drivers nor in the time that
they leave over. So it does not matter in which order a parallel animation holds them.
-/

namespace Storyboard

/-! ## Moves that commute -/

theorem DriverBank.set_comm {d e : Driver} (h : d ≠ e) (bank : DriverBank) (x y : Float32) :
    (bank.set d x).set e y = (bank.set e y).set d x := by
  have hcell : d.cell ≠ e.cell := by
    intro heq
    apply h
    cases d
    cases e
    exact congrArg Driver.mk heq
  unfold DriverBank.set
  rw [Array.setIfInBounds_comm _ _ hcell]

theorem Timing.move_comm {t u : Timing} (h : t.driver ≠ u.driver) (dt : Float32)
    (bank : DriverBank) : u.move dt (t.move dt bank) = t.move dt (u.move dt bank) := by
  unfold move
  split
  · split
    · exact DriverBank.set_comm h bank _ _
    · rfl
  · rfl

theorem Lane.move_comm {l m : Lane Timing} (h : l.child.driver ≠ m.child.driver) (dt : Float32)
    (bank : DriverBank) : m.move dt (l.move dt bank) = l.move dt (m.move dt bank) := by
  unfold move
  split
  · rfl
  · split
    · rfl
    · exact Timing.move_comm h dt bank

namespace Lane

/-- The drivers of some lanes, in order. -/
def drivers (lanes : List (Lane Timing)) : List Driver :=
  lanes.map (·.child.driver)

theorem driver_started (position : Float32) (lane : Lane Timing) :
    (lane.started position).child.driver = lane.child.driver := by
  unfold started Timing.started
  split
  · rfl
  · dsimp only
    split <;> rfl

theorem driver_ticked (dt : Float32) (lane : Lane Timing) :
    (lane.ticked dt).child.driver = lane.child.driver := by
  unfold ticked Timing.ticked
  split
  · rfl
  · dsimp only
    split <;> rfl

theorem driver_stopped (lane : Lane Timing) : lane.stopped.child.driver = lane.child.driver := by
  unfold stopped
  dsimp only
  split <;> rfl

/-- Ticks reach drivers that are all different in any order. -/
theorem foldl_move_perm {l l' : List (Lane Timing)} (h : l.Perm l') (hne : (drivers l).Nodup)
    (dt : Float32) (bank : DriverBank) :
    l.foldl (fun bank lane => lane.move dt bank) bank =
      l'.foldl (fun bank lane => lane.move dt bank) bank := by
  refine h.foldl_eq' (fun lane hlane lane' hlane' bank => ?_) bank
  by_cases heq : lane.child.driver = lane'.child.driver
  · rw [List.inj_on_of_nodup_map hne hlane hlane' heq]
  · exact move_comm heq dt bank

end Lane

/-- The least number is the same in any order. -/
theorem sameNumber_foldl_perm {l l' : List Float32} (h : l.Perm l') (a : Float32) :
    SameNumber (l.foldl minNumber a) (l'.foldl minNumber a) := by
  rw [sameNumber_iff, height_foldl_minNumber, height_foldl_minNumber]
  exact (h.map height).foldl_eq (height a)

/-! ## Parallel animations -/

namespace Parallel

/-- Parallel moves of different drivers that differ in nothing but their order. -/
structure Reordered (p p' : Parallel Timing) : Prop where
  lanes : p.lanes.Perm p'.lanes
  running : p.running = p'.running
  distinct : (Lane.drivers p.lanes).Nodup

/-- A call that does the same to every lane, whatever its place, keeps the order apart. -/
theorem Reordered.map {p p' : Parallel Timing} (h : p.Reordered p')
    {f : Lane Timing → Lane Timing} (hf : ∀ lane, (f lane).child.driver = lane.child.driver)
    (running : Bool) :
    Reordered ⟨p.lanes.map f, running⟩ ⟨p'.lanes.map f, running⟩ where
  lanes := h.lanes.map f
  running := rfl
  distinct := by
    have hsame : Lane.drivers (p.lanes.map f) = Lane.drivers p.lanes := by
      rw [Lane.drivers, List.map_map]
      exact List.map_congr_left fun lane _ => hf lane
    exact hsame ▸ h.distinct

variable {H : Type}

theorem Reordered.update {p p' : Parallel Timing} (h : p.Reordered p') (dt : Float32)
    (s : Stage H) :
    (p.update dt s).1.Same (p'.update dt s).1 ∧
      Paired Reordered Eq (p.update dt s).2 (p'.update dt s).2 := by
  unfold Parallel.update
  rw [← h.running]
  split
  · have hlanes := h.lanes.map (Lane.ticked dt)
    rw [updateLanes_eq, updateLanes_eq, ← Lane.foldl_move_perm h.lanes h.distinct dt s.1]
    dsimp only
    rw [← hlanes.all_eq]
    split
    · exact ⟨.finished (sameNumber_foldl_perm (h.lanes.filterMap _) dt),
        h.map (Lane.driver_ticked dt) false, rfl⟩
    · exact ⟨.running, h.map (Lane.driver_ticked dt) true, rfl⟩
  · exact ⟨.idle, h, rfl⟩

/-- Whatever is called, the order makes no difference. -/
theorem inStep_reordered : InStep Reordered (@Eq (Stage H)) := by
  rintro (_ | dt | _ | _) p p' s _ h rfl
  · refine ⟨.none, ?_⟩
    change Paired _ _ (p.start s) (p'.start s)
    rw [start_eq_map, start_eq_map]
    exact ⟨h.map (fun lane => lane.driver_started _) true, rfl⟩
  · obtain ⟨htick, hpaired⟩ := h.update dt s
    exact ⟨.some htick, hpaired⟩
  · refine ⟨.none, ?_⟩
    change Paired _ _ (p.stop s) (p'.stop s)
    rw [stop_eq_map, stop_eq_map]
    exact ⟨h.map Lane.driver_stopped false, rfl⟩
  · refine ⟨.none, ?_⟩
    change Paired _ _ (p.reset s) (p'.reset s)
    rw [reset_eq_map, reset_eq_map]
    exact ⟨h.map (f := Lane.cleared) (fun _ => rfl) false, rfl⟩

theorem reordered_ofList {moves moves' : List Timing} (h : moves.Perm moves')
    (hne : (moves.map (·.driver)).Nodup) :
    Reordered (.ofList moves) (.ofList moves') where
  lanes := h.map _
  running := rfl
  distinct := by
    rw [Lane.drivers, ofList, List.map_map]
    exact hne

/-- It does not matter in which order moves of different drivers play side by side: whatever is
called, the answers are the same up to the sign of a zero left over, and every driver stands at
the same position. -/
theorem order_indifferent {moves moves' : List Timing} (h : moves.Perm moves')
    (hne : (moves.map (·.driver)).Nodup) (calls : List Call) (s : Stage H) :
    List.Forall₂ (Option.Rel Tick.Same) (Animation.run calls (ofList moves) s).1
        (Animation.run calls (ofList moves') s).1 ∧
      (Animation.run calls (ofList moves) s).2.2 = (Animation.run calls (ofList moves') s).2.2 := by
  obtain ⟨hanswers, -, hstage⟩ := inStep_reordered.run calls (reordered_ofList h hne) (rfl : s = s)
  exact ⟨hanswers, hstage⟩

/-- Two moves, in one order and in the other. The second one is under way until the last tick,
and a time of NaN and a halt come before it. -/
theorem order_indifferent_pair :
    let quick : Timing := { driver := ⟨0⟩, goal := 1, duration := ofCount 100, easing := .linear }
    let slow : Timing := { driver := ⟨1⟩, goal := 1, duration := ofCount 300, easing := .easeIn }
    let calls : List Call := [.start, .update (0 / 0), .update (ofCount 200), .stop, .start,
      .update (ofCount 400)]
    let stage : Stage Unit := (⟨#[0, 0]⟩, ())
    [quick, slow].Perm [slow, quick] ∧ ([quick, slow].map (·.driver)).Nodup ∧
      List.Forall₂ (Option.Rel Tick.Same) (Animation.run calls (ofList [quick, slow]) stage).1
        (Animation.run calls (ofList [slow, quick]) stage).1 ∧
      (Animation.run calls (ofList [quick, slow]) stage).2.2 =
        (Animation.run calls (ofList [slow, quick]) stage).2.2 ∧
      ((Animation.run calls (ofList [slow, quick]) stage).1.map
        (·.map Tick.isFinished)) = [none, some false, some false, none, none, some true] := by
  intro quick slow calls stage
  have hperm : [quick, slow].Perm [slow, quick] := .swap slow quick []
  have hne : ([quick, slow].map (·.driver)).Nodup := by decide
  obtain ⟨hanswers, hstage⟩ := order_indifferent hperm hne calls stage
  exact ⟨hperm, hne, hanswers, hstage, by decide +kernel⟩

end Parallel

end Storyboard
