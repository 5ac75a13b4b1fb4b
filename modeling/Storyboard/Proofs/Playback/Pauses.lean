import Storyboard.Proofs.Playback.Trees

/-! # Pauses

A pause is a stop, any number of ticks, and a start. While an animation is halted ticks neither
change it nor move a driver, and the start brings back the very state that it had before. So
pauses can be put anywhere into a run while the root plays, and nothing else in the run changes.
-/

namespace Storyboard

/-! ## Cues -/

/-- What is done with an animation: a call is made, or it is paused for some ticks. -/
inductive Cue
  | call (c : Call)
  | pause (ticks : List Float32)

namespace Cue

/-- Whether the cue is a pause. -/
def isPause : Cue → Bool
  | call _ => false
  | pause _ => true

/-- The calls that a cue asks for. -/
def calls : Cue → List Call
  | call c => [c]
  | pause ticks => .stop :: (ticks.map .update ++ [.start])

variable {α W : Type} [Animation α W]

/-- Follows cues, and collects what comes of every call outside of pauses: the answer, the
animation, and the world. Yields the animation and the world at the end as well. -/
def follow : List Cue → α → W → List (Option Tick × α × W) × α × W
  | [], a, w => ([], a, w)
  | call c :: rest, a, w =>
      let outcome := Animation.perform c a w
      let (outcomes, last) := follow rest outcome.2.1 outcome.2.2
      (outcome :: outcomes, last)
  | pause ticks :: rest, a, w =>
      let after := Animation.run (pause ticks).calls a w
      follow rest after.2.1 after.2.2

/-- Every pause begins while the animation plays. -/
def Timely (plays : α → Prop) : List Cue → α → W → Prop
  | [], _, _ => True
  | cue :: rest, a, w =>
      (cue.isPause → plays a) ∧
        let after := Animation.run cue.calls a w
        Timely plays rest after.2.1 after.2.2

end Cue

/-! ## Calls on their course -/

theorem Animation.run_append {α W : Type} [Animation α W] (calls later : List Call) (a : α)
    (w : W) :
    Animation.run (calls ++ later) a w =
      let (answers, a, w) := Animation.run calls a w
      let (answers', last) := Animation.run later a w
      (answers ++ answers', last) := by
  induction calls generalizing a w with
  | nil => rfl
  | cons c calls ih => simp only [List.cons_append, Animation.run, ih]

namespace Course.Lawful

variable {α W : Type} [Animation α W] {C : Course α} {x : Standing} {a₀ a : α}

/-- No call leaves the course. -/
theorem perform (hC : C.Lawful W) (h : C x a₀ a) (c : Call) (w : W) :
    ∃ y, C y a₀ (Animation.perform c a w).2.1 := by
  cases c with
  | start =>
      change ∃ y, C y a₀ (Animation.start a w).1
      cases x with
      | halted => exact ⟨.playing, hC.start h w⟩
      | playing =>
          rw [hC.start_playing h w]
          exact ⟨.playing, h⟩
      | ended => exact (hC.start_ended h w).elim (⟨.playing, ·⟩) (⟨.ended, ·⟩)
  | update dt =>
      change ∃ y, C y a₀ (Animation.update dt a w).2.1
      cases x with
      | halted =>
          rw [hC.update_halted h dt w]
          exact ⟨.halted, h⟩
      | playing => exact (hC.update_playing h dt w).elim (⟨.ended, ·.2⟩) (⟨.playing, ·.2⟩)
      | ended =>
          rw [hC.update_ended h dt w]
          exact ⟨.ended, h⟩
  | stop =>
      change ∃ y, C y a₀ (Animation.stop a w).1
      by_cases hx : x = .playing
      · obtain ⟨b, hb, hcalled⟩ := hC.stop_playing (hx ▸ h)
        rw [(hcalled w).1]
        exact ⟨.halted, hb⟩
      · rw [hC.stop_still h hx w]
        exact ⟨x, h⟩
  | reset =>
      change ∃ y, C y a₀ (Animation.reset a w).1
      rw [hC.reset h w]
      exact ⟨.halted, hC.fresh h⟩

/-- Ticks pass by an animation that is halted. -/
theorem run_halted (hC : C.Lawful W) (h : C .halted a₀ a) (ticks : List Float32) (w : W) :
    Animation.run (ticks.map .update) a w = (ticks.map fun _ => some .idle, a, w) := by
  induction ticks with
  | nil => rfl
  | cons dt ticks ih =>
      simp only [List.map_cons, Animation.run, Animation.perform, hC.update_halted h dt w, ih]

/-- While it is halted an animation is the same after any ticks, and a start undoes the halt. -/
theorem exists_halted (hC : C.Lawful W) (h : C .playing a₀ a) :
    ∃ b, ∀ (ticks : List Float32) (w : W),
      Animation.run (.stop :: ticks.map .update) a w =
        (none :: ticks.map (fun _ => some .idle), b, w) ∧
      Animation.start b w = (a, w) := by
  obtain ⟨b, hb, hcalled⟩ := hC.stop_playing h
  refine ⟨b, fun ticks w => ⟨?_, (hcalled w).2⟩⟩
  simp only [Animation.run, Animation.perform, (hcalled w).1, hC.run_halted hb]

end Course.Lawful

theorem Course.Lawful.descends {H α : Type} [Animation α (Stage H)] {C : Course α} {a₀ a b : α}
    (hC : C.Lawful (Stage H)) (h : Descends H a b) {x : Standing} (ha : C x a₀ a) :
    ∃ y, C y a₀ b := by
  induction h with
  | refl => exact ⟨x, ha⟩
  | call c s _ ih =>
      obtain ⟨y, hb⟩ := ih
      exact hC.perform hb c s

/-! ## Pauses change nothing -/

namespace Cue

variable {α W : Type} [Animation α W] {C : Course α} {a₀ a : α}

theorem run_pause (hC : C.Lawful W) (h : C .playing a₀ a) (ticks : List Float32) (w : W) :
    (Animation.run (pause ticks).calls a w).2 = (a, w) := by
  obtain ⟨b, hhalted⟩ := hC.exists_halted h
  rw [calls, ← List.cons_append, Animation.run_append, (hhalted ticks w).1]
  simp only [Animation.run, Animation.perform, (hhalted ticks w).2]

/-- Pauses can be left out. -/
theorem follow_eq_filter (hC : C.Lawful W) {plays : α → Prop}
    (hplays : ∀ {x a}, C x a₀ a → plays a → x = .playing) {x : Standing} (h : C x a₀ a)
    {cues : List Cue} {w : W} (htimely : Timely plays cues a w) :
    follow cues a w = follow (cues.filter fun cue => !cue.isPause) a w := by
  induction cues generalizing x a w with
  | nil => rfl
  | cons cue rest ih =>
      obtain ⟨hcue, hrest⟩ := htimely
      cases cue with
      | call c =>
          obtain ⟨y, hy⟩ := hC.perform h c w
          exact congrArg (fun tail => (Animation.perform c a w :: tail.1, tail.2)) (ih hy hrest)
      | pause ticks =>
          obtain rfl := hplays h (hcue rfl)
          have hpause := run_pause hC h ticks w
          change Timely plays rest (Animation.run _ a w).2.1 (Animation.run _ a w).2.2 at hrest
          change follow rest (Animation.run _ a w).2.1 (Animation.run _ a w).2.2 = _
          rw [hpause] at hrest ⊢
          exact ih h hrest

end Cue

namespace Tree

variable {H : Type} {n : ℕ}

/-- In every state to which calls can bring a tree that has been built, and in which its root
plays, a start changes nothing. A halt can be followed by any ticks: they are answered as idle,
and leave the tree and the stage as they are, and the next start brings back the state before the
halt. So the outcomes of any calls are the same whatever pauses there are between them. -/
theorem pause_invisible {a b : Tree H Timing n} (ha : Built n a) (hb : Descends H a b) :
    (Plays n b →
      (∀ s : Stage H, Animation.start b s = (b, s)) ∧
      ∃ halted : Tree H Timing n, ∀ (ticks : List Float32) (s : Stage H),
        Animation.run (.stop :: ticks.map .update) b s =
          (none :: ticks.map (fun _ => some .idle), halted, s) ∧
        Animation.start halted s = (b, s)) ∧
    ∀ (cues : List Cue) (s : Stage H), Cue.Timely (Plays n) cues b s →
      Cue.follow cues b s = Cue.follow (cues.filter fun cue => !cue.isPause) b s := by
  have hC := lawful_course (H := H) n
  obtain ⟨x, hx⟩ := hC.descends hb ha.course
  refine ⟨fun hplays => ?_, fun cues s htimely => ?_⟩
  · obtain rfl := (plays_iff hx).mp hplays
    exact ⟨hC.start_playing hx, hC.exists_halted hx⟩
  · exact Cue.follow_eq_filter hC (fun h => (plays_iff h).mp) hx htimely

/-- A timeline that fades and then makes two moves in turn, in the middle of the first of these. -/
theorem pause_invisible_nested :
    ∃ (script : Script (Embedded (Stage Unit) (Tree Unit Timing 1))) (b halted : Tree Unit Timing 2)
      (s : Stage Unit),
      Built 2 (.timeline (Timeline.build script (.empty, ())).1) ∧
      Descends Unit (.timeline (Timeline.build script (.empty, ())).1 : Tree Unit Timing 2) b ∧
      Plays 2 b ∧
      Animation.start b s = (b, s) ∧
      Animation.run [.stop, .update 16, .update 16] b s =
        ([none, some .idle, some .idle], halted, s) ∧
      Animation.start halted s = (b, s) ∧
      Cue.follow [.call (.update 16), .pause [16, 16], .call (.update 16)] b s =
        Cue.follow [.call (.update 16), .call (.update 16)] b s := by
  let script : Script (Embedded (Stage Unit) (Tree Unit Timing 1)) :=
    ⟨{ steps := [.configure (.set .empty .opacity { target := .value 0 }),
        .embed { build := fun s => (.sequence (.ofList [
          { driver := ⟨9⟩, goal := 1, duration := ofCount 100, easing := .linear },
          { driver := ⟨9⟩, goal := 0, duration := 0, easing := .linear }]), s) }] },
      {}, _, rfl⟩
  let s : Stage Unit := (Timeline.build script (.empty, ())).2
  have hbuilt : Built 2 (.timeline (Timeline.build script (.empty, ())).1) := by
    refine .timeline (.empty, ()) fun e he s => ?_
    obtain rfl : e = _ := by
      simpa [script, Spec.flatten, Step.flattenAll, Step.flatten] using he
    refine .sequence (List.forall_mem_cons.mpr ⟨?_, List.forall_mem_singleton.mpr ?_⟩)
    · exact ⟨_, _, _, _, rfl⟩
    · exact ⟨_, _, _, _, rfl⟩
  have hdescends : Descends Unit
      (.timeline (Timeline.build script (.empty, ())).1 : Tree Unit Timing 2) _ :=
    .call (.update (ofCount 350)) s (.call .start s .refl)
  have hplays : Plays 2 (Animation.perform (.update (ofCount 350)) (Animation.perform .start
      (.timeline (Timeline.build script (.empty, ())).1 : Tree Unit Timing 2) s).2.1 s).2.1 :=
    @of_decide_eq_true _ (decidablePlays 2 _) (by decide +kernel)
  obtain ⟨hpause, hfollow⟩ := pause_invisible hbuilt hdescends
  obtain ⟨hstart, halted, hhalted⟩ := hpause hplays
  refine ⟨script, _, halted, s, hbuilt, hdescends, hplays, hstart s, (hhalted [16, 16] s).1,
    (hhalted [16, 16] s).2, hfollow [.call (.update 16), .pause [16, 16], .call (.update 16)] s ?_⟩
  refine ⟨fun hpause => ?_, fun _ => ?_, fun hpause => ?_, ?_⟩
  · cases hpause
  · exact @of_decide_eq_true _ (decidablePlays 2 _) (by decide +kernel)
  · cases hpause
  · constructor

end Tree

end Storyboard
