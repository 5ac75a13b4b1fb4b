import Storyboard.Animation.Wait
import Storyboard.Proofs.Playback.Groups

/-! # The playback states

A timeline knows in three ways how far it is: by its state, by the cursor of its sequence, and
by whether that is running. They agree after any calls, whatever the embedded animations answer
and whatever they do to the stage.
-/

namespace Storyboard

/-! ## Ticks of a sequence -/

namespace Sequence

variable {α W : Type} [Animation α W]

/-- A tick of a running sequence never takes the cursor back, and is the last one if and only if
it takes the cursor behind all children. Nothing need be known of these. -/
theorem update_of_running {s : Sequence α} (hrunning : s.running = true)
    (hcursor : s.cursor ≤ s.length) (dt : Float32) (w : W) :
    let result := s.update dt w
    result.2.1.length = s.length ∧ s.cursor ≤ result.2.1.cursor ∧
      result.2.1.running = !result.1.isFinished ∧
      ((∃ leftover, result.1 = .finished leftover ∧ result.2.1.cursor = s.length) ∨
        (result.1 = .running ∧ result.2.1.cursor < s.length)) := by
  rcases Nat.lt_or_eq_of_le hcursor with hlt | hend
  · have hrelay : Relay (fun _ (_ : α) => True) (fun _ _ => True) (fun _ _ (_ : W) => True)
        (fun _ _ => True) (fun _ _ _ _ => True) fun _ _ _ => True :=
      ⟨fun _ _ => ⟨trivial, trivial⟩, fun _ _ => trivial, fun _ _ => trivial, fun _ => trivial⟩
    have hline := Line.ofKnown (w := w) (Along.ofForall (fun _ _ => trivial) 0 s.children) hcursor
    obtain ⟨-, hlength, hgoes, hends⟩ :=
      hrelay.update dt hline (fun _ _ _ => trivial) hrunning hlt
    refine ⟨hlength, ?_, hgoes, ?_⟩
    · obtain ⟨a, rest, hdrop⟩ := exists_drop_eq hlt
      rw [update_of_drop hrunning hdrop]
      exact Nat.le_add_right _ _
    · rcases hends with ⟨leftover, htick, hpassed, -⟩ | hgoing
      · exact .inl ⟨leftover, htick, hpassed⟩
      · exact .inr hgoing
  · rw [update_of_complete hrunning hend]
    exact ⟨rfl, Nat.le_refl _, rfl, .inl ⟨dt, rfl, hend⟩⟩

end Sequence

namespace Timeline

variable {H α : Type}

/-- The state of a timeline, its cursor and its sequence say the same. -/
structure Coherent (t : Timeline H α) : Prop where
  running : t.state = .running ↔ t.sequence.running = true
  within : t.currentGroup ≤ t.groupCount
  completed : t.state = .completed → t.currentGroup = t.groupCount
  /-- Without any groups a timeline is at its end before it has been played. -/
  ended : 0 < t.groupCount → t.currentGroup = t.groupCount → t.state = .completed

/-- A timeline that has not been started. -/
theorem coherent_ofList {t : Timeline H α} {groups : List (Group α)}
    (hsequence : t.sequence = .ofList groups) (hstate : t.state = .idle) : t.Coherent where
  running := by
    rw [hsequence, hstate]
    exact ⟨nofun, nofun⟩
  within := by
    rw [currentGroup, hsequence]
    exact Nat.zero_le _
  completed := by
    rw [hstate]
    nofun
  ended hpos hend := by
    rw [currentGroup, hsequence] at hend
    exact absurd hend (Nat.ne_of_lt hpos)

theorem coherent_build (script : Script (Embedded (Stage H) α)) (s : Stage H) :
    (build script s).1.Coherent :=
  coherent_ofList rfl rfl

/-- A timeline that goes on or halts where another one stands that is not completed. -/
theorem Coherent.elsewhere {t t' : Timeline H α} (h : t.Coherent)
    (hcursor : t'.currentGroup = t.currentGroup) (hcount : t'.groupCount = t.groupCount)
    (hrunning : t'.state = .running ↔ t'.sequence.running = true)
    (hstate : t.state ≠ .completed) (hstate' : t'.state ≠ .completed) : t'.Coherent where
  running := hrunning
  within := by
    rw [hcursor, hcount]
    exact h.within
  completed hcompleted := absurd hcompleted hstate'
  ended hpos hend := by
    rw [hcount] at hpos hend
    rw [hcursor] at hend
    exact absurd (h.ended hpos hend) hstate

variable [Animation α (Stage H)] {t : Timeline H α}

/-- What a tick of a running timeline can lead to. -/
theorem Coherent.update_of_running (h : t.Coherent) (hstate : t.state = .running) (dt : Float32)
    (s : Stage H) :
    let result := t.update dt s
    result.2.1.groupCount = t.groupCount ∧ t.currentGroup ≤ result.2.1.currentGroup ∧
      result.2.1.sequence.running = !result.1.isFinished ∧
      ((∃ leftover, result.1 = .finished leftover ∧ result.2.1.state = .completed ∧
          result.2.1.currentGroup = t.groupCount) ∨
        (result.1 = .running ∧ result.2.1.state = .running ∧
          result.2.1.currentGroup < t.groupCount)) := by
  obtain ⟨hlength, hcursor, hgoes, hends⟩ :=
    Sequence.update_of_running (h.running.mp hstate) h.within dt s
  rw [Timeline.update_of_running hstate]
  refine ⟨hlength, hcursor, hgoes, ?_⟩
  rcases hends with ⟨leftover, htick, hend⟩ | ⟨htick, hlt⟩
  · exact .inl ⟨leftover, htick, if_pos (htick ▸ rfl), hend⟩
  · exact .inr ⟨htick, if_neg (htick ▸ nofun), hlt⟩

theorem update_of_idle (h : t.state = .idle) (dt : Float32) (s : Stage H) :
    t.update dt s = (.idle, t, s) := by
  unfold update
  rw [h]

theorem update_of_completed (h : t.state = .completed) (dt : Float32) (s : Stage H) :
    t.update dt s = (.finished dt, t, s) := by
  unfold update
  rw [h]

theorem start_of_not_completed (h : t.state ≠ .completed) (s : Stage H) :
    t.start s =
      ({ t with sequence := (Animation.start t.sequence s).1, state := .running },
        (Animation.start t.sequence s).2) := by
  simp only [start, if_neg h]

theorem stop_of_running (h : t.state = .running) (s : Stage H) :
    t.stop s =
      ({ t with sequence := (Animation.stop t.sequence s).1, state := .idle },
        (Animation.stop t.sequence s).2) :=
  if_pos h

theorem stop_of_not_running (h : t.state ≠ .running) (s : Stage H) : t.stop s = (t, s) :=
  if_neg h

theorem coherent_reset (t : Timeline H α) (s : Stage H) : (t.reset s).1.Coherent :=
  coherent_ofList rfl rfl

namespace Coherent

/-- The group at the cursor is started, with the timeline in any state but completed. -/
theorem resume (h : t.Coherent) (hstate : t.state ≠ .completed) (s : Stage H) :
    Coherent { t with sequence := (Animation.start t.sequence s).1, state := .running } :=
  h.elsewhere rfl (length_visitAt _ _ _ _) ⟨fun _ => rfl, fun _ => rfl⟩ hstate nofun

theorem start (h : t.Coherent) (s : Stage H) : (t.start s).1.Coherent := by
  by_cases hstate : t.state = .completed
  · simp only [Timeline.start, if_pos hstate]
    exact (coherent_reset t s).resume nofun (t.reset s).2
  · rw [start_of_not_completed hstate]
    exact h.resume hstate s

theorem update (h : t.Coherent) (dt : Float32) (s : Stage H) : (t.update dt s).2.1.Coherent := by
  cases hstate : t.state with
  | idle => rwa [update_of_idle hstate]
  | completed => rwa [update_of_completed hstate]
  | running =>
      obtain ⟨hcount, -, hgoes, hends⟩ := h.update_of_running hstate dt s
      rcases hends with ⟨leftover, htick, hcompleted, hend⟩ | ⟨htick, hrunning, hlt⟩
      · rw [htick] at hgoes
        exact {
          running := by rw [hcompleted, hgoes]; exact ⟨nofun, nofun⟩
          within := Nat.le_of_eq (hend.trans hcount.symm)
          completed := fun _ => hend.trans hcount.symm
          ended := fun _ _ => hcompleted }
      · rw [htick] at hgoes
        exact {
          running := ⟨fun _ => hgoes, fun _ => hrunning⟩
          within := hcount ▸ Nat.le_of_lt hlt
          completed := by rw [hrunning]; nofun
          ended := fun _ hend => absurd (hend.trans hcount) (Nat.ne_of_lt hlt) }

theorem stop (h : t.Coherent) (s : Stage H) : (t.stop s).1.Coherent := by
  by_cases hstate : t.state = .running
  · rw [stop_of_running hstate]
    exact h.elsewhere rfl (length_visitAt _ _ _ _) ⟨nofun, nofun⟩ (by rw [hstate]; nofun) nofun
  · rwa [stop_of_not_running hstate]

theorem perform (h : t.Coherent) (c : Call) (s : Stage H) :
    (Animation.perform c t s).2.1.Coherent := by
  cases c with
  | start => exact h.start s
  | update dt => exact h.update dt s
  | stop => exact h.stop s
  | reset => exact coherent_reset t s

/-- Calls neither add groups nor take any away. -/
theorem groupCount_perform (h : t.Coherent) (c : Call) (s : Stage H) :
    (Animation.perform c t s).2.1.groupCount = t.groupCount := by
  cases c with
  | start =>
      change (t.start s).1.groupCount = _
      by_cases hstate : t.state = .completed
      · simp only [Timeline.start, if_pos hstate]
        exact (length_visitAt _ _ _ _).trans (length_visitAll _ _ _)
      · rw [start_of_not_completed hstate]
        exact length_visitAt _ _ _ _
  | update dt =>
      change (t.update dt s).2.1.groupCount = _
      cases hstate : t.state with
      | idle => rw [update_of_idle hstate]
      | completed => rw [update_of_completed hstate]
      | running => exact (h.update_of_running hstate dt s).1
  | stop =>
      change (t.stop s).1.groupCount = _
      by_cases hstate : t.state = .running
      · rw [stop_of_running hstate]
        exact length_visitAt _ _ _ _
      · rw [stop_of_not_running hstate]
  | reset => exact length_visitAll _ _ _

/-- Only a reset takes a timeline back. -/
theorem currentGroup_le_perform (h : t.Coherent) {c : Call} (hreset : c ≠ .reset)
    (hreplay : c = .start → t.state ≠ .completed) (s : Stage H) :
    t.currentGroup ≤ (Animation.perform c t s).2.1.currentGroup := by
  cases c with
  | start =>
      change _ ≤ (t.start s).1.currentGroup
      rw [start_of_not_completed (hreplay rfl)]
      exact Nat.le_refl _
  | update dt =>
      change _ ≤ (t.update dt s).2.1.currentGroup
      cases hstate : t.state with
      | idle => exact (update_of_idle hstate dt s) ▸ Nat.le_refl _
      | completed => exact (update_of_completed hstate dt s) ▸ Nat.le_refl _
      | running => exact (h.update_of_running hstate dt s).2.1
  | stop =>
      change _ ≤ (t.stop s).1.currentGroup
      unfold Timeline.stop
      split <;> exact Nat.le_refl _
  | reset => exact absurd rfl hreset

/-- The answer to a tick tells the state before it and the state after it. -/
theorem answer_iff (h : t.Coherent) (dt : Float32) (s : Stage H) :
    ((t.update dt s).1 = .idle ↔ t.state = .idle) ∧
      ((t.update dt s).1.isFinished ↔ (t.update dt s).2.1.state = .completed) := by
  cases hstate : t.state with
  | idle =>
      rw [update_of_idle hstate, hstate]
      exact ⟨⟨fun _ => rfl, fun _ => rfl⟩, ⟨nofun, nofun⟩⟩
  | completed =>
      rw [update_of_completed hstate, hstate]
      exact ⟨⟨nofun, nofun⟩, ⟨fun _ => rfl, fun _ => rfl⟩⟩
  | running =>
      obtain ⟨-, -, -, ⟨leftover, htick, hcompleted, -⟩ | ⟨htick, hrunning, -⟩⟩ :=
        h.update_of_running hstate dt s
      · rw [htick, hcompleted]
        exact ⟨⟨nofun, nofun⟩, ⟨fun _ => rfl, fun _ => rfl⟩⟩
      · rw [htick, hrunning]
        exact ⟨⟨nofun, nofun⟩, ⟨nofun, nofun⟩⟩

end Coherent

theorem Coherent.descends {t₀ : Timeline H α} (h : Descends H t₀ t) (h₀ : t₀.Coherent) :
    t.Coherent := by
  induction h with
  | refl => exact h₀
  | call c s _ ih => exact ih.perform c s

/-- In every state to which calls can bring a timeline, on any stages and with any embedded
animations, its state, its cursor and its sequence agree. No call but a reset takes the cursor
back, and that takes it to the first group. The answer to a tick tells the state. A timeline
that is not running takes no notice of ticks, and none of a stop. -/
theorem playback_coherent (script : Script (Embedded (Stage H) α)) (s₀ : Stage H)
    (h : Descends H (build script s₀).1 t) :
    ((t.state = .running ↔ t.sequence.running = true) ∧
      t.currentGroup ≤ t.groupCount ∧
      (t.state = .completed → t.currentGroup = t.groupCount) ∧
      (0 < t.groupCount → t.currentGroup = t.groupCount → t.state = .completed)) ∧
    ∀ s : Stage H,
      ((∀ c, c ≠ .reset → (c = .start → t.state ≠ .completed) →
          t.currentGroup ≤ (Animation.perform c t s).2.1.currentGroup) ∧
        (t.reset s).1.currentGroup = 0 ∧
        (t.state = .completed → (t.start s).1.currentGroup = 0)) ∧
      (∀ dt, ((t.update dt s).1 = .idle ↔ t.state = .idle) ∧
        ((t.update dt s).1.isFinished ↔ (t.update dt s).2.1.state = .completed) ∧
        (t.state = .idle → t.update dt s = (.idle, t, s)) ∧
        (t.state = .completed → t.update dt s = (.finished dt, t, s))) ∧
      (t.state ≠ .running → t.stop s = (t, s)) := by
  have hcoherent := (coherent_build script s₀).descends h
  refine ⟨⟨hcoherent.running, hcoherent.within, hcoherent.completed, hcoherent.ended⟩,
    fun s => ⟨⟨?_, rfl, ?_⟩, fun dt => ⟨?_, ?_, ?_, ?_⟩, fun hstate => ?_⟩⟩
  · exact fun c hreset hreplay => hcoherent.currentGroup_le_perform hreset hreplay s
  · intro hstate
    simp only [start, if_pos hstate]
    rfl
  · exact (hcoherent.answer_iff dt s).1
  · exact (hcoherent.answer_iff dt s).2
  · exact fun hstate => update_of_idle hstate dt s
  · exact fun hstate => update_of_completed hstate dt s
  · exact stop_of_not_running hstate s

/-- A timeline that fades and then waits, played to its end, and started once more. -/
theorem playback_coherent_completed :
    ∃ (script : Script (Embedded (Stage Unit) Wait)) (t : Timeline Unit Wait) (s : Stage Unit),
      script.spec.flatten = [.configure (.set .empty .opacity { target := .value 0 }),
        .embed { build := fun s => ({ duration := 100 }, s) }] ∧
      Descends Unit (build script (.empty, ())).1 t ∧
      t.state = .completed ∧ t.currentGroup = t.groupCount ∧
      (t.start s).1.currentGroup = 0 ∧
      t.update 16 s = (.finished 16, t, s) ∧ t.stop s = (t, s) := by
  let script : Script (Embedded (Stage Unit) Wait) :=
    ⟨{ steps := [.configure (.set .empty .opacity { target := .value 0 }),
        .embed { build := fun s => ({ duration := 100 }, s) }] }, {}, _, rfl⟩
  let s := (build script (.empty, ())).2
  have hdescends : Descends Unit (build script (.empty, ())).1 _ :=
    .call (.update (ofCount 1000)) s (.call .start s .refl)
  obtain ⟨⟨-, -, hend, -⟩, hcalls⟩ := playback_coherent script (.empty, ()) hdescends
  obtain ⟨⟨-, -, hreplay⟩, hticks, hstop⟩ := hcalls s
  have hstate : (Animation.perform (.update (ofCount 1000))
      (Animation.perform .start (build script (.empty, ())).1 s).2.1 s).2.1.state = .completed := by
    decide +kernel
  exact ⟨script, _, s, rfl, hdescends, hstate, hend hstate, hreplay hstate,
    (hticks 16).2.2.2 hstate, hstop (by rw [hstate]; nofun)⟩

end Timeline

end Storyboard
