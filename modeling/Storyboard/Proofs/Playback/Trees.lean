import Storyboard.Animation.Tree
import Storyboard.Proofs.Playback.Coherence
import Storyboard.Proofs.Playback.Course

/-! # Trees that have been built

Timelines, and trees of timed moves, parallel animations, sequences and timelines, have a
course as well. It begins with what building them yields, and no call leaves it. So whatever is
called on the root, every node of a tree is known to play, to be over, or to be halted.
-/

namespace Storyboard

variable {H α : Type} {C : Course α} {x : Standing}

/-! ## Timelines -/

/-- The moves of drivers take their course, and embedded animations theirs. -/
def Course.group (C : Course α) : Course (Group α) :=
  .either (.via .advance (Parallel.OnCourse Timing.OnCourse)) (.via .embed C)

theorem Course.Lawful.group [Animation α (Stage H)] (hC : C.Lawful (Stage H)) :
    C.group.Lawful (Stage H) :=
  .either (.via (Parallel.lawful_onCourse (Timing.lawful_onCourse H)) Group.perform_advance)
    (.via hC Group.perform_embed)

/-- The state of a timeline that stands so. -/
def Standing.state : Standing → PlaybackState
  | halted => .idle
  | playing => .running
  | ended => .completed

theorem Standing.state_eq_running : x.state = .running ↔ x = .playing := by
  cases x <;> decide

namespace Timeline

/-- A timeline that has been built and called. -/
structure OnCourse (C : Course α) (x : Standing) (t₀ t : Timeline H α) : Prop where
  fresh : t₀.state = .idle
  script : t.script = t₀.script
  drivers : t.drivers = t₀.drivers
  sequence : Sequence.OnCourse C.group x t₀.sequence t.sequence
  state : t.state = x.state

theorem course_buildGroups {own : PropertyMap Driver}
    {steps : List (PlanStep (Embedded (Stage H) α))}
    (h : ∀ e, .embed e ∈ steps → ∀ s : Stage H, C .halted (e.build s).1 (e.build s).1)
    (s : Stage H) : ∀ g ∈ (buildGroups own steps s).1, C.group .halted g g := by
  induction steps generalizing s with
  | nil => nofun
  | cons step rest ih =>
      have hrest := ih fun e he => h e (List.mem_cons_of_mem _ he)
      cases step with
      | advance advances =>
          refine List.forall_mem_cons.mpr ⟨?_, hrest s⟩
          have hmoves : Parallel.OnCourse Timing.OnCourse .halted (moves own advances)
              (moves own advances) := by
            refine Parallel.onCourse_ofList fun t ht => ?_
            obtain ⟨p, -, rfl⟩ := List.mem_map.mp ht
            exact ⟨rfl, rfl, nofun⟩
          exact .inl ⟨_, _, rfl, rfl, hmoves⟩
      | embed e =>
          refine List.forall_mem_cons.mpr ⟨?_, hrest _⟩
          exact .inr ⟨_, _, rfl, rfl, h e List.mem_cons_self s⟩

theorem onCourse_build {script : Script (Embedded (Stage H) α)}
    (h : ∀ e, .embed e ∈ script.spec.flatten → ∀ s : Stage H,
      C .halted (e.build s).1 (e.build s).1) (s : Stage H) :
    OnCourse C .halted (build script s).1 (build script s).1 where
  fresh := rfl
  script := rfl
  drivers := rfl
  sequence := Sequence.onCourse_ofList
    (course_buildGroups (fun e he => h e (script.embed_mem he)) _)
  state := rfl

variable {t₀ t : Timeline H α}

/-- Nothing but the sequence and the state of a timeline ever changes. -/
theorem OnCourse.eq_of_sequence (h : OnCourse C x t₀ t) {sequence : Sequence (Group α)}
    (hsequence : sequence = t₀.sequence) : { t with sequence, state := .idle } = t₀ := by
  rw [hsequence, h.script, h.drivers, ← h.fresh]

theorem OnCourse.elsewhere {y : Standing} (h : OnCourse C x t₀ t) {sequence : Sequence (Group α)}
    (hsequence : Sequence.OnCourse C.group y t₀.sequence sequence) :
    OnCourse C y t₀ { t with sequence, state := y.state } :=
  ⟨h.fresh, h.script, h.drivers, hsequence, rfl⟩

variable [Animation α (Stage H)]

theorem OnCourse.reset (hC : C.Lawful (Stage H)) (h : OnCourse C x t₀ t) (s : Stage H) :
    (t.reset s).1 = t₀ :=
  h.eq_of_sequence (h.sequence.reset hC.group _)

theorem OnCourse.rested (hC : C.Lawful (Stage H)) (h : OnCourse C x t₀ t) :
    OnCourse C .halted t₀ t₀ :=
  ⟨h.fresh, rfl, rfl, h.sequence.rested hC.group, h.fresh⟩

theorem OnCourse.start (hC : C.Lawful (Stage H)) (h : OnCourse C .halted t₀ t) (s : Stage H) :
    OnCourse C .playing t₀ (t.start s).1 := by
  have hstate : t.state ≠ .completed := by
    rw [h.state]
    nofun
  rw [start_of_not_completed hstate]
  exact h.elsewhere (h.sequence.start hC.group s)

/-- A timeline that is over plays again. -/
theorem OnCourse.start_ended (hC : C.Lawful (Stage H)) (h : OnCourse C .ended t₀ t) (s : Stage H) :
    OnCourse C .playing t₀ (t.start s).1 := by
  have hstate : t.state = .completed := h.state
  have hreset := h.reset hC s
  simp only [Timeline.start, if_pos hstate]
  rw [hreset]
  exact (h.rested hC).elsewhere ((h.rested hC).sequence.start hC.group _)

theorem OnCourse.start_playing (hC : C.Lawful (Stage H)) (h : OnCourse C .playing t₀ t)
    (s : Stage H) : t.start s = (t, s) := by
  have hstate : t.state = .running := h.state
  have hcompleted : t.state ≠ .completed := by
    rw [hstate]
    nofun
  rw [start_of_not_completed hcompleted, h.sequence.start_playing hC.group s, ← hstate]

theorem OnCourse.update_playing (hC : C.Lawful (Stage H)) (h : OnCourse C .playing t₀ t)
    (dt : Float32) (s : Stage H) :
    ((∃ leftover, (t.update dt s).1 = .finished leftover) ∧
      OnCourse C .ended t₀ (t.update dt s).2.1) ∨
    ((t.update dt s).1 = .running ∧ OnCourse C .playing t₀ (t.update dt s).2.1) := by
  rw [update_of_running h.state]
  dsimp only
  rcases h.sequence.update_playing hC.group dt s with
    ⟨⟨leftover, htick⟩, hover⟩ | ⟨htick, hplaying⟩
  · refine .inl ⟨⟨leftover, htick⟩, ?_⟩
    rw [htick]
    exact h.elsewhere hover
  · refine .inr ⟨htick, ?_⟩
    rw [htick]
    exact h.elsewhere hplaying

theorem OnCourse.stop_playing (hC : C.Lawful (Stage H)) (h : OnCourse C .playing t₀ t) :
    ∃ t', OnCourse C .halted t₀ t' ∧ ∀ s : Stage H, t.stop s = (t', s) ∧ t'.start s = (t, s) := by
  have hstate : t.state = .running := h.state
  obtain ⟨sequence, hsequence, hcalled⟩ := h.sequence.stop_playing hC.group
  refine ⟨_, h.elsewhere hsequence, fun s => ⟨?_, ?_⟩⟩
  · rw [stop_of_running hstate, (hcalled s).1]
    rfl
  · have hidle : PlaybackState.idle ≠ PlaybackState.completed := by decide
    rw [start_of_not_completed hidle]
    dsimp only
    rw [(hcalled s).2, ← hstate]

theorem lawful_onCourse (hC : C.Lawful (Stage H)) :
    Course.Lawful (Stage H) (OnCourse C (H := H)) where
  fresh h := h.rested hC
  reset h := h.reset hC
  start h := h.start hC
  start_playing h := h.start_playing hC
  start_ended h s := .inl (h.start_ended hC s)
  update_halted h := update_of_idle h.state
  update_playing h := h.update_playing hC
  update_ended h dt s := congrArg Prod.snd (update_of_completed h.state dt s)
  stop_still := by
    intro x t₀ t h hx s
    exact stop_of_not_running (h.state ▸ mt Standing.state_eq_running.mp hx) s
  stop_playing h := h.stop_playing hC

end Timeline

/-! ## Trees -/

namespace Composite

/-- Each kind of node takes its own course. -/
def course (C : Course α) : Course (Composite H Timing α) :=
  .either (.either (.via .leaf Timing.OnCourse) (.via .parallel (Parallel.OnCourse C)))
    (.either (.via .sequence (Sequence.OnCourse C)) (.via .timeline (Timeline.OnCourse C)))

theorem lawful_course [Animation α (Stage H)] (hC : C.Lawful (Stage H)) :
    (course C : Course (Composite H Timing α)).Lawful (Stage H) := by
  refine .either (.either ?leaf ?parallel) (.either ?sequence ?timeline)
  case leaf => exact .via (Timing.lawful_onCourse H) fun c _ _ => by cases c <;> rfl
  case parallel => exact .via (Parallel.lawful_onCourse hC) fun c _ _ => by cases c <;> rfl
  case sequence => exact .via (Sequence.lawful_onCourse hC) fun c _ _ => by cases c <;> rfl
  case timeline => exact .via (Timeline.lawful_onCourse hC) fun c _ _ => by cases c <;> rfl

/-- A node has been built from parts that have. The steps of a timeline build such parts on any
stage. -/
inductive Built (built : α → Prop) : Composite H Timing α → Prop
  | leaf (driver : Driver) (goal duration : Float32) (easing : Easing) :
      Built built (.leaf { driver, goal, duration, easing })
  | parallel {children : List α} (h : ∀ a ∈ children, built a) :
      Built built (.parallel (.ofList children))
  | sequence {children : List α} (h : ∀ a ∈ children, built a) :
      Built built (.sequence (.ofList children))
  | timeline {script : Script (Embedded (Stage H) α)} (s : Stage H)
      (h : ∀ e, .embed e ∈ script.spec.flatten → ∀ s : Stage H, built (e.build s).1) :
      Built built (.timeline (Timeline.build script s).1)

theorem Built.course {built : α → Prop} {a : Composite H Timing α} (h : a.Built built)
    (hbuilt : ∀ a, built a → C .halted a a) : Composite.course C .halted a a := by
  cases h with
  | leaf driver goal duration easing => exact .inl (.inl ⟨_, _, rfl, rfl, rfl, rfl, nofun⟩)
  | parallel h =>
      exact .inl (.inr ⟨_, _, rfl, rfl, Parallel.onCourse_ofList fun a ha => hbuilt a (h a ha)⟩)
  | sequence h =>
      exact .inr (.inl ⟨_, _, rfl, rfl, Sequence.onCourse_ofList fun a ha => hbuilt a (h a ha)⟩)
  | timeline s h =>
      exact .inr (.inr ⟨_, _, rfl, rfl,
        Timeline.onCourse_build (fun e he s => hbuilt _ (h e he s)) s⟩)

/-- A node has been started and is neither halted nor over. -/
def Plays : Composite H Timing α → Prop
  | leaf t => t.phase = .running
  | parallel p => p.running = true
  | sequence s => s.running = true
  | timeline t => t.state = .running

instance decidablePlays : (a : Composite H Timing α) → Decidable a.Plays
  | leaf t => inferInstanceAs (Decidable (t.phase = .running))
  | parallel p => inferInstanceAs (Decidable (p.running = true))
  | sequence s => inferInstanceAs (Decidable (s.running = true))
  | timeline t => inferInstanceAs (Decidable (t.state = .running))

theorem plays_iff {a₀ a : Composite H Timing α} (h : course C x a₀ a) :
    a.Plays ↔ x = .playing := by
  rcases h with (⟨_, t, -, rfl, h⟩ | ⟨_, p, -, rfl, h⟩) | (⟨_, s, -, rfl, h⟩ | ⟨_, t, -, rfl, h⟩)
  · rw [Plays, h.phase, Standing.phase_eq_running]
  · rw [Plays, h.running, Standing.plays_iff]
  · rw [Plays, h.running, Standing.plays_iff]
  · rw [Plays, h.state, Standing.state_eq_running]

end Composite

namespace Tree

/-- The course of a tree whose leaves are timed moves. -/
def course : (n : ℕ) → Course (Tree H Timing n)
  | 0 => Timing.OnCourse
  | n + 1 => Composite.course (course n)

theorem lawful_course (n : ℕ) : (course n : Course (Tree H Timing n)).Lawful (Stage H) := by
  induction n with
  | zero => exact Timing.lawful_onCourse H
  | succ n ih => exact Composite.lawful_course ih

/-- A tree has been built, and nothing has been called since. -/
def Built : (n : ℕ) → Tree H Timing n → Prop
  | 0, t => ∃ driver goal duration easing, t = ({ driver, goal, duration, easing } : Timing)
  | n + 1, a => Composite.Built (Built n) a

theorem Built.course {n : ℕ} {a : Tree H Timing n} (h : Built n a) :
    Tree.course n .halted a a := by
  induction n with
  | zero =>
      obtain ⟨driver, goal, duration, easing, rfl⟩ := h
      exact ⟨rfl, rfl, nofun⟩
  | succ n ih => exact Composite.Built.course h fun a ha => ih ha

/-- The root plays. -/
def Plays : (n : ℕ) → Tree H Timing n → Prop
  | 0, t => Timing.phase t = .running
  | _ + 1, a => Composite.Plays a

instance decidablePlays : (n : ℕ) → (a : Tree H Timing n) → Decidable (Plays n a)
  | 0, t => inferInstanceAs (Decidable (Timing.phase t = .running))
  | _ + 1, a => Composite.decidablePlays a

theorem plays_iff {n : ℕ} {a₀ a : Tree H Timing n} (h : course n x a₀ a) :
    Plays n a ↔ x = .playing := by
  cases n with
  | zero => rw [Plays, Timing.OnCourse.phase h, Standing.phase_eq_running]
  | succ n => exact Composite.plays_iff h

end Tree

end Storyboard
