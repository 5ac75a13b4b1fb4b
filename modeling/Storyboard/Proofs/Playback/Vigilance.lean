import Storyboard.Proofs.Playback.Pauses
import Storyboard.Proofs.Playback.Together
import Storyboard.Proofs.Playback.Turns

/-! # No animation is left behind

A sequence takes a child that answers a tick as idle for one that plays, and would wait for it
forever. That never comes about. In a tree of timed moves, parallel animations, sequences and
timelines a node that plays has all those children play that it waits for. So as long as the
root plays, no tick is answered as idle anywhere in the tree, and each of them is passed on down to
the clocks of the moves.
-/

namespace Storyboard

variable {α W : Type}

/-! ## What is asked of a node -/

/-- What a child is to be given of a tick: all of it, if it is not flagged. -/
def Parallel.Due (dt : Float32) (p : Parallel α) (_reached : List (Event α W)) (i : ℕ)
    (dt' : Float32) : Prop :=
  dt' = dt ∧ ∃ lane, p.lanes[i]? = some lane ∧ lane.finished = false

/-- What a child is to be given of a tick: all of it at the cursor, and behind that what the child
in front has left over. -/
def Sequence.Due (dt : Float32) (s : Sequence α) (reached : List (Event α W)) (i : ℕ)
    (dt' : Float32) : Prop :=
  i < s.length ∧ ((i = s.cursor ∧ dt' = dt) ∨
    ∃ e ∈ reached, e.child + 1 = i ∧ e.answer = some (.finished dt'))

/-- A tick is not answered as idle. Every child is given what is due to it, and none of the ticks
to children is answered as idle either. -/
structure Alert {σ : Type} [Animation σ W] (events : Call → σ → W → List (Event α W))
    (due : Float32 → σ → List (Event α W) → ℕ → Float32 → Prop)
    (alert : Float32 → α → W → Prop) (dt : Float32) (a : σ) (w : W) : Prop where
  answer : (Animation.update dt a w).1 ≠ .idle
  given : ∀ i dt', due dt a (events (.update dt) a w) i dt' →
    ∃ e ∈ events (.update dt) a w, e.child = i ∧ e.call = .update dt'
  children : ∀ e ∈ events (.update dt) a w, ∀ dt', e.call = .update dt' →
    alert dt' e.before e.world

/-- A parallel animation that calls have led to, next to the one that was built. Of the children
it is known whether they play, and whether they are sound themselves. -/
structure Parallel.Sound (W : Type) [Animation α W] (plays : α → Prop) (sound : α → α → Prop)
    (p₀ p : Parallel α) : Prop where
  called : ∃ log : List (Event α W), Chronicle events p₀ log p
  /-- While it plays, every child plays that is not flagged. -/
  going : p.running = true → ∀ lane ∈ p.lanes, lane.finished = false → plays lane.child
  /-- By any log of the calls, a child that is flagged is over. -/
  ended : ∀ log : List (Event α W), Chronicle events p₀ log p → ∀ i lane,
    p.lanes[i]? = some lane → lane.finished = true → Over log i
  children : List.Forall₂ (fun lane₀ lane => sound lane₀.child lane.child) p₀.lanes p.lanes

/-- A sequence that calls have led to, next to the one that was built. -/
structure Sequence.Sound (W : Type) [Animation α W] (plays : α → Prop) (sound : α → α → Prop)
    (s₀ s : Sequence α) : Prop where
  called : ∃ log : List (Event α W), Chronicle events s₀ log s
  /-- While it plays, the child at the cursor does. -/
  front : s.running = true → ∀ a, s.children[s.cursor]? = some a → plays a
  /-- By any log of the calls, the children before the cursor are over. -/
  ended : ∀ log : List (Event α W), Chronicle events s₀ log s → ∀ i < s.cursor, Over log i
  /-- The children behind the cursor are as they were built. -/
  untouched : ∀ i, s.cursor < i → s.children[i]? = s₀.children[i]?
  children : List.Forall₂ sound s₀.children s.children

/-- What is asked of animations of one kind. -/
structure Duty (H α : Type) where
  plays : α → Prop
  /-- It is asked of an animation next to what was built. -/
  sound : α → α → Prop
  alert : Float32 → α → Stage H → Prop

variable {H : Type}

/-- Whatever has been called on an animation since it was built, it is sound, and alert while it
plays. -/
def Duty.Kept [Animation α (Stage H)] (D : Duty H α) (a₀ : α) : Prop :=
  ∀ a, Descends H a₀ a → D.sound a₀ a ∧ (D.plays a → ∀ dt s, D.alert dt a s)

namespace Duty

/-- Timed moves have no children. They add a tick to their clocks. -/
def timing (H : Type) : Duty H Timing where
  plays t := t.phase = .running
  sound _ _ := True
  alert dt t s :=
    (Animation.update dt t s).1 ≠ .idle ∧
      (Animation.update dt t s).2.1.elapsed = t.elapsed + maxNumber dt 0

variable [Animation α (Stage H)] (D : Duty H α)

/-- The duty of parallel animations. -/
def parallel : Duty H (Parallel α) where
  plays p := p.running = true
  sound := Parallel.Sound (Stage H) D.plays D.sound
  alert := Alert Parallel.events Parallel.Due D.alert

/-- The duty of sequences. -/
def sequence : Duty H (Sequence α) where
  plays s := s.running = true
  sound := Sequence.Sound (Stage H) D.plays D.sound
  alert := Alert Sequence.events Sequence.Due D.alert

/-- Groups pass everything on. -/
def group : Duty H (Group α) where
  plays
    | .advance moves => (timing H).parallel.plays moves
    | .embed a => D.plays a
  sound
    | .advance moves₀, .advance moves => (timing H).parallel.sound moves₀ moves
    | .embed a₀, .embed a => D.sound a₀ a
    | _, _ => False
  alert dt
    | .advance moves, s => (timing H).parallel.alert dt moves s
    | .embed a, s => D.alert dt a s

/-- The groups of a timeline are played in sequence, which is given the ticks. -/
def timeline : Duty H (Timeline H α) where
  plays t := t.state = .running
  sound t₀ t :=
    (t.state = .running ↔ t.sequence.running = true) ∧
      D.group.sequence.sound t₀.sequence t.sequence
  alert dt t s :=
    (Animation.update dt t s).1 ≠ .idle ∧
      (t.state = .running →
        (Animation.update dt t s).1 = (Animation.update dt t.sequence s).1 ∧
          (Animation.update dt t s).2.1.sequence = (Animation.update dt t.sequence s).2.1 ∧
          (Animation.update dt t s).2.2 = (Animation.update dt t.sequence s).2.2 ∧
          D.group.sequence.alert dt t.sequence s)

/-- The duty of a node of each kind. -/
def composite : Duty H (Composite H Timing α) where
  plays := Composite.Plays
  sound
    | .leaf t₀, .leaf t => (timing H).sound t₀ t
    | .parallel p₀, .parallel p => D.parallel.sound p₀ p
    | .sequence s₀, .sequence s => D.sequence.sound s₀ s
    | .timeline t₀, .timeline t => D.timeline.sound t₀ t
    | _, _ => False
  alert dt
    | .leaf t, s => (timing H).alert dt t s
    | .parallel p, s => D.parallel.alert dt p s
    | .sequence q, s => D.sequence.alert dt q s
    | .timeline t, s => D.timeline.alert dt t s

end Duty

/-! ## From the root to the children -/

section Descent

variable [Animation α (Stage H)]

theorem Descends.exists_chronicle {a b : α}
    (events : Call → α → Stage H → List (Event W (Stage H))) (h : Descends H a b) :
    ∃ log, Chronicle events a log b := by
  induction h with
  | refl => exact ⟨[], .built⟩
  | call c s _ ih =>
      obtain ⟨log, hlog⟩ := ih
      exact ⟨_, hlog.call c s⟩

/-- Calls to one kind of animation, among others, lead to that kind. -/
theorem Descends.exists_of_wrap {β : Type} [Animation β (Stage H)] {wrap : α → β}
    (hpass : ∀ (c : Call) (a : α) (s : Stage H),
      (Animation.perform c (wrap a) s).2.1 = wrap (Animation.perform c a s).2.1)
    {a : α} {b : β} (h : Descends H (wrap a) b) : ∃ a', b = wrap a' ∧ Descends H a a' := by
  induction h with
  | refl => exact ⟨a, rfl, .refl⟩
  | call c s _ ih =>
      obtain ⟨a', rfl, ha'⟩ := ih
      exact ⟨_, hpass c a' s, ha'.call c s⟩

/-- Every child is one that calls have led to. -/
theorem Sequence.along_descends {children : List α} {s : Sequence α}
    (h : Descends H (.ofList children) s) :
    Along (fun i a => ∃ a₀, children[i]? = some a₀ ∧ Descends H a₀ a) 0 s.children := by
  induction h with
  | refl =>
      apply Along.iff_getElem?.mpr
      intro i a ha
      rw [Nat.zero_add]
      exact ⟨a, ha, .refl⟩
  | call c w hs ih =>
      obtain ⟨log, hlog⟩ := hs.exists_chronicle events
      obtain ⟨-, -, hcursor, -⟩ := firstOver_of_chronicle hlog
      apply ih.perform _ hcursor
      rintro i a c w ⟨a₀, ha₀, ha⟩
      exact ⟨a₀, ha₀, ha.call c w⟩

theorem Parallel.along_descends {children : List α} {p : Parallel α}
    (h : Descends H (.ofList children) p) :
    Along (fun i lane => ∃ a₀, children[i]? = some a₀ ∧ Descends H a₀ lane.child) 0 p.lanes := by
  induction h with
  | refl =>
      apply Along.iff_getElem?.mpr
      intro i lane hlane
      obtain ⟨a, ha, rfl⟩ := by simpa [ofList] using hlane
      rw [Nat.zero_add]
      exact ⟨a, ha, .refl⟩
  | call c w _ ih =>
      have hcall : ∀ (i : ℕ) (a : α) (c : Call) (w : Stage H),
          (∃ a₀, children[i]? = some a₀ ∧ Descends H a₀ a) →
          ∃ a₀, children[i]? = some a₀ ∧ Descends H a₀ (Animation.perform c a w).2.1 := by
        rintro i a c w ⟨a₀, ha₀, ha⟩
        exact ⟨a₀, ha₀, ha.call c w⟩
      exact along_perform hcall ih c w

/-- While a timeline is called, nothing but calls comes to its sequence. -/
theorem Timeline.descends_sequence {t₀ t : Timeline H α} (h : Descends H t₀ t) :
    Descends H t₀.sequence t.sequence := by
  induction h with
  | refl => exact .refl
  | @call t c s _ ih =>
      have hreset : Descends H t₀.sequence (t.reset s).1.sequence :=
        ih.call .reset (lowered t.drivers s)
      cases c with
      | start =>
          change Descends H _ (t.start s).1.sequence
          by_cases hstate : t.state = .completed
          · simp only [Timeline.start, if_pos hstate]
            exact hreset.call .start (t.reset s).2
          · simp only [Timeline.start, if_neg hstate]
            exact ih.call .start s
      | update dt =>
          change Descends H _ (t.update dt s).2.1.sequence
          unfold Timeline.update
          split
          · exact ih
          · exact ih
          · exact ih.call (.update dt) s
      | stop =>
          change Descends H _ (t.stop s).1.sequence
          unfold Timeline.stop
          split
          · exact ih.call .stop s
          · exact ih
      | reset => exact hreset

end Descent

/-! ## Every kind of node keeps its duty -/

theorem Course.Lawful.update_ne_idle [Animation α W] {C : Course α} (hC : C.Lawful W) {a₀ a : α}
    (h : C .playing a₀ a) (dt : Float32) (w : W) : (Animation.update dt a w).1 ≠ .idle := by
  rcases hC.update_playing h dt w with ⟨⟨leftover, hfinished⟩, -⟩ | ⟨hrunning, -⟩
  · rw [hfinished]
    nofun
  · rw [hrunning]
    nofun

/-- A tick reaches every child that is not flagged. -/
theorem Parallel.given_of_due [Animation α W] {p : Parallel α} {log : List (Event α W)}
    (hflags : Lane.Flagged (Over log) 0 p.lanes) (hrunning : p.running = true) {dt dt' : Float32}
    {w : W} {i : ℕ} (h : p.Due dt (p.events (.update dt) w) i dt') :
    ∃ e ∈ p.events (.update dt) w, e.child = i ∧ e.call = .update dt' := by
  obtain ⟨rfl, lane, hlane, hgoing⟩ := h
  have hflag := hflags.of_getElem? hlane
  have hover : ¬ Over log i := fun hover => by
    rw [hflag.mpr hover] at hgoing
    cases hgoing
  have hlt : i < p.length := (List.getElem?_eq_some_iff.mp hlane).1
  have honce := (shared_update hflags hrunning dt' w).once
  obtain ⟨e, he, hchild⟩ :=
    List.mem_map.mp ((honce.children i).mpr ⟨Nat.zero_le i, by omega, hover⟩)
  exact ⟨e, he, hchild, honce.call e he⟩

/-- A tick reaches the child at the cursor, and what a child leaves over the next one. -/
theorem Sequence.given_of_due [Animation α W] {s : Sequence α} {log : List (Event α W)}
    (hlog : FirstOver log s.cursor) (hcursor : s.cursor ≤ s.length) (hrunning : s.running = true)
    {dt dt' : Float32} {w : W} {i : ℕ} (h : s.Due dt (s.events (.update dt) w) i dt') :
    ∃ e ∈ s.events (.update dt) w, e.child = i ∧ e.call = .update dt' := by
  obtain ⟨hlt, ⟨rfl, rfl⟩ | ⟨e, he, rfl, hanswer⟩⟩ := h
  · obtain ⟨a, passed, -, hrelayed, -⟩ := exists_relayed_update hrunning hlt dt' w
    obtain ⟨rest, hevents⟩ := hrelayed.exists_cons
    rw [hevents]
    exact ⟨_, List.mem_cons_self, rfl, rfl⟩
  · obtain ⟨before, after, hsplit⟩ := List.append_of_mem he
    obtain ⟨hinTurn, -, -⟩ := inTurn_events hlog hcursor (.update dt) w
    obtain ⟨e₁, e₂, rest, rfl, -, hchild, hcall⟩ := hinTurn.handOver hsplit hanswer hlt
    exact ⟨e₂, by rw [hsplit]; simp, hchild, hcall⟩

namespace Duty

theorem kept_timing (t₀ : Timing) : (timing H).Kept t₀ := by
  intro t _
  refine ⟨trivial, fun hphase dt s => ?_⟩
  change t.phase = .running at hphase
  change (t.update dt s).1 ≠ .idle ∧ (t.update dt s).2.1.elapsed = _
  rw [Timing.update_eq, Timing.answer, Timing.ticked, if_pos hphase, hphase]
  refine ⟨?_, rfl⟩
  dsimp only
  split <;> simp

/-- What plays is known by the course. -/
def Follows (D : Duty H α) (C : Course α) : Prop :=
  ∀ x a₀ a, C x a₀ a → (D.plays a ↔ x = .playing)

variable {C : Course α} {D : Duty H α}

theorem Follows.group (hplays : D.Follows C) : D.group.Follows C.group := by
  intro x g₀ g h
  rcases h with ⟨_, moves, -, rfl, h⟩ | ⟨_, a, -, rfl, h⟩
  · change moves.running = true ↔ _
    rw [h.running, Standing.plays_iff]
  · exact hplays x _ a h

theorem follows_timing : (timing H).Follows Timing.OnCourse := by
  intro x t₀ t h
  change t.phase = .running ↔ _
  rw [h.phase, Standing.phase_eq_running]

variable [Animation α (Stage H)]

theorem kept_sequence (hC : C.Lawful (Stage H)) (hplays : D.Follows C) {children : List α}
    (h : ∀ a ∈ children, C .halted a a ∧ D.Kept a) : D.sequence.Kept (.ofList children) := by
  intro s hs
  obtain ⟨x, hx⟩ := (Sequence.lawful_onCourse hC).descends hs
    (Sequence.onCourse_ofList fun a ha => (h a ha).1)
  have hdescends := Sequence.along_descends hs
  obtain ⟨log, hlog⟩ := hs.exists_chronicle Sequence.events
  obtain ⟨-, hover, hcursor, hlength⟩ := Sequence.firstOver_of_chronicle hlog
  have hplaying : s.running = true → x = .playing :=
    fun hrunning => Standing.plays_iff.mp (hx.running.symm.trans hrunning)
  have hfront : s.running = true → ∀ a, s.children[s.cursor]? = some a → D.plays a := by
    intro hrunning a ha
    obtain ⟨a₀, -, hat⟩ := hx.row.here_of_getElem? ha
    exact (hplays x a₀ a hat).mpr (hplaying hrunning)
  have huntouched : ∀ i, s.cursor < i → ∀ a, s.children[i]? = some a →
      children[i]? = some a ∧ C .halted a a := by
    intro i hlt a ha
    have hfresh := hx.row.fresh_of_getElem? hlt ha
    rwa [Nat.zero_add] at hfresh
  refine ⟨⟨⟨log, hlog⟩, hfront, ?ended, ?untouched, ?children⟩,
    fun hrunning dt w => ⟨?answer, fun i dt' => ?given, ?alert⟩⟩
  case ended =>
    intro log hlog i hi
    exact ((Sequence.firstOver_of_chronicle hlog).2.1 i).mpr hi
  case untouched =>
    intro i hlt
    cases ha : s.children[i]? with
    | none =>
        have hle : children.length ≤ i := hlength ▸ List.getElem?_eq_none_iff.mp ha
        exact (List.getElem?_eq_none hle).symm
    | some a => exact (huntouched i hlt a ha).1.symm
  case children =>
    apply forall₂_of_along _ hlength
    refine hdescends.imp fun i a ⟨a₀, ha₀, ha⟩ => ⟨a₀, ha₀, ?_⟩
    exact ((h a₀ (List.mem_of_getElem? ha₀)).2 a ha).1
  case answer =>
    obtain rfl := hplaying hrunning
    exact (Sequence.lawful_onCourse hC).update_ne_idle hx dt w
  case given => exact Sequence.given_of_due hover hcursor hrunning
  case alert =>
    intro e he dt' hcall
    rcases Sequence.before_of_mem_events hcursor he hcall with ha | hbehind
    · obtain ⟨a₀, ha₀, hdescend⟩ := hdescends.of_getElem? ha
      exact ((h a₀ (List.mem_of_getElem? ha₀)).2 _ hdescend).2 (hfront hrunning _ ha) dt' e.world
    · obtain ⟨j, next, w', hlt, hnext, hbefore⟩ := hbehind
      obtain ⟨hnext₀, hfresh⟩ := huntouched j hlt next hnext
      have hdescend : Descends H next e.before := hbefore ▸ Descends.refl.call .start w'
      have hplay : D.plays e.before := hbefore ▸ (hplays _ _ _ (hC.start hfresh w')).mpr rfl
      exact ((h next (List.mem_of_getElem? hnext₀)).2 _ hdescend).2 hplay dt' e.world

theorem kept_parallel (hC : C.Lawful (Stage H)) (hplays : D.Follows C) {children : List α}
    (h : ∀ a ∈ children, C .halted a a ∧ D.Kept a) : D.parallel.Kept (.ofList children) := by
  intro p hp
  obtain ⟨x, hx⟩ := (Parallel.lawful_onCourse hC).descends hp
    (Parallel.onCourse_ofList fun a ha => (h a ha).1)
  have hdescends := Parallel.along_descends hp
  obtain ⟨log, hlog⟩ := hp.exists_chronicle Parallel.events
  obtain ⟨hflags, hlength⟩ := Parallel.flagged_of_chronicle hlog
  have hplaying : p.running = true → x = .playing :=
    fun hrunning => Standing.plays_iff.mp (hx.running.symm.trans hrunning)
  have hgoing : p.running = true → ∀ lane ∈ p.lanes, lane.finished = false →
      D.plays lane.child := by
    intro hrunning lane hlane hfinished
    obtain ⟨lane₀, -, hlane₀⟩ := exists_of_mem_forall₂ hx.lanes.flip hlane
    cases hlane₀ with
    | finished _ => cases hfinished
    | going _ ha => exact (hplays x _ _ ha).mpr (hplaying hrunning)
  refine ⟨⟨⟨log, hlog⟩, hgoing, ?ended, ?children⟩,
    fun hrunning dt w => ⟨?answer, fun i dt' => ?given, ?alert⟩⟩
  case ended =>
    intro log hlog i lane hlane hfinished
    obtain ⟨hflags, -⟩ := Parallel.flagged_of_chronicle hlog
    exact (hflags.of_getElem? hlane).mp hfinished
  case children =>
    apply forall₂_of_along _ (hlength.trans (List.length_map _).symm)
    refine hdescends.imp fun i lane ⟨a₀, ha₀, ha⟩ => ⟨⟨a₀, false⟩, ?_, ?_⟩
    · simp [ha₀]
    · exact ((h a₀ (List.mem_of_getElem? ha₀)).2 _ ha).1
  case answer =>
    obtain rfl := hplaying hrunning
    exact (Parallel.lawful_onCourse hC).update_ne_idle hx dt w
  case given => exact Parallel.given_of_due hflags hrunning
  case alert =>
    intro e he dt' _
    obtain ⟨lane, hlane, hfinished, hbefore⟩ := Parallel.before_of_mem_events he
    obtain ⟨i, hi⟩ := List.getElem?_of_mem hlane
    obtain ⟨a₀, ha₀, hdescend⟩ := hdescends.of_getElem? hi
    rw [hbefore]
    exact ((h a₀ (List.mem_of_getElem? ha₀)).2 _ hdescend).2 (hgoing hrunning lane hlane hfinished)
      dt' e.world

/-- The moves of drivers keep the duty of groups. -/
theorem kept_advance {children : List Timing}
    (h : ∀ t ∈ children, Timing.OnCourse .halted t t) :
    D.group.Kept (.advance (.ofList children)) := by
  have hmoves : (timing H).parallel.Kept (.ofList children) := by
    apply kept_parallel (Timing.lawful_onCourse H) follows_timing
    exact fun t ht => ⟨h t ht, kept_timing t⟩
  intro g hg
  obtain ⟨moves, rfl, hdescends⟩ := hg.exists_of_wrap fun c moves s => by
    rw [Group.perform_advance]
  exact hmoves moves hdescends

theorem kept_embed {a₀ : α} (h : D.Kept a₀) : D.group.Kept (.embed a₀) := by
  intro g hg
  obtain ⟨a, rfl, hdescends⟩ := hg.exists_of_wrap fun c a s => by
    rw [Group.perform_embed]
  exact h a hdescends

theorem kept_buildGroups {own : PropertyMap Driver}
    {steps : List (PlanStep (Embedded (Stage H) α))}
    (h : ∀ e, .embed e ∈ steps → ∀ s : Stage H, D.Kept (e.build s).1) (s : Stage H) :
    ∀ g ∈ (Timeline.buildGroups own steps s).1, D.group.Kept g := by
  induction steps generalizing s with
  | nil => nofun
  | cons step rest ih =>
      have hrest := ih fun e he => h e (List.mem_cons_of_mem _ he)
      cases step with
      | advance advances =>
          refine List.forall_mem_cons.mpr ⟨kept_advance fun t ht => ?_, hrest s⟩
          obtain ⟨p, -, rfl⟩ := List.mem_map.mp ht
          exact ⟨rfl, rfl, nofun⟩
      | embed e =>
          exact List.forall_mem_cons.mpr ⟨kept_embed (h e List.mem_cons_self s), hrest _⟩

theorem kept_timeline (hC : C.Lawful (Stage H)) (hplays : D.Follows C)
    {script : Script (Embedded (Stage H) α)}
    (h : ∀ e, .embed e ∈ script.spec.flatten → ∀ s : Stage H,
      C .halted (e.build s).1 (e.build s).1 ∧ D.Kept (e.build s).1) (s₀ : Stage H) :
    D.timeline.Kept (Timeline.build script s₀).1 := by
  have hcourse : ∀ e, .embed e ∈ script.spec.flatten → ∀ s : Stage H,
      C .halted (e.build s).1 (e.build s).1 := fun e he s => (h e he s).1
  have hsequence : D.group.sequence.Kept (Timeline.build script s₀).1.sequence := by
    apply kept_sequence hC.group hplays.group
    intro g hg
    constructor
    · exact Timeline.course_buildGroups (fun e he => hcourse e (script.embed_mem he)) _ g hg
    · exact kept_buildGroups (fun e he s => (h e (script.embed_mem he) s).2) _ g hg
  intro t ht
  obtain ⟨x, hx⟩ := (Timeline.lawful_onCourse hC).descends ht (Timeline.onCourse_build hcourse s₀)
  obtain ⟨hsound, halert⟩ := hsequence t.sequence (Timeline.descends_sequence ht)
  have hrunning : t.state = .running ↔ t.sequence.running = true := by
    rw [hx.state, hx.sequence.running, Standing.state_eq_running, Standing.plays_iff]
  refine ⟨⟨hrunning, hsound⟩, fun hstate dt s => ⟨?_, fun _ => ?_⟩⟩
  · obtain rfl := Standing.state_eq_running.mp (hx.state.symm.trans hstate)
    exact (Timeline.lawful_onCourse hC).update_ne_idle hx dt s
  · have hupdate : Animation.update dt t s = _ := Timeline.update_of_running hstate dt s
    rw [hupdate]
    exact ⟨rfl, rfl, rfl, halert (hrunning.mp hstate) dt s⟩

theorem kept_composite (hC : C.Lawful (Stage H)) (hplays : D.Follows C) {built : α → Prop}
    (hbuilt : ∀ a, built a → C .halted a a ∧ D.Kept a) {a₀ : Composite H Timing α}
    (h : a₀.Built built) : D.composite.Kept a₀ := by
  intro a ha
  cases h with
  | leaf driver goal duration easing =>
      obtain ⟨t, rfl, hdescends⟩ := ha.exists_of_wrap fun c t s => by cases c <;> rfl
      exact kept_timing _ t hdescends
  | parallel h =>
      obtain ⟨p, rfl, hdescends⟩ := ha.exists_of_wrap fun c p s => by cases c <;> rfl
      exact kept_parallel hC hplays (fun a ha => hbuilt a (h a ha)) p hdescends
  | sequence h =>
      obtain ⟨q, rfl, hdescends⟩ := ha.exists_of_wrap fun c q s => by cases c <;> rfl
      exact kept_sequence hC hplays (fun a ha => hbuilt a (h a ha)) q hdescends
  | timeline s₀ h =>
      obtain ⟨t, rfl, hdescends⟩ := ha.exists_of_wrap fun c t s => by cases c <;> rfl
      exact kept_timeline hC hplays (fun e he s => hbuilt _ (h e he s)) s₀ t hdescends

end Duty

/-! ## Trees -/

namespace Tree

/-- What is asked of trees. -/
def duty : (n : ℕ) → Duty H (Tree H Timing n)
  | 0 => Duty.timing H
  | n + 1 => Duty.composite (duty n)

theorem duty_plays (n : ℕ) (a : Tree H Timing n) : (duty n).plays a ↔ Plays n a := by
  cases n <;> exact Iff.rfl

theorem kept_duty {n : ℕ} {a : Tree H Timing n} (h : Built n a) : (duty n).Kept a := by
  induction n with
  | zero => exact Duty.kept_timing a
  | succ n ih =>
      apply Duty.kept_composite (lawful_course n) _ _ h
      · intro x a₀ a ha
        rw [duty_plays, plays_iff ha]
      · exact fun a ha => ⟨ha.course, ih ha⟩

/-- In every state to which calls can bring a tree that has been built, at every node, a node that
plays has all children play that it waits for, children that it does not wait for any more are
over, and children it has not come to are as they were built. So while the root plays, no tick is
answered as idle anywhere in the tree, and none of its time is lost: a node passes the tick on to
the children that it waits for, and in a sequence what a child leaves over to the next one, down to
the moves, which add it to their clocks. -/
theorem never_left_behind {n : ℕ} {a b : Tree H Timing n} (ha : Built n a) (hb : Descends H a b) :
    (duty n).sound a b ∧ (Plays n b → ∀ (dt : Float32) (s : Stage H), (duty n).alert dt b s) := by
  obtain ⟨hsound, halert⟩ := kept_duty ha b hb
  exact ⟨hsound, fun hplays => halert ((duty_plays n b).mpr hplays)⟩

/-- A timeline that fades and then makes two moves side by side, when the shorter one is over. -/
theorem never_left_behind_nested :
    ∃ (script : Script (Embedded (Stage Unit) (Tree Unit Timing 1))) (b : Tree Unit Timing 2),
      Built 2 (.timeline (Timeline.build script (.empty, ())).1) ∧
      Descends Unit (.timeline (Timeline.build script (.empty, ())).1 : Tree Unit Timing 2) b ∧
      Plays 2 b ∧
      (duty 2).sound (.timeline (Timeline.build script (.empty, ())).1) b ∧
      ∀ (dt : Float32) (s : Stage Unit), (duty 2).alert dt b s := by
  let script : Script (Embedded (Stage Unit) (Tree Unit Timing 1)) :=
    ⟨{ steps := [.configure (.set .empty .opacity { target := .value 0 }),
        .embed { build := fun s => (.parallel (.ofList [
          { driver := ⟨9⟩, goal := 1, duration := ofCount 50, easing := .linear },
          { driver := ⟨9⟩, goal := 0, duration := ofCount 200, easing := .linear }]), s) }] },
      {}, _, rfl⟩
  let s : Stage Unit := (Timeline.build script (.empty, ())).2
  have hbuilt : Built 2 (.timeline (Timeline.build script (.empty, ())).1) := by
    apply Composite.Built.timeline (.empty, ())
    intro e he s
    obtain rfl : e = _ := by
      simpa [script, Spec.flatten, Step.flattenAll, Step.flatten] using he
    refine .parallel (List.forall_mem_cons.mpr ⟨?_, List.forall_mem_singleton.mpr ?_⟩)
    · exact ⟨_, _, _, _, rfl⟩
    · exact ⟨_, _, _, _, rfl⟩
  have hdescends : Descends Unit
      (.timeline (Timeline.build script (.empty, ())).1 : Tree Unit Timing 2) _ :=
    .call (.update (ofCount 350)) s (.call .start s .refl)
  have hplays : Plays 2 (Animation.perform (.update (ofCount 350)) (Animation.perform .start
      (.timeline (Timeline.build script (.empty, ())).1 : Tree Unit Timing 2) s).2.1 s).2.1 :=
    @of_decide_eq_true _ (decidablePlays 2 _) (by decide +kernel)
  obtain ⟨hsound, halert⟩ := never_left_behind hbuilt hdescends
  exact ⟨script, _, hbuilt, hdescends, hplays, hsound, halert hplays⟩

end Tree

end Storyboard
