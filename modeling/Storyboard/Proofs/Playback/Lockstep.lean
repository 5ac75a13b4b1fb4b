import Mathlib.Data.List.Forall2
import Storyboard.Animation.Parallel
import Storyboard.Proofs.Numeric.Order
import Storyboard.Proofs.Playback.Line
import Storyboard.Timeline

/-! # Two runs side by side

Two animations on two worlds are in lockstep if the same calls get the same answers from
both. Animations that are composed in the same way of children in lockstep are in lockstep
themselves, and so are timelines that consist of the same groups and whose drivers stand at
the same positions. Such timelines cannot be told apart.
-/

namespace Storyboard

variable {α β W V : Type}

/-- Two animations are related, and so are their worlds. -/
def Paired (M : α → β → Prop) (N : W → V → Prop) (r : α × W) (r' : β × V) : Prop :=
  M r.1 r'.1 ∧ N r.2 r'.2

/-- The same call to related animations on related worlds gets the same answer, and leads to
related animations on related worlds. -/
structure Lockstep [Animation α W] [Animation β V] (M : α → β → Prop) (N : W → V → Prop) :
    Prop where
  start : ∀ {a b w v}, M a b → N w v → Paired M N (Animation.start a w) (Animation.start b v)
  update : ∀ {a b w v} (dt : Float32), M a b → N w v →
    (Animation.update dt a w).1 = (Animation.update dt b v).1 ∧
      Paired M N (Animation.update dt a w).2 (Animation.update dt b v).2
  stop : ∀ {a b w v}, M a b → N w v → Paired M N (Animation.stop a w) (Animation.stop b v)
  reset : ∀ {a b w v}, M a b → N w v → Paired M N (Animation.reset a w) (Animation.reset b v)

namespace Lockstep

variable [Animation α W] [Animation β V] {M : α → β → Prop} {N : W → V → Prop} {a : α} {b : β}
  {w : W} {v : V}

theorem perform (h : Lockstep M N) (c : Call) (hab : M a b) (hwv : N w v) :
    (Animation.perform c a w).1 = (Animation.perform c b v).1 ∧
      Paired M N (Animation.perform c a w).2 (Animation.perform c b v).2 := by
  cases c with
  | start => exact ⟨rfl, h.start hab hwv⟩
  | update dt =>
      obtain ⟨htick, hpaired⟩ := h.update dt hab hwv
      exact ⟨congrArg some htick, hpaired⟩
  | stop => exact ⟨rfl, h.stop hab hwv⟩
  | reset => exact ⟨rfl, h.reset hab hwv⟩

theorem run (h : Lockstep M N) (calls : List Call) (hab : M a b) (hwv : N w v) :
    (Animation.run calls a w).1 = (Animation.run calls b v).1 ∧
      Paired M N (Animation.run calls a w).2 (Animation.run calls b v).2 := by
  induction calls generalizing a b w v with
  | nil => exact ⟨rfl, hab, hwv⟩
  | cons c rest ih =>
      obtain ⟨hanswer, hab', hwv'⟩ := h.perform c hab hwv
      obtain ⟨hanswers, hpaired⟩ := ih hab' hwv'
      exact ⟨congrArg₂ List.cons hanswer hanswers, hpaired⟩

/-- It is enough to look at calls of any kind. -/
theorem ofPerform (h : ∀ (c : Call) {a b w v}, M a b → N w v →
    (Animation.perform c a w).1 = (Animation.perform c b v).1 ∧
      Paired M N (Animation.perform c a w).2 (Animation.perform c b v).2) : Lockstep M N where
  start hab hwv := (h .start hab hwv).2
  update dt hab hwv :=
    let ⟨hanswer, hpaired⟩ := h (.update dt) hab hwv
    ⟨Option.some.inj hanswer, hpaired⟩
  stop hab hwv := (h .stop hab hwv).2
  reset hab hwv := (h .reset hab hwv).2

/-- Any animation is in lockstep with itself. -/
theorem refl : Lockstep (@Eq α) (@Eq W) :=
  .ofPerform (by rintro c a _ w _ rfl rfl; exact ⟨rfl, rfl, rfl⟩)

end Lockstep

/-! ## Answers that are the same number

Where the order of the children differs, so may the sign of a zero that is left over.
-/

/-- Two answers are the same, with times left over that are the same number. -/
inductive Tick.Same : Tick → Tick → Prop
  | idle : Same .idle .idle
  | running : Same .running .running
  | finished {leftover leftover' : Float32} (number : SameNumber leftover leftover') :
      Same (.finished leftover) (.finished leftover')

/-- The same call to related animations on related worlds gets the same answer as far as numbers
go, and leads to related animations on related worlds. -/
def InStep [Animation α W] [Animation β V] (M : α → β → Prop) (N : W → V → Prop) : Prop :=
  ∀ (c : Call) {a b w v}, M a b → N w v →
    Option.Rel Tick.Same (Animation.perform c a w).1 (Animation.perform c b v).1 ∧
      Paired M N (Animation.perform c a w).2 (Animation.perform c b v).2

theorem InStep.run [Animation α W] [Animation β V] {M : α → β → Prop} {N : W → V → Prop}
    (h : InStep M N) (calls : List Call) {a : α} {b : β} {w : W} {v : V} (hab : M a b)
    (hwv : N w v) :
    List.Forall₂ (Option.Rel Tick.Same) (Animation.run calls a w).1 (Animation.run calls b v).1 ∧
      Paired M N (Animation.run calls a w).2 (Animation.run calls b v).2 := by
  induction calls generalizing a b w v with
  | nil => exact ⟨.nil, hab, hwv⟩
  | cons c rest ih =>
      obtain ⟨hanswer, hab', hwv'⟩ := h c hab hwv
      obtain ⟨hanswers, hpaired⟩ := ih hab' hwv'
      exact ⟨.cons hanswer hanswers, hpaired⟩

/-! ## Lists of animations -/

section Visits

variable {M : α → β → Prop} {N : W → V → Prop} {f : α → W → α × W} {g : β → V → β × V}
  {l : List α} {l' : List β} {w : W} {v : V}

theorem paired_visitAll (h : ∀ {a b w v}, M a b → N w v → Paired M N (f a w) (g b v))
    (hl : List.Forall₂ M l l') (hwv : N w v) :
    Paired (List.Forall₂ M) N (visitAll f l w) (visitAll g l' v) := by
  induction hl generalizing w v with
  | nil => exact ⟨.nil, hwv⟩
  | cons hab _ ih =>
      obtain ⟨hab', hwv'⟩ := h hab hwv
      obtain ⟨hrest, hwv''⟩ := ih hwv'
      exact ⟨.cons hab' hrest, hwv''⟩

theorem paired_visitAt (h : ∀ {a b w v}, M a b → N w v → Paired M N (f a w) (g b v)) (k : ℕ)
    (hl : List.Forall₂ M l l') (hwv : N w v) :
    Paired (List.Forall₂ M) N (visitAt f k l w) (visitAt g k l' v) := by
  induction hl generalizing k with
  | nil => cases k <;> exact ⟨.nil, hwv⟩
  | cons hab hrest ih =>
      cases k with
      | zero =>
          obtain ⟨hab', hwv'⟩ := h hab hwv
          exact ⟨.cons hab' hrest, hwv'⟩
      | succ k =>
          obtain ⟨hrest', hwv'⟩ := ih k
          exact ⟨.cons hab hrest', hwv'⟩

end Visits

/-! ## Sequences -/

/-- Sequences of related children that have come equally far. -/
structure Sequence.Matches (M : α → β → Prop) (s : Sequence α) (s' : Sequence β) : Prop where
  children : List.Forall₂ M s.children s'.children
  cursor : s.cursor = s'.cursor
  running : s.running = s'.running

namespace Lockstep

variable [Animation α W] [Animation β V] {M : α → β → Prop} {N : W → V → Prop}

theorem advance (h : Lockstep M N) {a : α} {b : β} {rest : List α} {rest' : List β} {w : W} {v : V}
    (hab : M a b) (hrest : List.Forall₂ M rest rest') (hwv : N w v) (dt : Float32) :
    (Sequence.advance dt a rest w).tick = (Sequence.advance dt b rest' v).tick ∧
      (Sequence.advance dt a rest w).passed = (Sequence.advance dt b rest' v).passed ∧
      List.Forall₂ M (Sequence.advance dt a rest w).children
        (Sequence.advance dt b rest' v).children ∧
      N (Sequence.advance dt a rest w).world (Sequence.advance dt b rest' v).world := by
  -- both sides hand the same time on to the next child
  induction hrest generalizing a b dt w v with
  | nil =>
      obtain ⟨htick, hab', hwv'⟩ := h.update dt hab hwv
      cases hfinished : (Animation.update dt a w).1 with
      | finished leftover =>
          rw [Sequence.advance_nil hfinished, Sequence.advance_nil (htick ▸ hfinished)]
          exact ⟨rfl, rfl, .cons hab' .nil, hwv'⟩
      | _ =>
          have hgo : (Animation.update dt a w).1.isFinished = false := by rw [hfinished]; rfl
          rw [Sequence.advance_of_not_finished hgo, Sequence.advance_of_not_finished (htick ▸ hgo)]
          exact ⟨rfl, rfl, .cons hab' .nil, hwv'⟩
  | cons hnext hrest ih =>
      obtain ⟨htick, hab', hwv'⟩ := h.update dt hab hwv
      cases hfinished : (Animation.update dt a w).1 with
      | finished leftover =>
          obtain ⟨hnext', hwv''⟩ := h.start hnext hwv'
          obtain ⟨htick', hpassed, hchildren, hworld⟩ := ih hnext' hwv'' leftover
          rw [Sequence.advance_cons hfinished, Sequence.advance_cons (htick ▸ hfinished)]
          exact ⟨htick', congrArg (· + 1) hpassed, .cons hab' hchildren, hworld⟩
      | _ =>
          have hgo : (Animation.update dt a w).1.isFinished = false := by rw [hfinished]; rfl
          rw [Sequence.advance_of_not_finished hgo, Sequence.advance_of_not_finished (htick ▸ hgo)]
          exact ⟨rfl, rfl, .cons hab' (.cons hnext hrest), hwv'⟩

theorem update_sequence (h : Lockstep M N) {s : Sequence α} {s' : Sequence β} {w : W} {v : V}
    (hs : s.Matches M s') (hwv : N w v) (dt : Float32) :
    (s.update dt w).1 = (s'.update dt v).1 ∧
      Paired (Sequence.Matches M) N (s.update dt w).2 (s'.update dt v).2 := by
  obtain ⟨children, cursor, running⟩ := s
  obtain ⟨children', _, _⟩ := s'
  obtain ⟨hchildren, rfl, rfl⟩ := hs
  cases running with
  | false => exact ⟨rfl, ⟨hchildren, rfl, rfl⟩, hwv⟩
  | true =>
      have hdrop := List.forall₂_drop cursor hchildren
      unfold Sequence.update
      cases hleft : children.drop cursor with
      | nil =>
          rw [hleft] at hdrop
          rw [List.forall₂_nil_left_iff.mp hdrop]
          exact ⟨rfl, ⟨hchildren, rfl, rfl⟩, hwv⟩
      | cons a rest =>
          rw [hleft] at hdrop
          obtain ⟨b, rest', hab, hrest, hright⟩ := List.forall₂_cons_left_iff.mp hdrop
          obtain ⟨htick, hpassed, hchildren', hworld⟩ := h.advance hab hrest hwv dt
          rw [hright]
          refine ⟨htick, ⟨?_, ?_, ?_⟩, hworld⟩
          · exact List.rel_append (List.forall₂_take cursor hchildren) hchildren'
          · exact congrArg (cursor + ·) hpassed
          · exact congrArg (fun tick : Tick => !tick.isFinished) htick

/-- Sequences of children in lockstep are in lockstep. -/
theorem sequence (h : Lockstep M N) : Lockstep (Sequence.Matches M) N where
  start := by
    rintro ⟨children, cursor, running⟩ ⟨children', _, _⟩ w v ⟨hchildren, rfl, rfl⟩ hwv
    obtain ⟨hchildren', hworld⟩ := paired_visitAt h.start cursor hchildren hwv
    exact ⟨⟨hchildren', rfl, rfl⟩, hworld⟩
  update dt hs hwv := h.update_sequence hs hwv dt
  stop := by
    rintro ⟨children, cursor, running⟩ ⟨children', _, _⟩ w v ⟨hchildren, rfl, rfl⟩ hwv
    obtain ⟨hchildren', hworld⟩ := paired_visitAt h.stop cursor hchildren hwv
    exact ⟨⟨hchildren', rfl, rfl⟩, hworld⟩
  reset := by
    intro s s' w v hs hwv
    obtain ⟨hchildren, hworld⟩ := paired_visitAll h.reset hs.children hwv
    exact ⟨⟨hchildren, rfl, rfl⟩, hworld⟩

end Lockstep

/-! ## Parallel animations -/

/-- Lanes of related children that are over or not alike. -/
structure Lane.Matches (M : α → β → Prop) (lane : Lane α) (lane' : Lane β) : Prop where
  child : M lane.child lane'.child
  finished : lane.finished = lane'.finished

/-- Parallel animations of matching lanes. -/
structure Parallel.Matches (M : α → β → Prop) (p : Parallel α) (p' : Parallel β) : Prop where
  lanes : List.Forall₂ (Lane.Matches M) p.lanes p'.lanes
  running : p.running = p'.running

theorem Lane.all_finished_eq {M : α → β → Prop} {lanes : List (Lane α)} {lanes' : List (Lane β)}
    (h : List.Forall₂ (Lane.Matches M) lanes lanes') :
    lanes.all (·.finished) = lanes'.all (·.finished) := by
  induction h with
  | nil => rfl
  | cons hlane _ ih => rw [List.all_cons, List.all_cons, hlane.finished, ih]

namespace Lockstep

variable [Animation α W] [Animation β V] {M : α → β → Prop} {N : W → V → Prop}

theorem startLane (h : Lockstep M N) {lane : Lane α} {lane' : Lane β} {w : W} {v : V}
    (hlane : lane.Matches M lane') (hwv : N w v) :
    Paired (Lane.Matches M) N (Parallel.startLane lane w) (Parallel.startLane lane' v) := by
  unfold Parallel.startLane
  rw [← hlane.finished]
  cases hfinished : lane.finished with
  | true => exact ⟨hlane, hwv⟩
  | false =>
      obtain ⟨hchild, hworld⟩ := h.start hlane.child hwv
      exact ⟨⟨hchild, rfl⟩, hworld⟩

theorem updateLanes (h : Lockstep M N) {lanes : List (Lane α)} {lanes' : List (Lane β)} {w : W}
    {v : V} (hlanes : List.Forall₂ (Lane.Matches M) lanes lanes') (hwv : N w v)
    (dt leftover : Float32) :
    (Parallel.updateLanes dt leftover lanes w).leftover =
        (Parallel.updateLanes dt leftover lanes' v).leftover ∧
      List.Forall₂ (Lane.Matches M) (Parallel.updateLanes dt leftover lanes w).lanes
        (Parallel.updateLanes dt leftover lanes' v).lanes ∧
      N (Parallel.updateLanes dt leftover lanes w).world
        (Parallel.updateLanes dt leftover lanes' v).world := by
  induction hlanes generalizing leftover w v with
  | nil => exact ⟨rfl, .nil, hwv⟩
  | @cons lane lane' rest rest' hlane _ ih =>
      unfold Parallel.updateLanes
      rw [← hlane.finished]
      cases hfinished : lane.finished with
      | true =>
          obtain ⟨hleftover, hrest, hworld⟩ := ih hwv leftover
          exact ⟨hleftover, .cons hlane hrest, hworld⟩
      | false =>
          obtain ⟨htick, hchild, hwv'⟩ := h.update dt hlane.child hwv
          simp only [Bool.false_eq_true, if_false]
          generalize Animation.update dt lane.child w = r at *
          generalize Animation.update dt lane'.child v = r' at *
          obtain ⟨tick, a, w'⟩ := r
          obtain ⟨tick', b, v'⟩ := r'
          obtain rfl : tick = tick' := htick
          cases tick with
          | finished l =>
              obtain ⟨hleftover, hrest, hworld⟩ := ih hwv' (minNumber leftover l)
              exact ⟨hleftover, .cons ⟨hchild, rfl⟩ hrest, hworld⟩
          | _ =>
              obtain ⟨hleftover, hrest, hworld⟩ := ih hwv' leftover
              exact ⟨hleftover, .cons ⟨hchild, rfl⟩ hrest, hworld⟩

theorem update_parallel (h : Lockstep M N) {p : Parallel α} {p' : Parallel β} {w : W} {v : V}
    (hp : p.Matches M p') (hwv : N w v) (dt : Float32) :
    (p.update dt w).1 = (p'.update dt v).1 ∧
      Paired (Parallel.Matches M) N (p.update dt w).2 (p'.update dt v).2 := by
  obtain ⟨lanes, running⟩ := p
  obtain ⟨lanes', _⟩ := p'
  obtain ⟨hlanes, rfl⟩ := hp
  cases running with
  | false => exact ⟨rfl, ⟨hlanes, rfl⟩, hwv⟩
  | true =>
      obtain ⟨hleftover, hlanes', hworld⟩ := h.updateLanes hlanes hwv dt dt
      unfold Parallel.update
      simp only [if_true]
      rw [Lane.all_finished_eq hlanes', hleftover]
      split
      · exact ⟨rfl, ⟨hlanes', rfl⟩, hworld⟩
      · exact ⟨rfl, ⟨hlanes', rfl⟩, hworld⟩

/-- Parallel animations of children in lockstep are in lockstep. -/
theorem parallel (h : Lockstep M N) : Lockstep (Parallel.Matches M) N where
  start hp hwv := by
    obtain ⟨hlanes, hworld⟩ := paired_visitAll h.startLane hp.lanes hwv
    exact ⟨⟨hlanes, rfl⟩, hworld⟩
  update dt hp hwv := h.update_parallel hp hwv dt
  stop hp hwv := by
    have hlane : ∀ {lane : Lane α} {lane' : Lane β} {w v}, lane.Matches M lane' → N w v →
        Paired (Lane.Matches M) N
          ({ lane with child := (Animation.stop lane.child w).1 }, (Animation.stop lane.child w).2)
          ({ lane' with child := (Animation.stop lane'.child v).1 },
            (Animation.stop lane'.child v).2) := by
      intro lane lane' w v hlane hwv
      obtain ⟨hchild, hworld⟩ := h.stop hlane.child hwv
      exact ⟨⟨hchild, hlane.finished⟩, hworld⟩
    obtain ⟨hlanes, hworld⟩ := paired_visitAll hlane hp.lanes hwv
    exact ⟨⟨hlanes, rfl⟩, hworld⟩
  reset hp hwv := by
    have hlane : ∀ {lane : Lane α} {lane' : Lane β} {w v}, lane.Matches M lane' → N w v →
        Paired (Lane.Matches M) N
          (⟨(Animation.reset lane.child w).1, false⟩, (Animation.reset lane.child w).2)
          (⟨(Animation.reset lane'.child v).1, false⟩, (Animation.reset lane'.child v).2) := by
      intro lane lane' w v hlane hwv
      obtain ⟨hchild, hworld⟩ := h.reset hlane.child hwv
      exact ⟨⟨hchild, rfl⟩, hworld⟩
    obtain ⟨hlanes, hworld⟩ := paired_visitAll hlane hp.lanes hwv
    exact ⟨⟨hlanes, rfl⟩, hworld⟩

end Lockstep

/-! ## Timelines -/

namespace Timeline

variable {H α : Type}

/-- What can be seen of a timeline. -/
structure Appearance where
  drivers : Property → Float32
  style : Style
  currentGroup : ℕ
  state : PlaybackState

/-- What can be seen of a timeline on a stage. -/
def appearance (t : Timeline H α) (s : Stage H) : Appearance :=
  ⟨fun p => s.1.get (t.drivers.get p), t.style s.1, t.currentGroup, t.state⟩

/-- The stage with all drivers at the beginning. -/
def lowered (own : PropertyMap Driver) (s : Stage H) : Stage H :=
  (own.values.foldl (fun bank d => bank.set d 0) s.1, s.2)

/-- Timelines with the same tables whose groups are related and have come equally far. -/
structure Matches (M : Group α → Group α → Prop) (own own' : PropertyMap Driver)
    (t t' : Timeline H α) : Prop where
  outputs : t.outputs = t'.outputs
  unit : t.script.config.angleUnit = t'.script.config.angleUnit
  drivers : t.drivers = own
  drivers' : t'.drivers = own'
  sequence : t.sequence.Matches M t'.sequence
  state : t.state = t'.state

/-- Timelines show the same style if their drivers stand at the same positions. -/
theorem Matches.appearance {M : Group α → Group α → Prop} {own own' : PropertyMap Driver}
    {t t' : Timeline H α} (h : Matches M own own' t t') {s s' : Stage H}
    (hdrivers : ∀ p, s.1.get (own.get p) = s'.1.get (own'.get p)) :
    t.appearance s = t'.appearance s' := by
  obtain ⟨houtputs, hunit, rfl, rfl, hsequence, hstate⟩ := h
  have hsample : ∀ p, (t.interpolation p).sample s.1 = (t'.interpolation p).sample s'.1 := by
    intro p
    simp only [interpolation, Interpolation.ofProperty, Interpolation.sample,
      Interpolation.valueAt, houtputs, hunit, hdrivers]
  have hstyle : t.style s.1 = t'.style s'.1 := by
    simp only [style, hsample]
  have hcursor : t.currentGroup = t'.currentGroup := hsequence.cursor
  simp only [Timeline.appearance, hstyle, hcursor, hstate, hdrivers]

variable [Animation α (Stage H)]

/-- Whatever is called, two timelines answer alike and look alike. -/
def Indistinguishable (t : Timeline H α) (s : Stage H) (t' : Timeline H α) (s' : Stage H) : Prop :=
  ∀ calls : List Call,
    (Animation.run calls t s).1 = (Animation.run calls t' s').1 ∧
      (Animation.run calls t s).2.1.appearance (Animation.run calls t s).2.2 =
        (Animation.run calls t' s').2.1.appearance (Animation.run calls t' s').2.2

theorem Indistinguishable.symm {t t' : Timeline H α} {s s' : Stage H}
    (h : t.Indistinguishable s t' s') : t'.Indistinguishable s' t s :=
  fun calls => ⟨(h calls).1.symm, (h calls).2.symm⟩

theorem Indistinguishable.trans {t t' t'' : Timeline H α} {s s' s'' : Stage H}
    (h : t.Indistinguishable s t' s') (h' : t'.Indistinguishable s' t'' s'') :
    t.Indistinguishable s t'' s'' :=
  fun calls => ⟨(h calls).1.trans (h' calls).1, (h calls).2.trans (h' calls).2⟩

theorem Indistinguishable.perform {t t' : Timeline H α} {s s' : Stage H}
    (h : t.Indistinguishable s t' s') (c : Call) :
    (Animation.perform c t s).2.1.Indistinguishable (Animation.perform c t s).2.2
      (Animation.perform c t' s').2.1 (Animation.perform c t' s').2.2 := by
  intro calls
  obtain ⟨hanswers, happearance⟩ := h (c :: calls)
  exact ⟨(List.cons.inj hanswers).2, happearance⟩

end Timeline

namespace Lockstep

variable {H α : Type} [Animation α (Stage H)] {M : Group α → Group α → Prop}
  {N : Stage H → Stage H → Prop} {own own' : PropertyMap Driver} {t t' : Timeline H α}
  {s s' : Stage H}

theorem reset_timeline (h : Lockstep M N)
    (hlowered : ∀ {s s'}, N s s' → N (Timeline.lowered own s) (Timeline.lowered own' s'))
    (ht : t.Matches M own own' t') (hs : N s s') :
    Paired (Timeline.Matches M own own') N (t.reset s) (t'.reset s') := by
  obtain ⟨houtputs, hunit, rfl, rfl, hsequence, hstate⟩ := ht
  obtain ⟨hsequence', hs'⟩ := h.sequence.reset hsequence (hlowered hs)
  exact ⟨⟨houtputs, hunit, rfl, rfl, hsequence', rfl⟩, hs'⟩

/-- Timelines with groups in lockstep are in lockstep. -/
theorem timeline (h : Lockstep M N)
    (hlowered : ∀ {s s'}, N s s' → N (Timeline.lowered own s) (Timeline.lowered own' s')) :
    Lockstep (Timeline.Matches M own own' : Timeline H α → Timeline H α → Prop) N where
  start := by
    have hresume : ∀ {t t' : Timeline H α} {s s' : Stage H}, t.Matches M own own' t' → N s s' →
        Paired (Timeline.Matches M own own') N
          ({ t with sequence := (Animation.start t.sequence s).1, state := .running },
            (Animation.start t.sequence s).2)
          ({ t' with sequence := (Animation.start t'.sequence s').1, state := .running },
            (Animation.start t'.sequence s').2) := by
      intro t t' s s' ht hs
      obtain ⟨hsequence, hs'⟩ := h.sequence.start ht.sequence hs
      exact ⟨⟨ht.outputs, ht.unit, ht.drivers, ht.drivers', hsequence, rfl⟩, hs'⟩
    intro t t' s s' ht hs
    change Paired _ _ (t.start s) (t'.start s')
    -- both are completed and reset first, or neither is
    by_cases hstate : t.state = .completed
    · obtain ⟨ht', hs'⟩ := h.reset_timeline hlowered ht hs
      simp only [Timeline.start, if_pos hstate, if_pos (ht.state ▸ hstate)]
      exact hresume ht' hs'
    · simp only [Timeline.start, if_neg hstate, if_neg (ht.state ▸ hstate)]
      exact hresume ht hs
  update := by
    intro t t' s s' dt ht hs
    change (t.update dt s).1 = (t'.update dt s').1 ∧ Paired _ _ (t.update dt s).2 (t'.update dt s').2
    unfold Timeline.update
    rw [← ht.state]
    cases hstate : t.state with
    | idle => exact ⟨rfl, ht, hs⟩
    | completed => exact ⟨rfl, ht, hs⟩
    | running =>
        obtain ⟨htick, hsequence, hs'⟩ := h.sequence.update dt ht.sequence hs
        refine ⟨htick, ⟨ht.outputs, ht.unit, ht.drivers, ht.drivers', hsequence, ?_⟩, hs'⟩
        exact congrArg (fun tick : Tick =>
          if tick.isFinished then PlaybackState.completed else .running) htick
  stop := by
    intro t t' s s' ht hs
    change Paired _ _ (t.stop s) (t'.stop s')
    unfold Timeline.stop
    rw [← ht.state]
    split
    · obtain ⟨hsequence, hs'⟩ := h.sequence.stop ht.sequence hs
      exact ⟨⟨ht.outputs, ht.unit, ht.drivers, ht.drivers', hsequence, rfl⟩, hs'⟩
    · exact ⟨ht, hs⟩
  reset ht hs := h.reset_timeline hlowered ht hs

/-- Timelines in lockstep cannot be told apart if their drivers stand at the same positions. -/
theorem indistinguishable (h : Lockstep M N)
    (hlowered : ∀ {s s'}, N s s' → N (Timeline.lowered own s) (Timeline.lowered own' s'))
    (hdrivers : ∀ {s s' : Stage H}, N s s' → ∀ p, s.1.get (own.get p) = s'.1.get (own'.get p))
    (ht : t.Matches M own own' t') (hs : N s s') : t.Indistinguishable s t' s' := by
  intro calls
  obtain ⟨hanswers, ht', hs'⟩ := (h.timeline hlowered).run calls ht hs
  exact ⟨hanswers, ht'.appearance (hdrivers hs')⟩

end Lockstep

end Storyboard
