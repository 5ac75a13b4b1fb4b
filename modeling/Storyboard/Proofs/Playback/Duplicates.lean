import Storyboard.Gallery
import Storyboard.Proofs.Playback.Confinement

/-! # Duplicates

Duplicates of a timeline share a stage with it. Each of them has a region of drivers to itself,
and so each behaves as if it were alone: what is seen of it is what is seen of a timeline that
has just been compiled and is called in the same way.
-/

namespace Storyboard

variable {H α : Type}

/-! ## What is done in a gallery -/

/-- What is done in a gallery, by place. -/
inductive Deed
  | duplicate (place : ℕ)
  | call (place : ℕ) (c : Call)

namespace Deed

/-- How many duplicates are put up. -/
def copies : List Deed → ℕ
  | [] => 0
  | .duplicate _ :: rest => copies rest + 1
  | .call _ _ :: rest => copies rest

/-- The calls to one place. -/
def callsTo (place : ℕ) : List Deed → List Call
  | [] => []
  | .duplicate _ :: rest => callsTo place rest
  | .call other c :: rest => if other = place then c :: callsTo place rest else callsTo place rest

/-- Every deed is done at a place where there is a timeline by then, if there are `count` of them
at first. -/
def Addressed : ℕ → List Deed → Prop
  | _, [] => True
  | count, .duplicate place :: rest => place < count ∧ Addressed (count + 1) rest
  | count, .call place _ :: rest => place < count ∧ Addressed count rest

/-- What is alone and called at one place goes on there, and nowhere else. -/
theorem run_callsTo_call {β W : Type} [Animation β W] (place : ℕ) (c : Call) (rest : List Deed)
    (alone : ℕ → β × W) (i : ℕ) :
    let result := Animation.perform c (alone place).1 (alone place).2
    let next := Function.update alone place result.2
    let later := Animation.run (callsTo i rest) (next i).1 (next i).2
    Animation.run (callsTo i (.call place c :: rest)) (alone i).1 (alone i).2 =
      (if place = i then result.1 :: later.1 else later.1, later.2) := by
  dsimp only
  by_cases hi : place = i
  · subst hi
    rw [callsTo, if_pos rfl, if_pos rfl, Function.update_self]
    rfl
  · rw [callsTo, if_neg hi, if_neg hi, Function.update_of_ne (Ne.symm hi)]

end Deed

/-- The answers from one place. -/
def answersFrom (place : ℕ) : List (ℕ × Option Tick) → List (Option Tick)
  | [] => []
  | (other, answer) :: rest =>
      if other = place then answer :: answersFrom place rest else answersFrom place rest

namespace Gallery

variable [Animation α (Stage H)] {g g' : Gallery H α} {place : ℕ} {e : Exhibit H α}

/-- Does one thing after another, and collects the answers to calls. Fails at a place without a
timeline. -/
def carryOut? : List Deed → Gallery H α → Option (List (ℕ × Option Tick) × Gallery H α)
  | [], g => some ([], g)
  | .duplicate place :: rest, g => do
      let (_, g) ← g.duplicate? place
      carryOut? rest g
  | .call place c :: rest, g => do
      let (answer, g) ← g.perform? place c
      let (answers, g) ← carryOut? rest g
      some ((place, answer) :: answers, g)

/-- The gallery after a call to the timeline at a place. -/
def called (g : Gallery H α) (place : ℕ) (e : Exhibit H α) (c : Call) : Gallery H α :=
  let (_, timeline, stage) := Animation.perform c e.timeline g.stage
  ⟨stage, g.exhibits.set place { e with timeline }⟩

omit [Animation α (Stage H)] in
theorem get?_eq_some_iff {t : Timeline H α} :
    g.get? place = some t ↔ ∃ e, g.exhibits[place]? = some e ∧ e.timeline = t :=
  Option.map_eq_some_iff

omit [Animation α (Stage H)] in
theorem length_putUp (script : Script (Embedded (Stage H) α)) (origin : ℕ) :
    (g.putUp script origin).2.exhibits.length = g.exhibits.length + 1 :=
  List.length_append

theorem length_called (c : Call) : (g.called place e c).exhibits.length = g.exhibits.length :=
  List.length_set

theorem perform?_of_getElem? (he : g.exhibits[place]? = some e) (c : Call) :
    g.perform? place c =
      some ((Animation.perform c e.timeline g.stage).1, g.called place e c) := by
  rw [perform?, act?, he]
  rfl

omit [Animation α (Stage H)] in
theorem duplicate?_of_getElem? (he : g.exhibits[place]? = some e) :
    g.duplicate? place = some (g.putUp e.timeline.script e.origin) := by
  rw [duplicate?, he]
  rfl

theorem carryOut?_duplicate (he : g.exhibits[place]? = some e) (rest : List Deed) :
    carryOut? (.duplicate place :: rest) g =
      carryOut? rest (g.putUp e.timeline.script e.origin).2 := by
  rw [carryOut?, duplicate?_of_getElem? he]
  rfl

theorem carryOut?_call (he : g.exhibits[place]? = some e) (c : Call) (rest : List Deed) :
    carryOut? (.call place c :: rest) g =
      (carryOut? rest (g.called place e c)).map fun done =>
        ((place, (Animation.perform c e.timeline g.stage).1) :: done.1, done.2) := by
  rw [carryOut?, perform?_of_getElem? he, Option.bind_eq_bind, Option.bind_some,
    Option.map_eq_bind]
  rfl

end Gallery

/-! ## One timeline among others -/

section Placed

variable [Animation α (Stage H)] {n k k' j : ℕ} {script : Script (Embedded (Stage H) α)}
  {stage stage' : Stage H} {t : Timeline H α} {alone : Timeline H α × Stage H}

/-- The timeline at a place has a region of the stage to itself, and is the counterpart of one that
is alone on another stage. -/
structure Placed (script : Script (Embedded (Stage H) α)) (n k k' : ℕ) (stage : Stage H)
    (t : Timeline H α) (alone : Timeline H α × Stage H) : Prop where
  script : t.script = script
  region : k + (Property.all.length + n) ≤ stage.1.cells.size
  confined : Confined k (Property.all.length + n) H t
  counterparts : Timeline.Counterparts n k k' t alone.1
  mirrors : Mirrors k k' (Property.all.length + n) stage alone.2

namespace Placed

theorem ofBuild (h : Timeline.Settles n script) (s r₀ : Stage H) :
    Placed script n s.1.cells.size r₀.1.cells.size (Timeline.build script s).2
      (Timeline.build script s).1 (Timeline.build script r₀) :=
  ⟨rfl, Nat.le_of_eq (h.adds s).size.symm, h.confined s, h.counterparts s r₀, h.mirrors s r₀⟩

theorem appearance (h : Placed script n k k' stage t alone) :
    t.appearance stage = alone.1.appearance alone.2 :=
  h.counterparts.appearance h.mirrors

/-- Other regions of the stage are changed. -/
theorem within (h : Placed script n k k' stage t alone) {m : ℕ} (hstage : Within j m stage stage')
    (hapart : j + m ≤ k ∨ k + (Property.all.length + n) ≤ j) :
    Placed script n k k' stage' t alone :=
  ⟨h.script, hstage.size ▸ h.region, h.confined, h.counterparts,
    h.mirrors.within_left hstage hapart⟩

/-- Drivers are added to the stage. -/
theorem adds (h : Placed script n k k' stage t alone) {m : ℕ} (hstage : Adds m stage stage') :
    Placed script n k k' stage' t alone :=
  ⟨h.script, hstage.size ▸ Nat.le_add_right_of_le h.region, h.confined, h.counterparts,
    h.mirrors.adds_left hstage⟩

/-- The timeline is called, and so is the one that is alone. -/
theorem perform (h : Placed script n k k' stage t alone) (c : Call) :
    let result := Animation.perform c t stage
    let result' := Animation.perform c alone.1 alone.2
    result.1 = result'.1 ∧ Placed script n k k' result.2.2 result.2.1 result'.2 := by
  obtain ⟨hanswer, hcounterparts, hmirrors⟩ :=
    (Timeline.lockstep_counterparts n k k').perform c h.counterparts h.mirrors
  refine ⟨hanswer, (t.perform_fixes stage c).1.trans h.script, ?_, h.confined.call c stage,
    hcounterparts, hmirrors⟩
  rw [(h.confined.within c stage).size]
  exact h.region

end Placed

end Placed

/-! ## All timelines of a gallery -/

namespace Gallery

variable [Animation α (Stage H)] {n k' place : ℕ} {script : Script (Embedded (Stage H) α)}
  {region : ℕ → ℕ} {alone : ℕ → Timeline H α × Stage H} {g g' : Gallery H α} {e : Exhibit H α}
  {answers : List (ℕ × Option Tick)}

/-- Every timeline of a gallery has a region to itself, and stands beside a timeline that is
alone. -/
structure Apart (script : Script (Embedded (Stage H) α)) (n k' : ℕ) (region : ℕ → ℕ)
    (alone : ℕ → Timeline H α × Stage H) (g : Gallery H α) : Prop where
  placed : ∀ i e, g.exhibits[i]? = some e →
    Placed script n (region i) k' g.stage e.timeline (alone i)
  disjoint : ∀ i j, i < j → j < g.exhibits.length →
    region i + (Property.all.length + n) ≤ region j

namespace Apart

/-- Two regions are apart whichever comes first. -/
theorem disjoint_of_ne (h : Apart script n k' region alone g) {i j : ℕ} (hne : i ≠ j)
    (hi : i < g.exhibits.length) (hj : j < g.exhibits.length) :
    region i + (Property.all.length + n) ≤ region j ∨
      region j + (Property.all.length + n) ≤ region i := by
  rcases Nat.lt_or_gt_of_ne hne with hlt | hgt
  · exact .inl (h.disjoint i j hlt hj)
  · exact .inr (h.disjoint j i hgt hi)

/-- A call to one timeline is a call to the one that stands beside it. -/
theorem perform (h : Apart script n k' region alone g) (he : g.exhibits[place]? = some e)
    (c : Call) :
    let result := Animation.perform c e.timeline g.stage
    let result' := Animation.perform c (alone place).1 (alone place).2
    result.1 = result'.1 ∧
      Apart script n k' region (Function.update alone place result'.2) (g.called place e c) := by
  have hplaced := h.placed place e he
  obtain ⟨hanswer, hplaced'⟩ := hplaced.perform c
  have hlt : place < g.exhibits.length := (List.getElem?_eq_some_iff.mp he).1
  refine ⟨hanswer, fun i e' he' => ?_, fun i j hij hj => ?_⟩
  · by_cases hi : i = place
    · subst hi
      rw [called, List.getElem?_set_self hlt] at he'
      cases he'
      rw [Function.update_self]
      exact hplaced'
    · rw [called, List.getElem?_set_ne (Ne.symm hi)] at he'
      rw [Function.update_of_ne hi]
      have hilt : i < g.exhibits.length := (List.getElem?_eq_some_iff.mp he').1
      exact (h.placed i e' he').within (hplaced.confined.within c g.stage)
        (h.disjoint_of_ne (Ne.symm hi) hlt hilt)
  · rw [length_called] at hj
    exact h.disjoint i j hij hj

/-- What is put up gets a region behind all others. -/
theorem putUp (h : Apart script n k' region alone g) (hscript : Timeline.Settles n script)
    {r₀ : Stage H} (hk' : k' = r₀.1.cells.size)
    (hfresh : alone g.exhibits.length = Timeline.build script r₀) (origin : ℕ) :
    Apart script n k' (Function.update region g.exhibits.length g.stage.1.cells.size) alone
      (g.putUp script origin).2 := by
  constructor
  · intro i e he
    rcases Nat.lt_trichotomy i g.exhibits.length with hlt | rfl | hgt
    · rw [Gallery.putUp, List.getElem?_append_left hlt] at he
      rw [Function.update_of_ne (Nat.ne_of_lt hlt)]
      exact (h.placed i e he).adds (hscript.adds g.stage)
    · rw [Gallery.putUp, List.getElem?_concat_length] at he
      cases he
      rw [Function.update_self, hfresh, hk']
      exact .ofBuild hscript g.stage r₀
    · have hlt := (List.getElem?_eq_some_iff.mp he).1
      rw [length_putUp] at hlt
      exact absurd hlt (Nat.not_lt_of_le hgt)
  · intro i j hij hj
    rw [length_putUp] at hj
    have hi : i < g.exhibits.length := Nat.lt_of_lt_of_le hij (Nat.le_of_lt_succ hj)
    rw [Function.update_of_ne (Nat.ne_of_lt hi)]
    rcases Nat.eq_or_lt_of_le (Nat.le_of_lt_succ hj) with rfl | hlt
    · rw [Function.update_self]
      exact (h.placed i _ (List.getElem?_eq_getElem hi)).region
    · rw [Function.update_of_ne (Nat.ne_of_lt hlt)]
      exact h.disjoint i j hij hlt

end Apart

/-- Deeds at places where there are timelines can be carried out. -/
theorem exists_carryOut? {deeds : List Deed} (hdeeds : Deed.Addressed g.exhibits.length deeds) :
    ∃ answers g', carryOut? deeds g = some (answers, g') ∧
      g'.exhibits.length = g.exhibits.length + Deed.copies deeds := by
  induction deeds generalizing g with
  | nil => exact ⟨[], g, rfl, rfl⟩
  | cons deed rest ih =>
      cases deed with
      | duplicate place =>
          obtain ⟨hlt, hrest⟩ := hdeeds
          have he := List.getElem?_eq_getElem hlt
          rw [← length_putUp (g := g)] at hrest
          obtain ⟨answers, g', hdone, hlength⟩ := ih hrest
          refine ⟨answers, g', (carryOut?_duplicate he rest).trans hdone, ?_⟩
          rw [hlength, length_putUp, Deed.copies, Nat.add_assoc, Nat.add_comm 1]
      | call place c =>
          obtain ⟨hlt, hrest⟩ := hdeeds
          have he := List.getElem?_eq_getElem hlt
          rw [← length_called (g := g) c] at hrest
          obtain ⟨answers, g', hdone, hlength⟩ := ih hrest
          refine ⟨_, g', by rw [carryOut?_call he, hdone]; rfl, ?_⟩
          rw [hlength, length_called, Deed.copies]

/-- Whatever is done, each timeline goes on like the one that stands beside it and is given its
calls alone. -/
theorem Apart.carryOut (hscript : Timeline.Settles n script) (r₀ : Stage H) {deeds : List Deed}
    (h : Apart script n r₀.1.cells.size region alone g)
    (hfresh : ∀ i ≥ g.exhibits.length, alone i = Timeline.build script r₀)
    (hdeeds : Deed.Addressed g.exhibits.length deeds)
    (hdone : carryOut? deeds g = some (answers, g')) :
    let solo i := Animation.run (Deed.callsTo i deeds) (alone i).1 (alone i).2
    (∀ i, answersFrom i answers = (solo i).1) ∧
      ∃ region', Apart script n r₀.1.cells.size region' (fun i => (solo i).2) g' := by
  induction deeds generalizing g region alone answers with
  | nil =>
      cases hdone
      exact ⟨fun _ => rfl, region, h⟩
  | cons deed rest ih =>
      cases deed with
      | duplicate place =>
          obtain ⟨hlt, hrest⟩ := hdeeds
          have he := List.getElem?_eq_getElem hlt
          rw [carryOut?_duplicate he, (h.placed place _ he).script] at hdone
          refine ih (h.putUp hscript rfl (hfresh _ (Nat.le_refl _)) _) (fun i hi => ?_) ?_ hdone
          · rw [length_putUp] at hi
            exact hfresh i (Nat.le_of_succ_le hi)
          · rwa [length_putUp]
      | call place c =>
          obtain ⟨hlt, hrest⟩ := hdeeds
          have he := List.getElem?_eq_getElem hlt
          rw [carryOut?_call he] at hdone
          obtain ⟨⟨later, g''⟩, hlater, heq⟩ := Option.map_eq_some_iff.mp hdone
          cases heq
          obtain ⟨hanswer, happart⟩ := h.perform he c
          have hfresh' : ∀ i ≥ (g.called place g.exhibits[place] c).exhibits.length,
              Function.update alone place
                (Animation.perform c (alone place).1 (alone place).2).2 i =
              Timeline.build script r₀ := by
            intro i hi
            rw [length_called] at hi
            rw [Function.update_of_ne (Nat.ne_of_gt (Nat.lt_of_lt_of_le hlt hi))]
            exact hfresh i hi
          obtain ⟨hanswers, region', happart'⟩ :=
            ih happart hfresh' (by rwa [length_called]) hlater
          have hrun := Deed.run_callsTo_call place c rest alone
          refine ⟨fun i => ?_, region', ?_⟩
          · dsimp only
            rw [answersFrom, hrun, hanswers, hanswer]
          · simpa only [hrun] using happart'

/-- A timeline cannot be told apart from one that is compiled anywhere and given its calls alone,
and nothing that is done at other places changes it. -/
structure Independent (script : Script (Embedded (Stage H) α)) (calls : List Call)
    (answers : List (Option Tick)) (g : Gallery H α) (place : ℕ) (t : Timeline H α) : Prop where
  /-- It has answered and looks like one that is alone. -/
  alone : ∀ r₀ : Stage H,
    let fresh := Timeline.build script r₀
    let solo := Animation.run calls fresh.1 fresh.2
    answers = solo.1 ∧ t.appearance g.stage = solo.2.1.appearance solo.2.2
  /-- A call to another one changes neither its state nor how it looks. -/
  undisturbed : ∀ other < g.exhibits.length, other ≠ place → ∀ c, ∃ answer g',
    g.perform? other c = some (answer, g') ∧
      g'.get? place = some t ∧ t.appearance g'.stage = t.appearance g.stage
  /-- A duplicate of it is at the beginning, and leaves it and all others as they are. -/
  duplicate : ∃ d g', g.duplicate? place = some (g.exhibits.length, g') ∧
    g'.get? g.exhibits.length = some d ∧
    d.state = .idle ∧ d.currentGroup = 0 ∧ (∀ p, g'.stage.1.get (d.drivers.get p) = 0) ∧
    d.outputs = t.outputs ∧ d.script.config = t.script.config ∧
    ∀ other u, g.get? other = some u →
      g'.get? other = some u ∧ u.appearance g'.stage = u.appearance g.stage

namespace Apart

theorem undisturbed (h : Apart script n k' region alone g) {other : ℕ} {e' : Exhibit H α}
    (he' : g.exhibits[other]? = some e') (hne : other ≠ place) (c : Call) {t : Timeline H α}
    (ht : g.get? place = some t) :
    (g.called other e' c).get? place = some t ∧
      t.appearance (g.called other e' c).stage = t.appearance g.stage := by
  obtain ⟨e, he, rfl⟩ := get?_eq_some_iff.mp ht
  have hkept : (g.called other e' c).exhibits[place]? = some e :=
    (List.getElem?_set_ne hne).trans he
  have hplaced := (h.perform he' c).2.placed place e hkept
  rw [Function.update_of_ne (Ne.symm hne)] at hplaced
  exact ⟨get?_eq_some_iff.mpr ⟨e, hkept, rfl⟩,
    hplaced.appearance.trans (h.placed place e he).appearance.symm⟩

theorem kept_putUp (h : Apart script n k' region alone g) (hscript : Timeline.Settles n script)
    (origin : ℕ) {t : Timeline H α} (ht : g.get? place = some t) :
    (g.putUp script origin).2.get? place = some t ∧
      t.appearance (g.putUp script origin).2.stage = t.appearance g.stage := by
  obtain ⟨e, he, rfl⟩ := get?_eq_some_iff.mp ht
  have hlt : place < g.exhibits.length := (List.getElem?_eq_some_iff.mp he).1
  have hkept : (g.putUp script origin).2.exhibits[place]? = some e :=
    (List.getElem?_append_left hlt).trans he
  have hplaced := h.placed place e he
  exact ⟨get?_eq_some_iff.mpr ⟨e, hkept, rfl⟩,
    (hplaced.adds (hscript.adds g.stage)).appearance.trans hplaced.appearance.symm⟩

end Apart

/-- A timeline is independent that stands beside what it would be alone, wherever that is. -/
theorem independent_of_apart (hscript : Timeline.Settles n script) {calls : List Call}
    {answers : List (Option Tick)} (he : g.exhibits[place]? = some e)
    (h : ∀ r₀ : Stage H,
      let solo := Animation.run calls (Timeline.build script r₀).1 (Timeline.build script r₀).2
      answers = solo.1 ∧ ∃ region alone, Apart script n r₀.1.cells.size region alone g ∧
        alone place = solo.2) :
    Independent script calls answers g place e.timeline := by
  obtain ⟨-, region, alone, happart, -⟩ := h g.stage
  have hsame := (happart.placed place e he).script
  refine ⟨fun r₀ => ?_, fun other hother hne c => ?_, ?_⟩
  · obtain ⟨hanswers, region', alone', happart', hsolo⟩ := h r₀
    refine ⟨hanswers, ?_⟩
    rw [← hsolo]
    exact (happart'.placed place e he).appearance
  · have he' := List.getElem?_eq_getElem hother
    exact ⟨_, _, perform?_of_getElem? he' c,
      happart.undisturbed he' hne c (get?_eq_some_iff.mpr ⟨e, he, rfl⟩)⟩
  · refine ⟨(Timeline.build _ g.stage).1, _, duplicate?_of_getElem? he, ?_, rfl, rfl,
      fun p => ?_, rfl, rfl, ?_⟩
    · exact get?_eq_some_iff.mpr ⟨_, List.getElem?_concat_length, rfl⟩
    · rw [hsame]
      exact (hscript.rests g.stage p).2
    · rw [hsame]
      exact fun other u hu => happart.kept_putUp hscript _ hu

/-- A timeline and its duplicates are independent. Timelines are duplicated and called in any
order, in a gallery that has one timeline at first. Every one of them answers and looks like one
that has just been compiled and is given its calls alone, and no call to another one changes it.
A duplicate begins at the beginning, in whatever state the timeline is that is duplicated, and
leaves all timelines as they are. Of embedded animations this asks that they share nothing. -/
theorem duplicates_independent {script : Script (Embedded (Stage H) α)}
    (hself : ∀ e, .embed e ∈ script.spec.flatten → ∃ n, SelfContained n e) (s₀ : Stage H)
    {deeds : List Deed} (hdeeds : Deed.Addressed 1 deeds) :
    ∃ answers g, carryOut? deeds ((⟨s₀, []⟩ : Gallery H α).add script).2 = some (answers, g) ∧
      ∀ place ≤ Deed.copies deeds, ∃ t, g.get? place = some t ∧
        Independent script (Deed.callsTo place deeds) (answersFrom place answers) g place t := by
  obtain ⟨n, hscript⟩ := Timeline.exists_settles hself
  obtain ⟨answers, g, hdone, hlength⟩ :=
    exists_carryOut? (g := ((⟨s₀, []⟩ : Gallery H α).add script).2) hdeeds
  refine ⟨answers, g, hdone, fun place hplace => ?_⟩
  have hlt : place < g.exhibits.length := by
    rw [hlength]
    exact Nat.lt_of_le_of_lt hplace (Nat.lt_add_of_pos_left Nat.one_pos)
  have he := List.getElem?_eq_getElem hlt
  refine ⟨_, get?_eq_some_iff.mpr ⟨_, he, rfl⟩, independent_of_apart hscript he fun r₀ => ?_⟩
  have hempty : Apart script n r₀.1.cells.size (fun _ => 0) (fun _ => Timeline.build script r₀)
      ⟨s₀, []⟩ := ⟨fun _ _ he => absurd he (by simp), fun _ j _ hj => absurd hj (Nat.not_lt_zero j)⟩
  obtain ⟨hanswers, region, happart⟩ :=
    (hempty.putUp hscript rfl rfl 0).carryOut hscript r₀ (fun _ _ => rfl) hdeeds hdone
  exact ⟨hanswers place, region, _, happart, rfl⟩

/-- A timeline that fades and then waits is duplicated while it fades, and both are called in
turn. -/
theorem duplicates_independent_mid_playback :
    ∃ script : Script (Embedded (Stage Unit) Wait),
      script.spec.flatten = [.configure (.set .empty .opacity { target := .value 0 }),
        .embed { build := fun s => ({ duration := 100 }, s) }] ∧
      ∃ answers g t d,
        carryOut? [.call 0 .start, .call 0 (.update (ofCount 100)), .duplicate 0, .call 1 .start,
          .call 0 (.update (ofCount 350)), .call 1 (.update (ofCount 50))]
          ((⟨(.empty, ()), []⟩ : Gallery Unit Wait).add script).2 = some (answers, g) ∧
        g.get? 0 = some t ∧ t.state = .completed ∧
        Independent script [.start, .update (ofCount 100), .update (ofCount 350)]
          (answersFrom 0 answers) g 0 t ∧
        g.get? 1 = some d ∧ d.state = .running ∧
        Independent script [.start, .update (ofCount 50)] (answersFrom 1 answers) g 1 d := by
  let script : Script (Embedded (Stage Unit) Wait) :=
    ⟨{ steps := [.configure (.set .empty .opacity { target := .value 0 }),
        .embed { build := fun s => ({ duration := 100 }, s) }] }, {}, _, rfl⟩
  have hself : ∀ e, .embed e ∈ script.spec.flatten → ∃ n, SelfContained n e := by
    intro e he
    obtain rfl : e = _ := by simpa [script, Spec.flatten, Step.flattenAll, Step.flatten] using he
    exact ⟨0, selfContained_wait 100⟩
  let deeds : List Deed := [.call 0 .start, .call 0 (.update (ofCount 100)), .duplicate 0,
    .call 1 .start, .call 0 (.update (ofCount 350)), .call 1 (.update (ofCount 50))]
  have hdeeds : Deed.Addressed 1 deeds := by simp [deeds, Deed.Addressed]
  obtain ⟨answers, g, hdone, hplaces⟩ := duplicates_independent hself (.empty, ()) hdeeds
  obtain ⟨t, ht, htimeline⟩ := hplaces 0 (Nat.zero_le _)
  obtain ⟨d, hd, hduplicate⟩ := hplaces 1 (Nat.le_refl _)
  have hstate : t.state = .completed := by
    refine (congrArg Timeline.Appearance.state (htimeline.alone (.empty, ())).2).trans ?_
    decide +kernel
  have hstate' : d.state = .running := by
    refine (congrArg Timeline.Appearance.state (hduplicate.alone (.empty, ())).2).trans ?_
    decide +kernel
  exact ⟨script, rfl, answers, g, t, d, hdone, ht, hstate, htimeline, hd, hstate', hduplicate⟩

end Gallery

end Storyboard
