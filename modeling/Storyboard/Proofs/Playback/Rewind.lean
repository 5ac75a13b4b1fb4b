import Storyboard.Proofs.Playback.Alignment
import Storyboard.Proofs.Playback.Lockstep

/-! # Reset

A reset takes a timeline back to where it was built, from wherever calls have led it. The
groups that have been reset are put side by side with groups that were just built on other
drivers. They are in lockstep, and so the two timelines cannot be told apart.
-/

namespace Storyboard

variable {H α : Type} [Animation α (Stage H)] {same : Stage H → Stage H → Prop}
  {own own' : PropertyMap Driver}

/-! ## Embedded animations

What embedded animations take notice of in a stage is up to them: `same` holds of stages in
which they find no difference.
-/

/-- Two animations behave alike: they are related in a way that no call puts an end to, and
related animations answer alike on stages that they take for the same. -/
def Alike (same : Stage H → Stage H → Prop) (a b : α) : Prop :=
  ∃ alike : α → α → Prop, Lockstep alike same ∧ alike a b

theorem lockstep_alike : Lockstep (Alike same : α → α → Prop) same := by
  refine .ofPerform ?_
  rintro c a b s s' ⟨alike, hlockstep, hab⟩ hs
  obtain ⟨hanswer, hab', hs'⟩ := hlockstep.perform c hab hs
  exact ⟨hanswer, ⟨alike, hlockstep, hab'⟩, hs'⟩

/-- A reset of the animation restores how it behaved when it was built. Neither this nor the
building of another one leaves anything that would be noticed. -/
structure Rewinds (same : Stage H → Stage H → Prop) (e : Embedded (Stage H) α) : Prop where
  build : ∀ {s s'}, same s s' → same s (e.build s').2
  reset : ∀ {s₀ a s s'}, Descends H (e.build s₀).1 a → same s s' →
    same (Animation.reset a s).2 s'
  restores : ∀ {s₀ a s s'}, Descends H (e.build s₀).1 a → same s s' →
    Alike same (Animation.reset a s).1 (e.build s').1

/-- Waiting takes no notice of the stage. -/
theorem lockstep_wait : Lockstep (@Eq Wait) fun _ _ : Stage H => True := by
  refine .ofPerform ?_
  rintro c a _ s s' rfl -
  cases c <;> exact ⟨rfl, rfl, trivial⟩

/-- Waiting is rewound by a reset, whatever there is on the stage. -/
theorem rewinds_wait (duration : Float32) :
    Rewinds (fun _ _ : Stage H => True) { build := fun s => (({ duration } : Wait), s) } where
  build _ := trivial
  reset _ _ := trivial
  restores := by
    intro s₀ a s s' hdescends _
    have hduration : a.duration = duration := by
      induction hdescends with
      | refl => rfl
      | call c s _ ih =>
          cases c with
          | update dt =>
              refine Eq.trans ?_ ih
              change (Wait.update dt _).2.duration = _
              unfold Wait.update
              dsimp only
              split
              · split <;> rfl
              · rfl
          | _ => exact ih
    refine ⟨Eq, lockstep_wait, ?_⟩
    change ({ a with elapsed := 0, running := false } : Wait) = { duration }
    rw [hduration]

/-! ## Stages -/

theorem DriverBank.set_get {bank : DriverBank} {d : Driver} (h : bank.Has d) :
    bank.set d (bank.get d) = bank := by
  have hcell : d.cell < bank.cells.size := h
  simp [DriverBank.set, DriverBank.get, Array.setIfInBounds, hcell]

/-- Stages that differ in nothing but the drivers of a timeline. -/
structure Beside (own : PropertyMap Driver) (s r : Stage H) : Prop where
  host : r.2 = s.2
  others : ∀ d, (∀ p, d ≠ own.get p) → (r.1.Has d ↔ s.1.Has d) ∧ r.1.get d = s.1.get d

theorem beside_of_moves {change : DriverBank → DriverBank} {place : Float32 → Float32}
    {p : Property} (h : DriverBank.Moves change (own.get p) place) (s : Stage H) :
    Beside own s (change s.1, s.2) :=
  ⟨rfl, fun d hd => ⟨h.has s.1 d, h.other s.1 d (hd p)⟩⟩

theorem beside_lowered (own : PropertyMap Driver) (s : Stage H) :
    Beside own s (Timeline.lowered own s) := by
  have hmoves : ∀ p, DriverBank.Moves (fun bank => bank.set (own.get p) 0) (own.get p)
      fun _ => 0 := fun p => DriverBank.moves_set _ _
  unfold Timeline.lowered PropertyMap.values
  rw [List.foldl_map]
  refine ⟨rfl, fun d hd => ⟨?_, ?_⟩⟩
  · exact DriverBank.has_foldl hmoves Property.all s.1 d
  · exact DriverBank.get_foldl_of_notMem hmoves s.1 fun p _ => hd p

theorem beside_addDrivers (s : Stage H) :
    Beside (Timeline.addDrivers s.1).1 s ((Timeline.addDrivers s.1).2, s.2) := by
  refine ⟨rfl, fun d hd => ?_⟩
  simp only [Timeline.addDrivers, PropertyMap.get_ofFn] at hd
  -- the new cells are those of the new drivers, so that any other cell is an old one or none
  have hcell : d.cell < s.1.cells.size ∨ s.1.cells.size + Property.all.length ≤ d.cell := by
    by_contra hnew
    obtain ⟨p, hp⟩ : ∃ p : Property, p.index = d.cell - s.1.cells.size :=
      Property.exists_index (by omega)
    exact hd p (congrArg Driver.mk (by omega : d.cell = s.1.cells.size + p.index))
  simp only [Timeline.addDrivers, DriverBank.Has, DriverBank.get, Array.size_append,
    Array.size_replicate]
  rcases hcell with hold | hnone
  · exact ⟨by omega, by rw [Array.getElem?_append_left hold]⟩
  · refine ⟨by omega, ?_⟩
    have hsize : (s.1.cells ++ Array.replicate Property.all.length (0 : Float32)).size ≤ d.cell := by
      rwa [Array.size_append, Array.size_replicate]
    rw [Array.getElem?_eq_none hsize, Array.getElem?_eq_none (by omega)]

/-- What is done to the drivers of two timelines, each on a stage of its own, makes no
difference to anyone. -/
structure Blind (same : Stage H → Stage H → Prop) (own own' : PropertyMap Driver) : Prop where
  left : ∀ {s r s'}, Beside own s r → same s s' → same r s'
  right : ∀ {s s' r'}, Beside own' s' r' → same s s' → same s r'

/-- Stages that are the same to everyone, with the drivers of two timelines at the same
positions. -/
structure Agree (same : Stage H → Stage H → Prop) (own own' : PropertyMap Driver)
    (s s' : Stage H) : Prop where
  has : ∀ p, s.1.Has (own.get p)
  has' : ∀ p, s'.1.Has (own'.get p)
  get : ∀ p, s.1.get (own.get p) = s'.1.get (own'.get p)
  same : same s s'

namespace Agree

variable {s s' r r' : Stage H}

theorem keeps (h : Agree same own own' s s') (hkeeps : Keeps own s r) (hkeeps' : Keeps own' s' r')
    (hsame : same r r') : Agree same own own' r r' where
  has p := (hkeeps p (h.has p)).1
  has' p := (hkeeps' p (h.has' p)).1
  get p := by rw [(hkeeps p (h.has p)).2, (hkeeps' p (h.has' p)).2, h.get p]
  same := hsame

theorem ofRests {n : ℕ} (h : Rests own n s) (h' : Rests own' n s') (hsame : same s s') :
    Agree same own own' s s' where
  has p := (h p).1
  has' p := (h' p).1
  get p := by rw [(h p).2, (h' p).2]
  same := hsame

/-- The drivers of one property are moved to one place. -/
theorem move (hown : Function.Injective own.get) (hown' : Function.Injective own'.get)
    (hblind : Blind same own own') (h : Agree same own own' s s') {p : Property}
    {change change' : DriverBank → DriverBank} {place : Float32 → Float32}
    (hmoves : DriverBank.Moves change (own.get p) place)
    (hmoves' : DriverBank.Moves change' (own'.get p) place) :
    Agree same own own' (change s.1, s.2) (change' s'.1, s'.2) where
  has q := (hmoves.has s.1 _).mpr (h.has q)
  has' q := (hmoves'.has s'.1 _).mpr (h.has' q)
  get q := by
    by_cases hq : q = p
    · subst hq
      rw [hmoves.here s.1 (h.has q), hmoves'.here s'.1 (h.has' q), h.get q]
    · rw [hmoves.other s.1 _ (hown.ne hq), hmoves'.other s'.1 _ (hown'.ne hq), h.get q]
  same := hblind.right (beside_of_moves hmoves' s') (hblind.left (beside_of_moves hmoves s) h.same)

theorem lowered (hown : Function.Injective own.get) (hown' : Function.Injective own'.get)
    (hblind : Blind same own own') (h : Agree same own own' s s') :
    Agree same own own' (Timeline.lowered own s) (Timeline.lowered own' s') := by
  unfold Timeline.lowered PropertyMap.values
  rw [List.foldl_map, List.foldl_map]
  generalize Property.all = properties
  induction properties generalizing s s' with
  | nil => exact h
  | cons p rest ih =>
      exact ih (h.move hown hown' hblind (p := p) (DriverBank.moves_set _ _)
        (DriverBank.moves_set _ _))

end Agree

/-! ## Moves and groups -/

namespace Timing

/-- The same move of another driver. -/
def onto (d : Driver) (m : Timing) : Timing :=
  { m with driver := d }

theorem started_onto (d : Driver) (m : Timing) (x : Float32) :
    (m.onto d).started x = (m.started x).onto d ∧ (m.started x).driver = m.driver := by
  unfold started onto
  split <;> exact ⟨rfl, rfl⟩

theorem ticked_onto (d : Driver) (m : Timing) (dt : Float32) :
    (m.onto d).ticked dt = (m.ticked dt).onto d ∧ (m.ticked dt).driver = m.driver := by
  unfold ticked onto
  split <;> exact ⟨rfl, rfl⟩

theorem stop_onto (d : Driver) (m : Timing) (s s' : Stage H) :
    (m.onto d).stop s' = ((m.stop s).1.onto d, s') ∧ (m.stop s).1.driver = m.driver := by
  unfold stop onto
  dsimp only
  split <;> exact ⟨rfl, rfl⟩

/-- The same move in two timelines, of the driver that either has for a property. -/
def Twins (own own' : PropertyMap Driver) (m m' : Timing) : Prop :=
  ∃ p, m.driver = own.get p ∧ m' = m.onto (own'.get p)

end Timing

/-- What a move does depends on its driver only through the position of that. -/
theorem lockstep_timing (hown : Function.Injective own.get) (hown' : Function.Injective own'.get)
    (hblind : Blind same own own') :
    Lockstep (Timing.Twins own own') (Agree same own own' : Stage H → Stage H → Prop) where
  start := by
    rintro m _ s s' ⟨p, hdriver, rfl⟩ hs
    obtain ⟨honto, hsame⟩ := m.started_onto (own'.get p) (s.1.get m.driver)
    change Paired _ _ (m.start s) ((m.onto (own'.get p)).start s')
    rw [Timing.start_eq, Timing.start_eq]
    refine ⟨⟨p, hsame.trans hdriver, ?_⟩, hs⟩
    rw [← honto, hdriver, hs.get p]
    rfl
  update := by
    rintro m _ s s' dt ⟨p, hdriver, rfl⟩ hs
    obtain ⟨honto, hsame⟩ := m.ticked_onto (own'.get p) dt
    change (m.update dt s).1 = ((m.onto (own'.get p)).update dt s').1 ∧
      Paired _ _ (m.update dt s).2 ((m.onto (own'.get p)).update dt s').2
    rw [Timing.update_eq, Timing.update_eq]
    refine ⟨rfl, ⟨p, hsame.trans hdriver, honto⟩, ?_⟩
    exact hs.move hown hown' hblind (hdriver ▸ m.moves_move dt)
      ((m.onto (own'.get p)).moves_move dt)
  stop := by
    rintro m _ s s' ⟨p, hdriver, rfl⟩ hs
    obtain ⟨honto, hsame⟩ := m.stop_onto (own'.get p) s s'
    change Paired _ _ (m.stop s) ((m.onto (own'.get p)).stop s')
    rw [honto]
    exact ⟨⟨p, hsame.trans hdriver, rfl⟩, hs⟩
  reset := by
    rintro m _ s s' ⟨p, hdriver, rfl⟩ hs
    exact ⟨⟨p, hdriver, rfl⟩, hs⟩

/-- The groups of two timelines for one step. -/
inductive Group.Twins (same : Stage H → Stage H → Prop) (own own' : PropertyMap Driver) :
    Group α → Group α → Prop
  | advance {moves moves' : Parallel Timing} :
      moves.Matches (Timing.Twins own own') moves' →
      Twins same own own' (.advance moves) (.advance moves')
  | embed {a b : α} : Alike same a b → Detached own H a → Detached own' H b →
      Twins same own own' (.embed a) (.embed b)

theorem lockstep_group (hown : Function.Injective own.get) (hown' : Function.Injective own'.get)
    (hblind : Blind same own own') :
    Lockstep (Group.Twins same own own' : Group α → Group α → Prop) (Agree same own own') := by
  refine .ofPerform ?_
  rintro c _ _ s s' (hmoves | ⟨halike, hdetached, hdetached'⟩) hs
  · rw [Group.perform_advance, Group.perform_advance]
    obtain ⟨hanswer, hmoves', hs'⟩ :=
      (lockstep_timing hown hown' hblind).parallel.perform c hmoves hs
    exact ⟨hanswer, .advance hmoves', hs'⟩
  · rw [Group.perform_embed, Group.perform_embed]
    obtain ⟨hanswer, halike', hsame⟩ := lockstep_alike.perform c halike hs.same
    exact ⟨hanswer, .embed halike' (hdetached.call c s) (hdetached'.call c s'),
      hs.keeps (hdetached.keeps c s) (hdetached'.keeps c s') hsame⟩

/-! ## What calls make of the groups -/

/-- An embedding group has what calls have made of an animation that was built for its step. -/
def Group.Grown (steps : List (PlanStep (Embedded (Stage H) α))) (i : ℕ) (g : Group α) : Prop :=
  ∀ a, g = .embed a →
    ∃ e s₀, steps[i]? = some (.embed e) ∧ Descends H (e.build s₀).1 a

theorem Group.Grown.perform {steps : List (PlanStep (Embedded (Stage H) α))} {i : ℕ}
    {g : Group α} (h : Grown steps i g) (c : Call) (s : Stage H) :
    Grown steps i (Animation.perform c g s).2.1 := by
  cases g with
  | advance moves =>
      rw [perform_advance]
      nofun
  | embed a =>
      obtain ⟨e, s₀, hstep, hdescends⟩ := h a rfl
      rw [perform_embed]
      intro b hb
      cases hb
      exact ⟨e, s₀, hstep, .call c s hdescends⟩

namespace Timeline

variable {t : Timeline H α} {s : Stage H}

theorem grown_buildGroups {steps rest : List (PlanStep (Embedded (Stage H) α))} {i : ℕ}
    (hrest : steps.drop i = rest) (own : PropertyMap Driver) (s : Stage H) :
    Along (Group.Grown steps) i (buildGroups own rest s).1 := by
  induction rest generalizing i s with
  | nil => trivial
  | cons step rest ih =>
      obtain ⟨hstep, htail⟩ := List.of_drop_eq_cons hrest
      cases step with
      | advance advances => exact ⟨nofun, ih htail s⟩
      | embed e =>
          refine ⟨fun a ha => ?_, ih htail (e.build s).2⟩
          cases ha
          exact ⟨e, s, hstep, .refl⟩

/-- What no call takes from a group stays true of all groups of a timeline. -/
theorem Plays.along_perform {known : ℕ → Group α → Prop} (h : t.Plays s)
    (hknown : ∀ i g (c : Call) (s : Stage H), known i g → known i (Animation.perform c g s).2.1)
    (halong : Along known 0 t.sequence.children) (c : Call) :
    Along known 0 (Animation.perform c t s).2.1.sequence.children := by
  have hcursor : t.sequence.cursor ≤ t.sequence.length := h.line.le_length
  have hreset : Along known 0 (t.reset s).1.sequence.children :=
    halong.perform hknown hcursor .reset (lowered t.drivers s)
  cases c with
  | start =>
      change Along known 0 (t.start s).1.sequence.children
      by_cases hstate : t.state = .completed
      · simp only [Timeline.start, if_pos hstate]
        exact hreset.perform hknown h.reset.line.le_length .start (t.reset s).2
      · simp only [Timeline.start, if_neg hstate]
        exact halong.perform hknown hcursor .start s
  | update dt =>
      change Along known 0 (t.update dt s).2.1.sequence.children
      unfold Timeline.update
      split
      · exact halong
      · exact halong
      · exact halong.perform hknown hcursor (.update dt) s
  | stop =>
      change Along known 0 (t.stop s).1.sequence.children
      unfold Timeline.stop
      split
      · exact halong.perform hknown hcursor .stop s
      · exact halong
  | reset => exact hreset

/-- What was made of embedded animations in a state that calls led to. -/
theorem Reaches.grown {script : Script (Embedded (Stage H) α)} {s₀ : Stage H}
    (hsecluded : Secluded (build script s₀).1.drivers script.plan.steps)
    (h : Reaches (build script s₀).1 (build script s₀).2 t s) :
    Along (Group.Grown script.plan.steps) 0 t.sequence.children := by
  induction h with
  | refl => exact grown_buildGroups List.drop_zero _ _
  | call c hreaches ih =>
      obtain ⟨hplays, -, -⟩ := hreaches.plays (plays_build script s₀ hsecluded)
      exact hplays.along_perform (fun _ _ c s hg => hg.perform c s) ih c
  | host _ _ ih => exact ih

/-! ## A reset beside a duplicate -/

section Reset

variable {steps rest : List (PlanStep (Embedded (Stage H) α))} {i : ℕ} {groups : List (Group α)}
  {s' : Stage H}

/-- A reset of the groups goes unnoticed. -/
theorem same_reset (hrewinds : ∀ e, .embed e ∈ steps → Rewinds same e)
    (hgroups : Along (fun i g => Group.Past steps own i g ∧ Group.Grown steps i g) i groups)
    (hs : same s s') : same (visitAll Animation.reset groups s).2 s' := by
  have hreset : ∀ i (g : Group α) s, Group.Past steps own i g ∧ Group.Grown steps i g →
      same s s' → True ∧ same (Animation.reset g s).2 s' := by
    rintro i g s ⟨⟨step, hstep, hcarries⟩, hgrown⟩ hs
    refine ⟨trivial, ?_⟩
    cases hcarries with
    | advance running follows lanes =>
        rw [Group.reset_moves]
        exact hs
    | embed e detached =>
        obtain ⟨e, s₀, hstep, hdescends⟩ := hgrown _ rfl
        exact (hrewinds e (List.mem_of_getElem? hstep)).reset hdescends hs
  exact (@Along.visitAll _ _ _ (fun _ _ => True) (same · s') _ hreset _ _ hgroups s hs).2

/-- Moves that are reset match those that are built for the same step. -/
theorem matches_moves {lane : Property → Lane Timing} {advances : PropertyMap Advance}
    (hfollows : ∀ p, (lane p).child.Follows (own.get p) (advances.get p)) :
    (Parallel.ofLanes (fun p => (lane p).cleared) false).Matches (Timing.Twins own own')
      (moves own' advances) := by
  rw [moves_eq_ofLanes]
  refine ⟨?_, rfl⟩
  unfold Parallel.ofLanes
  rw [List.forall₂_map_left_iff, List.forall₂_map_right_iff, List.forall₂_same]
  intro p _
  obtain ⟨hdriver, hgoal, hduration, heasing⟩ := hfollows p
  refine ⟨⟨p, hdriver, ?_⟩, rfl⟩
  simp only [Lane.cleared, Timing.onto, hgoal, hduration, heasing]

/-- Moves differ in their drivers alone if their advances agree in all but the targets. -/
theorem matches_moves_of_eq {advances advances' : PropertyMap Advance}
    (h : ∀ p, (advances.get p).toIndex = (advances'.get p).toIndex ∧
      (advances.get p).duration = (advances'.get p).duration ∧
      (advances.get p).easing = (advances'.get p).easing) :
    (moves own advances).Matches (Timing.Twins own own') (moves own' advances') := by
  let lane : Property → Lane Timing := fun p =>
    { child := { driver := own.get p, goal := ofCount (advances.get p).toIndex
                 duration := (advances.get p).duration, easing := (advances.get p).easing } }
  have hfollows : ∀ p, (lane p).child.Follows (own.get p) (advances'.get p) :=
    fun p => ⟨rfl, congrArg ofCount (h p).1, (h p).2.1, (h p).2.2⟩
  rw [moves_eq_ofLanes own advances]
  exact matches_moves hfollows

/-- Groups that are reset match the groups that are built for the same steps. -/
theorem paired_reset_build (hrewinds : ∀ e, .embed e ∈ steps → Rewinds same e)
    (hsecluded' : Secluded own' steps) (hrest : steps.drop i = rest)
    (hgroups : Along (fun i g => Group.Past steps own i g ∧ Group.Grown steps i g) i groups)
    (hlength : groups.length = rest.length) (hs : Agree same own own' s s') :
    Paired (List.Forall₂ (Group.Twins same own own')) (Agree same own own')
      (visitAll Animation.reset groups s) (buildGroups own' rest s') := by
  induction rest generalizing i groups s s' with
  | nil =>
      rw [List.eq_nil_of_length_eq_zero hlength]
      exact ⟨.nil, hs⟩
  | cons step rest ih =>
      obtain ⟨hstep, htail⟩ := List.of_drop_eq_cons hrest
      obtain ⟨g, groups, rfl⟩ := List.exists_cons_of_length_eq_add_one hlength
      obtain ⟨⟨⟨step', hstep', hcarries⟩, hgrown⟩, hgroups'⟩ := hgroups
      cases hstep'.symm.trans hstep
      cases hcarries with
      | @advance advances lane running follows lanes =>
          obtain ⟨hrest', hs'⟩ := ih htail hgroups' (Nat.succ.inj hlength) hs
          unfold visitAll
          rw [Group.reset_moves]
          exact ⟨.cons (.advance (matches_moves follows)) hrest', hs'⟩
      | @embed e a detached =>
          -- one side resets what calls have made of the animation, the other builds it again
          obtain ⟨e', s₀, hembed, hdescends⟩ := hgrown _ rfl
          cases hembed.symm.trans hstep
          have hrewinds := hrewinds e (List.mem_of_getElem? hstep)
          obtain ⟨hkeeps', hdetached'⟩ := hsecluded' e (List.mem_of_getElem? hstep) s' hs.has'
          have hs' := hs.keeps (detached.keeps .reset s) hkeeps'
            (hrewinds.build (hrewinds.reset hdescends hs.same))
          obtain ⟨hrest', hs''⟩ := ih htail hgroups' (Nat.succ.inj hlength) hs'
          exact ⟨.cons (.embed (hrewinds.restores hdescends hs.same) (detached.call .reset s)
            hdetached') hrest', hs''⟩

/-- A timeline that is reset matches one that has just been built. -/
theorem Plays.paired_reset (h : t.Plays s)
    (hgrown : Along (Group.Grown t.script.plan.steps) 0 t.sequence.children)
    (hrewinds : ∀ e, .embed e ∈ t.script.plan.steps → Rewinds same e)
    (hsecluded' : Secluded (t.duplicate s').1.drivers t.script.plan.steps)
    (hblind : Blind same t.drivers (t.duplicate s').1.drivers) (hsame : same s s') :
    Paired
      (Timeline.Matches (Group.Twins same t.drivers (t.duplicate s').1.drivers) t.drivers
        (t.duplicate s').1.drivers)
      (Agree same t.drivers (t.duplicate s').1.drivers) (t.reset s) (t.duplicate s') := by
  -- both timelines set out from stages on which all of their drivers stand at 0
  have hlowered : Agree same t.drivers (addDrivers s'.1).1 (lowered t.drivers s)
      ((addDrivers s'.1).2, s'.2) :=
    .ofRests (n := 0) (rests_foldl_set h.distinct h.has) (rests_addDrivers s'.1 s'.2)
      (hblind.right (beside_addDrivers s') (hblind.left (beside_lowered t.drivers s) hsame))
  obtain ⟨hgroups, hs⟩ := paired_reset_build hrewinds hsecluded' List.drop_zero
    (h.along.and hgrown) h.length hlowered
  exact ⟨⟨rfl, rfl, rfl, rfl, ⟨hgroups, rfl, rfl⟩, rfl⟩, hs⟩

theorem Plays.indistinguishable_reset (h : t.Plays s)
    (hgrown : Along (Group.Grown t.script.plan.steps) 0 t.sequence.children)
    (hrewinds : ∀ e, .embed e ∈ t.script.plan.steps → Rewinds same e)
    (hsecluded' : Secluded (t.duplicate s').1.drivers t.script.plan.steps)
    (hblind : Blind same t.drivers (t.duplicate s').1.drivers) (hsame : same s s') :
    (t.reset s).1.Indistinguishable (t.reset s).2 (t.duplicate s').1 (t.duplicate s').2 := by
  obtain ⟨hmatches, hagree⟩ := h.paired_reset hgrown hrewinds hsecluded' hblind hsame
  have hdistinct := injective_addDrivers s'.1
  exact (lockstep_group h.distinct hdistinct hblind).indistinguishable
    (fun hs => hs.lowered h.distinct hdistinct hblind) (fun hs => hs.get) hmatches hagree

end Reset

/-! ## A second reset -/

theorem lowered_of_rests {own : PropertyMap Driver} (h : Rests own 0 s) : lowered own s = s := by
  have hset : ∀ p, s.1.set (own.get p) 0 = s.1 := by
    intro p
    obtain ⟨hhas, hget⟩ := h p
    exact (congrArg (s.1.set (own.get p)) hget).symm.trans (DriverBank.set_get hhas)
  unfold lowered PropertyMap.values
  rw [List.foldl_map]
  generalize Property.all = properties
  induction properties with
  | nil => rfl
  | cons p rest ih => rw [List.foldl_cons, hset p, ih]

/-- Without embedded animations a second reset leaves everything as it is. -/
theorem Plays.reset_reset (h : t.Plays s) (hmoves : ∀ e, .embed e ∉ t.script.plan.steps) :
    (t.reset s).1.reset (t.reset s).2 = t.reset s := by
  have hfixed : ∀ i (g : Group α), Group.Past t.script.plan.steps t.drivers i g →
      ∀ s s' : Stage H, Animation.reset (Animation.reset g s).1 s' =
        ((Animation.reset g s).1, s') := by
    rintro i g ⟨step, hstep, hcarries⟩ s s'
    cases hcarries with
    | advance running follows lanes =>
        rw [Group.reset_moves, Group.reset_moves]
        rfl
    | embed e detached => exact absurd (List.mem_of_getElem? hstep) (hmoves e)
  have hgroups := visitAll_of_fixed hfixed h.along (lowered t.drivers s) (t.reset s).2
  have hagain : (t.reset s).1.reset (t.reset s).2 =
      let r := visitAll Animation.reset (t.reset s).1.sequence.children
        (lowered t.drivers (t.reset s).2)
      ({ t with sequence := { children := r.1 }, state := .idle }, r.2) := rfl
  rw [hagain, lowered_of_rests h.fresh_reset.2]
  exact congrArg (fun r : List (Group α) × Stage H =>
    ({ t with sequence := { children := r.1 }, state := .idle }, r.2)) hgroups

theorem start_of_completed (h : t.state = .completed) (s : Stage H) :
    t.start s = (t.reset s).1.start (t.reset s).2 := by
  unfold Timeline.start
  rw [if_pos h, if_neg nofun]

/-- A reset is a complete rewind in every state that calls can lead to: whatever is called
from then on, the timeline and a fresh duplicate answer and look alike. A second reset changes
nothing, the committed values and the way they are shown are the same for ever, and a completed
timeline that is started goes on like a duplicate that is started. Of embedded animations this
asks that resets rewind them as well, and that they keep off the drivers of the timelines and
take no notice of them. -/
theorem reset_rewinds (script : Script (Embedded (Stage H) α)) (s₀ : Stage H)
    (hrewinds : ∀ e, .embed e ∈ script.spec.flatten → Rewinds same e)
    (hsecluded : Secluded (build script s₀).1.drivers script.plan.steps)
    {t : Timeline H α} {s s' : Stage H}
    (h : Reaches (build script s₀).1 (build script s₀).2 t s) (hsame : same s s')
    (hsecluded' : Secluded (t.duplicate s').1.drivers script.plan.steps)
    (hblind : Blind same t.drivers (t.duplicate s').1.drivers) :
    let rewound := t.reset s
    let again := rewound.1.reset rewound.2
    let fresh := t.duplicate s'
    rewound.1.Indistinguishable rewound.2 fresh.1 fresh.2 ∧
    again.1.Indistinguishable again.2 rewound.1 rewound.2 ∧
    ((∀ e, .embed e ∉ script.spec.flatten) → again = rewound) ∧
    (t.outputs = script.plan.outputs ∧
      ∀ p, t.interpolation p = (build script s₀).1.interpolation p) ∧
    (t.state = .completed →
      (t.start s).1.Indistinguishable (t.start s).2
        (fresh.1.start fresh.2).1 (fresh.1.start fresh.2).2) := by
  have hbuilt := plays_build script s₀ hsecluded
  obtain ⟨hplays, hscript, hdrivers⟩ := h.plays hbuilt
  obtain rfl : t.script = script := hscript
  have hrewinds' : ∀ e, .embed e ∈ t.script.plan.steps → Rewinds same e :=
    fun e he => hrewinds e (t.script.embed_mem he)
  have hgrown := h.grown hsecluded
  have hrewound := hplays.indistinguishable_reset hgrown hrewinds' hsecluded' hblind hsame
  refine ⟨hrewound, ?_, fun hmoves => ?_, ⟨rfl, fun p => ?_⟩, fun hcompleted => ?_⟩
  · -- what has been reset can be reset again beside the same duplicate
    have hsame' : same (t.reset s).2 s' := same_reset hrewinds' (hplays.along.and hgrown)
      (hblind.left (beside_lowered t.drivers s) hsame)
    have hagain := hplays.reset.indistinguishable_reset ((Reaches.call .reset h).grown hsecluded)
      hrewinds' hsecluded' hblind hsame'
    exact hagain.trans hrewound.symm
  · exact hplays.reset_reset fun e he => hmoves e (t.script.embed_mem he)
  · simp only [interpolation, hdrivers]
    rfl
  · rw [start_of_completed hcompleted]
    exact hrewound.perform .start

/-- A timeline that fades and then waits, rewound and started over when it is completed. -/
theorem reset_rewinds_completed :
    ∃ (script : Script (Embedded (Stage Unit) Wait)) (t : Timeline Unit Wait) (s : Stage Unit),
      script.spec.flatten = [.configure (.set .empty .opacity { target := .value 0 }),
        .embed { build := fun s => ({ duration := 100 }, s) }] ∧
      (∀ e, .embed e ∈ script.spec.flatten → Rewinds (fun _ _ : Stage Unit => True) e) ∧
      Secluded (build script (.empty, ())).1.drivers script.plan.steps ∧
      Reaches (build script (.empty, ())).1 (build script (.empty, ())).2 t s ∧
      Secluded (t.duplicate s).1.drivers script.plan.steps ∧
      Blind (fun _ _ : Stage Unit => True) t.drivers (t.duplicate s).1.drivers ∧
      t.state = .completed ∧
      (t.reset s).1.Indistinguishable (t.reset s).2 (t.duplicate s).1 (t.duplicate s).2 ∧
      (t.start s).1.Indistinguishable (t.start s).2
        ((t.duplicate s).1.start (t.duplicate s).2).1
        ((t.duplicate s).1.start (t.duplicate s).2).2 := by
  let script : Script (Embedded (Stage Unit) Wait) :=
    ⟨{ steps := [.configure (.set .empty .opacity { target := .value 0 }),
        .embed { build := fun s => ({ duration := 100 }, s) }] }, {}, _, rfl⟩
  have hwait : ∀ e, .embed e ∈ script.spec.flatten →
      e = { build := fun s => ({ duration := 100 }, s) } := by
    intro e he
    simpa [script, Spec.flatten, Step.flattenAll, Step.flatten] using he
  have hsecluded : ∀ own, Secluded own script.plan.steps := by
    intro own
    refine secluded_of_flatten fun e he s _ => ?_
    obtain rfl := hwait e he
    exact ⟨fun p hp => ⟨hp, rfl⟩, detached_wait _ _⟩
  have hrewinds : ∀ e, .embed e ∈ script.spec.flatten →
      Rewinds (fun _ _ : Stage Unit => True) e := by
    intro e he
    obtain rfl := hwait e he
    exact rewinds_wait 100
  have hblind : ∀ own own', Blind (fun _ _ : Stage Unit => True) own own' :=
    fun _ _ => ⟨fun _ _ => trivial, fun _ _ => trivial⟩
  have hreaches : Reaches (build script (.empty, ())).1 (build script (.empty, ())).2 _ _ :=
    .call (.update (ofCount 1000)) (.call .start .refl)
  obtain ⟨hrewound, -, -, -, hreplayed⟩ := reset_rewinds script (.empty, ()) hrewinds
    (hsecluded _) hreaches trivial (hsecluded _) (hblind _ _)
  exact ⟨script, _, _, rfl, hrewinds, hsecluded _, hreaches, hsecluded _, hblind _ _,
    by decide +kernel, hrewound, hreplayed (by decide +kernel)⟩

end Timeline

end Storyboard
