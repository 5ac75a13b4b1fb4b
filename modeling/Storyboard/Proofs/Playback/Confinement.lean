import Storyboard.Proofs.Playback.Rewind

/-! # Animations that keep to themselves

An embedded animation shares nothing with others if it finds all it needs in a region of
drivers that were added when it was built. What it does is the same then wherever that region
is, and it changes nothing outside. A timeline whose embedded animations are like this is like
this itself, with its own drivers in front of theirs.
-/

namespace Storyboard

variable {H α : Type}

/-! ## Regions of a stage -/

/-- The driver is one of `n` from a cell on. -/
def Driver.In (k n : ℕ) (d : Driver) : Prop :=
  k ≤ d.cell ∧ d.cell < k + n

/-- From one stage to another only drivers of a region are moved. -/
structure Within (k n : ℕ) (s r : Stage H) : Prop where
  host : r.2 = s.2
  has : ∀ d, r.1.Has d ↔ s.1.Has d
  others : ∀ d, ¬ d.In k n → r.1.get d = s.1.get d

/-- From one stage to another drivers are added behind those that are there. -/
structure Adds (n : ℕ) (s r : Stage H) : Prop where
  host : r.2 = s.2
  size : r.1.cells.size = s.1.cells.size + n
  kept : ∀ d, s.1.Has d → r.1.get d = s.1.get d

/-- The drivers of two regions are there, and stand at the same positions. -/
def Mirrors (k k' n : ℕ) (s s' : Stage H) : Prop :=
  ∀ i < n, s.1.Has ⟨k + i⟩ ∧ s'.1.Has ⟨k' + i⟩ ∧ s.1.get ⟨k + i⟩ = s'.1.get ⟨k' + i⟩

section Regions

variable {k k' j m n : ℕ} {s s' r r' : Stage H}

theorem Driver.In.widen {d : Driver} (h : d.In k n) (hj : j ≤ k) (hm : k + n ≤ j + m) : d.In j m :=
  ⟨Nat.le_trans hj h.1, Nat.lt_of_lt_of_le h.2 hm⟩

namespace Within

theorem refl (k n : ℕ) (s : Stage H) : Within k n s s :=
  ⟨rfl, fun _ => Iff.rfl, fun _ _ => rfl⟩

theorem trans {q : Stage H} (h : Within k n s r) (h' : Within k n r q) : Within k n s q where
  host := h'.host.trans h.host
  has d := (h'.has d).trans (h.has d)
  others d hd := (h'.others d hd).trans (h.others d hd)

theorem widen (h : Within k n s r) (hj : j ≤ k) (hm : k + n ≤ j + m) : Within j m s r :=
  ⟨h.host, h.has, fun d hd => h.others d fun hin => hd (hin.widen hj hm)⟩

theorem ofMoves {change : DriverBank → DriverBank} {place : Float32 → Float32} {d : Driver}
    (h : DriverBank.Moves change d place) (hd : d.In k n) (s : Stage H) :
    Within k n s (change s.1, s.2) where
  host := rfl
  has := h.has s.1
  others e he := h.other s.1 e fun heq => he (heq ▸ hd)

theorem size (h : Within k n s r) : r.1.cells.size = s.1.cells.size := by
  refine Nat.le_antisymm ?_ ?_
  · by_contra hlt
    exact Nat.lt_irrefl _ ((h.has ⟨s.1.cells.size⟩).mp (Nat.lt_of_not_le hlt))
  · by_contra hlt
    exact Nat.lt_irrefl _ ((h.has ⟨r.1.cells.size⟩).mpr (Nat.lt_of_not_le hlt))

end Within

theorem Adds.has (h : Adds n s r) {d : Driver} (hd : s.1.Has d) : r.1.Has d := by
  change d.cell < r.1.cells.size
  rw [h.size]
  exact Nat.lt_add_right n hd

namespace Mirrors

theorem swap (h : Mirrors k k' n s s') : Mirrors k' k n s' s :=
  fun i hi => ⟨(h i hi).2.1, (h i hi).1, (h i hi).2.2.symm⟩

/-- A part of two regions. -/
theorem part (h : Mirrors k k' n s s') (hm : j + m ≤ n) : Mirrors (k + j) (k' + j) m s s' := by
  intro i hi
  have hpart := h (j + i) (Nat.lt_of_lt_of_le (Nat.add_lt_add_left hi j) hm)
  rwa [← Nat.add_assoc, ← Nat.add_assoc] at hpart

theorem within_left (h : Mirrors k k' n s s') (hr : Within j m s r)
    (hapart : j + m ≤ k ∨ k + n ≤ j) : Mirrors k k' n r s' := by
  intro i hi
  obtain ⟨hhas, hhas', hget⟩ := h i hi
  refine ⟨(hr.has _).mpr hhas, hhas', (hr.others _ ?_).trans hget⟩
  rintro ⟨hlo, hhi⟩
  dsimp only at hlo hhi
  omega

theorem adds_left (h : Mirrors k k' n s s') (hr : Adds m s r) : Mirrors k k' n r s' := by
  intro i hi
  obtain ⟨hhas, hhas', hget⟩ := h i hi
  exact ⟨hr.has hhas, hhas', (hr.kept _ hhas).trans hget⟩

/-- Two regions, each behind another one. -/
theorem append (h : Mirrors k k' n s s') (h' : Mirrors (k + n) (k' + n) m s s') :
    Mirrors k k' (n + m) s s' := by
  intro i hi
  rcases Nat.lt_or_ge i n with hlt | hge
  · exact h i hlt
  · obtain ⟨j, rfl⟩ := Nat.exists_eq_add_of_le hge
    have hj := h' j (Nat.lt_of_add_lt_add_left hi)
    rwa [Nat.add_assoc, Nat.add_assoc] at hj

/-- Parts of two regions change in the same way. -/
theorem within (h : Mirrors k k' n s s') (hr : Within (k + j) m s r)
    (hr' : Within (k' + j) m s' r') (hpart : Mirrors (k + j) (k' + j) m r r') :
    Mirrors k k' n r r' := by
  intro i hi
  obtain ⟨hhas, hhas', hget⟩ := h i hi
  refine ⟨(hr.has _).mpr hhas, (hr'.has _).mpr hhas', ?_⟩
  by_cases hin : j ≤ i ∧ i < j + m
  · obtain ⟨-, -, hget'⟩ := hpart (i - j) (by omega)
    rwa [show k + j + (i - j) = k + i by omega, show k' + j + (i - j) = k' + i by omega] at hget'
  · rw [hr.others, hr'.others, hget]
    · rintro ⟨hlo, hhi⟩
      dsimp only at hlo hhi
      omega
    · rintro ⟨hlo, hhi⟩
      dsimp only at hlo hhi
      omega

end Mirrors

theorem Adds.trans {q : Stage H} (h : Adds n s r) (h' : Adds m r q) : Adds (n + m) s q where
  host := h'.host.trans h.host
  size := by rw [h'.size, h.size, Nat.add_assoc]
  kept d hd := (h'.kept d (h.has hd)).trans (h.kept d hd)

theorem Rests.adds {own : PropertyMap Driver} (h : Rests own j s) (hr : Adds n s r) :
    Rests own j r :=
  fun p => ⟨hr.has (h p).1, (hr.kept _ (h p).1).trans (h p).2⟩

end Regions

/-! ## Animations of a region -/

variable [Animation α (Stage H)] {k k' j m n : ℕ} {a b : α}

/-- Whatever the calls, the animation moves drivers of the region at most. -/
def Confined (k n : ℕ) (H : Type) [Animation α (Stage H)] (a : α) : Prop :=
  ∀ b, Descends H a b → ∀ (c : Call) (s : Stage H), Within k n s (Animation.perform c b s).2.2

namespace Confined

theorem call (h : Confined k n H a) (c : Call) (s : Stage H) :
    Confined k n H (Animation.perform c a s).2.1 := by
  intro b hb
  refine h b ?_
  induction hb with
  | refl => exact .call c s .refl
  | call c s _ ih => exact .call c s ih

theorem within (h : Confined k n H a) (c : Call) (s : Stage H) :
    Within k n s (Animation.perform c a s).2.2 :=
  h a .refl c s

theorem widen (h : Confined k n H a) (hj : j ≤ k) (hm : k + n ≤ j + m) : Confined j m H a :=
  fun b hb c s => (h b hb c s).widen hj hm

theorem detached {own : PropertyMap Driver} (h : Confined k n H a)
    (hown : ∀ p, ¬ (own.get p).In k n) : Detached own H a :=
  fun b hb c s p hp => ⟨((h b hb c s).has _).mpr hp, (h b hb c s).others _ (hown p)⟩

/-- An animation that is in lockstep with itself wherever the region has been changed. -/
theorem ofLockstep {M : α → α → Prop}
    (h : ∀ s₀ : Stage H, Lockstep M fun s s' : Stage H => s = s' ∧ Within k n s₀ s) (ha : M a a) :
    Confined k n H a := by
  have hdescends : ∀ b, Descends H a b → M b b := by
    intro b hb
    induction hb with
    | refl => exact ha
    | call c s _ ih => exact ((h s).perform c ih ⟨rfl, .refl k n s⟩).2.1
  exact fun b hb c s => ((h s).perform c (hdescends b hb) ⟨rfl, .refl k n s⟩).2.2.2

end Confined

/-- The animation is built with so many drivers of its own, and finds all it needs in them: it
moves no others, and behaves alike wherever they are. -/
structure SelfContained (n : ℕ) (e : Embedded (Stage H) α) : Prop where
  adds : ∀ s, Adds n s (e.build s).2
  mirrors : ∀ s s', Mirrors s.1.cells.size s'.1.cells.size n (e.build s).2 (e.build s').2
  confined : ∀ s, Confined s.1.cells.size n H (e.build s).1
  alike : ∀ s s', Alike (Mirrors s.1.cells.size s'.1.cells.size n : Stage H → Stage H → Prop)
    (e.build s).1 (e.build s').1

/-- Waiting takes no drivers. -/
theorem selfContained_wait (duration : Float32) :
    SelfContained 0 ({ build := fun s => ({ duration }, s) } : Embedded (Stage H) Wait) where
  adds s := ⟨rfl, rfl, fun _ _ => rfl⟩
  mirrors s s' := nofun
  confined s b _ c r := by
    cases c <;> exact .refl _ _ r
  alike s s' := by
    refine ⟨Eq, .ofPerform ?_, rfl⟩
    rintro c a _ r r' rfl -
    cases c <;> exact ⟨rfl, rfl, nofun⟩

/-- Animations that behave alike in two regions, and are confined to these. -/
structure Kindred (k k' n : ℕ) (H : Type) [Animation α (Stage H)] (a b : α) : Prop where
  alike : Alike (Mirrors k k' n : Stage H → Stage H → Prop) a b
  left : Confined k n H a
  right : Confined k' n H b

/-- They behave alike as well in regions of which theirs are part. -/
theorem Kindred.widen (h : Kindred (k + j) (k' + j) m H a b) (hm : j + m ≤ n) :
    Kindred k k' n H a b := by
  refine ⟨⟨Kindred (k + j) (k' + j) m H, .ofPerform ?_, h⟩, ?_, ?_⟩
  · rintro c a b s s' ⟨halike, hleft, hright⟩ hs
    obtain ⟨hanswer, halike', hpart⟩ := lockstep_alike.perform c halike (hs.part hm)
    exact ⟨hanswer, ⟨halike', hleft.call c s, hright.call c s'⟩,
      hs.within (hleft.within c s) (hright.within c s') hpart⟩
  · exact h.left.widen (Nat.le_add_right k j) (by omega)
  · exact h.right.widen (Nat.le_add_right k' j) (by omega)

/-! ## Groups of a region -/

namespace Group

variable {own own' : PropertyMap Driver} {g g' : Group α}

/-- Groups of two timelines for one step. Their embedded animations are confined to two regions. -/
inductive Kin (k k' n : ℕ) (H : Type) [Animation α (Stage H)] (own own' : PropertyMap Driver) :
    Group α → Group α → Prop
  | advance {moves moves' : Parallel Timing} :
      moves.Matches (Timing.Twins own own') moves' →
      Kin k k' n H own own' (.advance moves) (.advance moves')
  | embed {a b : α} : Kindred k k' n H a b → Kin k k' n H own own' (.embed a) (.embed b)

theorem Kin.widen (h : Kin (k + j) (k' + j) m H own own' g g') (hm : j + m ≤ n) :
    Kin k k' n H own own' g g' := by
  cases h with
  | advance hmoves => exact .advance hmoves
  | embed hkindred => exact .embed (hkindred.widen hm)

/-- What is confined to other regions leaves the drivers of the timelines alone. -/
theorem Kin.twins (h : Kin k k' n H own own' g g') (hown : ∀ p, ¬ (own.get p).In k n)
    (hown' : ∀ p, ¬ (own'.get p).In k' n) :
    Twins (Mirrors k k' n : Stage H → Stage H → Prop) own own' g g' := by
  cases h with
  | advance hmoves => exact .advance hmoves
  | embed hkindred =>
      exact .embed hkindred.alike (hkindred.left.detached hown) (hkindred.right.detached hown')

/-- A group, and the same group, of a region. -/
inductive Stays (k n : ℕ) (H : Type) [Animation α (Stage H)] : Group α → Group α → Prop
  | advance {moves moves' : Parallel Timing} :
      moves.Matches (fun m m' => m = m' ∧ m.driver.In k n) moves' →
      Stays k n H (.advance moves) (.advance moves')
  | embed {a : α} : Confined k n H a → Stays k n H (.embed a) (.embed a)

/-- A group is kin to itself in the region of its animation, with the drivers of its timeline. -/
theorem Kin.stays (h : Kin k k n H own own g g) (hown : ∀ p, (own.get p).In j m) (hj : j ≤ k)
    (hm : k + n ≤ j + m) : Stays j m H g g := by
  cases h with
  | advance hmoves =>
      refine .advance ⟨hmoves.lanes.imp fun lane lane' hlane => ⟨?_, hlane.finished⟩,
        hmoves.running⟩
      obtain ⟨p, hdriver, honto⟩ := hlane.child
      rw [honto, ← hdriver]
      exact ⟨rfl, hdriver ▸ hown p⟩
  | embed hkindred => exact .embed (hkindred.left.widen hj hm)

end Group

theorem Timing.within_perform {t : Timing} (ht : t.driver.In k n) (c : Call) (s : Stage H) :
    (Animation.perform c t s).2.1.driver = t.driver ∧
      Within k n s (Animation.perform c t s).2.2 := by
  obtain ⟨change, place, hmoves, hperform⟩ := t.exists_moves_perform (H := H) c
  refine ⟨t.driver_perform c s, ?_⟩
  rw [hperform]
  exact .ofMoves hmoves ht s

theorem lockstep_stays (k n : ℕ) (s₀ : Stage H) :
    Lockstep (Group.Stays k n H : Group α → Group α → Prop)
      fun s s' : Stage H => s = s' ∧ Within k n s₀ s := by
  have htiming : Lockstep (fun m m' : Timing => m = m' ∧ m.driver.In k n)
      fun s s' : Stage H => s = s' ∧ Within k n s₀ s := by
    refine .ofPerform ?_
    rintro c m _ s _ ⟨rfl, hin⟩ ⟨rfl, hs⟩
    obtain ⟨hdriver, hwithin⟩ := Timing.within_perform hin c s
    exact ⟨rfl, ⟨rfl, hdriver ▸ hin⟩, rfl, hs.trans hwithin⟩
  refine .ofPerform ?_
  rintro c _ _ s _ (hmoves | hconfined) ⟨rfl, hs⟩
  · rw [Group.perform_advance, Group.perform_advance]
    obtain ⟨hanswer, hmoves', hs'⟩ := htiming.parallel.perform c hmoves ⟨rfl, hs⟩
    exact ⟨hanswer, .advance hmoves', hs'⟩
  · rw [Group.perform_embed]
    exact ⟨rfl, .embed (hconfined.call c s), rfl, hs.trans (hconfined.within c s)⟩

/-! ## Timelines of a region -/

namespace Timeline

/-- The groups of self-contained steps are built with drivers of their own, and are kin to the
groups that are built elsewhere for the same steps. -/
theorem exists_kin_buildGroups {steps : List (PlanStep (Embedded (Stage H) α))}
    (hself : ∀ e, .embed e ∈ steps → ∃ n, SelfContained n e) :
    ∃ n, ∀ (own own' : PropertyMap Driver) (s s' : Stage H),
      Adds n s (buildGroups own steps s).2 ∧
      Mirrors s.1.cells.size s'.1.cells.size n (buildGroups own steps s).2
        (buildGroups own' steps s').2 ∧
      List.Forall₂ (Group.Kin s.1.cells.size s'.1.cells.size n H own own')
        (buildGroups own steps s).1 (buildGroups own' steps s').1 := by
  induction steps with
  | nil => exact ⟨0, fun own own' s s' => ⟨⟨rfl, rfl, fun _ _ => rfl⟩, nofun, .nil⟩⟩
  | cons step rest ih =>
      obtain ⟨n, hrest⟩ := ih fun e he => hself e (List.mem_cons_of_mem _ he)
      cases step with
      | advance advances =>
          refine ⟨n, fun own own' s s' => ?_⟩
          obtain ⟨hadds, hmirrors, hkin⟩ := hrest own own' s s'
          have hmoves : (moves own advances).Matches (Timing.Twins own own')
              (moves own' advances) := matches_moves_of_eq fun p => ⟨rfl, rfl, rfl⟩
          exact ⟨hadds, hmirrors, .cons (.advance hmoves) hkin⟩
      | embed e =>
          obtain ⟨m, he⟩ := hself e List.mem_cons_self
          refine ⟨m + n, fun own own' s s' => ?_⟩
          obtain ⟨hadds, hmirrors, hkin⟩ := hrest own own' (e.build s).2 (e.build s').2
          obtain ⟨hadds', -, -⟩ := hrest own' own (e.build s').2 (e.build s).2
          rw [(he.adds s).size, (he.adds s').size] at hmirrors hkin
          have hfront := ((he.mirrors s s').adds_left hadds).swap.adds_left hadds'
          have hkindred : Kindred (s.1.cells.size + 0) (s'.1.cells.size + 0) m H (e.build s).1
              (e.build s').1 := ⟨he.alike s s', he.confined s, he.confined s'⟩
          refine ⟨(he.adds s).trans hadds, hfront.swap.append hmirrors, .cons ?_ ?_⟩
          · exact .embed (hkindred.widen (by omega))
          · exact hkin.imp fun g g' hg => hg.widen (Nat.le_refl _)

/-- A driver for each property, in a row from a cell on. -/
def driversFrom (k : ℕ) : PropertyMap Driver :=
  .ofFn fun p => ⟨k + p.index⟩

theorem in_driversFrom (k : ℕ) (p : Property) :
    ((driversFrom k).get p).In k Property.all.length := by
  rw [driversFrom, PropertyMap.get_ofFn]
  exact ⟨Nat.le_add_right _ _, Nat.add_lt_add_left p.index_lt k⟩

theorem injective_driversFrom (k : ℕ) : Function.Injective (driversFrom k).get := by
  intro p q hpq
  simp only [driversFrom, PropertyMap.get_ofFn, Driver.mk.injEq] at hpq
  exact Property.index_inj.mp (Nat.add_left_cancel hpq)

/-- The drivers of two timelines, and two regions behind them. -/
theorem agree_iff_mirrors {s s' : Stage H} :
    Agree (Mirrors (k + Property.all.length) (k' + Property.all.length) n) (driversFrom k)
      (driversFrom k') s s' ↔ Mirrors k k' (Property.all.length + n) s s' := by
  constructor
  · intro h
    refine Mirrors.append (fun i hi => ?_) h.same
    obtain ⟨p, rfl⟩ := Property.exists_index hi
    have hhas := h.has p
    have hhas' := h.has' p
    have hget := h.get p
    simp only [driversFrom, PropertyMap.get_ofFn] at hhas hhas' hget
    exact ⟨hhas, hhas', hget⟩
  · intro h
    have hown : ∀ p : Property, s.1.Has ((driversFrom k).get p) ∧
        s'.1.Has ((driversFrom k').get p) ∧
        s.1.get ((driversFrom k).get p) = s'.1.get ((driversFrom k').get p) := by
      intro p
      simp only [driversFrom, PropertyMap.get_ofFn]
      exact h p.index (Nat.lt_add_right n p.index_lt)
    exact ⟨fun p => (hown p).1, fun p => (hown p).2.1, fun p => (hown p).2.2,
      h.part (Nat.le_refl _)⟩

theorem blind_mirrors (k k' n : ℕ) :
    Blind (Mirrors (k + Property.all.length) (k' + Property.all.length) n :
      Stage H → Stage H → Prop) (driversFrom k) (driversFrom k') := by
  have hbehind : ∀ k i (p : Property), (⟨k + Property.all.length + i⟩ : Driver) ≠
      (driversFrom k).get p := by
    intro k i p heq
    have hlt := (heq ▸ in_driversFrom k p).2
    dsimp only at hlt
    omega
  constructor
  · intro s r s' hr hs i hi
    obtain ⟨hhas, hhas', hget⟩ := hs i hi
    obtain ⟨hiff, hsame⟩ := hr.others ⟨k + Property.all.length + i⟩ (hbehind k i)
    exact ⟨hiff.mpr hhas, hhas', hsame.trans hget⟩
  · intro s s' r' hr' hs i hi
    obtain ⟨hhas, hhas', hget⟩ := hs i hi
    obtain ⟨hiff, hsame⟩ := hr'.others ⟨k' + Property.all.length + i⟩ (hbehind k' i)
    exact ⟨hhas, hiff.mpr hhas', hget.trans hsame.symm⟩

/-- Timelines with the same tables and the same groups that have come equally far, with all of
their drivers in two regions. -/
def Counterparts (n k k' : ℕ) (t t' : Timeline H α) : Prop :=
  Timeline.Matches
    (Group.Twins (Mirrors (k + Property.all.length) (k' + Property.all.length) n :
      Stage H → Stage H → Prop) (driversFrom k) (driversFrom k'))
    (driversFrom k) (driversFrom k') t t'

theorem lockstep_counterparts (n k k' : ℕ) :
    Lockstep (Counterparts n k k' : Timeline H α → Timeline H α → Prop)
      (Mirrors k k' (Property.all.length + n) : Stage H → Stage H → Prop) := by
  have hown := injective_driversFrom k
  have hown' := injective_driversFrom k'
  have hblind := blind_mirrors (H := H) k k' n
  have hagree : (Mirrors k k' (Property.all.length + n) : Stage H → Stage H → Prop) =
      Agree (Mirrors (k + Property.all.length) (k' + Property.all.length) n) (driversFrom k)
        (driversFrom k') := by
    funext s s'
    exact propext agree_iff_mirrors.symm
  rw [hagree]
  exact (lockstep_group hown hown' hblind).timeline fun hs => hs.lowered hown hown' hblind

theorem Counterparts.appearance {t t' : Timeline H α} (h : Counterparts n k k' t t')
    {s s' : Stage H} (hs : Mirrors k k' (Property.all.length + n) s s') :
    t.appearance s = t'.appearance s' :=
  Matches.appearance h (agree_iff_mirrors.mpr hs).get

theorem within_lowered {own : PropertyMap Driver} (hown : ∀ p, (own.get p).In k n) (s : Stage H) :
    Within k n s (lowered own s) := by
  unfold lowered PropertyMap.values
  rw [List.foldl_map]
  generalize Property.all = properties
  induction properties generalizing s with
  | nil => exact .refl k n s
  | cons p rest ih =>
      exact (Within.ofMoves (DriverBank.moves_set _ 0) (hown p) s).trans
        (ih (s.1.set (own.get p) 0, s.2))

theorem adds_addDrivers (s : Stage H) :
    Adds Property.all.length s ((addDrivers s.1).2, s.2) where
  host := rfl
  size := by simp [addDrivers]
  kept d hd := by
    have hcell : d.cell < s.1.cells.size := hd
    simp [addDrivers, DriverBank.get, Array.getElem?_append_left hcell]

/-- The groups of a timeline are confined to a region, and so is the timeline if its drivers are in
the region as well. -/
theorem confined_of_stays {t : Timeline H α} (hown : ∀ p, (t.drivers.get p).In k n)
    (hgroups : ∀ g ∈ t.sequence.children, Group.Stays k n H g g) : Confined k n H t := by
  refine .ofLockstep (M := Timeline.Matches (Group.Stays k n H) t.drivers t.drivers)
    (fun s₀ => (lockstep_stays k n s₀).timeline ?_)
    ⟨rfl, rfl, rfl, rfl, ⟨List.forall₂_same.mpr hgroups, rfl, rfl⟩, rfl⟩
  rintro s _ ⟨rfl, hs⟩
  exact ⟨rfl, hs.trans (within_lowered hown s)⟩

/-- Wherever the script is put on a stage, the timeline has all of its drivers in one region, to
which it is confined, and is the counterpart of what is built elsewhere. -/
structure Settles (n : ℕ) (script : Script (Embedded (Stage H) α)) : Prop where
  adds : ∀ s, Adds (Property.all.length + n) s (build script s).2
  rests : ∀ s, Rests (build script s).1.drivers 0 (build script s).2
  mirrors : ∀ s s', Mirrors s.1.cells.size s'.1.cells.size (Property.all.length + n)
    (build script s).2 (build script s').2
  confined : ∀ s, Confined s.1.cells.size (Property.all.length + n) H (build script s).1
  counterparts : ∀ s s', Counterparts n s.1.cells.size s'.1.cells.size (build script s).1
    (build script s').1

/-- A script of self-contained steps settles. -/
theorem exists_settles {script : Script (Embedded (Stage H) α)}
    (hself : ∀ e, .embed e ∈ script.spec.flatten → ∃ n, SelfContained n e) :
    ∃ n, Settles n script := by
  obtain ⟨n, hgroups⟩ := exists_kin_buildGroups fun e he => hself e (script.embed_mem he)
  have hbuild : ∀ s s' : Stage H,
      Adds n ((addDrivers s.1).2, s.2) (build script s).2 ∧
      Mirrors (s.1.cells.size + Property.all.length) (s'.1.cells.size + Property.all.length) n
        (build script s).2 (build script s').2 ∧
      List.Forall₂ (Group.Kin (s.1.cells.size + Property.all.length)
          (s'.1.cells.size + Property.all.length) n H (driversFrom s.1.cells.size)
          (driversFrom s'.1.cells.size))
        (build script s).1.sequence.children (build script s').1.sequence.children := by
    intro s s'
    have hbuilt := hgroups (driversFrom s.1.cells.size) (driversFrom s'.1.cells.size)
      ((addDrivers s.1).2, s.2) ((addDrivers s'.1).2, s'.2)
    rwa [(adds_addDrivers s).size, (adds_addDrivers s').size] at hbuilt
  have hbehind : ∀ k (p : Property),
      ¬ ((driversFrom k).get p).In (k + Property.all.length) n := fun k p hin =>
    absurd (in_driversFrom k p).2 (Nat.not_lt_of_le hin.1)
  refine ⟨n, fun s => ?_, fun s => ?_, fun s s' => ?_, fun s => ?_, fun s s' => ?_⟩
  · exact (adds_addDrivers s).trans (hbuild s s).1
  · exact (rests_addDrivers s.1 s.2).adds (hbuild s s).1
  · -- all drivers of the timelines stand at 0, and are not moved by what is built behind them
    have hfront : Mirrors s.1.cells.size s'.1.cells.size Property.all.length
        ((addDrivers s.1).2, s.2) ((addDrivers s'.1).2, s'.2) := by
      intro i hi
      obtain ⟨p, rfl⟩ := Property.exists_index hi
      have hown : ∀ bank : DriverBank, (addDrivers bank).1.get p = ⟨bank.cells.size + p.index⟩ :=
        fun bank => PropertyMap.get_ofFn _ p
      obtain ⟨hhas, hget⟩ := rests_addDrivers s.1 s.2 p
      obtain ⟨hhas', hget'⟩ := rests_addDrivers s'.1 s'.2 p
      rw [hown] at hhas hget hhas' hget'
      exact ⟨hhas, hhas', hget.trans hget'.symm⟩
    obtain ⟨hadds, hmirrors, -⟩ := hbuild s s'
    exact ((hfront.adds_left hadds).swap.adds_left (hbuild s' s).1).swap.append hmirrors
  · refine confined_of_stays (fun p => (in_driversFrom _ p).widen (Nat.le_refl _) (by omega)) ?_
    intro g hg
    exact (List.forall₂_same.mp (hbuild s s).2.2 g hg).stays
      (fun p => (in_driversFrom _ p).widen (Nat.le_refl _) (by omega)) (by omega) (by omega)
  · exact ⟨rfl, rfl, rfl, rfl,
      ⟨(hbuild s s').2.2.imp fun g g' hg => hg.twins (hbehind _) (hbehind _), rfl, rfl⟩, rfl⟩

/-- A timeline of self-contained steps is a self-contained step of another one. -/
theorem exists_selfContained_build {script : Script (Embedded (Stage H) α)}
    (hself : ∀ e, .embed e ∈ script.spec.flatten → ∃ n, SelfContained n e) :
    ∃ n, SelfContained n ({ build := build script } : Embedded (Stage H) (Timeline H α)) := by
  obtain ⟨n, hsettles⟩ := exists_settles hself
  exact ⟨Property.all.length + n, {
    adds := hsettles.adds
    mirrors := hsettles.mirrors
    confined := hsettles.confined
    alike := fun s s' => ⟨_, lockstep_counterparts n _ _, hsettles.counterparts s s'⟩ }⟩

end Timeline

end Storyboard
