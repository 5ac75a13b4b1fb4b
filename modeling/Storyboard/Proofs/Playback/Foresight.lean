import Storyboard.Proofs.Playback.Display
import Storyboard.Proofs.Playback.Onward

/-! # What later steps commit

A style is looked up where the drivers stand, on the line to the next entry. So two timelines that
move their drivers alike, and have committed the same values up to some index, show the same as
long as no driver is beyond that index. A step leads a driver beyond the index of its own values
only if its easing overshoots, and then the style does show something of what is committed later.
-/

namespace Storyboard

/-! ## Lookup up to an index -/

theorem wholePart_of_isNaN {x : Float32} (hx : x.isNaN = true) : wholePart x = 0 := by
  change (parts x).isNaN = true at hx
  change (UInt64.ofNatClamp ((parts x).toInt 0 (2 ^ 64 - 1)).toNat).toNat = 0
  cases hpx : parts x <;> rw [hpx] at hx <;> cases hx
  rfl

/-- Before an index, a value is looked up in a segment that ends there or earlier. -/
theorem segmentAt_lt {k : ℕ} (hpos : 0 < k) (hk : k < 2 ^ 64) {x : Float32}
    (hx : ¬ ofCount k < x) (hne : x ≠ ofCount k) (size : ℕ) : segmentAt size x < k := by
  unfold segmentAt
  split
  · exact hpos
  · next hstart =>
    refine (Nat.min_le_left _ _).trans_lt ?_
    rcases (not_lt_iff (isNaN_of_isFinite (isFinite_ofCount k))).mp hx with hnan | hle
    · rwa [wholePart_of_isNaN hnan]
    · have hzero : 0 ≤ x := by
        rw [le_iff_rank_le rfl (isNaN_of_le hle).1]
        rw [le_iff_rank_le (isNaN_of_le hle).1 rfl] at hstart
        exact le_of_not_ge hstart
      obtain ⟨hfinite, hnonneg, hvalue⟩ := finite_of_le hzero hle (isFinite_ofCount k)
      by_contra hge
      have hfloor : (k : ℚ) ≤ toRat x := by
        rw [wholePart_eq hfinite, not_lt] at hge
        exact (Nat.le_floor_iff hnonneg).mp (hge.trans (Nat.min_le_left _ _))
      -- the index is rounded, but not beyond a number of the format that is not before it
      have hround : toRat (ofCount k) ≤ toRat x := by
        rw [toRat_ofCount hk, ← nearest_toRat x]
        exact nearest_mono hfloor
      have hkpos : (0 : ℚ) < k := by exact_mod_cast hpos
      exact hne (eq_of_toRat_eq (le_antisymm hvalue hround) (hkpos.trans_le hfloor).ne')

/-- A value depends on nothing but the entries at the ends of its segment. -/
theorem valueAt_congr (fallback : Float32) {table table' : Array Float32} {x : Float32}
    (hsize : 1 < table.size) (hsize' : table'.size = table.size)
    (h : ∀ j ≤ segmentAt table.size x + 1, table[j]? = table'[j]?) :
    valueAt fallback table x = valueAt fallback table' x := by
  have hentry : ∀ j ≤ segmentAt table.size x + 1, table[j]! = table'[j]! := by
    intro j hj
    rw [getElem!_def, getElem!_def, h j hj]
  rw [valueAt_of_one_lt fallback hsize, valueAt_of_one_lt fallback (hsize' ▸ hsize), hsize',
    hentry _ (Nat.le_succ _), hentry _ le_rfl]

/-- Two values that both equal a third one are the same number. -/
theorem SameNumber.of_beq {x y z : Float32} (hx : (x == z) = true) (hy : (y == z) = true) :
    SameNumber x y := by
  rw [sameNumber_iff, sameNumber_iff.mp (.inr hx), sameNumber_iff.mp (.inr hy)]

/-- Where tables agree up to an index, so do the values up to it. At the index itself a value is on
the line to the next entry, if there is one, and equals the entry as far as that is faithful. -/
theorem valueAt_agree (fallback : Float32) {table table' : Array Float32} {k : ℕ} (hpos : 0 < k)
    (hk : k < table.size) (hbits : k < 2 ^ 64) (hsize : table'.size = table.size)
    (hentries : ∀ j ≤ k, table[j]? = table'[j]?) {x : Float32} (hx : ¬ ofCount k < x) :
    (x ≠ ofCount k ∨ k + 1 = table.size → valueAt fallback table x = valueAt fallback table' x) ∧
      ((∀ v ∈ table, v.isFinite) → (∀ v ∈ table', v.isFinite) → Faithful table k →
        Faithful table' k → SameNumber (valueAt fallback table x) (valueAt fallback table' x)) := by
  have hbefore : x ≠ ofCount k → valueAt fallback table x = valueAt fallback table' x := by
    intro hne
    have hsegment := segmentAt_lt hpos hbits hx hne table.size
    exact valueAt_congr fallback (by omega) hsize fun j hj => hentries j (by omega)
  refine ⟨?_, fun hfinite hfinite' hfaithful hfaithful' => ?_⟩
  · rintro (hne | hlast)
    · exact hbefore hne
    · have hsame : table = table' := by
        refine Array.ext_getElem? fun j => ?_
        rcases Nat.lt_or_ge k j with hlt | hle
        · rw [Array.getElem?_eq_none (by omega), Array.getElem?_eq_none (by omega)]
        · exact hentries j hle
      rw [hsame]
  · by_cases hne : x = ofCount k
    · have hentry : table[k]! = table'[k]! := by
        rw [getElem!_def, getElem!_def, hentries k le_rfl]
      rw [hne]
      refine .of_beq ((valueAt_beq_iff fallback hfinite hk).mpr hfaithful) ?_
      rw [hentry]
      exact (valueAt_beq_iff fallback hfinite' (hsize ▸ hk)).mpr hfaithful'
    · exact .inl (hbefore hne)

/-! ## Easings that do not overshoot -/

/-- At some time the easing is beyond the end of the way. -/
def Easing.Overshoots (e : Easing) : Prop :=
  ∃ time : Float32, 0 ≤ time ∧ time ≤ 1 ∧ 1 < e.apply time

theorem Easing.not_overshoots_linear : ¬ Easing.linear.Overshoots := by
  rintro ⟨time, -, hle, hlt⟩
  exact (not_lt_iff rfl).mpr (.inr hle) hlt

/-- On its way to the next count, a driver does not get beyond it unless the easing overshoots. -/
theorem Timing.Between.not_above {t : Timing} {n : ℕ} {x : Float32} (h : t.Between n x)
    (hn : n + 1 < 2 ^ 64) (hduration : t.duration.isFinite) (heasing : ¬ t.easing.Overshoots) :
    ¬ ofCount (n + 1) < x := by
  have hnext := isFinite_ofCount (n + 1)
  rcases h with rfl | ⟨rfl, -⟩ | ⟨helapsed, hlt, rfl⟩
  · rw [lt_iff_toRat_lt hnext (isFinite_ofCount n), not_lt]
    exact ofCount_le_succ hn
  · rw [lt_iff_toRat_lt hnext hnext]
    exact lt_irrefl _
  · obtain ⟨hfinite, -, hlow, hhigh⟩ := div_within helapsed hlt hduration
    refine lerp_not_above hn fun hbeyond => heasing ⟨t.elapsed / t.duration, ?_, ?_, hbeyond⟩
    · exact (le_iff_toRat_le rfl hfinite).mpr hlow
    · exact (le_iff_toRat_le hfinite rfl).mpr (toRat_one ▸ hhigh)

/-! ## Scripts that may differ behind an index -/

namespace Script

variable {ε : Type}

/-- Each of the steps has committed one value. -/
theorem Configures.size_values {script : Script ε} (h : script.Configures) (p : Property) :
    (script.plan.outputs.values p).size = script.spec.flatten.length + 1 := by
  rw [Script.size_values, ← script.level_length, script.length_steps, h.level_eq le_rfl]

/-- Two scripts of `n` steps that set properties, for the same times and with the same easings,
commit the same values up to index `k`. -/
structure AlikeUpTo (script : Script ε) (n k : ℕ) (script' : Script ε) : Prop where
  configures : script.Configures
  configures' : script'.Configures
  length : script.spec.flatten.length = n
  length' : script'.spec.flatten.length = n
  timing : script.AgreeUpTo n script'
  le : k ≤ n
  entries : ∀ p, ∀ j ≤ k,
    (script.plan.outputs.values p)[j]? = (script'.plan.outputs.values p)[j]?

end Script

variable {H α : Type} [Animation α (Stage H)]

theorem Group.Here.not_above {script : Script (Embedded (Stage H) α)} {own : PropertyMap Driver}
    {i : ℕ} {g : Group α} {s : Stage H} (h : Here script own i g s)
    (hconfigures : script.Configures) (hlength : script.spec.flatten.length < 2 ^ 64) {c : StepConfig}
    (hstep : script.spec.flatten[i]? = some (.configure c)) {p : Property}
    (heasing : ¬ (c.easingOf p).Overshoots) : ¬ ofCount (i + 1) < s.1.get (own.get p) := by
  cases h with
  | advance running step follows has stands =>
      obtain ⟨c', hstep', hspec⟩ := script.advance_spec step
      cases hstep.symm.trans hstep'
      obtain ⟨hindex, -, heasing', hduration⟩ := hspec p
      have hlt := (List.getElem?_eq_some_iff.mp hstep).1
      have hlevel := hconfigures.level_eq hlt.le
      have hbetween := (stands p).between ((follows p).goal.trans (congrArg ofCount hindex))
      rw [hlevel] at hbetween
      refine hbetween.not_above (by omega) ?_ ?_
      · rw [(follows p).duration]
        exact isFinite_of_isDuration hduration
      · rwa [(follows p).easing, heasing']
  | embed step detached rests => cases hstep.symm.trans (script.embed_spec step)

namespace Timeline

/-! ## Two timelines that move alike -/

/-- The same timeline with another script, which is not played. -/
def under (t : Timeline H α) (script : Script (Embedded (Stage H) α)) : Timeline H α :=
  { t with script }

/-- Playback does not look at the script. -/
theorem lockstep_under (script : Script (Embedded (Stage H) α)) :
    Lockstep (fun t t' : Timeline H α => t' = t.under script) (@Eq (Stage H)) where
  start := by
    rintro ⟨_, drivers, sequence, state⟩ _ s _ rfl rfl
    cases state <;> exact ⟨rfl, rfl⟩
  update := by
    rintro ⟨_, drivers, sequence, state⟩ _ s _ dt rfl rfl
    cases state <;> exact ⟨rfl, rfl, rfl⟩
  stop := by
    rintro ⟨_, drivers, sequence, state⟩ _ s _ rfl rfl
    cases state <;> exact ⟨rfl, rfl⟩
  reset := by
    rintro t _ s _ rfl rfl
    exact ⟨rfl, rfl⟩

section Build

variable {script script' : Script (Embedded (Stage H) α)} {n k : ℕ} {s₀ s₀' : Stage H}

omit [Animation α (Stage H)] in
theorem not_embed_build (hconfigures : script.Configures) {i : ℕ} {a : α} :
    (build script s₀).1.sequence.children[i]? ≠ some (.embed a) := by
  intro ha
  obtain ⟨step, hstep, hassembled⟩ := assembled_build ha
  obtain ⟨advances, rfl, -⟩ := hconfigures.advance (List.mem_of_getElem? hstep)
  cases hassembled

/-- All groups of the two timelines match. -/
theorem matches_build (h : script.AlikeUpTo n k script') (same : Stage H → Stage H → Prop)
    (hsame : same (build script s₀).2 (build script' s₀').2) :
    let own := (build script s₀).1.drivers
    let own' := (build script' s₀').1.drivers
    (build script s₀).1.Matches (Group.Twins same own own') own own'
        ((build script' s₀').1.under script) ∧
      Agree same own own' (build script s₀).2 (build script' s₀').2 := by
  intro own own'
  have hsecluded := h.configures.secluded own
  have hsecluded' := h.configures'.secluded own'
  have hcount := (length_build hsecluded).trans (script.length_steps.trans h.length)
  have hcount' := (length_build hsecluded').trans (script'.length_steps.trans h.length')
  have hchildren : List.Forall₂ (Group.Twins same own own')
      (build script s₀).1.sequence.children (build script' s₀').1.sequence.children := by
    refine List.forall₂_iff_get.mpr ⟨hcount.trans hcount'.symm, fun i hi hi' => ?_⟩
    have hg := List.getElem?_eq_getElem hi
    exact twins_build h.timing (hcount ▸ hi) hsecluded hsecluded' hg (List.getElem?_eq_getElem hi')
      fun a b ha _ => absurd (hg.trans (congrArg some ha)) (not_embed_build h.configures)
  refine ⟨⟨rfl, rfl, rfl, rfl, ⟨hchildren, rfl, rfl⟩, rfl⟩, ?_⟩
  exact .ofRests (fresh_buildGroups List.drop_zero hsecluded (rests_addDrivers s₀.1 s₀.2)).2.1
    (fresh_buildGroups List.drop_zero hsecluded' (rests_addDrivers s₀'.1 s₀'.2)).2.1 hsame

/-- Whatever is called, the two timelines answer alike, and their drivers stand at the same
positions. -/
theorem run_alike (h : script.AlikeUpTo n k script') (s₀ s₀' : Stage H) (calls : List Call) :
    let played := Animation.run calls (build script s₀).1 (build script s₀).2
    let played' := Animation.run calls (build script' s₀').1 (build script' s₀').2
    played.1 = played'.1 ∧ played.2.1.currentGroup = played'.2.1.currentGroup ∧
      played.2.1.state = played'.2.1.state ∧
      ∀ p, played.2.2.1.get (played.2.1.drivers.get p) =
        played'.2.2.1.get (played'.2.1.drivers.get p) := by
  have hown := injective_addDrivers s₀.1
  have hown' := injective_addDrivers s₀'.1
  -- there are no embedded animations, and so nothing else on the stages matters
  have hblind : Blind (fun _ _ : Stage H => True) (build script s₀).1.drivers
      (build script' s₀').1.drivers := ⟨fun _ _ => trivial, fun _ _ => trivial⟩
  obtain ⟨hmatches, hstages⟩ := matches_build h (fun _ _ => True) trivial
  obtain ⟨hanswers, hmatches', hstages'⟩ :=
    ((lockstep_group hown hown' hblind).timeline fun hs => hs.lowered hown hown' hblind).run calls
      hmatches hstages
  obtain ⟨hsame, hunder, hstage⟩ := (lockstep_under script).run calls
    (rfl : (build script' s₀').1.under script = _) (rfl : (build script' s₀').2 = _)
  rw [← hsame] at hanswers
  rw [hunder] at hmatches'
  rw [← hstage] at hstages'
  have hdrivers' : (Animation.run calls (build script' s₀').1 (build script' s₀').2).2.1.drivers =
      (build script' s₀').1.drivers := hmatches'.drivers'
  refine ⟨hanswers, hmatches'.sequence.cursor, hmatches'.state, fun p => ?_⟩
  rw [hmatches'.drivers, hdrivers']
  exact hstages'.get p

end Build

/-! ## What is shown -/

omit [Animation α (Stage H)] in
/-- A style has a value for every property, which is looked up where the driver stands. -/
theorem exists_shown (t : Timeline H α) (s : Stage H) (p : Property) :
    ∃ shown, (t.style s.1).get? p = some shown ∧
      shown.value = valueAt p.defaultSeed (t.script.plan.outputs.values p)
        (s.1.get (t.drivers.get p)) :=
  ⟨_, t.get?_style s.1 p, value_sample _ _⟩

theorem Plays.run {t : Timeline H α} {s : Stage H} (h : t.Plays s) (calls : List Call) :
    (Animation.run calls t s).2.1.Plays (Animation.run calls t s).2.2 ∧
      (Animation.run calls t s).2.1.script = t.script := by
  induction calls generalizing t s with
  | nil => exact ⟨h, rfl⟩
  | cons c rest ih =>
      obtain ⟨hplays, hscript⟩ := ih (h.perform c)
      exact ⟨hplays, hscript.trans (perform_fixes t s c).1⟩

/-- As long as a group plays, a driver is not beyond the value that the step commits, unless the
easing overshoots. -/
theorem Plays.not_above {t : Timeline H α} {s : Stage H} (h : t.Plays s)
    (hconfigures : t.script.Configures) (hlength : t.script.spec.flatten.length < 2 ^ 64)
    {c : StepConfig} (hstep : t.script.spec.flatten[t.currentGroup]? = some (.configure c))
    {p : Property} (heasing : ¬ (c.easingOf p).Overshoots) :
    ¬ ofCount (t.currentGroup + 1) < s.1.get (t.drivers.get p) := by
  have hplaying : t.currentGroup < t.groupCount := by
    rw [h.aligned.groups.2]
    exact (List.getElem?_eq_some_iff.mp hstep).1
  obtain ⟨g, hhere⟩ := h.exists_here hplaying
  exact hhere.not_above hconfigures hlength hstep heasing

/-- Two timelines of the same number of steps have the same durations and easings, and have
committed the same values up to index `k`. Whatever is called, they answer alike, are in the same
group and state, and have their drivers at the same positions. And they show the same for each
property whose driver is not beyond index `k`: the same value before the index, and at the index
the same number if the line to the next value yields the entry. While a step plays that commits no
more than the value at index `k`, a driver is not beyond that unless the easing of the step
overshoots. Counts have 64 bits, and so there cannot be more steps than these can count. -/
theorem later_values_unseen {script script' : Script (Embedded (Stage H) α)} {n k : ℕ}
    (h : script.AlikeUpTo n k script') (hbits : n < 2 ^ 64) (s₀ s₀' : Stage H)
    (calls : List Call) :
    let played := Animation.run calls (build script s₀).1 (build script s₀).2
    let played' := Animation.run calls (build script' s₀').1 (build script' s₀').2
    let t := played.2.1
    let t' := played'.2.1
    (played.1 = played'.1 ∧ t.currentGroup = t'.currentGroup ∧ t.state = t'.state) ∧
      ∀ p, let x := played.2.2.1.get (t.drivers.get p)
        x = played'.2.2.1.get (t'.drivers.get p) ∧
        (0 < k → ¬ ofCount k < x → ∃ shown shown',
          (t.style played.2.2.1).get? p = some shown ∧
          (t'.style played'.2.2.1).get? p = some shown' ∧
          (x ≠ ofCount k ∨ k = n → shown.value = shown'.value) ∧
          (Faithful (script.plan.outputs.values p) k → Faithful (script'.plan.outputs.values p) k →
            SameNumber shown.value shown'.value)) ∧
        ∀ c, script.spec.flatten[t.currentGroup]? = some (.configure c) →
          t.currentGroup + 1 ≤ k → ¬ (c.easingOf p).Overshoots → ¬ ofCount k < x := by
  intro played played' t t'
  obtain ⟨hanswers, hgroup, hstate, hdrivers⟩ := run_alike h s₀ s₀' calls
  obtain ⟨hplays, hscript⟩ := (plays_build script s₀ (h.configures.secluded _)).run calls
  obtain ⟨-, hscript'⟩ := (plays_build script' s₀' (h.configures'.secluded _)).run calls
  change t.script = script at hscript
  change t'.script = script' at hscript'
  obtain ⟨hconfigures, hconfigures', hlength, hlength', -, hk, hentries⟩ := h
  refine ⟨⟨hanswers, hgroup, hstate⟩, fun p => ⟨hdrivers p, fun hpos hx => ?shown, ?position⟩⟩
  case shown =>
    have hsize := hconfigures.size_values p
    have hsize' := hconfigures'.size_values p
    obtain ⟨hvalue, hnumber⟩ := valueAt_agree p.defaultSeed hpos (by omega) (by omega)
      (by omega) (hentries p) hx
    obtain ⟨shown, hstyle, hshown⟩ := t.exists_shown played.2.2 p
    obtain ⟨shown', hstyle', hshown'⟩ := t'.exists_shown played'.2.2 p
    rw [hscript] at hshown
    rw [hscript', ← hdrivers p] at hshown'
    refine ⟨shown, shown', hstyle, hstyle', ?_⟩
    rw [hshown, hshown']
    refine ⟨fun hwhere => hvalue (hwhere.imp_right fun hlast => by omega), ?_⟩
    exact hnumber ((Plan.level_compile script.planned).finite p)
      ((Plan.level_compile script'.planned).finite p)
  case position =>
    intro c hstep hbefore heasing
    rw [← hscript] at hconfigures hlength hstep
    have hgoal := hplays.not_above hconfigures (hlength ▸ hbits) hstep heasing
    have hcount : ofCount (t.currentGroup + 1) ≤ ofCount k := by
      rw [le_iff_toRat_le (isFinite_ofCount _) (isFinite_ofCount _), toRat_ofCount (by omega),
        toRat_ofCount (by omega)]
      exact nearest_mono (by exact_mod_cast hbefore)
    rw [not_lt_iff (isNaN_of_isFinite (isFinite_ofCount _))] at hgoal ⊢
    exact hgoal.imp_right fun hle => le_trans_number hle hcount

/-! ## A slide that overshoots -/

/-- A slide to 10 with an easing that overshoots, and one step more. -/
def slideThen (step : StepConfig) : Spec (Embedded (Stage Unit) Wait) :=
  let easing := Easing.cubicBezier ⟨0.34, 1.56, 0.64, 1⟩
  let slide := { target := .value 10, duration := some 100, easing := some easing }
  { steps := [.configure (.set .empty .translateX slide), .configure step] }

/-- The slide, and a step that sets nothing. -/
def slideOnce : Script (Embedded (Stage Unit) Wait) :=
  ⟨slideThen .empty, {}, _, rfl⟩

/-- The slide, and one more to 110. -/
def slideTwice : Script (Embedded (Stage Unit) Wait) :=
  ⟨slideThen (.set .empty .translateX { target := .value 110 }), {}, _, rfl⟩

theorem slide_alikeUpTo : slideOnce.AlikeUpTo 2 1 slideTwice where
  configures step hstep := by
    obtain rfl | rfl : step = _ ∨ step = _ := by
      simpa [slideOnce, slideThen, Spec.flatten, Step.flattenAll, Step.flatten] using hstep
    · exact ⟨_, rfl⟩
    · exact ⟨_, rfl⟩
  configures' step hstep := by
    obtain rfl | rfl : step = _ ∨ step = _ := by
      simpa [slideTwice, slideThen, Spec.flatten, Step.flattenAll, Step.flatten] using hstep
    · exact ⟨_, rfl⟩
    · exact ⟨_, rfl⟩
  length := rfl
  length' := rfl
  timing i hi := by
    obtain rfl | rfl : i = 0 ∨ i = 1 := by omega
    · exact ⟨_, _, rfl, rfl, .configure fun p => ⟨rfl, rfl⟩⟩
    · exact ⟨_, _, rfl, rfl, .configure fun p => by cases p <;> exact ⟨rfl, rfl⟩⟩
  le := by decide
  entries p j hj := by
    obtain rfl | rfl : j = 0 ∨ j = 1 := by omega
    · cases p <;> decide +kernel
    · cases p <;> decide +kernel

/-- Before the easing overshoots, it makes no difference whether the slide goes on. -/
theorem later_values_unseen_slides :
    let calls : List Call := [.start, .update 20]
    let played :=
      Animation.run calls (build slideOnce (.empty, ())).1 (build slideOnce (.empty, ())).2
    let played' :=
      Animation.run calls (build slideTwice (.empty, ())).1 (build slideTwice (.empty, ())).2
    slideOnce.AlikeUpTo 2 1 slideTwice ∧ played.2.1.currentGroup = 0 ∧
      (∃ shown shown',
        (played.2.1.style played.2.2.1).get? .translateX = some shown ∧
        (played'.2.1.style played'.2.2.1).get? .translateX = some shown' ∧
        shown.value = shown'.value) ∧
      ¬ ofCount 1 < played.2.2.1.get (played.2.1.drivers.get .opacity) := by
  intro calls played played'
  obtain ⟨-, hproperties⟩ :=
    later_values_unseen slide_alikeUpTo (by norm_num) (.empty, ()) (.empty, ()) calls
  obtain ⟨-, hshown, -⟩ := hproperties .translateX
  obtain ⟨-, -, hposition⟩ := hproperties .opacity
  obtain ⟨shown, shown', hstyle, hstyle', hvalue, -⟩ :=
    hshown Nat.one_pos (by decide +kernel)
  refine ⟨slide_alikeUpTo, by decide +kernel, ⟨shown, shown', hstyle, hstyle', ?_⟩, ?_⟩
  · exact hvalue (.inl (by decide +kernel))
  · exact hposition _ rfl (by decide +kernel) Easing.not_overshoots_linear

/-- In the middle of its step the slide is beyond 10. Then it shows whether it will go on, although
the next step has not begun. -/
theorem overshoot_shows_later :
    let calls : List Call := [.start, .update 80]
    let played :=
      Animation.run calls (build slideOnce (.empty, ())).1 (build slideOnce (.empty, ())).2
    let played' :=
      Animation.run calls (build slideTwice (.empty, ())).1 (build slideTwice (.empty, ())).2
    slideOnce.AlikeUpTo 2 1 slideTwice ∧
      played.2.1.currentGroup = 0 ∧ played'.2.1.currentGroup = 0 ∧
      ((played.2.1.style played.2.2.1).get? .translateX).map (·.value) = some 10 ∧
      ((played'.2.1.style played'.2.2.1).get? .translateX).map (·.value) = some 14.247451 :=
  ⟨slide_alikeUpTo, by decide +kernel, by decide +kernel, by decide +kernel, by decide +kernel⟩

end Timeline

end Storyboard
