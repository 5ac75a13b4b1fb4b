import Storyboard.Proofs.Numeric.Counts
import Storyboard.Proofs.Playback.Alignment

/-! # What a timeline shows at the committed values

A driver that stands at an index does not always show the entry of that index. The value is
computed on the line of a segment: at its beginning that is the entry unless the difference
to the next one overflows, but at the end of the last segment the line may miss the entry.
This module states exactly when the entry is shown.
-/

namespace Storyboard

open Float.Model (UnpackedFloat)
open Float.Model.UnpackedFloat

/-! ## The beginning of a segment -/

/-- A line is at its beginning unless its slope overflows. -/
theorem lerp_zero_beq {a b v : Float32} (ha : a.isFinite) (hv : v.isFinite) :
    (lerp a b 0 == v) = true ↔ (b - a).isFinite = true ∧ (a == v) = true := by
  unfold lerp
  by_cases hslope : (b - a).isFinite
  · obtain ⟨hfinite, hzero⟩ := mul_zero_number hslope
    obtain ⟨hsum, hvalue⟩ := add_zero_number ha hfinite hzero
    rw [beq_iff_toRat_eq hsum hv, beq_iff_toRat_eq ha hv, hvalue]
    exact ⟨fun h => ⟨hslope, h⟩, fun h => h.2⟩
  · rw [beq_false_of_nan (add_nan a (mul_zero_nan hslope))]
    exact ⟨nofun, fun h => absurd h.1 hslope⟩

/-! ## Lookup at an index -/

theorem segmentAt_ofCount (size k : ℕ) :
    segmentAt size (ofCount k) = min (wholePart (ofCount k)) (size - 2) := by
  unfold segmentAt
  split
  · next hle =>
    rcases exists_isWhole_ofCount k with hzero | ⟨m, hpos, -, hwhole⟩
    · rw [hzero]
      exact (Nat.zero_min _).symm
    · have hm := (hwhole.le_iff .zero).mp hle
      omega
  · rfl

/-- The line on which an index is looked up yields the entry of that index. A count of more
than 24 bits stands for the nearest number, and so `r` is where the driver really is. -/
def Faithful (table : Array Float32) (k : ℕ) : Prop :=
  let r := wholePart (ofCount k)
  table.size = 1 ∨
    (r + 1 < table.size ∧ (table[r + 1]! - table[r]!).isFinite ∧ (table[r]! == table[k]!)) ∨
    (1 < table.size ∧ table.size ≤ r + 1 ∧
      (lerp table[table.size - 2]! table[table.size - 1]!
        (ofCount k - ofCount (table.size - 2)) == table[k]!))

theorem valueAt_of_one_lt (fallback : Float32) {table : Array Float32} (h : 1 < table.size)
    (position : Float32) :
    valueAt fallback table position =
      lerp table[segmentAt table.size position]! table[segmentAt table.size position + 1]!
        (position - ofCount (segmentAt table.size position)) := by
  have hsegment : segmentAt table.size position + 1 < table.size := by
    unfold segmentAt
    split <;> omega
  unfold valueAt
  split
  · omega
  · omega
  · rw [getElem!_pos table _ (Nat.lt_of_succ_lt hsegment), getElem!_pos table _ hsegment]

theorem getElem!_isFinite {table : Array Float32} (hfinite : ∀ v ∈ table, v.isFinite) {k : ℕ}
    (hk : k < table.size) : (table[k]!).isFinite := by
  rw [getElem!_pos table k hk]
  exact hfinite _ (Array.getElem_mem hk)

/-- The value shown at an index is the entry exactly if the line there is faithful. -/
theorem valueAt_beq_iff {table : Array Float32} {k : ℕ} (fallback : Float32)
    (hfinite : ∀ v ∈ table, v.isFinite) (hk : k < table.size) :
    (valueAt fallback table (ofCount k) == table[k]!) = true ↔ Faithful table k := by
  unfold Faithful
  have hentry := getElem!_isFinite hfinite hk
  rcases Nat.lt_or_ge 1 table.size with hsize | hsize
  · rw [valueAt_of_one_lt fallback hsize, segmentAt_ofCount]
    generalize hr : wholePart (ofCount k) = r
    rcases Nat.lt_or_ge (r + 1) table.size with hlt | hge
    · -- the driver is where the segment begins, also if the index was rounded
      have hzero : ofCount k - ofCount r = 0 := by
        rw [← hr, ofCount_wholePart_ofCount]
        exact sub_self_number (isFinite_ofCount k)
      rw [Nat.min_eq_left (by omega), hzero, lerp_zero_beq (getElem!_isFinite hfinite (by omega))
        hentry]
      constructor
      · exact fun h => .inr (.inl ⟨hlt, h⟩)
      · rintro (h | h | h)
        · omega
        · exact h.2
        · omega
    · -- the driver is at the end of the last segment, or behind it
      rw [Nat.min_eq_right (by omega), show table.size - 2 + 1 = table.size - 1 by omega]
      constructor
      · exact fun h => .inr (.inr ⟨hsize, hge, h⟩)
      · rintro (h | h | h)
        · omega
        · omega
        · exact h.2.2
  · have hone : table.size = 1 := by omega
    obtain rfl : k = 0 := by omega
    have hvalue : valueAt fallback table (ofCount 0) = table[0]! := by
      unfold valueAt
      split
      · omega
      · rw [getElem!_pos table 0 hk]
      · omega
    rw [hvalue, beq_iff_toRat_eq hentry hentry]
    exact ⟨fun _ => .inl hone, fun _ => rfl⟩

/-- In tables of ordinary length it is a matter of the next entry or, at the end, of the
line from the entry before. -/
theorem faithful_iff {table : Array Float32} {k : ℕ} (hfinite : ∀ v ∈ table, v.isFinite)
    (hk : k < table.size) (hsize : table.size ≤ 2 ^ 24) :
    Faithful table k ↔ table.size = 1 ∨
      (k + 1 < table.size ∧ (table[k + 1]! - table[k]!).isFinite) ∨
      (0 < k ∧ k + 1 = table.size ∧
        (table[k - 1]! + (table[k]! - table[k - 1]!) == table[k]!)) := by
  have hentry := getElem!_isFinite hfinite hk
  have hself : (table[k]! == table[k]!) = true := (beq_iff_toRat_eq hentry hentry).mpr rfl
  unfold Faithful
  rw [wholePart_ofCount (by omega)]
  refine or_congr_right (or_congr ?_ ?_)
  · exact ⟨fun h => ⟨h.1, h.2.1⟩, fun h => ⟨h.1, h.2, hself⟩⟩
  · have hline : 0 < k → k + 1 = table.size →
        lerp table[table.size - 2]! table[table.size - 1]!
          (ofCount k - ofCount (table.size - 2)) =
        table[k - 1]! + (table[k]! - table[k - 1]!) := by
      intro hpos hlast
      rw [show table.size - 2 = k - 1 by omega, show table.size - 1 = k by omega,
        ofCount_sub (by omega) (by omega), show k - (k - 1) = 1 by omega, ofCount_one]
      unfold lerp
      rw [mul_comm_number, one_mul_number]
    constructor
    · rintro ⟨hone, hle, hbeq⟩
      have hpos : 0 < k := by omega
      have hlast : k + 1 = table.size := by omega
      rw [hline hpos hlast] at hbeq
      exact ⟨hpos, hlast, hbeq⟩
    · rintro ⟨hpos, hlast, hbeq⟩
      rw [hline hpos hlast]
      exact ⟨by omega, by omega, hbeq⟩

/-- At the seed there is only the next entry to be considered. -/
theorem faithful_zero {table : Array Float32} (hfinite : ∀ v ∈ table, v.isFinite)
    (hsize : 0 < table.size) :
    Faithful table 0 ↔ table.size = 1 ∨ (1 < table.size ∧ (table[1]! - table[0]!).isFinite) := by
  have hentry := getElem!_isFinite hfinite hsize
  have hself : (table[0]! == table[0]!) = true := (beq_iff_toRat_eq hentry hentry).mpr rfl
  unfold Faithful
  rw [wholePart_ofCount (by norm_num)]
  refine or_congr_right ⟨?_, fun h => .inl ⟨h.1, h.2, hself⟩⟩
  rintro (⟨hlt, hslope, -⟩ | ⟨hone, hle, -⟩)
  · exact ⟨hlt, hslope⟩
  · omega

/-! ## Styles -/

namespace Timeline

variable {H α : Type}

/-- The style has a value for a property, and it equals this one. -/
def Shows (t : Timeline H α) (s : Stage H) (p : Property) (v : Float32) : Prop :=
  ∃ shown, (t.style s.1).get? p = some shown ∧ (shown.value == v) = true

/-- A style shows each property where its driver stands. -/
theorem get?_style (t : Timeline H α) (bank : DriverBank) (p : Property) :
    (t.style bank).get? p = some ((t.interpolation p).sample bank) := by
  cases p <;> rfl

theorem value_sample (i : Interpolation) (bank : DriverBank) :
    (i.sample bank).value = i.valueAt (bank.get i.driver) := by
  unfold Interpolation.sample
  cases i.format <;> rfl

theorem shows_iff (t : Timeline H α) (s : Stage H) (p : Property) (v : Float32) :
    t.Shows s p v ↔
      ((t.interpolation p).valueAt (s.1.get (t.drivers.get p)) == v) = true := by
  unfold Shows
  rw [get?_style]
  constructor
  · rintro ⟨shown, hshown, hvalue⟩
    cases hshown
    rwa [value_sample] at hvalue
  · intro hvalue
    exact ⟨_, rfl, (value_sample _ _).symm ▸ hvalue⟩

theorem interpolation_beq_iff (t : Timeline H α) (p : Property) {k : ℕ}
    (hk : k < (t.outputs.values p).size) :
    ((t.interpolation p).valueAt (ofCount k) == (t.outputs.values p)[k]!) = true ↔
      Faithful (t.outputs.values p) k :=
  valueAt_beq_iff _ ((Plan.level_compile t.script.planned).finite p) hk

/-- Where a driver stands at an index, the style shows the entry there if it is faithful. -/
theorem shows_entry_iff {t : Timeline H α} {s : Stage H} {p : Property} {k : ℕ}
    (hk : k < (t.outputs.values p).size) (hdriver : s.1.get (t.drivers.get p) = ofCount k) :
    t.Shows s p (t.outputs.values p)[k]! ↔ Faithful (t.outputs.values p) k := by
  rw [shows_iff, hdriver]
  exact t.interpolation_beq_iff p hk

end Timeline

namespace Script

variable {ε : Type} (script : Script ε)

theorem first_value (p : Property) :
    (script.plan.outputs.values p)[0]! = script.spec.initial.seed p := by
  rw [← Array.getElem!_toList, Plan.values_compile script.planned p]
  rfl

theorem last_value (p : Property) :
    (script.plan.outputs.values p)[script.plan.outputs.lastIndex]! =
      script.plan.outputs.last p := by
  have hback : (script.plan.outputs.values p).back? = some (script.plan.outputs.last p) :=
    Track.back?_values _
  rw [Array.back?_eq_getElem?, script.size_values, Nat.add_sub_cancel] at hback
  rw [getElem!_def, hback]

end Script

/-! ## Before a start, and at the end -/

namespace Timeline

variable {H α : Type} [Animation α (Stage H)]

/-- A timeline that has not been started since it was built or reset. -/
structure Unstarted (t : Timeline H α) (s : Stage H) : Prop where
  plays : t.Plays s
  idle : t.state = .idle
  rests : Rests t.drivers 0 s

namespace Unstarted

variable {t : Timeline H α} {s : Stage H}

theorem perform (h : t.Unstarted s) {c : Call} (hc : c ≠ .start) :
    (Animation.perform c t s).2.1.Unstarted (Animation.perform c t s).2.2 := by
  refine ⟨h.plays.perform c, ?_, ?_⟩
  · cases c with
    | start => exact absurd rfl hc
    | update dt =>
        change (t.update dt s).2.1.state = _
        unfold Timeline.update
        rw [h.idle]
        exact h.idle
    | stop =>
        change (t.stop s).1.state = _
        unfold Timeline.stop
        rw [h.idle, if_neg nofun]
        exact h.idle
    | reset => rfl
  · cases c with
    | start => exact absurd rfl hc
    | update dt =>
        change Rests (t.update dt s).2.1.drivers 0 (t.update dt s).2.2
        unfold Timeline.update
        rw [h.idle]
        exact h.rests
    | stop =>
        change Rests (t.stop s).1.drivers 0 (t.stop s).2
        unfold Timeline.stop
        rw [h.idle, if_neg nofun]
        exact h.rests
    | reset => exact h.plays.fresh_reset.2

theorem run {calls : List Call} (hcalls : .start ∉ calls) {t : Timeline H α} {s : Stage H}
    (h : t.Unstarted s) :
    (Animation.run calls t s).2.1.Unstarted (Animation.run calls t s).2.2 ∧
      (Animation.run calls t s).2.1.script = t.script := by
  induction calls generalizing t s with
  | nil => exact ⟨h, rfl⟩
  | cons c rest ih =>
      obtain ⟨hc, hrest⟩ := not_or.mp (mt List.mem_cons.mpr hcalls)
      obtain ⟨hunstarted, hscript⟩ := ih hrest (h.perform (Ne.symm hc))
      exact ⟨hunstarted, hscript.trans (perform_fixes t s c).1⟩

/-- Without a start the style shows the seeds that are faithful. -/
theorem shows_seed_iff (h : t.Unstarted s) (p : Property) :
    t.Shows s p (t.script.spec.initial.seed p) ↔ Faithful (t.script.plan.outputs.values p) 0 := by
  have hsize : 0 < (t.outputs.values p).size := by
    rw [show (t.outputs.values p).size = _ from t.script.size_values p]
    exact Nat.succ_pos _
  rw [← t.script.first_value p]
  exact shows_entry_iff hsize (h.rests p).2

end Unstarted

theorem unstarted_build (script : Script (Embedded (Stage H) α)) (s : Stage H)
    (h : Secluded (build script s).1.drivers script.plan.steps) :
    (build script s).1.Unstarted (build script s).2 where
  plays := plays_build script s h
  idle := rfl
  rests := (fresh_buildGroups (List.drop_zero (l := script.plan.steps)) h
    (rests_addDrivers s.1 s.2)).2.1

theorem Plays.unstarted_reset {t : Timeline H α} {s : Stage H} (h : t.Plays s) :
    (t.reset s).1.Unstarted (t.reset s).2 :=
  ⟨h.reset, rfl, h.fresh_reset.2⟩

/-- At the end the style shows the last values that are faithful. -/
theorem Plays.shows_last_iff {t : Timeline H α} {s : Stage H} (h : t.Plays s)
    (hstate : t.state = .completed) (p : Property) :
    t.Shows s p (t.outputs.last p) ↔ Faithful (t.outputs.values p) t.outputs.lastIndex := by
  have hsize : t.outputs.lastIndex < (t.outputs.values p).size := by
    rw [show (t.outputs.values p).size = _ from t.script.size_values p]
    exact Nat.lt_succ_self _
  rw [← show _ = t.outputs.last p from t.script.last_value p]
  exact shows_entry_iff hsize ((h.aligned.completed hstate).2 p)

/-- In every state that calls can lead to, a committed value is shown at its index exactly
if it is faithful. If no one else moves the drivers, the style is that of the seeds until a start,
and of the last values when the timeline is completed, with the same exception. -/
theorem committed_shown_iff (script : Script (Embedded (Stage H) α)) (s₀ : Stage H)
    (hsecluded : Secluded (build script s₀).1.drivers script.plan.steps)
    {t : Timeline H α} {s : Stage H}
    (h : Reaches (build script s₀).1 (build script s₀).2 t s) (p : Property) :
    let values := script.plan.outputs.values p
    let shown := fun (r : List (Option Tick) × Timeline H α × Stage H) v => r.2.1.Shows r.2.2 p v
    (∀ k < values.size,
      ((t.interpolation p).valueAt (ofCount k) == values[k]!) = true ↔ Faithful values k) ∧
    (∀ calls : List Call, .start ∉ calls →
      (shown (Animation.run calls (build script s₀).1 (build script s₀).2)
        (script.spec.initial.seed p) ↔ Faithful values 0) ∧
      (shown (Animation.run calls (t.reset s).1 (t.reset s).2)
        (script.spec.initial.seed p) ↔ Faithful values 0)) ∧
    (t.state = .completed →
      (t.Shows s p (script.plan.outputs.last p) ↔
        Faithful values script.plan.outputs.lastIndex)) := by
  have hbuilt := unstarted_build script s₀ hsecluded
  obtain ⟨hplays, hscript, -⟩ := h.plays hbuilt.plays
  obtain rfl : t.script = script := hscript
  refine ⟨fun k hk => t.interpolation_beq_iff p hk, fun calls hcalls => ⟨?_, ?_⟩,
    fun hstate => hplays.shows_last_iff hstate p⟩
  · obtain ⟨hunstarted, hsame⟩ := hbuilt.run hcalls
    have hseed := hunstarted.shows_seed_iff p
    rwa [hsame] at hseed
  · obtain ⟨hunstarted, hsame⟩ := hplays.unstarted_reset.run hcalls
    have hseed := hunstarted.shows_seed_iff p
    rwa [hsame] at hseed

/-- A timeline that fades out and then makes a move of its own shows the opacity 1 when it is
built, and 0 when it is completed. -/
theorem committed_shown_iff_faded :
    ∃ (script : Script (Embedded (Stage Unit) Timing)) (t : Timeline Unit Timing)
      (s : Stage Unit),
      script.spec.flatten = [.configure (.set .empty .opacity { target := .value 0 }),
        .embed (.ofMove 1 (ofCount 100) .linear)] ∧
      Secluded (build script (.empty, ())).1.drivers script.plan.steps ∧
      (build script (.empty, ())).1.Shows (build script (.empty, ())).2 .opacity 1 ∧
      Reaches (build script (.empty, ())).1 (build script (.empty, ())).2 t s ∧
      t.state = .completed ∧ t.Shows s .opacity 0 := by
  let script : Script (Embedded (Stage Unit) Timing) :=
    ⟨{ steps := [.configure (.set .empty .opacity { target := .value 0 }),
        .embed (.ofMove 1 (ofCount 100) .linear)] }, {}, _, rfl⟩
  have hsecluded : Secluded (build script (.empty, ())).1.drivers script.plan.steps := by
    refine secluded_of_flatten fun e he s hs => ?_
    obtain rfl : e = .ofMove 1 (ofCount 100) .linear := by
      simpa [script, Spec.flatten, Step.flattenAll, Step.flatten] using he
    exact Embedded.secluded_ofMove hs
  have hreaches : Reaches (build script (.empty, ())).1 (build script (.empty, ())).2 _ _ :=
    .call (.update (ofCount 1000)) (.call .start .refl)
  have hvalues : script.plan.outputs.values .opacity = #[1, 0] := rfl
  have hfinite : ∀ v ∈ (#[1, 0] : Array Float32), v.isFinite := by decide +kernel
  have hfirst : Faithful #[1, 0] 0 := by
    rw [faithful_zero hfinite (by decide)]
    decide +kernel
  have hsecond : Faithful #[1, 0] 1 := by
    rw [faithful_iff hfinite (by decide) (by decide)]
    decide +kernel
  obtain ⟨-, hseed, hlast⟩ := committed_shown_iff script (.empty, ()) hsecluded hreaches .opacity
  obtain ⟨hbuilt, -⟩ := hseed [] List.not_mem_nil
  refine ⟨script, _, _, rfl, hsecluded, hbuilt.mpr (hvalues ▸ hfirst), hreaches,
    by decide +kernel, ?_⟩
  exact (hlast (by decide +kernel)).mpr (hvalues ▸ hsecond)

/-- A timeline that slides to 0.7 and back to 0.1 is completed with a style that misses 0.1:
the line from 0.7 ends at the next number. -/
theorem slide_misses_last :
    ∃ script : Script (Embedded (Stage Unit) Wait),
      script.spec.flatten = [
        .configure (.set .empty .translateX { target := .value (ofCount 7 / ofCount 10) }),
        .configure (.set .empty .translateX { target := .value (ofCount 1 / ofCount 10) })] ∧
      let result := Animation.run [.start, .update (ofCount 1000)]
        (build script (.empty, ())).1 (build script (.empty, ())).2
      result.2.1.state = .completed ∧
        ¬ result.2.1.Shows result.2.2 .translateX (script.plan.outputs.last .translateX) := by
  let script : Script (Embedded (Stage Unit) Wait) :=
    ⟨{ steps := [
        .configure (.set .empty .translateX { target := .value (ofCount 7 / ofCount 10) }),
        .configure (.set .empty .translateX { target := .value (ofCount 1 / ofCount 10) })] },
      {}, _, rfl⟩
  refine ⟨script, rfl, by decide +kernel, ?_⟩
  rw [shows_iff]
  decide +kernel

end Timeline

end Storyboard
