import Storyboard.Document
import Storyboard.Proofs.Numeric.Curves
import Storyboard.Proofs.Playback.Display

/-! # Finite styles

Compilation accepts finite values only, and yet a style can show what is none: a difference
of values overflows, or a curve leads too far. This module bounds how far a driver strays
from the counts, and from that what is shown, as long as values and curves are not too large.
-/

namespace Storyboard

/-! ## Counts -/

/-- How far apart neighbouring counts are at most, up to a last one. Long counts are rounded. -/
def spacing (last : ℕ) : ℚ :=
  if last ≤ 2 ^ 24 then 1 else 2 ^ 64

theorem one_le_spacing (last : ℕ) : 1 ≤ spacing last := by
  unfold spacing
  split <;> norm_num

theorem spacing_le (last : ℕ) : spacing last ≤ 2 ^ 64 := by
  unfold spacing
  split <;> norm_num

theorem count_bounds (n : ℕ) : 0 ≤ toRat (ofCount n) ∧ toRat (ofCount n) ≤ 2 ^ 64 := by
  rcases exists_isWhole_ofCount n with hzero | ⟨m, -, hle, hwhole⟩
  · rw [hzero, toRat_zero]
    norm_num
  · rw [hwhole.value]
    exact ⟨Nat.cast_nonneg m, by exact_mod_cast hle⟩

theorem count_le {n last : ℕ} (h : n ≤ last) : toRat (ofCount n) ≤ 2 ^ 24 * spacing last := by
  unfold spacing
  split
  · next hshort =>
    rw [(ofCount_isWhole (h.trans hshort)).value, mul_one]
    exact_mod_cast h.trans hshort
  · exact (count_bounds n).2.trans (by norm_num)

/-- Neighbouring counts differ by their spacing at most. -/
theorem abs_count_sub_le {n last : ℕ} (h : n + 1 ≤ last) :
    |toRat (ofCount (n + 1)) - toRat (ofCount n)| ≤ spacing last := by
  unfold spacing
  split
  · next hshort =>
    rw [(ofCount_isWhole (h.trans hshort)).value, (ofCount_isWhole (by omega)).value]
    push_cast
    rw [add_sub_cancel_left, abs_one]
  · have hfrom := count_bounds n
    have hto := count_bounds (n + 1)
    exact abs_le.mpr ⟨by linarith, by linarith⟩

theorem bounded_count_sub {n last : ℕ} (h : n + 1 ≤ last) :
    Bounded (ofCount (n + 1) - ofCount n) (spacing last) := by
  have hrounds := sub_rounds (isFinite_ofCount (n + 1)) (isFinite_ofCount n)
  have hle := abs_count_sub_le h
  obtain ⟨k, hk, hspacing⟩ : ∃ k < 128, spacing last = 2 ^ k := by
    unfold spacing
    split
    · exact ⟨0, by norm_num, by norm_num⟩
    · exact ⟨64, by norm_num, rfl⟩
  rw [hspacing] at hle ⊢
  exact hrounds.bounded_two_pow hle hk

/-! ## Where drivers stray -/

/-- A position is finite, and at most so far from a count. -/
structure Strays (n : ℕ) (distance : ℚ) (x : Float32) : Prop where
  finite : x.isFinite
  le : |toRat x - toRat (ofCount n)| ≤ distance

/-- Most that a driver strays from the count where its move begins, for a bound on curves. -/
def straying (last : ℕ) (bound : ℚ) : ℚ :=
  spacing last * (31 / 32 * bound + 5)

variable {n last : ℕ} {bound : ℚ} {x : Float32}

/-- On the way to the next count, an easing leads a driver as far as it leads itself. -/
theorem strays_ofCount_add {e : Float32} (he : Bounded e (15 / 16 * bound + 2)) (hpos : 0 ≤ bound)
    (hbound : spacing last * bound ≤ 2 ^ 128) (hn : n + 1 ≤ last) :
    Strays n (straying last bound) (ofCount n + (ofCount (n + 1) - ofCount n) * e) := by
  have hone := one_le_spacing last
  have hspacing := spacing_le last
  have hfrom := count_bounds n
  have hstart := count_le (Nat.le_of_succ_le hn)
  unfold straying
  have hprod : 0 ≤ spacing last * bound := by positivity
  norm_num at hbound hspacing
  -- the sum is rounded relative to the count, which may be large even if the way is short
  have hway := (bounded_count_sub hn).mul he (c := spacing last * (121 / 128 * bound + 3))
    (by norm_num; linarith) (by norm_num; linarith)
  have hrounds := add_rounds (isFinite_ofCount n) hway.finite
  have hsum : |toRat (ofCount n) + toRat ((ofCount (n + 1) - ofCount n) * e)| ≤
      2 ^ 24 * spacing last + spacing last * (121 / 128 * bound + 3) :=
    (abs_add_le _ _).trans (add_le_add (by rwa [abs_of_nonneg hfrom.1]) hway.le)
  obtain ⟨hfinite, hnear⟩ := hrounds.near hsum (by norm_num; linarith)
  refine ⟨hfinite, ?_⟩
  have hle := hway.le
  rw [abs_le] at hnear hle ⊢
  norm_num at hnear
  constructor <;> linarith

theorem strays_ofCount (hpos : 0 ≤ bound) : Strays n (straying last bound) (ofCount n) := by
  refine ⟨isFinite_ofCount n, ?_⟩
  have hone := one_le_spacing last
  rw [sub_self, abs_zero]
  unfold straying
  positivity

/-- A driver strays from where its move begins. -/
theorem Timing.Between.strays {t : Timing} (h : t.Between n x) (hduration : t.duration.isFinite)
    (htame : t.easing.Tame bound) (hpos : 0 ≤ bound) (hbound : spacing last * bound ≤ 2 ^ 128)
    (hn : n + 1 ≤ last) : Strays n (straying last bound) x := by
  have hone := one_le_spacing last
  rcases h with rfl | ⟨rfl, -⟩ | ⟨helapsed, hlt, rfl⟩
  · exact strays_ofCount hpos
  · refine ⟨isFinite_ofCount _, (abs_count_sub_le hn).trans ?_⟩
    unfold straying
    nlinarith
  · have hle : bound ≤ 2 ^ 128 := (le_mul_of_one_le_left hpos hone).trans hbound
    exact strays_ofCount_add (htame.apply hpos hle (.div helapsed hlt hduration)) hpos hbound hn

/-- The segment in which a position is looked up does not begin much farther away than the
count that it strays from. -/
theorem Strays.segment {distance : ℚ} (h : Strays n distance x) (hn : n ≤ last) :
    |toRat x - toRat (ofCount (segmentAt (last + 1) x))| ≤ distance + spacing last := by
  obtain ⟨hfinite, hle⟩ := h
  have hfrom := count_bounds n
  have hdistance := (abs_nonneg _).trans hle
  rw [abs_le] at hle
  unfold spacing
  split
  · next hshort =>
    rw [(ofCount_isWhole (hn.trans hshort)).value] at hle
    unfold segmentAt
    split
    · next hbefore =>
      rw [le_iff_toRat_le hfinite rfl, toRat_zero] at hbefore
      rw [ofCount_zero, toRat_zero, sub_zero]
      have hcount : (0 : ℚ) ≤ n := Nat.cast_nonneg n
      exact abs_le.mpr ⟨by linarith, by linarith⟩
    · next hafter =>
      rw [le_iff_toRat_le hfinite rfl, toRat_zero, not_le] at hafter
      rw [wholePart_eq hfinite, (ofCount_isWhole (by omega)).value]
      rcases le_total ⌊toRat x⌋₊ (last - 1) with hinside | hbeyond
      · -- the segment begins at the whole part
        rw [show min (min ⌊toRat x⌋₊ (2 ^ 64 - 1)) (last + 1 - 2) = ⌊toRat x⌋₊ by omega]
        have hlow := Nat.floor_le hafter.le
        have hhigh := Nat.lt_floor_add_one (toRat x)
        exact abs_le.mpr ⟨by linarith, by linarith⟩
      · -- the segment is the last one, and the count is one of its ends or lies before it
        rw [show min (min ⌊toRat x⌋₊ (2 ^ 64 - 1)) (last + 1 - 2) = last - 1 by omega]
        have hlow : ((last - 1 : ℕ) : ℚ) ≤ toRat x :=
          (Nat.cast_le.mpr hbeyond).trans (Nat.floor_le hafter.le)
        have hcount : (n : ℚ) ≤ (last - 1 : ℕ) + 1 := by
          exact_mod_cast (by omega : n ≤ last - 1 + 1)
        exact abs_le.mpr ⟨by linarith, by linarith⟩
  · have hto := count_bounds (segmentAt (last + 1) x)
    exact abs_le.mpr ⟨by linarith, by linarith⟩

/-! ## What is shown -/

/-- A point of a line is finite if neither the line nor the position on it is too large. -/
theorem isFinite_lerp {a b t : Float32} {size reach : ℚ} (ha : Bounded a size) (hb : Bounded b size)
    (ht : Bounded t reach) (hone : 1 ≤ reach) (hreach : reach ≤ 2 ^ 129)
    (h : size * reach ≤ 2 ^ 126) : (lerp a b t).isFinite := by
  have hpos := (abs_nonneg _).trans ha.le
  have hsize : size ≤ 2 ^ 126 := (le_mul_of_one_le_right hpos hone).trans h
  norm_num at hreach h hsize
  have hslope := hb.sub ha (c := 17 / 8 * size + 1 / 2 ^ 149) (by norm_num; linarith)
    (by norm_num; linarith)
  have hrise := hslope.mul ht (c := 11 / 4 * 2 ^ 126) (by norm_num; linarith)
    (by norm_num; linarith)
  exact (ha.add hrise (by norm_num; linarith) le_rfl).finite

theorem valueAt_of_size_eq_one (fallback : Float32) {table : Array Float32} (h : table.size = 1)
    (position : Float32) : valueAt fallback table position = table[0]! := by
  unfold valueAt
  split
  · omega
  · rw [getElem!_pos table 0 (by omega)]
  · omega

/-- Where a driver strays, a table of values that are not too large is looked up with a finite
result. -/
theorem Strays.isFinite_valueAt {table : Array Float32} {size : ℚ}
    (h : Strays n (straying last bound) x) (hn : n ≤ last) (fallback : Float32)
    (htable : table.size = last + 1) (hvalues : ∀ v ∈ table, Bounded v size) (hpos : 0 ≤ bound)
    (hbound : spacing last * bound ≤ 2 ^ 128)
    (hsize : size * (spacing last * (bound + 7)) ≤ 2 ^ 126) :
    (valueAt fallback table x).isFinite := by
  have hentry : ∀ k < table.size, Bounded table[k]! size := by
    intro k hk
    rw [getElem!_pos table k hk]
    exact hvalues _ (Array.getElem_mem hk)
  rcases Nat.eq_zero_or_pos last with rfl | hlast
  · rw [valueAt_of_size_eq_one fallback htable]
    exact (hentry 0 (by omega)).finite
  · have hsegment : segmentAt (last + 1) x + 1 < table.size := by
      unfold segmentAt
      split <;> omega
    have hone := one_le_spacing last
    have hspacing := spacing_le last
    have hprod : 0 ≤ spacing last * bound := by positivity
    rw [valueAt_of_one_lt fallback (by omega), htable]
    norm_num at hbound hspacing
    have hposition :
        Bounded (x - ofCount (segmentAt (last + 1) x)) (spacing last * (bound + 7)) := by
      have hrounds := sub_rounds h.finite (isFinite_ofCount (segmentAt (last + 1) x))
      unfold straying at h
      exact hrounds.bounded (h.segment hn) (by norm_num; linarith) (by norm_num; linarith)
    exact isFinite_lerp (hentry _ (by omega)) (hentry _ hsegment) hposition (by linarith)
      (by norm_num; linarith) hsize

namespace Script

variable {ε : Type} (script : Script ε)

theorem level_le (i : ℕ) : script.level i ≤ script.plan.outputs.lastIndex := by
  rw [← script.level_length, script.length_steps, level, level, List.take_length]
  exact ((List.take_sublist i _).filterMap _).length_le

theorem isDuration_durationOf {i : ℕ} {step : StepConfig}
    (h : script.spec.flatten[i]? = some (.configure step)) (p : Property) :
    isDuration (step.durationOf script.config p) := by
  obtain ⟨s, -, hcarries⟩ := (Plan.carriesOut_compile script.planned).2 i _ h
  cases hcarries with
  | configure target entry committed valid => exact valid p

/-- All steps configure, and their easings of a property are tame. -/
def Eases (p : Property) (bound : ℚ) : Prop :=
  ∀ step ∈ script.spec.flatten, ∃ c : StepConfig, step = .configure c ∧ (c.easingOf p).Tame bound

end Script

namespace Timeline

variable {H α : Type} [Animation α (Stage H)]

/-- Wherever a timeline is in its course, a driver strays from a count. -/
theorem Plays.strays {t : Timeline H α} {s : Stage H} (h : t.Plays s) {p : Property}
    (heases : t.script.Eases p bound) (hpos : 0 ≤ bound)
    (hbound : spacing t.outputs.lastIndex * bound ≤ 2 ^ 128) :
    ∃ n ≤ t.outputs.lastIndex,
      Strays n (straying t.outputs.lastIndex bound) (s.1.get (t.drivers.get p)) := by
  have haligned := h.aligned
  obtain ⟨hle, hcount⟩ := haligned.groups
  refine ⟨_, t.script.level_le t.currentGroup, ?_⟩
  rcases Nat.eq_or_lt_of_le hle with hend | hlt
  · rw [haligned.rest (.inl hend) p]
    exact strays_ofCount hpos
  · rw [hcount] at hlt
    obtain ⟨c, hconfigure, htame⟩ := heases _ (List.getElem_mem hlt)
    have hstep : t.script.spec.flatten[t.currentGroup]? = some (.configure c) := by
      rw [List.getElem?_eq_getElem hlt, hconfigure]
    obtain ⟨moves, -, hmoves⟩ := haligned.move c hstep
    obtain ⟨lane, -, -, hduration, heasing, hbetween⟩ := hmoves p
    have hnext := t.script.level_le (t.currentGroup + 1)
    rw [t.script.level_succ_of_configure hstep] at hnext
    exact hbetween.strays
      (hduration ▸ isFinite_of_isDuration (t.script.isDuration_durationOf hstep p))
      (heasing ▸ htame) hpos hbound hnext

/-- In every state that calls can lead to, a driver is finite if the curves of its property are
tame. Up to `2 ^ 24` steps the bound may be the largest one, which all finite control points
have. The style shows a finite value if the values of the property are not too large. -/
theorem finite_of_tame (script : Script (Embedded (Stage H) α)) (s₀ : Stage H) (p : Property)
    {bound : ℚ} (hpos : 0 ≤ bound) (heases : script.Eases p bound)
    (hbound : spacing script.plan.outputs.lastIndex * bound ≤ 2 ^ 128)
    {t : Timeline H α} {s : Stage H}
    (h : Reaches (build script s₀).1 (build script s₀).2 t s) :
    (s.1.get (t.drivers.get p)).isFinite ∧
      ∀ size : ℚ, (∀ v ∈ script.plan.outputs.values p, |toRat v| ≤ size) →
        size * (spacing script.plan.outputs.lastIndex * (bound + 7)) ≤ 2 ^ 126 →
        ∃ shown, (t.style s.1).get? p = some shown ∧ shown.value.isFinite := by
  have hsecluded : Secluded (build script s₀).1.drivers script.plan.steps := by
    refine secluded_of_flatten fun e hmem => ?_
    obtain ⟨c, hc, -⟩ := heases _ hmem
    cases hc
  obtain ⟨hplays, hscript, -⟩ := h.plays (plays_build script s₀ hsecluded)
  obtain rfl : t.script = script := hscript
  obtain ⟨n, hn, hstrays⟩ := hplays.strays heases hpos hbound
  refine ⟨hstrays.finite, fun size hvalues hsize => ⟨_, t.get?_style s.1 p, ?_⟩⟩
  rw [value_sample]
  refine hstrays.isFinite_valueAt hn _ (t.script.size_values p) (fun v hv => ?_) hpos hbound hsize
  exact ⟨(Plan.level_compile t.script.planned).finite p v hv, hvalues v hv⟩

/-- A timeline that fades out, slowly at first, half way through. -/
theorem finite_of_tame_fading :
    ∃ (script : Script (Embedded (Stage Unit) Wait)) (t : Timeline Unit Wait) (s : Stage Unit),
      script.spec.flatten = [.configure (.set .empty .opacity
        { target := .value 0, easing := some .easeIn })] ∧
      script.Eases .opacity 1 ∧
      Reaches (build script (.empty, ())).1 (build script (.empty, ())).2 t s ∧
      t.state = .running ∧ (s.1.get (t.drivers.get .opacity)).isFinite ∧
      ∃ shown, (t.style s.1).get? .opacity = some shown ∧ shown.value.isFinite := by
  let script : Script (Embedded (Stage Unit) Wait) :=
    ⟨{ steps := [.configure (.set .empty .opacity
        { target := .value 0, easing := some .easeIn })] }, {}, _, rfl⟩
  have heases : script.Eases .opacity 1 := by
    intro step hmem
    refine ⟨_, List.mem_singleton.mp hmem, ⟨rfl, ?_⟩, ⟨rfl, ?_⟩⟩
    · rw [show toRat _ = 0 from toRat_zero, abs_zero]
      norm_num
    · rw [show toRat _ = 1 from toRat_one, abs_one]
  have hreaches : Reaches (build script (.empty, ())).1 (build script (.empty, ())).2 _ _ :=
    .call (.update (ofCount 150)) (.call .start .refl)
  have hspacing : spacing script.plan.outputs.lastIndex = 1 := if_pos (by decide +kernel)
  have hvalues : ∀ v ∈ script.plan.outputs.values .opacity, |toRat v| ≤ 1 := by
    intro v hv
    have hpair : v = 1 ∨ v = 0 := by simpa using (show v ∈ #[1, 0] from hv)
    rcases hpair with rfl | rfl
    · rw [toRat_one, abs_one]
    · rw [toRat_zero, abs_zero]
      norm_num
  obtain ⟨hdriver, hstyle⟩ := finite_of_tame script (.empty, ()) .opacity
    zero_le_one heases (by rw [hspacing]; norm_num) hreaches
  exact ⟨script, _, _, rfl, heases, hreaches, by decide +kernel, hdriver,
    hstyle 1 hvalues (by rw [hspacing]; norm_num)⟩

/-- Documents may lead a driver, or a style, to what is not finite: by a control point that
is beyond the range of binary32, or by neighbouring values whose difference is. -/
theorem loaded_not_finite :
    let play (text : String) : Except TimelineError (Timeline Unit Wait × Stage Unit) := do
      let script ← Script.ofSpec {} (← Document.ofText {} text)
      let built := build script (.empty, ())
      return (Animation.run [.start, .update 0] built.1 built.2).2
    let curved := "\x7b\"steps\":[\x7b\"opacity\":\x7b\"to\":0," ++
      "\"easing\":\x7b\"cubicBezier\":[0,1e39,1,1]\x7d\x7d\x7d]\x7d"
    let slid := "\x7b\"initialValues\":\x7b\"translateX\":3e38\x7d," ++
      "\"steps\":[\x7b\"translateX\":\x7b\"to\":-3e38\x7d\x7d]\x7d"
    (∃ t s, play curved = .ok (t, s) ∧ ¬ (s.1.get (t.drivers.get .opacity)).isFinite) ∧
      ∃ t s shown, play slid = .ok (t, s) ∧ (t.style s.1).get? .translateX = some shown ∧
        ¬ shown.value.isFinite := by
  intro play curved slid
  have hcurved : (match play curved with
      | .ok (t, s) => !(s.1.get (t.drivers.get .opacity)).isFinite
      | .error _ => false) = true := by decide +kernel
  have hslid : (match play slid with
      | .ok (t, s) => !((t.interpolation .translateX).sample s.1).value.isFinite
      | .error _ => false) = true := by decide +kernel
  constructor
  · split at hcurved
    · next t s hplay => exact ⟨t, s, hplay, by simpa using hcurved⟩
    · cases hcurved
  · split at hslid
    · next t s hplay =>
      exact ⟨t, s, _, hplay, t.get?_style s.1 .translateX, by simpa using hslid⟩
    · cases hslid

end Timeline

end Storyboard
