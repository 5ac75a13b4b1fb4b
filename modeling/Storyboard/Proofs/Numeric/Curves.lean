import Storyboard.Easing
import Storyboard.Proofs.Numeric.Bounds

/-! # How far curves lead

The bisection tries parameters from 0 to 1 only, whatever the abscissas of a curve are. There
a curve is bounded by its ordinates, and finite if these are.
-/

namespace Storyboard

/-! ## Numbers from 0 to 1 -/

/-- A number from 0 to 1. -/
structure InUnit (x : Float32) : Prop where
  finite : x.isFinite
  nonneg : 0 ≤ toRat x
  le_one : toRat x ≤ 1

theorem Rounds.inUnit {z : Float32} {q : ℚ} (h : Rounds z q) (hq : 0 ≤ q) (hle : q ≤ 1) :
    InUnit z := by
  have habs : |q| ≤ 2 ^ 0 := by rwa [abs_of_nonneg hq, pow_zero]
  obtain ⟨hfinite, hbound⟩ := h.bounded_two_pow habs (by norm_num)
  rw [pow_zero] at hbound
  exact ⟨hfinite, h.nonneg hfinite hq, (abs_le.mp hbound).2⟩

theorem toRat_half : toRat 0.5 = 1 / 2 := by
  change signed .positive ((2 ^ 23 : ℕ) * 2 ^ (-24 : ℤ)) = 1 / 2
  norm_num [signed]

theorem toRat_three : toRat 3 = 3 := by
  change signed .positive ((3 * 2 ^ 22 : ℕ) * 2 ^ (-22 : ℤ)) = 3
  norm_num [signed]

namespace InUnit

variable {x y : Float32}

theorem zero : InUnit 0 := ⟨rfl, by rw [toRat_zero], by rw [toRat_zero]; norm_num⟩

theorem one : InUnit 1 := ⟨rfl, by rw [toRat_one]; norm_num, by rw [toRat_one]⟩

theorem bounded (hx : InUnit x) : Bounded x (toRat x) :=
  ⟨hx.finite, (abs_of_nonneg hx.nonneg).le⟩

theorem mul (hx : InUnit x) (hy : InUnit y) : InUnit (x * y) :=
  (mul_rounds hx.finite hy.finite).inUnit (mul_nonneg hx.nonneg hy.nonneg)
    (mul_le_one₀ hx.le_one hy.nonneg hy.le_one)

theorem one_sub (hx : InUnit x) : InUnit (1 - x) := by
  have hrounds := sub_rounds (x := 1) rfl hx.finite
  rw [toRat_one] at hrounds
  exact hrounds.inUnit (by linarith [hx.le_one]) (by linarith [hx.nonneg])

/-- The middle of two numbers is computed from a sum of at most 2. -/
theorem middle (hx : InUnit x) (hy : InUnit y) : InUnit (0.5 * (x + y)) := by
  have hsum := add_rounds hx.finite hy.finite
  have hnonneg : 0 ≤ toRat x + toRat y := add_nonneg hx.nonneg hy.nonneg
  have habs : |toRat x + toRat y| ≤ 2 ^ 1 := by
    rw [abs_of_nonneg hnonneg]
    linarith [hx.le_one, hy.le_one]
  obtain ⟨hfinite, hbound⟩ := hsum.bounded_two_pow habs (by norm_num)
  have hlow := hsum.nonneg hfinite hnonneg
  have hhigh := (abs_le.mp hbound).2
  have hrounds := mul_rounds (x := 0.5) rfl hfinite
  rw [toRat_half] at hrounds
  exact hrounds.inUnit (by linarith) (by linarith)

theorem clampUnit (hx : x.isFinite) : InUnit (Storyboard.clampUnit x) := by
  unfold Storyboard.clampUnit
  split
  · exact zero
  · next hlow =>
    split
    · exact one
    · next hhigh =>
      rw [lt_iff_toRat_lt hx rfl, toRat_zero, not_lt] at hlow
      rw [lt_iff_toRat_lt rfl hx, toRat_one, not_lt] at hhigh
      exact ⟨hx, hlow, hhigh⟩

/-- The fraction of a time that has passed. -/
theorem div (hx : 0 ≤ x) (hlt : x < y) (hy : y.isFinite) : InUnit (x / y) := by
  obtain ⟨hfinite, hnonneg, hlt⟩ := finite_of_lt hx hlt hy
  have hpos : 0 < toRat y := hnonneg.trans_lt hlt
  exact (div_rounds hfinite hpos.ne').inUnit (div_nonneg hnonneg hpos.le)
    ((div_le_one hpos).mpr hlt.le)

end InUnit

/-! ## Bisection -/

/-- All parameters of a bisection are from 0 to 1. -/
structure Bracket.InUnit (b : Bracket) : Prop where
  low : Storyboard.InUnit b.low
  high : Storyboard.InUnit b.high
  probe : Storyboard.InUnit b.probe

namespace Bracket.InUnit

variable (c : ControlPoints) (t : Float32) {b : Bracket}

theorem next (h : b.InUnit) : (b.next c t).InUnit := by
  unfold Bracket.next
  split
  · exact ⟨h.probe, h.high, h.probe.middle h.high⟩
  · exact ⟨h.low, h.probe, h.low.middle h.probe⟩

theorem search (h : b.InUnit) (steps : ℕ) : (Bracket.search c t steps b).InUnit := by
  induction steps generalizing b with
  | zero => exact h
  | succ steps ih =>
      unfold Bracket.search
      split
      · exact h
      · exact ih (h.next c t)

end Bracket.InUnit

/-! ## The weights of a curve -/

/-- A product of small numbers misses the exact one by little. -/
theorem Bounded.mul_small {x y : Float32} {a b : ℚ} (hx : Bounded x a) (hy : Bounded y b)
    (hab : a * b ≤ 4) : Bounded (x * y) (a * b + 1 / 2 ^ 20) := by
  refine hx.mul hy (hab.trans (by norm_num)) ?_
  norm_num
  linarith

/-- The rest of the parameter, with its error. -/
theorem InUnit.bounded_one_sub {t : Float32} (ht : InUnit t) :
    Bounded (1 - t) (1 - toRat t + 1 / 2 ^ 20) := by
  have hrounds := sub_rounds (x := 1) rfl ht.finite
  have hle := ht.le_one
  have hnonneg := ht.nonneg
  rw [toRat_one] at hrounds
  refine hrounds.bounded (abs_of_nonneg (by linarith)).le ?_ ?_
  · norm_num
    linarith
  · norm_num
    linarith

theorem bounded_three : Bounded 3 3 :=
  ⟨rfl, by rw [toRat_three]; norm_num⟩

/-- A weight is 4/9 at most, and the errors of its factors add little. -/
theorem weight_le {p : ℚ} (hp : 0 ≤ p) (hp' : p ≤ 1) {δ : ℚ} (hδ : 0 ≤ δ) (hδ' : δ ≤ 1 / 2 ^ 20) :
    ((3 * (1 - p + δ) + δ) * (1 - p + δ) + δ) * p + δ ≤ 29 / 64 ∧
      ((3 * (1 - p + δ) + δ) * p + δ) * p + δ ≤ 29 / 64 := by
  have hfirst : 3 * (1 - p) ^ 2 * p ≤ 4 / 9 := by
    have hsquare := mul_nonneg (sq_nonneg (p - 1 / 3)) (by linarith : 0 ≤ 4 - 3 * p)
    linarith
  have hsecond : 3 * (1 - p) * p ^ 2 ≤ 4 / 9 := by
    have hsquare := mul_nonneg (sq_nonneg (p - 2 / 3)) (by linarith : 0 ≤ 1 + 3 * p)
    linarith
  have hproduct : (1 - p) * p ≤ 1 := mul_le_one₀ (by linarith) hp hp'
  have hsquare : p * p ≤ 1 := mul_le_one₀ hp' hp hp'
  have hsmall : δ * p ≤ 1 := mul_le_one₀ (hδ'.trans (by norm_num)) hp hp'
  norm_num at hδ'
  constructor
  · have hrest : δ * (7 * ((1 - p) * p) + 4 * (δ * p) + p + 1) ≤ δ * 13 :=
      mul_le_mul_of_nonneg_left (by linarith) hδ
    linarith
  · have hrest : δ * (4 * (p * p) + p + 1) ≤ δ * 6 :=
      mul_le_mul_of_nonneg_left (by linarith) hδ
    linarith

variable {t : Float32}

/-- A weight is a product of the parameter, of its rest, and of one of both. -/
theorem InUnit.bounded_weight (ht : InUnit t) {x : Float32} {a : ℚ} (hx : Bounded x a)
    (ha : a ≤ 1 + 1 / 2 ^ 20)
    (hweight : ((3 * (1 - toRat t + 1 / 2 ^ 20) + 1 / 2 ^ 20) * a + 1 / 2 ^ 20) * toRat t +
      1 / 2 ^ 20 ≤ 29 / 64) :
    Bounded (3 * (1 - t) * x * t) (29 / 64) := by
  have hle := ht.le_one
  have hnonneg := ht.nonneg
  have hpos := (abs_nonneg _).trans hx.le
  norm_num at ha
  have hone := bounded_three.mul_small ht.bounded_one_sub (by norm_num; linarith)
  have htwo := hone.mul_small hx (by norm_num; nlinarith)
  exact (htwo.mul_small ht.bounded (by norm_num at hweight ⊢; linarith)).mono hweight

/-! ## The way -/

variable {c : ControlPoints} {bound : ℚ}

/-- A control point times its weight. -/
theorem Bounded.weighted {w y : Float32} (hw : Bounded w (29 / 64)) (hy : Bounded y bound)
    (hbound : bound ≤ 2 ^ 128) : Bounded (w * y) (465 / 1024 * bound + 1 / 8) := by
  have hpos := (abs_nonneg _).trans hy.le
  refine hw.mul hy ?_ ?_ <;> norm_num at hbound ⊢ <;> linarith

/-- A curve leads at most as far as its control points, or a little more than to its end. -/
theorem InUnit.way (ht : InUnit t) (hy₁ : Bounded c.y₁ bound) (hy₂ : Bounded c.y₂ bound)
    (hbound : bound ≤ 2 ^ 128) : Bounded (c.wayAt t) (15 / 16 * bound + 2) := by
  have hpos := (abs_nonneg _).trans hy₁.le
  have hu := ht.one_sub
  -- the curve begins at 0, and so its first term adds nothing
  have hstart : Bounded ((1 - t) * (1 - t) * (1 - t) * 0) 0 := by
    have hrounds := mul_rounds ((hu.mul hu).mul hu).finite (y := 0) rfl
    rw [toRat_zero, mul_zero] at hrounds
    obtain ⟨hfinite, hzero⟩ := hrounds.exact nearest_zero (by norm_num)
    exact ⟨hfinite, by rw [hzero, abs_zero]⟩
  have hcube := ((ht.mul ht).mul ht).mul .one
  have hend := hcube.bounded.mono hcube.le_one
  obtain ⟨hfirst, hsecond⟩ := weight_le ht.nonneg ht.le_one (by norm_num) le_rfl
  have hfirst := (ht.bounded_weight ht.bounded_one_sub (by linarith [ht.nonneg]) hfirst).weighted
    hy₁ hbound
  have hsecond := (ht.bounded_weight ht.bounded (by linarith [ht.le_one]) hsecond).weighted
    hy₂ hbound
  norm_num at hbound
  have hone := hstart.add hfirst (c := 466 / 1024 * bound + 1 / 4) (by norm_num; linarith)
    (by norm_num; linarith)
  have htwo := hone.add hsecond (c := 932 / 1024 * bound + 1 / 2) (by norm_num; linarith)
    (by norm_num; linarith)
  exact htwo.add hend (by norm_num; linarith) (by norm_num; linarith)

/-! ## Easings -/

/-- The easing is built in, and the ordinates of its control points have a bound. -/
def Easing.Tame (bound : ℚ) : Easing → Prop
  | .linear => True
  | .cubicBezier c => Bounded c.y₁ bound ∧ Bounded c.y₂ bound
  | .custom _ => False

/-- Any curve with finite ordinates is tame, for the largest of all bounds. -/
theorem Easing.tame_cubicBezier_iff :
    (Easing.cubicBezier c).Tame (2 ^ 128) ↔ c.y₁.isFinite ∧ c.y₂.isFinite :=
  ⟨fun h => ⟨h.1.finite, h.2.finite⟩,
    fun h => ⟨bounded_of_isFinite h.1, bounded_of_isFinite h.2⟩⟩

theorem InUnit.ease (ht : InUnit t) (hy₁ : Bounded c.y₁ bound) (hy₂ : Bounded c.y₂ bound)
    (hbound : bound ≤ 2 ^ 128) : Bounded (c.ease t) (15 / 16 * bound + 2) := by
  have hclamp := InUnit.clampUnit ht.finite
  have hpos := (abs_nonneg _).trans hy₁.le
  unfold ControlPoints.ease
  dsimp only
  split
  · exact hclamp.bounded.mono (by linarith [hclamp.le_one])
  · have hsearch := Bracket.InUnit.search c (Storyboard.clampUnit t)
      (b := .initial _) ⟨.zero, .one, hclamp⟩ bisectionSteps
    exact hsearch.probe.way hy₁ hy₂ hbound

/-- At every fraction of the time an easing is finite, and how far it leads has a bound. -/
theorem Easing.Tame.apply {easing : Easing} (h : easing.Tame bound) (hpos : 0 ≤ bound)
    (hbound : bound ≤ 2 ^ 128) (ht : InUnit t) :
    Bounded (easing.apply t) (15 / 16 * bound + 2) := by
  cases easing with
  | linear => exact ht.bounded.mono (by linarith [ht.le_one])
  | cubicBezier c => exact ht.ease h.1 h.2 hbound
  | custom curve => exact h.elim

end Storyboard
