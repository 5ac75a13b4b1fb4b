import Mathlib.Logic.Function.Iterate
import Storyboard.Proofs.Numeric.Curves
import Storyboard.Proofs.Numeric.Lines

/-! # Bisection

A curve begins at 0 and ends at 1, exactly. In between, the parameter for a time is sought in an
interval whose first end is at most as late as that time, and whose last end is at least as late.
Every halving keeps such an interval, also if the curve goes back and forth in time: what counts is
the time at the parameter that becomes an end, and not that the curve is monotone.
-/

namespace Storyboard

open Float.Model (UnpackedFloat)

/-! ## Sums and products of whole numbers -/

namespace IsWhole

variable {x y : Float32} {m n : ℕ}

theorem one : IsWhole 1 1 := ⟨rfl, by rw [toRat_one, Nat.cast_one]⟩

theorem three : IsWhole 3 3 := ⟨rfl, by rw [toRat_three, Nat.cast_ofNat]⟩

/-- A whole number that is rounded from a small one is that number. -/
theorem of_rounds (h : Rounds x n) (hn : n ≤ 2 ^ 24) : IsWhole x n := by
  obtain ⟨hfinite, hvalue⟩ := h.exact (nearest_natCast hn) (abs_natCast_lt (by omega))
  exact ⟨hfinite, hvalue⟩

theorem add (hx : IsWhole x m) (hy : IsWhole y n) (h : m + n ≤ 2 ^ 24 := by norm_num) :
    IsWhole (x + y) (m + n) := by
  have hrounds := add_rounds hx.finite hy.finite
  rw [hx.value, hy.value, ← Nat.cast_add] at hrounds
  exact of_rounds hrounds h

theorem sub (hx : IsWhole x m) (hy : IsWhole y n) (hle : n ≤ m := by norm_num)
    (h : m ≤ 2 ^ 24 := by norm_num) : IsWhole (x - y) (m - n) := by
  have hrounds := sub_rounds hx.finite hy.finite
  rw [hx.value, hy.value, ← Nat.cast_sub hle] at hrounds
  exact of_rounds hrounds (by omega)

theorem mul (hx : IsWhole x m) (hy : IsWhole y n) (h : m * n ≤ 2 ^ 24 := by norm_num) :
    IsWhole (x * y) (m * n) := by
  have hrounds := mul_rounds hx.finite hy.finite
  rw [hx.value, hy.value, ← Nat.cast_mul] at hrounds
  exact of_rounds hrounds h

/-- Nothing of any finite number is nothing. -/
theorem zero_times (hx : IsWhole x 0) (hy : y.isFinite) : IsWhole (x * y) 0 := by
  have hrounds := mul_rounds hx.finite hy
  rw [hx.value, Nat.cast_zero, zero_mul, ← Nat.cast_zero] at hrounds
  exact of_rounds hrounds (by norm_num)

theorem beq_ofCount (hx : IsWhole x n) (hn : n ≤ 2 ^ 24) : (x == ofCount n) = true := by
  have hcount := ofCount_isWhole hn
  rw [beq_iff_toRat_eq hx.finite hcount.finite, hx.value, hcount.value]

end IsWhole

/-! ## The ends of a curve -/

/-- At parameter 0 a curve is at 0, and at parameter 1 it is at 1. -/
theorem cubic_isWhole {p₁ p₂ t : Float32} {n : ℕ} (h₁ : p₁.isFinite) (h₂ : p₂.isFinite)
    (ht : IsWhole t n) (hn : n ≤ 1) : IsWhole (cubic 0 p₁ p₂ 1 t) n := by
  unfold cubic
  dsimp only
  obtain rfl | rfl : n = 0 ∨ n = 1 := by omega
  all_goals
    have hu := IsWhole.one.sub ht
    have hstart := ((hu.mul hu).mul hu).mul IsWhole.zero
    have hfirst := (((IsWhole.three.mul hu).mul hu).mul ht).zero_times h₁
    have hsecond := (((IsWhole.three.mul hu).mul ht).mul ht).zero_times h₂
    have hend := ((ht.mul ht).mul ht).mul IsWhole.one
    exact ((hstart.add hfirst).add hsecond).add hend

theorem isNaN_iff_parts {x : Float32} : x.isNaN = true ↔ parts x = .notANumber := by
  change (parts x).isNaN = true ↔ _
  cases parts x with
  | notANumber => exact ⟨fun _ => rfl, fun _ => rfl⟩
  | infinity s | zero s | finite s m e hm => exact ⟨nofun, nofun⟩

theorem isNaN_add {x y : Float32} (h : x.isNaN = true ∨ y.isNaN = true) : (x + y).isNaN = true := by
  rw [isNaN_iff_parts, isNaN_iff_parts] at h
  rw [isNaN_iff_parts]
  rcases h with hx | hy
  · have hsum : UnpackedFloat.add .binary32 .notANumber (parts y) = .notANumber := by
      cases parts y <;> rfl
    change (Float32.Model.pack (UnpackedFloat.add .binary32 (parts x) (parts y))).unpack = _
    rw [hx, hsum]
    rfl
  · exact add_nan x hy

/-- A curve without a finite control point in time is not defined at its beginning. -/
theorem isFinite_of_timeAt_zero {c : ControlPoints} (h : (c.timeAt 0).isNaN = false) :
    c.x₁.isFinite = true ∧ c.x₂.isFinite = true := by
  have hnan : ∀ p : Float32, ¬ p.isFinite = true → (0 * p).isNaN = true := by
    intro p hp
    rw [isNaN_iff_parts, mul_comm_number]
    exact mul_zero_nan hp
  have hterms : c.timeAt 0 = 0 + 0 * c.x₁ + 0 * c.x₂ + 0 := rfl
  rw [hterms] at h
  constructor
  · by_contra hfirst
    rw [isNaN_add (.inl (isNaN_add (.inl (isNaN_add (.inr (hnan _ hfirst))))))] at h
    cases h
  · by_contra hsecond
    rw [isNaN_add (.inl (isNaN_add (.inr (hnan _ hsecond))))] at h
    cases h

/-! ## Times before 0 and after 1 -/

theorem not_lt_of_le {x y : Float32} (h : x ≤ y) : ¬ y < x :=
  (not_lt_iff (isNaN_of_le h).2).mpr (.inr h)

theorem le_of_lt_number {x y : Float32} (h : x < y) : x ≤ y := by
  change decide (((parts x).compare (parts y) == some .lt) = true) = true at h
  change decide (((parts x).compare (parts y)).any (·.isLE) = true) = true
  have hless : (parts x).compare (parts y) = some .lt := by simpa using h
  rw [hless]
  rfl

theorem inUnit_of_le {x : Float32} (hzero : 0 ≤ x) (hone : x ≤ 1) : InUnit x := by
  obtain ⟨hfinite, hnonneg, hle⟩ := finite_of_le hzero hone rfl
  exact ⟨hfinite, hnonneg, toRat_one ▸ hle⟩

theorem clampUnit_of_le {x : Float32} (hzero : 0 ≤ x) (hone : x ≤ 1) : clampUnit x = x := by
  unfold clampUnit
  rw [if_neg (not_lt_of_le hzero), if_neg (not_lt_of_le hone)]

theorem clampUnit_start {x : Float32} (h : x ≤ 0) : IsWhole (clampUnit x) 0 := by
  unfold clampUnit
  split
  · exact .zero
  · next hlow =>
    rw [if_neg (not_lt_of_le (le_trans_number h (by decide)))]
    have hzero := ((not_lt_iff (isNaN_of_le h).1).mp hlow).resolve_left (by decide)
    obtain ⟨hfinite, hnonneg, hle⟩ := finite_of_le hzero h rfl
    exact ⟨hfinite, (le_antisymm hle hnonneg).trans Nat.cast_zero.symm⟩

theorem clampUnit_end {x : Float32} (h : 1 ≤ x) : IsWhole (clampUnit x) 1 := by
  unfold clampUnit
  have hzero : (0 : Float32) ≤ x := le_trans_number (by decide) h
  rw [if_neg (not_lt_of_le hzero)]
  split
  · exact .one
  · next hhigh =>
    have hone := ((not_lt_iff rfl).mp hhigh).resolve_left fun hnan => by
      rw [(isNaN_of_le h).2] at hnan
      cases hnan
    obtain ⟨hfinite, -, hle⟩ := finite_of_le hzero hone rfl
    have hge := (le_iff_toRat_le rfl hfinite).mp h
    rw [toRat_one] at hle hge
    exact ⟨hfinite, (le_antisymm hle hge).trans Nat.cast_one.symm⟩

namespace Bracket

variable {c : ControlPoints} {t : Float32}

/-- A try that gives exactly the wanted time hits. -/
theorem hits_of_isWhole {b : Bracket} (h : IsWhole (c.timeAt b.probe - t) 0) : b.Hits c t := by
  have hzero : ∃ s, parts (c.timeAt b.probe - t) = .zero s := by
    rcases parts_of_isFinite h.finite with hzero | ⟨s, m, e, hm, hparts⟩
    · exact hzero
    · exact absurd (h.value.trans Nat.cast_zero) (toRat_ne_zero_of_parts hparts)
  obtain ⟨s, hs⟩ := hzero
  unfold Hits
  rw [← ofModel_pack_parts (c.timeAt b.probe - t), hs]
  cases s <;> decide

theorem search_of_hits {b : Bracket} (h : b.Hits c t) (steps : ℕ) : search c t steps b = b := by
  cases steps with
  | zero => rfl
  | succ steps => exact if_pos h

end Bracket

/-- At a time that counts as 0 or 1 a curve is at 0 or 1. -/
theorem ControlPoints.ease_isWhole {c : ControlPoints} (hx₁ : c.x₁.isFinite) (hy₁ : c.y₁.isFinite)
    (hx₂ : c.x₂.isFinite) (hy₂ : c.y₂.isFinite) {time : Float32} {n : ℕ}
    (h : IsWhole (clampUnit time) n) (hn : n ≤ 1) : IsWhole (c.ease time) n := by
  unfold ControlPoints.ease
  dsimp only
  split
  · exact h
  · have htime : IsWhole (c.timeAt (clampUnit time)) n := cubic_isWhole hx₁ hx₂ h hn
    have hdifference := htime.sub h le_rfl (by omega)
    rw [Nat.sub_self] at hdifference
    have hhits : (Bracket.initial (clampUnit time)).Hits c (clampUnit time) :=
      Bracket.hits_of_isWhole hdifference
    rw [Bracket.search_of_hits hhits]
    exact cubic_isWhole hy₁ hy₂ h hn

/-! ## Halving an interval -/

/-- The middle of two numbers is not outside of them, although it is rounded. -/
theorem InUnit.le_middle {x y : Float32} (hx : InUnit x) (hy : InUnit y) (hxy : x ≤ y) :
    x ≤ 0.5 * (x + y) ∧ 0.5 * (x + y) ≤ y := by
  have hle := (le_iff_toRat_le hx.finite hy.finite).mp hxy
  have hsum := add_rounds hx.finite hy.finite
  have hlow : 2 * toRat x ≤ nearest (toRat x + toRat y) := by
    rw [← nearest_double hx.nonneg]
    exact nearest_mono (by linarith)
  have hhigh : nearest (toRat x + toRat y) ≤ 2 * toRat y := by
    rw [← nearest_double hy.nonneg]
    exact nearest_mono (by linarith)
  have hnonneg := hx.nonneg
  have hone := hy.le_one
  obtain ⟨hfinite, hvalue⟩ := hsum.finite (by
    rw [abs_of_nonneg (by linarith)]
    norm_num
    linarith)
  have hhalf := mul_rounds (x := 0.5) rfl hfinite
  rw [toRat_half, hvalue] at hhalf
  obtain ⟨hmiddle, hmiddlev, -, hbelow⟩ := hhalf.value_of_le (y := y) (by linarith) (by linarith)
  have habove := toRat_le_nearest (x := x) hnonneg
    (q := 1 / 2 * nearest (toRat x + toRat y)) (by linarith)
  rw [← hmiddlev] at habove
  exact ⟨(le_iff_toRat_le hx.finite hmiddle).mpr habove,
    (le_iff_toRat_le hmiddle hy.finite).mpr hbelow⟩

/-- At a parameter from 0 to 1 the time on a curve is finite, whatever its control points are. -/
theorem InUnit.timeAt {c : ControlPoints} (hx₁ : c.x₁.isFinite) (hx₂ : c.x₂.isFinite)
    {p : Float32} (hp : InUnit p) : (c.timeAt p).isFinite := by
  have hway := hp.way (c := ⟨c.y₁, c.x₁, c.y₂, c.x₂⟩) (bounded_of_isFinite hx₁)
    (bounded_of_isFinite hx₂) le_rfl
  exact hway.finite

namespace Bracket

/-- An interval from 0 to 1 with a try in it, such that the time `t` does not come before the time
at the first end, nor after the time at the last end. -/
structure Encloses (c : ControlPoints) (t : Float32) (b : Bracket) : Prop where
  zero_le_low : 0 ≤ b.low
  low_le_probe : b.low ≤ b.probe
  probe_le_high : b.probe ≤ b.high
  high_le_one : b.high ≤ 1
  timeAt_low : c.timeAt b.low ≤ t
  le_timeAt_high : t ≤ c.timeAt b.high

variable {c : ControlPoints} {t : Float32}

namespace Encloses

variable {b : Bracket}

theorem zero_le_probe (h : b.Encloses c t) : 0 ≤ b.probe :=
  le_trans_number h.zero_le_low h.low_le_probe

theorem probe_le_one (h : b.Encloses c t) : b.probe ≤ 1 :=
  le_trans_number h.probe_le_high h.high_le_one

theorem inUnit (h : b.Encloses c t) : b.InUnit where
  low := inUnit_of_le h.zero_le_low (le_trans_number h.low_le_probe h.probe_le_one)
  high := inUnit_of_le (le_trans_number h.zero_le_probe h.probe_le_high) h.high_le_one
  probe := inUnit_of_le h.zero_le_probe h.probe_le_one

/-- The time at the try decides which end it becomes, and the other end stays. -/
theorem next (hx₁ : c.x₁.isFinite) (hx₂ : c.x₂.isFinite) (h : b.Encloses c t) :
    (b.next c t).Encloses c t := by
  have htime := h.inUnit.probe.timeAt hx₁ hx₂
  unfold Bracket.next
  split
  · next hbefore =>
    obtain ⟨hlow, hhigh⟩ := h.inUnit.probe.le_middle h.inUnit.high h.probe_le_high
    exact ⟨h.zero_le_probe, hlow, hhigh, h.high_le_one, le_of_lt_number hbefore, h.le_timeAt_high⟩
  · next hafter =>
    obtain ⟨hlow, hhigh⟩ := h.inUnit.low.le_middle h.inUnit.probe h.low_le_probe
    have hreached := ((not_lt_iff (isNaN_of_isFinite htime)).mp hafter).resolve_left fun hnan => by
      rw [(isNaN_of_le h.timeAt_low).2] at hnan
      cases hnan
    exact ⟨h.zero_le_low, hlow, hhigh, h.probe_le_one, h.timeAt_low, hreached⟩

/-- The search begins with the whole curve. -/
theorem initial (hx₁ : c.x₁.isFinite) (hx₂ : c.x₂.isFinite) (hzero : 0 ≤ t) (hone : t ≤ 1) :
    (Bracket.initial t).Encloses c t := by
  have hstart : IsWhole (c.timeAt 0) 0 := cubic_isWhole hx₁ hx₂ .zero (by norm_num)
  have hend : IsWhole (c.timeAt 1) 1 := cubic_isWhole hx₁ hx₂ .one (by norm_num)
  have ht := inUnit_of_le hzero hone
  refine ⟨le_refl_number (x := 0) rfl, hzero, hone, le_refl_number (x := 1) rfl, ?_, ?_⟩
  · apply (le_iff_toRat_le hstart.finite ht.finite).mpr
    rw [hstart.value, Nat.cast_zero]
    exact ht.nonneg
  · apply (le_iff_toRat_le ht.finite hend.finite).mpr
    rw [hend.value, Nat.cast_one]
    exact ht.le_one

end Encloses

/-- The interval and the try after some halvings. -/
def halved (c : ControlPoints) (t : Float32) (count : ℕ) : Bracket :=
  (Bracket.next c t)^[count] (.initial t)

theorem halved_succ (count : ℕ) : halved c t (count + 1) = (halved c t count).next c t :=
  Function.iterate_succ_apply' _ _ _

theorem encloses_halved (hx₁ : c.x₁.isFinite) (hx₂ : c.x₂.isFinite) (hzero : 0 ≤ t) (hone : t ≤ 1)
    (count : ℕ) : (halved c t count).Encloses c t := by
  induction count with
  | zero => exact .initial hx₁ hx₂ hzero hone
  | succ count ih =>
      rw [halved_succ]
      exact ih.next hx₁ hx₂

/-- After a halving the middle is tried. -/
theorem probe_next (b : Bracket) :
    (b.next c t).probe = 0.5 * ((b.next c t).low + (b.next c t).high) := by
  unfold Bracket.next
  split <;> rfl

/-- The search ends with the first try that hits, or when all halvings are done. -/
theorem exists_search_eq_halved (steps done : ℕ) (h : ∀ j < done, ¬ (halved c t j).Hits c t) :
    ∃ k ≤ done + steps, search c t steps (halved c t done) = halved c t k ∧
      (∀ j < k, ¬ (halved c t j).Hits c t) ∧ ((halved c t k).Hits c t ∨ k = done + steps) := by
  induction steps generalizing done with
  | zero => exact ⟨done, le_rfl, rfl, h, .inr rfl⟩
  | succ steps ih =>
      by_cases hhits : (halved c t done).Hits c t
      · exact ⟨done, Nat.le_add_right _ _, search_of_hits hhits _, h, .inl hhits⟩
      · have hmisses : ∀ j < done + 1, ¬ (halved c t j).Hits c t := by
          intro j hj
          rcases Nat.lt_succ_iff_lt_or_eq.mp hj with hlt | rfl
          · exact h j hlt
          · exact hhits
        obtain ⟨k, hle, heq, hbefore, hend⟩ := ih (done + 1) hmisses
        have hsearch : search c t (steps + 1) (halved c t done) =
            search c t steps (halved c t (done + 1)) := by
          rw [halved_succ]
          exact if_neg hhits
        refine ⟨k, by omega, hsearch.trans heq, hbefore, hend.imp id fun h => by omega⟩

end Bracket

/-! ## Curves -/

/-- On the curve no try of a search for `t` has the time NaN, and no end of its intervals has. The
search itself looks at the tries only. It is through the ends alone that infinite abscissas are
excluded: they make the time NaN at 0, where the first interval begins. -/
def ControlPoints.Defined (c : ControlPoints) (t : Float32) : Prop :=
  ∀ count ≤ bisectionSteps,
    let b := Bracket.halved c t count
    (c.timeAt b.low).isNaN = false ∧ (c.timeAt b.probe).isNaN = false ∧
      (c.timeAt b.high).isNaN = false

theorem ControlPoints.defined_iff {c : ControlPoints} {t : Float32} (hzero : 0 ≤ t) (hone : t ≤ 1) :
    c.Defined t ↔ c.x₁.isFinite ∧ c.x₂.isFinite := by
  constructor
  · intro h
    obtain ⟨hstart, -⟩ := h 0 (Nat.zero_le _)
    exact isFinite_of_timeAt_zero hstart
  · rintro ⟨hx₁, hx₂⟩ count -
    have hunit := (Bracket.encloses_halved hx₁ hx₂ hzero hone count).inUnit
    exact ⟨isNaN_of_isFinite (hunit.low.timeAt hx₁ hx₂),
      isNaN_of_isFinite (hunit.probe.timeAt hx₁ hx₂),
      isNaN_of_isFinite (hunit.high.timeAt hx₁ hx₂)⟩

namespace Easing

/-- A curve with finite control points is at 0 up to time 0, and at 1 from time 1 on. For a time
from 0 to 1 the tries of the search for its parameter and the ends of the intervals have no NaN for
their times exactly if the abscissas of the control points are finite, and then, after any number
of halvings, the interval and its try are in order, lie between 0 and 1, and enclose the time. The
result is the way at such a try: the first one whose time is near enough, or after all halvings the
middle of the interval that is left. Only the diagonal is not searched, and yields the time
itself. -/
theorem ends_met_and_time_enclosed (c : ControlPoints) :
    (c.x₁.isFinite → c.y₁.isFinite → c.x₂.isFinite → c.y₂.isFinite → ∀ t : Float32,
      (t ≤ 0 → ((cubicBezier c).apply t == 0) = true) ∧
      (1 ≤ t → (cubicBezier c).apply t = 1)) ∧
    ∀ t : Float32, 0 ≤ t → t ≤ 1 →
      (c.Defined t ↔ c.x₁.isFinite ∧ c.x₂.isFinite) ∧
      (c.Defined t →
        (∀ count, (Bracket.halved c t count).Encloses c t) ∧
        (c.isDiagonal → (cubicBezier c).apply t = t) ∧
        (¬ c.isDiagonal → ∃ k ≤ bisectionSteps,
          let b := Bracket.halved c t k
          (cubicBezier c).apply t = c.wayAt b.probe ∧ 0 ≤ b.probe ∧ b.probe ≤ 1 ∧
            (∀ j < k, ¬ (Bracket.halved c t j).Hits c t) ∧
            ((c.timeAt b.probe - t).abs < 1e-6 ∨
              (k = bisectionSteps ∧ b.probe = 0.5 * (b.low + b.high))))) := by
  refine ⟨fun hx₁ hy₁ hx₂ hy₂ t => ⟨fun ht => ?_, fun ht => ?_⟩, fun t hzero hone => ?_⟩
  · have hway := c.ease_isWhole hx₁ hy₁ hx₂ hy₂ (clampUnit_start ht) (by norm_num)
    exact hway.beq_ofCount (by norm_num)
  · have hway := c.ease_isWhole hx₁ hy₁ hx₂ hy₂ (clampUnit_end ht) le_rfl
    exact hway.eq_ofCount (by norm_num) (by norm_num)
  refine ⟨ControlPoints.defined_iff hzero hone, fun hdefined => ?_⟩
  obtain ⟨hx₁, hx₂⟩ := (ControlPoints.defined_iff hzero hone).mp hdefined
  have hencloses := Bracket.encloses_halved hx₁ hx₂ hzero hone
  have happly : (cubicBezier c).apply t =
      if c.isDiagonal then t
      else c.wayAt (Bracket.search c t bisectionSteps (.initial t)).probe := by
    change c.ease t = _
    unfold ControlPoints.ease
    rw [clampUnit_of_le hzero hone]
  refine ⟨hencloses, fun hdiagonal => happly.trans (if_pos hdiagonal), fun hdiagonal => ?_⟩
  obtain ⟨k, hk, hsearch, hbefore, hend⟩ :=
    Bracket.exists_search_eq_halved (c := c) (t := t) bisectionSteps 0 nofun
  rw [Nat.zero_add] at hk hend
  refine ⟨k, hk, ?_, (hencloses k).zero_le_probe, (hencloses k).probe_le_one, hbefore, ?_⟩
  · rw [happly, if_neg hdiagonal, ← hsearch]
    rfl
  · refine hend.imp id fun hall => ⟨hall, ?_⟩
    subst hall
    exact Bracket.probe_next (Bracket.halved c t 23)

/-- A curve that goes back in time, at the time of one quarter. -/
theorem ends_met_and_time_enclosed_back :
    let c : ControlPoints := ⟨3, 0, -2, 1⟩
    (c.x₁.isFinite ∧ c.y₁.isFinite ∧ c.x₂.isFinite ∧ c.y₂.isFinite) ∧
      ((-1 : Float32) ≤ 0 ∧ ((cubicBezier c).apply (-1) == 0) = true) ∧
      ((1 : Float32) ≤ 2 ∧ (cubicBezier c).apply 2 = 1) ∧
      ((0 : Float32) ≤ 0.25 ∧ (0.25 : Float32) ≤ 1 ∧ c.Defined 0.25) ∧
      ∃ k ≤ bisectionSteps, (Bracket.halved c 0.25 k).Encloses c 0.25 ∧
        (cubicBezier c).apply 0.25 = c.wayAt (Bracket.halved c 0.25 k).probe := by
  intro c
  have hfinite : c.x₁.isFinite ∧ c.y₁.isFinite ∧ c.x₂.isFinite ∧ c.y₂.isFinite := by decide
  obtain ⟨hx₁, hy₁, hx₂, hy₂⟩ := hfinite
  have hbefore : (-1 : Float32) ≤ 0 := by decide
  have hafter : (1 : Float32) ≤ 2 := by decide
  have hzero : (0 : Float32) ≤ 0.25 := by decide
  have hone : (0.25 : Float32) ≤ 1 := by decide
  obtain ⟨hends, hbetween⟩ := ends_met_and_time_enclosed c
  obtain ⟨hdefined, hsearch⟩ := hbetween 0.25 hzero hone
  obtain ⟨hencloses, -, hcurve⟩ := hsearch (hdefined.mpr ⟨hx₁, hx₂⟩)
  obtain ⟨k, hk, hway, -⟩ := hcurve (by decide)
  exact ⟨⟨hx₁, hy₁, hx₂, hy₂⟩, ⟨hbefore, (hends hx₁ hy₁ hx₂ hy₂ (-1)).1 hbefore⟩,
    ⟨hafter, (hends hx₁ hy₁ hx₂ hy₂ 2).2 hafter⟩, ⟨hzero, hone, hdefined.mpr ⟨hx₁, hx₂⟩⟩,
    k, hk, hencloses k, hway⟩

end Easing

end Storyboard
