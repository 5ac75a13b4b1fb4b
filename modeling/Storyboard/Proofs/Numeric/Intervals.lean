import Storyboard.Proofs.Numeric.Bounds
import Storyboard.Proofs.Numeric.Shortest

/-! # The interval of a number

A decimal is taken for a number because it lies in the interval around the number. This module
shows that this is right: whatever lies there is rounded to the number, also where the neighbours
of the number are at different distances.
-/

namespace Storyboard

open Float.Model.UnpackedFloat

/-! ## Rounding between two powers of two -/

theorem halfEven_eq {q : ℚ} {n : ℤ} (h : |q - n| ≤ 1 / 2) (hodd : n % 2 = 1 → |q - n| < 1 / 2) :
    halfEven q = n := by
  have htie : |q - n| = 1 / 2 → n % 2 = 0 := by
    intro heq
    have hne : n % 2 ≠ 1 := fun h1 => (hodd h1).ne heq
    omega
  obtain ⟨hlow, hhigh⟩ := abs_le.mp h
  rcases le_or_gt (n : ℚ) q with hge | hlt
  · have hfloor : ⌊q⌋ = n := Int.floor_eq_iff.mpr ⟨hge, by linarith⟩
    have hfract : Int.fract q = q - n := by rw [← Int.self_sub_floor, hfloor]
    rw [abs_of_nonneg (by linarith)] at htie
    unfold halfEven
    rw [hfract, hfloor]
    split_ifs
    · rfl
    · linarith
    · rw [htie (by linarith), add_zero]
  · have hfloor : ⌊q⌋ = n - 1 := by
      rw [Int.floor_eq_iff]
      push_cast
      constructor <;> linarith
    have hfract : Int.fract q = q - n + 1 := by
      rw [← Int.self_sub_floor, hfloor]
      push_cast
      ring
    rw [abs_of_neg (by linarith)] at htie
    unfold halfEven
    rw [hfract, hfloor]
    split_ifs
    · linarith
    · omega
    · have heven := htie (by linarith)
      omega

/-- Between two powers of two the numbers are equally far from each other. -/
theorem nearest_eq_of_binade {k : ℕ} {e : ℤ} {v : ℚ} (hv : 0 < v) (hlt : v < 2 ^ (24 + e))
    (hle : e = -149 ∨ 2 ^ (23 + e) ≤ v) (he : -149 ≤ e) (h : |v - k * 2 ^ e| ≤ 2 ^ e / 2)
    (hodd : k % 2 = 1 → |v - k * 2 ^ e| < 2 ^ e / 2) : nearest v = k * 2 ^ e := by
  have hunit : (0 : ℚ) < 2 ^ e := by positivity
  have hgrid : gridExponent v = e := by
    unfold gridExponent
    rw [abs_of_pos hv]
    have hlog := (Int.lt_zpow_iff_log_lt (b := 2) (by norm_num) hv).mp hlt
    rcases hle with rfl | hle
    · omega
    · have hlog' := (Int.zpow_le_iff_le_log (b := 2) (by norm_num) hv).mp hle
      omega
  have hscaled : v / 2 ^ e - (k : ℤ) = (v - k * 2 ^ e) / 2 ^ e := by
    rw [sub_div, mul_div_cancel_right₀ _ hunit.ne', Int.cast_natCast]
  have hround : halfEven (v / 2 ^ e) = k := by
    apply halfEven_eq
    · rw [hscaled, abs_div, abs_of_pos hunit, div_le_iff₀ hunit]
      linarith
    · intro h1
      rw [hscaled, abs_div, abs_of_pos hunit, div_lt_iff₀ hunit]
      linarith [hodd (by omega)]
  unfold nearest
  rw [hgrid, hround, Int.cast_natCast]

/-- A finite result is the number that the exact one is rounded to. -/
theorem Rounds.nearest_eq {z : Float32} {q : ℚ} (h : Rounds z q) (hz : z.isFinite) :
    nearest q = toRat z := by
  have hinf : ∀ s, parts z ≠ .infinity s := by
    intro s hs
    change (parts z).isFinite = true at hz
    rw [hs] at hz
    cases hz
  refine ((h.finite (abs_lt.mpr ⟨?_, ?_⟩)).2).symm
  · exact not_le.mp fun hle => hinf _ (h.below hle)
  · exact not_le.mp fun hle => hinf _ (h.above hle)

/-! ## The rationals of an interval -/

namespace Magnitude

/-- A number of 24 bits with a neighbour below that is nearer than the one above exactly if it is
a power of two, and not one of the least numbers. -/
structure IsSingle (m : Magnitude) : Prop where
  fits : Fits m.mantissa m.exponent
  most : m.exponent ≤ 104
  closeBelow : m.closeBelow = true ↔ m.mantissa = 2 ^ 23 ∧ -149 < m.exponent

variable {m : Magnitude} {v : ℚ}

theorem low_pos (h : m.IsSingle) : 0 < m.low := by
  have hone : (1 : ℚ) ≤ m.mantissa := by exact_mod_cast h.fits.pos
  unfold low
  apply mul_pos
  · split <;> linarith
  · positivity

theorem IsSingle.lt_binade (hm : m.IsSingle) (h : v ≤ m.high) : v < 2 ^ (24 + m.exponent) := by
  have hunit : (0 : ℚ) < 2 ^ m.exponent := by positivity
  have hmost : (m.mantissa : ℚ) + 1 ≤ 2 ^ 24 := by exact_mod_cast hm.fits.lt
  rw [m.high_eq, value] at h
  calc v < (m.mantissa + 1) * 2 ^ m.exponent := by linarith
    _ ≤ 2 ^ 24 * 2 ^ m.exponent := by gcongr
    _ = 2 ^ (24 + m.exponent) := by
      rw [zpow_add₀ (by norm_num)]
      norm_num

theorem Contains.nearest_eq_of_even_gaps (h : m.Contains v) (hm : m.IsSingle)
    (hclose : m.closeBelow = false) : nearest v = m.value := by
  have hunit : (0 : ℚ) < 2 ^ m.exponent := by positivity
  have hfits := hm.fits
  have hfull : m.exponent = -149 ∨ 2 ^ 23 + 1 ≤ m.mantissa := by
    have hnot := mt hm.closeBelow.mpr (by simp [hclose])
    have hfull := hfits.full
    have hleast := hfits.least
    omega
  obtain ⟨hlow, hhigh⟩ := h.bounds
  have hlt := hm.lt_binade hhigh
  have hpos := (low_pos hm).trans_le hlow
  unfold Contains at h
  rw [low_eq hclose, m.high_eq, value] at h
  rw [low_eq hclose, value] at hlow
  rw [m.high_eq, value] at hhigh
  refine nearest_eq_of_binade hpos hlt ?_ hfits.least (abs_le.mpr ⟨by linarith, by linarith⟩) ?_
  · refine hfull.imp_right fun hfull => ?_
    have hcast : (2 : ℚ) ^ 23 ≤ m.mantissa - 1 := by
      have hle : (2 : ℚ) ^ 23 + 1 ≤ m.mantissa := by exact_mod_cast hfull
      linarith
    calc (2 : ℚ) ^ (23 + m.exponent) = 2 ^ 23 * 2 ^ m.exponent := by
          rw [zpow_add₀ (by norm_num)]
          norm_num
      _ ≤ (m.mantissa - 1) * 2 ^ m.exponent := by gcongr
      _ ≤ v := by linarith
  · intro hodd
    rw [if_neg (by omega)] at h
    exact abs_lt.mpr ⟨by linarith, by linarith⟩

theorem Contains.nearest_eq_of_closeBelow (h : m.Contains v) (hm : m.IsSingle)
    (hclose : m.closeBelow = true) : nearest v = m.value := by
  obtain ⟨hmantissa, hleast⟩ := hm.closeBelow.mp hclose
  obtain ⟨hlow, hhigh⟩ := h.bounds
  have hlt := hm.lt_binade hhigh
  have hpos := (low_pos hm).trans_le hlow
  -- everything is counted in quarters of a unit
  have hquarter : (0 : ℚ) < 2 ^ (m.exponent - 2) := by positivity
  have hvalue : m.value = 2 ^ 25 * 2 ^ (m.exponent - 2) := by
    rw [value_eq, hmantissa]
    norm_num
  have hunit : (2 : ℚ) ^ m.exponent = 4 * 2 ^ (m.exponent - 2) := by
    rw [zpow_sub₀ (by norm_num)]
    ring
  have hhalf : (2 : ℚ) ^ (m.exponent - 1) = 2 * 2 ^ (m.exponent - 2) := by
    rw [← zpow_one_add₀ (by norm_num)]
    congr 1
    ring
  have hpower : m.value = 2 ^ (23 + m.exponent) := by
    rw [zpow_add₀ (by norm_num), hvalue, hunit]
    norm_num
    ring
  rw [m.high_eq, hunit] at hhigh
  rw [low, hclose, if_pos rfl, sub_mul, one_mul, ← value_eq] at hlow
  rcases le_or_gt m.value v with hge | hbelow
  · refine nearest_eq_of_binade hpos hlt (.inr (hpower ▸ hge)) hm.fits.least ?_
      (fun hodd => by omega)
    rw [← value, abs_of_nonneg (by linarith)]
    linarith
  · -- below a power of two the numbers are on the next finer grid
    have hfine : m.value = (2 ^ 24 : ℕ) * 2 ^ (m.exponent - 1) := by
      rw [hvalue, hhalf]
      norm_num
      ring
    rw [hfine]
    refine nearest_eq_of_binade hpos ?_ (.inr ?_) (by omega) ?_ (fun hodd => by omega)
    · rwa [show 24 + (m.exponent - 1) = 23 + m.exponent by ring, ← hpower]
    · rw [show 23 + (m.exponent - 1) = -1 + (23 + m.exponent) by ring,
        zpow_add₀ (by norm_num), ← hpower]
      norm_num
      linarith
    · rw [← hfine, hhalf, abs_of_nonpos (by linarith)]
      linarith

/-- The rationals in the interval of a number are rounded to it. -/
theorem Contains.nearest_eq (h : m.Contains v) (hm : m.IsSingle) : nearest v = m.value := by
  cases hclose : m.closeBelow with
  | false => exact h.nearest_eq_of_even_gaps hm hclose
  | true => exact h.nearest_eq_of_closeBelow hm hclose

end Magnitude

end Storyboard
