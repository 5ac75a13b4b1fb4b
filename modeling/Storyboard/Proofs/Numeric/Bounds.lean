import Mathlib.Tactic.FieldSimp
import Mathlib.Tactic.NormNum
import Storyboard.Proofs.Numeric.Arithmetic

/-! # How far rounding goes

A result that is small enough is finite, and near to the exact one. Powers of two bound a
result that they bound before it is rounded, and so numbers from 0 to 1 stay there.
-/

namespace Storyboard

open Float.Model (Format UnpackedFloat totalExponent)
open Float.Model.UnpackedFloat

/-! ## The error of rounding -/

theorem abs_halfEven_sub_le (q : ℚ) : |(halfEven q : ℚ) - q| ≤ 1 / 2 := by
  have hsplit := Int.self_sub_floor q
  have hnonneg := Int.fract_nonneg q
  have hlt := Int.fract_lt_one q
  unfold halfEven
  split_ifs with hlow hhigh
  · rw [abs_le]
    constructor <;> linarith
  · push_cast
    rw [abs_le]
    constructor <;> linarith
  · -- halfway, one of the neighbours is even
    have hhalf : Int.fract q = 1 / 2 := le_antisymm (not_lt.mp hhigh) (not_lt.mp hlow)
    rcases Int.emod_two_eq_zero_or_one ⌊q⌋ with heven | hodd
    · rw [heven, add_zero, abs_le]
      constructor <;> linarith
    · rw [hodd]
      push_cast
      rw [abs_le]
      constructor <;> linarith

/-- Rounding misses by at most half of a step of the grid. -/
theorem abs_nearest_sub_le_grid (q : ℚ) : |nearest q - q| ≤ 1 / 2 * 2 ^ gridExponent q := by
  have hpow : (0 : ℚ) < 2 ^ gridExponent q := by positivity
  have hscale : nearest q - q =
      (halfEven (q / 2 ^ gridExponent q) - q / 2 ^ gridExponent q) * 2 ^ gridExponent q := by
    unfold nearest
    rw [sub_mul, div_mul_cancel₀ _ hpow.ne']
  rw [hscale, abs_mul, abs_of_pos hpow]
  exact mul_le_mul_of_nonneg_right (abs_halfEven_sub_le _) hpow.le

/-- Rounding misses by at most one part in `2 ^ 24`, or by half of the smallest number. -/
theorem abs_nearest_sub_le (q : ℚ) : |nearest q - q| ≤ |q| / 2 ^ 24 + 1 / 2 ^ 150 := by
  rcases eq_or_ne q 0 with rfl | hne
  · rw [nearest_zero, sub_zero, abs_zero]
    positivity
  have hlog : (2 : ℚ) ^ Int.log 2 |q| ≤ |q| := by
    simpa using Int.zpow_log_le_self (b := 2) (by norm_num) (abs_pos.mpr hne)
  refine (abs_nearest_sub_le_grid q).trans ?_
  unfold gridExponent
  rcases max_choice (Int.log 2 |q| - 23) (-149) with hgrid | hgrid <;> rw [hgrid]
  · rw [zpow_sub₀ (by norm_num)]
    norm_num
    linarith
  · have hq := abs_nonneg q
    norm_num
    linarith

theorem abs_nearest_le_zpow {q : ℚ} {k : ℤ} (hk : -149 ≤ k) (h : |q| ≤ 2 ^ k) :
    |nearest q| ≤ 2 ^ k := by
  rcases eq_or_ne q 0 with rfl | hne
  · rwa [nearest_zero]
  have hgrid : gridExponent q ≤ k := by
    have hlog : Int.log 2 |q| ≤ k := by
      have hle : ((2 : ℕ) : ℚ) ^ Int.log 2 |q| ≤ (2 : ℕ) ^ k :=
        (Int.zpow_log_le_self (by norm_num) (abs_pos.mpr hne)).trans h
      exact (zpow_le_zpow_iff_right₀ (by norm_num)).mp hle
    unfold gridExponent
    omega
  obtain ⟨j, hj⟩ : ∃ j : ℕ, k = gridExponent q + j := ⟨(k - gridExponent q).toNat, by omega⟩
  have hpow : (0 : ℚ) < 2 ^ gridExponent q := by positivity
  have hbound : (2 : ℚ) ^ k = (2 ^ j : ℤ) * 2 ^ gridExponent q := by
    rw [hj, zpow_add₀ (by norm_num), zpow_natCast]
    push_cast
    ring
  rw [hbound] at h ⊢
  obtain ⟨hlow, hhigh⟩ := abs_le.mp h
  rw [← neg_mul, ← le_div_iff₀ hpow, ← Int.cast_neg] at hlow
  rw [← div_le_iff₀ hpow] at hhigh
  have hmantissa : |(halfEven (q / 2 ^ gridExponent q) : ℚ)| ≤ (2 ^ j : ℤ) := by
    exact_mod_cast abs_le.mpr ⟨le_halfEven hlow, halfEven_le hhigh⟩
  unfold nearest
  rw [abs_mul, abs_of_pos hpow]
  exact mul_le_mul_of_nonneg_right hmantissa hpow.le

theorem abs_nearest_le_two_pow {q : ℚ} {k : ℕ} (h : |q| ≤ 2 ^ k) : |nearest q| ≤ 2 ^ k := by
  rw [← zpow_natCast] at h ⊢
  exact abs_nearest_le_zpow (by omega) h

/-- A finite number with a bound. -/
structure Bounded (x : Float32) (bound : ℚ) : Prop where
  finite : x.isFinite
  le : |toRat x| ≤ bound

theorem Bounded.mono {x : Float32} {a b : ℚ} (h : Bounded x a) (hab : a ≤ b) : Bounded x b :=
  ⟨h.finite, h.le.trans hab⟩

theorem bounded_of_isFinite {x : Float32} (hx : x.isFinite) : Bounded x (2 ^ 128) :=
  ⟨hx, (abs_toRat_lt x).le⟩

namespace Rounds

variable {z : Float32} {q a b : ℚ}

/-- A result that is not too large is finite and near to the exact one. -/
theorem near (h : Rounds z q) (hq : |q| ≤ a) (ha : a ≤ 127 / 128 * 2 ^ 128) :
    z.isFinite ∧ |toRat z - q| ≤ a / 2 ^ 24 + 1 / 2 ^ 150 := by
  have herror : |nearest q - q| ≤ a / 2 ^ 24 + 1 / 2 ^ 150 :=
    (abs_nearest_sub_le q).trans (by gcongr)
  have hlt : |nearest q| < 2 ^ 128 := by
    have hsum := abs_add_le (nearest q - q) q
    rw [sub_add_cancel] at hsum
    norm_num at herror ha ⊢
    linarith
  obtain ⟨hfinite, hvalue⟩ := h.finite hlt
  exact ⟨hfinite, hvalue ▸ herror⟩

theorem bounded (h : Rounds z q) (hq : |q| ≤ a) (ha : a ≤ 127 / 128 * 2 ^ 128)
    (hab : a + (a / 2 ^ 24 + 1 / 2 ^ 150) ≤ b) : Bounded z b := by
  obtain ⟨hfinite, hnear⟩ := h.near hq ha
  have hsum := abs_add_le (toRat z - q) q
  rw [sub_add_cancel] at hsum
  exact ⟨hfinite, by linarith⟩

theorem bounded_two_pow {k : ℕ} (h : Rounds z q) (hq : |q| ≤ 2 ^ k) (hk : k < 128) :
    Bounded z (2 ^ k) := by
  have hle := abs_nearest_le_two_pow hq
  obtain ⟨hfinite, hvalue⟩ := h.finite (hle.trans_lt (pow_lt_pow_right₀ (by norm_num) hk))
  exact ⟨hfinite, hvalue ▸ hle⟩

theorem nonneg (h : Rounds z q) (hz : z.isFinite) (hq : 0 ≤ q) : 0 ≤ toRat z := by
  have hnonneg := nearest_nonneg hq
  rcases lt_or_ge (nearest q) (2 ^ 128) with hlt | hge
  · rw [(h.finite (by rwa [abs_of_nonneg hnonneg])).2]
    exact hnonneg
  · change (parts z).isFinite = true at hz
    rw [h.above hge] at hz
    cases hz

end Rounds

namespace Bounded

variable {x y : Float32} {a b c : ℚ}

theorem add (hx : Bounded x a) (hy : Bounded y b) (hab : a + b ≤ 127 / 128 * 2 ^ 128)
    (hc : a + b + ((a + b) / 2 ^ 24 + 1 / 2 ^ 150) ≤ c) : Bounded (x + y) c :=
  (add_rounds hx.finite hy.finite).bounded ((abs_add_le _ _).trans (add_le_add hx.le hy.le)) hab hc

theorem sub (hx : Bounded x a) (hy : Bounded y b) (hab : a + b ≤ 127 / 128 * 2 ^ 128)
    (hc : a + b + ((a + b) / 2 ^ 24 + 1 / 2 ^ 150) ≤ c) : Bounded (x - y) c :=
  (sub_rounds hx.finite hy.finite).bounded ((abs_sub _ _).trans (add_le_add hx.le hy.le)) hab hc

theorem mul (hx : Bounded x a) (hy : Bounded y b) (hab : a * b ≤ 127 / 128 * 2 ^ 128)
    (hc : a * b + (a * b / 2 ^ 24 + 1 / 2 ^ 150) ≤ c) : Bounded (x * y) c := by
  have hle : |toRat x * toRat y| ≤ a * b := by
    rw [abs_mul]
    exact mul_le_mul hx.le hy.le (abs_nonneg _) ((abs_nonneg _).trans hx.le)
  exact (mul_rounds hx.finite hy.finite).bounded hle hab hc

end Bounded

/-! ## Quotients -/

/-- A quotient with its remainder stands for the fraction. -/
theorem standsFor_fraction (m : ℕ) {n : ℕ} (hn : 0 < n) :
    StandsFor (.ofMantissaAndAccuracy (m / n) (accuracyOfFraction (m % n) n)) (m / n : ℚ) := by
  have hpos : (0 : ℚ) < n := by exact_mod_cast hn
  have hsplit : (m : ℚ) = n * (m / n : ℕ) + (m % n : ℕ) := by
    exact_mod_cast (Nat.div_add_mod m n).symm
  have hfraction : (m / n : ℚ) - (m / n : ℕ) = (m % n : ℕ) / n := by
    rw [sub_eq_iff_eq_add, div_eq_iff hpos.ne', add_mul, div_mul_cancel₀ _ hpos.ne']
    linarith
  have hlt : m % n < n := Nat.mod_lt m hn
  unfold StandsFor
  rw [mantissa_ofMantissaAndAccuracy, hfraction]
  unfold accuracyOfFraction
  split
  · next hzero => simp [ExtendedMantissa.ofMantissaAndAccuracy, Residue, hzero]
  · next hne =>
    have hremainder : (0 : ℚ) < (m % n : ℕ) := by exact_mod_cast Nat.pos_of_ne_zero hne
    rcases lt_trichotomy (2 * (m % n)) n with h | h | h
    · rw [compare_lt_iff_lt.mpr h]
      have hhalf : ((2 * (m % n) : ℕ) : ℚ) < n := by exact_mod_cast h
      push_cast at hhalf
      exact ⟨by positivity, by rw [div_lt_iff₀ hpos]; linarith⟩
    · rw [compare_eq_iff_eq.mpr h]
      have hhalf : ((2 * (m % n) : ℕ) : ℚ) = n := by exact_mod_cast h
      push_cast at hhalf
      change _ = _
      rw [div_eq_iff hpos.ne']
      linarith
    · rw [compare_gt_iff_gt.mpr h]
      have hhalf : (n : ℚ) < (2 * (m % n) : ℕ) := by exact_mod_cast h
      have hone : ((m % n : ℕ) : ℚ) < n := by exact_mod_cast hlt
      push_cast at hhalf
      exact ⟨by rw [lt_div_iff₀ hpos]; linarith, by rw [div_lt_one hpos]; exact hone⟩

theorem total_bounds {m : ℕ} (hm : 0 < m) (e : ℤ) :
    (2 : ℚ) ^ (totalExponent m e - 1) ≤ m * 2 ^ e ∧ (m : ℚ) * 2 ^ e < 2 ^ totalExponent m e := by
  have hlow : (2 : ℚ) ^ m.log2 ≤ m := by exact_mod_cast Nat.log2_self_le hm.ne'
  have hhigh : (m : ℚ) < 2 ^ (m.log2 + 1) := by exact_mod_cast Nat.lt_log2_self
  unfold totalExponent
  constructor
  · rw [show (m.log2 : ℤ) + 1 + e - 1 = m.log2 + e by ring, zpow_add₀ (by norm_num), zpow_natCast]
    gcongr
  · rw [show (m.log2 : ℤ) + 1 = (m.log2 + 1 : ℕ) by push_cast; rfl, zpow_add₀ (by norm_num),
      zpow_natCast]
    gcongr

theorem signed_div (s t : Sign) (p q : ℚ) : signed (s / t) (p / q) = signed s p / signed t q := by
  cases s <;> cases t
  · exact (neg_div_neg_eq p q).symm
  · exact (neg_div q p).symm
  · exact (div_neg p).symm
  · rfl

/-- The dividend is shifted far enough for the quotient to be rounded as it is. -/
theorem divCore_spec {m n : ℕ} (hm : 0 < m) (hn : 0 < n) (d e : ℤ) :
    ∃ M k, divCore .binary32 m d n e = (M / n, k, accuracyOfFraction (M % n) n) ∧ 0 < M ∧
      (M / n : ℚ) * 2 ^ k = m * 2 ^ d / (n * 2 ^ e) ∧ Ample (M / n) k := by
  have hnpos : (0 : ℚ) < n := by exact_mod_cast hn
  obtain ⟨k, hk⟩ : ∃ k, min (d - e) (max (totalExponent m d - totalExponent n e - 24) (-149)) = k :=
    ⟨_, rfl⟩
  obtain ⟨j, hj⟩ : ∃ j : ℕ, d - e = k + j := ⟨(d - e - k).toNat, by omega⟩
  have hvalue : ((m * 2 ^ j : ℕ) / n : ℚ) * 2 ^ k = m * 2 ^ d / (n * 2 ^ e) := by
    have hpow : (2 : ℚ) ^ j * 2 ^ k * 2 ^ e = 2 ^ d := by
      rw [← zpow_natCast, ← zpow_add₀ (by norm_num), ← zpow_add₀ (by norm_num)]
      congr 1
      omega
    rw [eq_div_iff (by positivity), ← hpow]
    push_cast
    field_simp
  refine ⟨m * 2 ^ j, k, ?_, by positivity, hvalue, ?_⟩
  · unfold divCore
    dsimp only
    rw [show (Format.binary32.targetExponent (totalExponent m d - totalExponent n e)) =
      max (totalExponent m d - totalExponent n e - 24) (-149) from rfl, hk,
      show (d - e - k).toNat = j by omega, Nat.shiftLeft_eq]
  · refine or_iff_not_imp_right.mpr fun hlarge => ?_
    have hle : k ≤ totalExponent m d - totalExponent n e - 24 := by omega
    -- the quotient is at least `2 ^ 23`, since its exponent is that of the result
    have hquotient : (2 : ℚ) ^ 23 ≤ (m * 2 ^ j : ℕ) / n := by
      have hpow : (0 : ℚ) < 2 ^ k := by positivity
      rw [← mul_le_mul_iff_left₀ hpow, hvalue, le_div_iff₀ (by positivity)]
      calc (2 : ℚ) ^ 23 * 2 ^ k * (n * 2 ^ e)
          ≤ 2 ^ 23 * 2 ^ (totalExponent m d - totalExponent n e - 24) *
              2 ^ totalExponent n e := by
            gcongr
            · norm_num
            · exact (total_bounds hn e).2.le
        _ = 2 ^ (totalExponent m d - 1) := by
            rw [← zpow_natCast, ← zpow_add₀ (by norm_num), ← zpow_add₀ (by norm_num)]
            congr 1
            push_cast
            ring
        _ ≤ m * 2 ^ d := (total_bounds hm d).1
    have hwhole : 2 ^ 23 ≤ m * 2 ^ j / n := by
      rw [le_div_iff₀ hnpos] at hquotient
      exact (Nat.le_div_iff_mul_le hn).mpr (by exact_mod_cast hquotient)
    exact (Nat.le_log2 (by omega)).mpr hwhole

/-- A quotient is the exact quotient, rounded. -/
theorem div_rounds {x y : Float32} (hx : x.isFinite) (hy : toRat y ≠ 0) :
    Rounds (x / y) (toRat x / toRat y) := by
  change Rounds (.ofModel (.pack (div .binary32 (parts x) (parts y)))) _
  obtain ⟨t, n, e, hn, hpy⟩ := parts_of_toRat_ne_zero hy
  unfold toRat
  rw [hpy]
  rcases parts_of_isFinite hx with ⟨s, hpx⟩ | ⟨s, m, d, hm, hpx⟩ <;> rw [hpx]
  · exact (zero_div (ratOf (.finite t n e hn))).symm ▸ rounds_zero (s / t)
  · obtain ⟨M, k, hcore, hM, hvalue, hample⟩ := divCore_spec hm hn d e
    have hpos : (0 : ℚ) < M / n := div_pos (by exact_mod_cast hM) (by exact_mod_cast hn)
    have hrounds := (roundWithAccuracy_encodes (s / t) (standsFor_fraction M hn) hpos
      hample).rounds (mul_nonneg hpos.le (by positivity))
    rw [hvalue, signed_div] at hrounds
    unfold div
    dsimp only
    rw [hcore]
    exact hrounds

end Storyboard
