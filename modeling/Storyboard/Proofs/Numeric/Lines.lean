import Storyboard.Proofs.Numeric.Counts
import Storyboard.Proofs.Numeric.Progress

/-! # Along a straight line

Rounding keeps the order of numbers. So a position that is computed on the way from one count to
the next one lies between the two, and a later one never lies before an earlier one, although each
of the four operations rounds.
-/

namespace Storyboard

open Float.Model (UnpackedFloat)
open Float.Model.UnpackedFloat

/-! ## Rounding keeps the order of any two numbers -/

theorem halfEven_mono {q r : ℚ} (h : q ≤ r) : halfEven q ≤ halfEven r := by
  by_contra hnot
  have hstep : (halfEven r : ℚ) + 1 ≤ halfEven q := by exact_mod_cast not_le.mp hnot
  have hq := abs_le.mp (abs_halfEven_sub_le q)
  have hr := abs_le.mp (abs_halfEven_sub_le r)
  -- only numbers halfway between two neighbours could be this near, and they would be equal
  have heq : q = r := by linarith
  exact hnot (heq ▸ le_rfl)

theorem nearest_mono_of_nonneg {q r : ℚ} (hq : 0 ≤ q) (h : q ≤ r) : nearest q ≤ nearest r := by
  rcases eq_or_lt_of_le hq with rfl | hpos
  · rw [nearest_zero]
    exact nearest_nonneg h
  have hlog : Int.log 2 |q| ≤ Int.log 2 |r| := by
    rw [abs_of_pos hpos, abs_of_pos (hpos.trans_le h)]
    exact Int.log_mono_right hpos h
  have hgrid : gridExponent q ≤ gridExponent r := by
    unfold gridExponent
    omega
  rcases hgrid.eq_or_lt with heq | hlt
  · unfold nearest
    rw [heq]
    have hpow : (0 : ℚ) < 2 ^ gridExponent r := by positivity
    have hround : halfEven (q / 2 ^ gridExponent r) ≤ halfEven (r / 2 ^ gridExponent r) :=
      halfEven_mono (div_le_div_of_nonneg_right h hpow.le)
    exact mul_le_mul_of_nonneg_right (by exact_mod_cast hround) hpow.le
  · -- a power of two lies between numbers that are rounded on different grids
    have hlarge : -149 < Int.log 2 r - 23 ∧ Int.log 2 q < Int.log 2 r := by
      unfold gridExponent at hlt
      rw [abs_of_pos hpos, abs_of_pos (hpos.trans_le h)] at hlt
      omega
    have hbelow : q ≤ 2 ^ Int.log 2 r :=
      ((Int.lt_zpow_iff_log_lt (by norm_num) hpos).mpr hlarge.2).le
    have habove : (2 : ℚ) ^ Int.log 2 r ≤ r :=
      Int.zpow_log_le_self (by norm_num) (hpos.trans_le h)
    calc nearest q ≤ |nearest q| := le_abs_self _
      _ ≤ 2 ^ Int.log 2 r := abs_nearest_le_zpow (by omega) (by rwa [abs_of_pos hpos])
      _ ≤ nearest r := two_pow_le_nearest (by omega) habove

theorem nearest_mono {q r : ℚ} (h : q ≤ r) : nearest q ≤ nearest r := by
  rcases le_total 0 q with hq | hq
  · exact nearest_mono_of_nonneg hq h
  rcases le_total 0 r with hr | hr
  · have hnonpos := nearest_nonneg (neg_nonneg.mpr hq)
    rw [nearest_neg, neg_nonneg] at hnonpos
    exact hnonpos.trans (nearest_nonneg hr)
  · have hneg := nearest_mono_of_nonneg (neg_nonneg.mpr hr) (neg_le_neg h)
    rwa [nearest_neg, nearest_neg, neg_le_neg_iff] at hneg

/-- A result that is not beyond some number is finite. -/
theorem Rounds.value_of_le {z y : Float32} {q : ℚ} (h : Rounds z q) (hq : 0 ≤ q)
    (hle : q ≤ toRat y) : z.isFinite ∧ toRat z = nearest q ∧ 0 ≤ toRat z ∧ toRat z ≤ toRat y := by
  have hnonneg := nearest_nonneg hq
  have hbelow : nearest q ≤ toRat y := (nearest_mono hle).trans_eq (nearest_toRat y)
  obtain ⟨hfinite, hvalue⟩ := h.finite (by
    rw [abs_of_nonneg hnonneg]
    exact hbelow.trans_lt (lt_of_abs_lt (abs_toRat_lt y)))
  exact ⟨hfinite, hvalue, hvalue ▸ hnonneg, hvalue ▸ hbelow⟩

/-! ## What does not go beyond a number

A way that is gone backwards may be endless, or not be defined. Then nothing that is computed from
it goes beyond any number either.
-/

/-- Minus infinity, or NaN. -/
def Sunk (x : Float32) : Prop :=
  parts x = .notANumber ∨ parts x = .infinity .negative

theorem Sunk.not_lt {x y : Float32} (h : Sunk x) (hy : y.isFinite) : ¬ y < x := by
  rw [not_lt_iff (isNaN_of_isFinite hy)]
  rcases h with hnan | hinf
  · left
    change (parts x).isNaN = true
    rw [hnan]
    rfl
  · right
    have hx : x.isNaN = false := by
      change (parts x).isNaN = false
      rw [hinf]
      rfl
    rw [le_iff_rank_le hx (isNaN_of_isFinite hy), rank_of_infinity hinf, rank_of_isFinite hy]
    exact (abs_lt.mp (abs_toRat_lt y)).1.le

theorem sunk_of_not_lt {x y : Float32} (hx : ¬ x.isFinite) (hy : y.isFinite) (h : ¬ y < x) :
    Sunk x := by
  rcases (not_lt_iff (isNaN_of_isFinite hy)).mp h with hnan | hle
  · left
    change (parts x).isNaN = true at hnan
    cases hpx : parts x <;> rw [hpx] at hnan <;> cases hnan
  · obtain ⟨hnan, -⟩ := isNaN_of_le hle
    obtain ⟨s, hpx⟩ := parts_of_not_isFinite hx hnan
    rw [le_iff_rank_le hnan (isNaN_of_isFinite hy), rank_of_infinity hpx,
      rank_of_isFinite hy] at hle
    cases s with
    | negative => exact .inr hpx
    | positive => exact absurd hle (not_le.mpr (abs_lt.mp (abs_toRat_lt y)).2)

/-- A result does not go beyond a number that the exact one does not go beyond. -/
theorem Rounds.not_above {z y : Float32} {q : ℚ} (h : Rounds z q) (hy : y.isFinite)
    (hle : q ≤ toRat y) : ¬ y < z := by
  have hbelow : nearest q ≤ toRat y := (nearest_mono hle).trans_eq (nearest_toRat y)
  rcases lt_or_ge (-2 ^ 128) (nearest q) with hfits | hover
  · obtain ⟨hfinite, hvalue⟩ := h.finite
      (abs_lt.mpr ⟨hfits, hbelow.trans_lt (abs_lt.mp (abs_toRat_lt y)).2⟩)
    rw [lt_iff_toRat_lt hy hfinite, hvalue, not_lt]
    exact hbelow
  · exact Sunk.not_lt (.inr (h.below hover)) hy

theorem sunk_of_parts {x : Float32} {u : UnpackedFloat}
    (hx : parts x = (Float32.Model.pack u).unpack)
    (hu : u = .notANumber ∨ u = .infinity .negative) : Sunk x := by
  rcases hu with rfl | rfl
  · exact .inl hx
  · exact .inr hx

theorem Sunk.mul {a x : Float32} (h : Sunk x) (ha : a.isFinite) (hpos : 0 ≤ toRat a) :
    Sunk (a * x) := by
  refine sunk_of_parts (u := UnpackedFloat.mul .binary32 (parts a) (parts x)) rfl ?_
  rcases parts_of_isFinite ha with ⟨s, hpa⟩ | ⟨s, m, e, hm, hpa⟩ <;> rw [hpa]
  · rcases h with hpx | hpx <;> rw [hpx] <;> exact .inl rfl
  · cases s with
    | positive =>
        rcases h with hpx | hpx <;> rw [hpx]
        · exact .inl rfl
        · exact .inr rfl
    | negative =>
        unfold toRat at hpos
        rw [hpa] at hpos
        exact absurd hpos (not_le.mpr (neg_neg_of_pos (magnitude_pos hm e)))

theorem Sunk.add {a x : Float32} (h : Sunk x) (ha : a.isFinite) : Sunk (a + x) := by
  refine sunk_of_parts (u := UnpackedFloat.add .binary32 (parts a) (parts x)) rfl ?_
  rcases h with hpx | hpx <;> rw [hpx]
  · refine .inl ?_
    cases parts a <;> rfl
  · exact .inr (infinity_add_parts .negative ha).2

theorem mul_not_above {a x : Float32} (ha : a.isFinite) (hpos : 0 ≤ toRat a) (h : ¬ 1 < x) :
    ¬ a < a * x := by
  by_cases hx : x.isFinite
  · rw [lt_iff_toRat_lt rfl hx, toRat_one, not_lt] at h
    exact (mul_rounds ha hx).not_above ha (mul_le_of_le_one_right hpos h)
  · exact ((sunk_of_not_lt hx rfl h).mul ha hpos).not_lt ha

theorem add_not_above {a b c x : Float32} (ha : a.isFinite) (hb : b.isFinite) (hc : c.isFinite)
    (hsum : toRat a + toRat b ≤ toRat c) (h : ¬ b < x) : ¬ c < a + x := by
  by_cases hx : x.isFinite
  · rw [lt_iff_toRat_lt hb hx, not_lt] at h
    exact (add_rounds ha hx).not_above hc (by linarith)
  · exact ((sunk_of_not_lt hx hb h).add ha).not_lt hc

/-! ## Differences of neighbours -/

/-- A difference of numbers is exact if neither is more than twice the other. -/
theorem sub_exact {x y : Float32} (hx : x.isFinite) (hy : y.isFinite) (hxy : toRat x ≤ toRat y)
    (hyx : toRat y ≤ 2 * toRat x) :
    (y - x).isFinite ∧ toRat (y - x) = toRat y - toRat x := by
  have hlt : |toRat y - toRat x| < 2 ^ 128 := by
    have hbound := abs_lt.mp (abs_toRat_lt y)
    rw [abs_of_nonneg (by linarith)]
    linarith
  have hrounds := sub_rounds hy hx
  rcases exists_fits_of_nonneg (by linarith : 0 ≤ toRat x) with hzero | ⟨m, d, hm, hxv⟩
  · have hsame : toRat y - toRat x = toRat y := by rw [hzero, sub_zero]
    rw [hsame] at hrounds ⊢
    exact hrounds.exact_toRat
  · rcases exists_fits_of_nonneg (by linarith : 0 ≤ toRat y) with hzero | ⟨n, e, hn, hyv⟩
    · have hpos := magnitude_pos hm.pos d
      linarith
    -- both are on the grid of the smaller one, and so is the difference, with no more bits
    have hde : d ≤ e := by
      by_contra hlt
      have := hn.lt_of_exponent_lt hm (not_le.mp hlt)
      linarith
    obtain ⟨k, rfl⟩ : ∃ k : ℕ, e = d + k := ⟨(e - d).toNat, by omega⟩
    have hpow : (0 : ℚ) < 2 ^ d := by positivity
    have hyv' : toRat y = (n * 2 ^ k : ℕ) * 2 ^ d := by
      rw [hyv, zpow_add₀ (by norm_num), zpow_natCast]
      push_cast
      ring
    have hdiff : toRat y - toRat x = ((n * 2 ^ k : ℕ) - m : ℤ) * 2 ^ d := by
      rw [hyv', hxv]
      push_cast
      ring
    rw [hxv, hyv'] at hxy hyx
    have hlow : m ≤ n * 2 ^ k := by exact_mod_cast le_of_mul_le_mul_right hxy hpow
    have hhigh : n * 2 ^ k ≤ 2 * m := by
      rw [← mul_assoc] at hyx
      exact_mod_cast le_of_mul_le_mul_right hyx hpow
    have hbits : |((n * 2 ^ k : ℕ) - m : ℤ)| < 2 ^ 24 := by
      have hlt := hm.lt
      rw [abs_of_nonneg (by omega)]
      omega
    exact hrounds.exact (nearest_of_grid hdiff hbits hm.least) hlt

/-- Twice a number is not rounded. -/
theorem nearest_double {x : Float32} (hx : 0 ≤ toRat x) : nearest (2 * toRat x) = 2 * toRat x := by
  rcases exists_fits_of_nonneg hx with hzero | ⟨m, e, hfits, hvalue⟩
  · rw [hzero, mul_zero, nearest_zero]
  · have hbits : |(m : ℤ)| < 2 ^ 24 := by
      rw [Nat.abs_cast]
      exact_mod_cast hfits.lt
    have hleast := hfits.least
    refine nearest_of_grid (m := m) (e := e + 1) ?_ hbits (by omega)
    rw [hvalue, zpow_add_one₀ (by norm_num), Int.cast_natCast]
    ring

/-! ## Counts -/

theorem toRat_ofCount {n : ℕ} (h : n < 2 ^ 64) : toRat (ofCount n) = nearest n := by
  have hbound : |nearest (n : ℚ)| ≤ 2 ^ 64 := by
    refine abs_nearest_le_two_pow ?_
    rw [Nat.abs_cast]
    exact_mod_cast h.le
  exact ((ofCount_rounds h).finite (hbound.trans_lt (by norm_num))).2

theorem ofCount_nonneg (n : ℕ) : 0 ≤ toRat (ofCount n) := by
  rcases exists_isWhole_ofCount n with hzero | ⟨m, -, -, hwhole⟩
  · rw [hzero, toRat_zero]
  · rw [hwhole.value]
    exact Nat.cast_nonneg m

theorem ofCount_le_succ {n : ℕ} (h : n + 1 < 2 ^ 64) :
    toRat (ofCount n) ≤ toRat (ofCount (n + 1)) := by
  rw [toRat_ofCount (by omega), toRat_ofCount h]
  exact nearest_mono (by exact_mod_cast Nat.le_succ n)

/-- From the second on, a count is not more than twice the one before it, whatever is rounded. -/
theorem ofCount_succ_le_double {n : ℕ} (hpos : 0 < n) (h : n + 1 < 2 ^ 64) :
    toRat (ofCount (n + 1)) ≤ 2 * toRat (ofCount n) := by
  rcases le_or_gt (n + 1) (2 ^ 24) with hshort | hlong
  · rw [(ofCount_isWhole hshort).value, (ofCount_isWhole (by omega)).value]
    exact_mod_cast (by omega : n + 1 ≤ 2 * n)
  · have hlarge : (2 : ℚ) ^ 24 ≤ n := by exact_mod_cast Nat.le_of_lt_succ hlong
    have herror := (abs_le.mp (abs_nearest_sub_le (n : ℚ))).1
    rw [Nat.abs_cast] at herror
    have hdouble : ((n + 1 : ℕ) : ℚ) ≤ 2 * toRat (ofCount n) := by
      rw [toRat_ofCount (by omega)]
      push_cast
      norm_num at herror
      linarith
    rw [toRat_ofCount h, ← nearest_double (ofCount_nonneg n)]
    exact nearest_mono hdouble

/-- The way from a count to the next one is computed exactly. -/
theorem sub_ofCount_exact {n : ℕ} (h : n + 1 < 2 ^ 64) :
    (ofCount (n + 1) - ofCount n).isFinite ∧
      toRat (ofCount (n + 1) - ofCount n) = toRat (ofCount (n + 1)) - toRat (ofCount n) := by
  rcases Nat.eq_zero_or_pos n with rfl | hpos
  · rw [ofCount_sub (by omega) (by norm_num), Nat.sub_zero, ofCount_zero, toRat_zero, sub_zero]
    exact ⟨isFinite_ofCount _, rfl⟩
  · exact sub_exact (isFinite_ofCount n) (isFinite_ofCount (n + 1)) (ofCount_le_succ h)
      (ofCount_succ_le_double hpos h)

/-! ## The way from one count to the next -/

/-- A fraction of the time is between 0 and 1, and it grows with the time. -/
theorem div_within {e d : Float32} (he : 0 ≤ e) (hlt : e < d) (hd : d.isFinite) :
    (e / d).isFinite ∧ toRat (e / d) = nearest (toRat e / toRat d) ∧ 0 ≤ toRat (e / d) ∧
      toRat (e / d) ≤ 1 := by
  obtain ⟨hfinite, hnonneg, hless⟩ := finite_of_lt he hlt hd
  have hpos : 0 < toRat d := hnonneg.trans_lt hless
  have hquotient : toRat e / toRat d ≤ toRat 1 := by
    rw [toRat_one]
    exact (div_le_one hpos).mpr hless.le
  have hresult := (div_rounds hfinite hpos.ne').value_of_le (by positivity) hquotient
  rwa [toRat_one] at hresult

/-- A position on the way from a count to the next one lies between them. -/
theorem lerp_within {n : ℕ} (h : n + 1 < 2 ^ 64) {t : Float32} (ht : t.isFinite)
    (hlow : 0 ≤ toRat t) (hhigh : toRat t ≤ 1) :
    let way := toRat (ofCount (n + 1)) - toRat (ofCount n)
    let x := lerp (ofCount n) (ofCount (n + 1)) t
    x.isFinite ∧ toRat x = nearest (toRat (ofCount n) + nearest (way * toRat t)) ∧
      toRat (ofCount n) ≤ toRat x ∧ toRat x ≤ toRat (ofCount (n + 1)) := by
  obtain ⟨hgap, hway⟩ := sub_ofCount_exact h
  have hsteps := ofCount_le_succ h
  have hstart := ofCount_nonneg n
  have hgap' : 0 ≤ toRat (ofCount (n + 1) - ofCount n) := by linarith
  obtain ⟨hpart, hpartv, hpartlow, hparthigh⟩ := (mul_rounds hgap ht).value_of_le
    (mul_nonneg hgap' hlow) (mul_le_of_le_one_right hgap' hhigh)
  have hend : toRat (ofCount n) + toRat ((ofCount (n + 1) - ofCount n) * t) ≤
      toRat (ofCount (n + 1)) := by linarith
  obtain ⟨hfinite, hvalue, -, hbelow⟩ :=
    (add_rounds (isFinite_ofCount n) hpart).value_of_le (by linarith) hend
  refine ⟨hfinite, ?_, ?_, hbelow⟩
  · rw [← hway, ← hpartv]
    exact hvalue
  · have habove := toRat_le_nearest hstart (le_add_of_nonneg_right hpartlow)
    rwa [← hvalue] at habove

/-- A fraction that is not beyond 1 does not lead beyond the next count. -/
theorem lerp_not_above {n : ℕ} (h : n + 1 < 2 ^ 64) {q : Float32} (hq : ¬ 1 < q) :
    ¬ ofCount (n + 1) < lerp (ofCount n) (ofCount (n + 1)) q := by
  obtain ⟨hgap, hway⟩ := sub_ofCount_exact h
  have hsteps := ofCount_le_succ h
  exact add_not_above (isFinite_ofCount n) hgap (isFinite_ofCount _) (by linarith)
    (mul_not_above hgap (by linarith) hq)

variable {n : ℕ} {e e' d : Float32}

/-- A position that is computed on the way lies on the way. -/
theorem lerp_div_between (h : n + 1 < 2 ^ 64) (he : 0 ≤ e) (hlt : e < d) (hd : d.isFinite) :
    ofCount n ≤ lerp (ofCount n) (ofCount (n + 1)) (e / d) ∧
      lerp (ofCount n) (ofCount (n + 1)) (e / d) ≤ ofCount (n + 1) := by
  obtain ⟨ht, -, hlow, hhigh⟩ := div_within he hlt hd
  obtain ⟨hfinite, -, habove, hbelow⟩ := lerp_within h ht hlow hhigh
  exact ⟨(le_iff_toRat_le (isFinite_ofCount _) hfinite).mpr habove,
    (le_iff_toRat_le hfinite (isFinite_ofCount _)).mpr hbelow⟩

/-- A later position does not lie before an earlier one. -/
theorem lerp_div_mono (h : n + 1 < 2 ^ 64) (he : 0 ≤ e) (hle : e ≤ e') (hlt : e' < d)
    (hd : d.isFinite) :
    lerp (ofCount n) (ofCount (n + 1)) (e / d) ≤ lerp (ofCount n) (ofCount (n + 1)) (e' / d) := by
  obtain ⟨hfinite', -, hless⟩ := finite_of_lt (le_trans_number he hle) hlt hd
  obtain ⟨hfinite, hnonneg, hle'⟩ := finite_of_le he hle hfinite'
  have hlt' : e < d := (lt_iff_toRat_lt hfinite hd).mpr (hle'.trans_lt hless)
  have hpos : 0 < toRat d := (hnonneg.trans hle').trans_lt hless
  obtain ⟨ht, htv, htlow, hthigh⟩ := div_within he hlt' hd
  obtain ⟨ht', htv', htlow', hthigh'⟩ := div_within (le_trans_number he hle) hlt hd
  obtain ⟨hx, hxv, -, -⟩ := lerp_within h ht htlow hthigh
  obtain ⟨hx', hxv', -, -⟩ := lerp_within h ht' htlow' hthigh'
  have hway : 0 ≤ toRat (ofCount (n + 1)) - toRat (ofCount n) := by linarith [ofCount_le_succ h]
  -- each of the operations keeps the order
  have hfraction : toRat (e / d) ≤ toRat (e' / d) := by
    rw [htv, htv']
    exact nearest_mono (div_le_div_of_nonneg_right hle' hpos.le)
  have hpart := nearest_mono (mul_le_mul_of_nonneg_left hfraction hway)
  rw [le_iff_toRat_le hx hx', hxv, hxv']
  exact nearest_mono (add_le_add le_rfl hpart)

end Storyboard
