import Storyboard.Proofs.Numeric.Bounds
import Storyboard.Proofs.Numeric.Order

/-! # Adding up

A sum of numbers from 0 on is at least either of them, but not always more. Once a number has
outgrown another one by 24 bits, their sum is rounded back to where it was. This module says how
far a number can be brought by adding another one to it again and again.
-/

namespace Storyboard

/-! ## Rounding keeps the order -/

/-- Rounding does not go below a number of at most 24 bits. -/
theorem le_nearest_of_grid {q : ℚ} {m : ℕ} {e : ℤ} (hm : m < 2 ^ 24) (he : -149 ≤ e) (hq : 0 < q)
    (h : m * 2 ^ e ≤ q) : m * 2 ^ e ≤ nearest q := by
  have hpow : (0 : ℚ) < 2 ^ gridExponent q := by positivity
  rcases le_or_gt (gridExponent q) e with hle | hgt
  · obtain ⟨k, rfl⟩ : ∃ k : ℕ, e = gridExponent q + k := ⟨(e - gridExponent q).toNat, by omega⟩
    have hwhole : (m : ℚ) * 2 ^ (gridExponent q + k) =
        ((m * 2 ^ k : ℕ) : ℤ) * 2 ^ gridExponent q := by
      rw [zpow_add₀ (by norm_num), zpow_natCast]
      push_cast
      ring
    rw [hwhole] at h ⊢
    have hround := le_halfEven ((le_div_iff₀ hpow).mpr h)
    exact mul_le_mul_of_nonneg_right (by exact_mod_cast hround) hpow.le
  · -- the grid is that of a power of two which is already beyond the number
    have hgrid : gridExponent q = Int.log 2 |q| - 23 := by
      unfold gridExponent at hgt ⊢
      omega
    have hlog : (2 : ℚ) ^ (gridExponent q + 23) ≤ q := by
      have hself := Int.zpow_log_le_self (b := 2) (by norm_num) (abs_pos.mpr hq.ne')
      rw [abs_of_pos hq] at hself hgrid
      rw [hgrid]
      simpa using hself
    have hround : 2 ^ 23 ≤ halfEven (q / 2 ^ gridExponent q) := by
      refine le_halfEven ((le_div_iff₀ hpow).mpr (le_trans (le_of_eq ?_) hlog))
      rw [zpow_add₀ (by norm_num)]
      push_cast
      ring
    calc (m : ℚ) * 2 ^ e ≤ 2 ^ 24 * 2 ^ e := by
          have hcast : (m : ℚ) ≤ 2 ^ 24 := by exact_mod_cast hm.le
          gcongr
      _ = 2 ^ 23 * 2 ^ (e + 1) := by rw [zpow_add_one₀ (by norm_num)]; ring
      _ ≤ 2 ^ 23 * 2 ^ gridExponent q := by gcongr <;> norm_num; omega
      _ ≤ nearest q := by
          unfold nearest
          exact mul_le_mul_of_nonneg_right (by exact_mod_cast hround) hpow.le

theorem two_pow_le_nearest {q : ℚ} {k : ℤ} (hk : -149 ≤ k) (h : 2 ^ k ≤ q) :
    2 ^ k ≤ nearest q := by
  have hq : 0 < q := lt_of_lt_of_le (by positivity) h
  have hone := le_nearest_of_grid (m := 1) (by norm_num) hk hq (by rwa [Nat.cast_one, one_mul])
  rwa [Nat.cast_one, one_mul] at hone

/-- The value of a number that is not negative is 0 or a canonical magnitude. -/
theorem exists_fits_of_nonneg {x : Float32} (hx : 0 ≤ toRat x) :
    toRat x = 0 ∨ ∃ m e, Fits m e ∧ toRat x = m * 2 ^ e := by
  rcases eq_or_lt_of_le hx with hzero | hpos
  · exact .inl hzero.symm
  · obtain ⟨s, m, e, hm, hpx⟩ := parts_of_toRat_ne_zero hpos.ne'
    have hfits := (fits_of_parts hpx).1
    unfold toRat at hpos ⊢
    rw [hpx] at hpos ⊢
    cases s with
    | negative => exact absurd hpos (not_lt.mpr (neg_nonpos.mpr (magnitude_pos hm e).le))
    | positive => exact .inr ⟨m, e, hfits, rfl⟩

theorem toRat_le_nearest {x : Float32} {q : ℚ} (hx : 0 ≤ toRat x) (h : toRat x ≤ q) :
    toRat x ≤ nearest q := by
  rcases exists_fits_of_nonneg hx with hzero | ⟨m, e, hfits, hvalue⟩
  · rw [hzero] at h ⊢
    exact nearest_nonneg h
  · have hpos := magnitude_pos hfits.pos e
    rw [hvalue] at h ⊢
    exact le_nearest_of_grid hfits.lt hfits.least (hpos.trans_le h) h

theorem rank_le (x : Float32) : rank x ≤ 2 ^ 128 := by
  unfold rank
  split
  · next s _ =>
    cases s with
    | negative => norm_num [signed]
    | positive => exact le_rfl
  · exact (abs_le.mp (abs_toRat_lt x).le).2

/-- Nothing is beyond the infinity. -/
theorem le_of_parts_infinity {x z : Float32} (hx : x.isNaN = false)
    (hz : parts z = .infinity .positive) : x ≤ z := by
  have hnan : z.isNaN = false := by
    change (parts z).isNaN = false
    rw [hz]
    rfl
  rw [le_iff_rank_le hx hnan, rank_of_infinity hz]
  exact rank_le x

/-- A finite sum of finite numbers from 0 on. -/
theorem toRat_add {x y : Float32} (hx : x.isFinite) (hy : y.isFinite) (hxv : 0 ≤ toRat x)
    (hyv : 0 ≤ toRat y) (hsum : (x + y).isFinite) :
    toRat (x + y) = nearest (toRat x + toRat y) := by
  have hrounds := add_rounds hx hy
  have hnonneg := nearest_nonneg (add_nonneg hxv hyv)
  refine (hrounds.finite ?_).2
  rw [abs_of_nonneg hnonneg]
  by_contra hge
  change (parts (x + y)).isFinite = true at hsum
  rw [hrounds.above (not_lt.mp hge)] at hsum
  cases hsum

/-- What is added to a number never makes it less. -/
theorem le_add_number {x y : Float32} (hx : 0 ≤ x) (hy : 0 ≤ y) : x ≤ x + y := by
  have hnan := (isNaN_of_le hx).2
  rcases (zero_le_iff (x + y)).mp (zero_le_add hx hy) with hinf | ⟨hsum, -⟩
  · exact le_of_parts_infinity hnan hinf
  · have hfinite : ∀ z : Float32, (parts z = .infinity .positive → parts (x + y) =
        .infinity .positive) → 0 ≤ z → z.isFinite ∧ 0 ≤ toRat z := by
      intro z hz hzero
      refine ((zero_le_iff z).mp hzero).resolve_left fun hinf => ?_
      change (parts (x + y)).isFinite = true at hsum
      rw [hz hinf] at hsum
      cases hsum
    obtain ⟨hfx, hvx⟩ := hfinite x (fun h => parts_add_of_infinity hx hy (.inl h)) hx
    obtain ⟨hfy, hvy⟩ := hfinite y (fun h => parts_add_of_infinity hx hy (.inr h)) hy
    rw [le_iff_toRat_le hfx hsum, toRat_add hfx hfy hvx hvy hsum]
    exact toRat_le_nearest hvx (le_add_of_nonneg_right hvy)

/-- A sum that overflows is beyond all finite numbers, and so is the exact one. -/
theorem le_add_iff {x y z : Float32} (hz : z.isFinite) (hx : x.isFinite) (hy : y.isFinite)
    (hxv : 0 ≤ toRat x) (hyv : 0 ≤ toRat y) :
    z ≤ x + y ↔ toRat z ≤ nearest (toRat x + toRat y) := by
  by_cases hsum : (x + y).isFinite
  · rw [le_iff_toRat_le hz hsum, toRat_add hx hy hxv hyv hsum]
  · have hnonneg : 0 ≤ x + y :=
      zero_le_add ((zero_le_iff x).mpr (.inr ⟨hx, hxv⟩)) ((zero_le_iff y).mpr (.inr ⟨hy, hyv⟩))
    have hinf := ((zero_le_iff _).mp hnonneg).resolve_right fun h => hsum h.1
    have hlarge : 2 ^ 128 ≤ nearest (toRat x + toRat y) := by
      by_contra hlt
      refine hsum ((add_rounds hx hy).finite ?_).1
      rwa [abs_of_nonneg (nearest_nonneg (add_nonneg hxv hyv)), ← not_le]
    exact iff_of_true (le_of_parts_infinity (isNaN_of_isFinite hz) hinf)
      ((abs_le.mp (abs_toRat_lt z).le).2.trans hlarge)

/-! ## Where a sum comes to rest -/

/-- Between two neighbours of 24 bits the grid is that of the lower one. -/
theorem gridExponent_mantissa {m : ℕ} {e : ℤ} {f : ℚ} (hfull : 2 ^ 23 ≤ m) (hlt : m < 2 ^ 24)
    (he : -149 ≤ e) (hf : 0 ≤ f) (hf' : f < 1) : gridExponent ((m + f) * 2 ^ e) = e := by
  have hlo : (2 : ℚ) ^ (23 : ℤ) ≤ m + f := by
    have hcast : (2 : ℚ) ^ (23 : ℤ) ≤ m := by exact_mod_cast hfull
    linarith
  have hhi : m + f < 2 ^ (24 : ℤ) := by
    have hcast : (m : ℚ) + 1 ≤ 2 ^ (24 : ℤ) := by exact_mod_cast hlt
    linarith
  have hpos : 0 < (m + f) * 2 ^ e := mul_pos (lt_of_lt_of_le (by positivity) hlo) (by positivity)
  have hscale (k : ℤ) : ((2 : ℕ) : ℚ) ^ (k + e) = 2 ^ k * 2 ^ e := by
    rw [Nat.cast_ofNat, zpow_add₀ (by norm_num)]
  have hge : 23 + e ≤ Int.log 2 ((m + f) * 2 ^ e) := by
    rw [← Int.zpow_le_iff_le_log (by norm_num) hpos, hscale]
    gcongr
  have hle : Int.log 2 ((m + f) * 2 ^ e) < 24 + e := by
    rw [← Int.lt_zpow_iff_log_lt (by norm_num) hpos, hscale]
    gcongr
  unfold gridExponent
  rw [abs_of_pos hpos]
  omega

theorem nearest_mantissa {m : ℕ} {e : ℤ} {f : ℚ} (hfull : 2 ^ 23 ≤ m) (hlt : m < 2 ^ 24)
    (he : -149 ≤ e) (hf : 0 ≤ f) (hf' : f < 1) :
    nearest ((m + f) * 2 ^ e) = halfEven (m + f) * 2 ^ e := by
  unfold nearest
  rw [gridExponent_mantissa hfull hlt he hf hf', mul_div_cancel_right₀ _ (by positivity)]

theorem halfEven_natCast_add {m : ℕ} {f : ℚ} (hf : 0 ≤ f) (hhalf : f ≤ 1 / 2) :
    halfEven (m + f) = if f = 1 / 2 then (m + m % 2 : ℤ) else m := by
  have hfloor : ⌊(m : ℚ) + f⌋ = m := by
    rw [Int.floor_eq_iff]
    constructor
    · push_cast
      linarith
    · push_cast
      linarith
  have hfract : Int.fract ((m : ℚ) + f) = f := by
    rw [← Int.self_sub_floor, hfloor]
    push_cast
    ring
  unfold halfEven
  rw [hfloor, hfract, if_neg (not_lt.mpr hhalf)]
  rcases eq_or_lt_of_le hhalf with rfl | hlt
  · rw [if_neg (lt_irrefl _), if_pos rfl]
  · rw [if_pos hlt, if_neg hlt.ne]

/-- Less than half of a step is rounded off, and so is half of a step from an even number. -/
theorem nearest_add_of_le_half {m : ℕ} {e : ℤ} {d : ℚ} (hfull : 2 ^ 23 ≤ m) (hlt : m < 2 ^ 24)
    (he : -149 ≤ e) (hd : 0 ≤ d) (hhalf : d ≤ 1 / 2 * 2 ^ e)
    (heven : m % 2 = 0 ∨ d < 1 / 2 * 2 ^ e) : nearest (m * 2 ^ e + d) = m * 2 ^ e := by
  have hpow : (0 : ℚ) < 2 ^ e := by positivity
  have hsum : m * 2 ^ e + d = (m + d / 2 ^ e) * 2 ^ e := by
    rw [add_mul, div_mul_cancel₀ _ hpow.ne']
  have hfhalf : d / 2 ^ e ≤ 1 / 2 := (div_le_iff₀ hpow).mpr hhalf
  have hf : 0 ≤ d / 2 ^ e := by positivity
  rw [hsum, nearest_mantissa hfull hlt he hf (by linarith), halfEven_natCast_add hf hfhalf]
  split
  · next hexact =>
    rcases heven with heven | hless
    · have hcast : (m : ℤ) % 2 = 0 := by omega
      rw [hcast, add_zero, Int.cast_natCast]
    · rw [div_eq_iff hpow.ne'] at hexact
      exact absurd hexact hless.ne
  · rw [Int.cast_natCast]

/-- Half of a step from an odd number is rounded up to an even one. -/
theorem nearest_add_half_of_odd {m : ℕ} {e : ℤ} (hfull : 2 ^ 23 ≤ m) (hlt : m < 2 ^ 24)
    (he : -149 ≤ e) (hodd : m % 2 = 1) :
    nearest (m * 2 ^ e + 1 / 2 * 2 ^ e) = (m + 1 : ℕ) * 2 ^ e := by
  have hcast : (m : ℤ) % 2 = 1 := by omega
  rw [← add_mul, nearest_mantissa hfull hlt he (by norm_num) (by norm_num),
    halfEven_natCast_add (by norm_num) le_rfl, if_pos rfl, hcast]
  push_cast
  rfl

/-! ## The horizon -/

/-- How far a number can be brought by adding `dt` to it again and again: `2 ^ 24` times the
least power of two from `dt` on. -/
def horizon (dt : Float32) : ℚ :=
  2 ^ (24 + Int.clog 2 (toRat dt))

section Horizon

variable {x dt : Float32} {k : ℤ}

theorem horizon_eq (hk : Int.clog 2 (toRat dt) = k) : horizon dt = 2 ^ 24 * 2 ^ k := by
  unfold horizon
  rw [hk, zpow_add₀ (by norm_num)]
  rfl

theorem least_le_toRat (hdt : 0 < toRat dt) : 2 ^ (-149 : ℤ) ≤ toRat dt := by
  obtain hzero | ⟨m, e, hfits, hvalue⟩ := exists_fits_of_nonneg hdt.le
  · exact absurd hzero hdt.ne'
  · have hone : (1 : ℚ) ≤ m := by exact_mod_cast hfits.pos
    calc (2 : ℚ) ^ (-149 : ℤ) ≤ 2 ^ e := zpow_le_zpow_right₀ (by norm_num) hfits.least
      _ ≤ m * 2 ^ e := le_mul_of_one_le_left (by positivity) hone
      _ = toRat dt := hvalue.symm

/-- The power of two that belongs to a number. -/
theorem clog_toRat (hdt : 0 < toRat dt) (hk : Int.clog 2 (toRat dt) = k) :
    -149 ≤ k ∧ 2 ^ (k - 1) < toRat dt ∧ toRat dt ≤ 2 ^ k := by
  subst hk
  have hself : toRat dt ≤ 2 ^ Int.clog 2 (toRat dt) := by
    simpa using Int.self_le_zpow_clog (b := 2) (by norm_num) (toRat dt)
  refine ⟨?_, by simpa using Int.zpow_pred_clog_lt_self (b := 2) (by norm_num) hdt, hself⟩
  exact (zpow_le_zpow_iff_right₀ (by norm_num : (1 : ℚ) < 2)).mp ((least_le_toRat hdt).trans hself)

/-- The horizon is at `2 ^ 24` times what is added, or further off. -/
theorem two_pow_mul_le_horizon (hdt : 0 < toRat dt) : 2 ^ 24 * toRat dt ≤ horizon dt := by
  rw [horizon_eq rfl]
  exact mul_le_mul_of_nonneg_left (clog_toRat hdt rfl).2.2 (by norm_num)

theorem toRat_le_horizon (hdt : 0 < toRat dt) : toRat dt ≤ horizon dt := by
  linarith [two_pow_mul_le_horizon hdt]

/-- Up to the horizon a number grows. -/
theorem lt_nearest_add (hx : 0 ≤ toRat x) (hdt : 0 < toRat dt) (h : toRat x < horizon dt) :
    toRat x < nearest (toRat x + toRat dt) := by
  obtain ⟨k, hk⟩ : ∃ k, Int.clog 2 (toRat dt) = k := ⟨_, rfl⟩
  obtain ⟨hleast, hlow, -⟩ := clog_toRat hdt hk
  have hpos : 0 < toRat x + toRat dt := by linarith
  refine lt_of_le_of_ne (toRat_le_nearest hx (by linarith)) fun hsame => ?_
  -- otherwise half a step of the grid is at least what was added, and the sum is beyond the horizon
  have hmiss := abs_nearest_sub_le_grid (toRat x + toRat dt)
  rw [← hsame, sub_add_cancel_left, abs_neg, abs_of_pos hdt] at hmiss
  have hhalf (e : ℤ) : 1 / 2 * (2 : ℚ) ^ e = 2 ^ (e - 1) := by
    rw [zpow_sub_one₀ (by norm_num)]
    ring
  rw [hhalf] at hmiss
  have hgrid : k < gridExponent (toRat x + toRat dt) := by
    have hlt := (zpow_lt_zpow_iff_right₀ (by norm_num : (1 : ℚ) < 2)).mp (hlow.trans_le hmiss)
    omega
  have hnormal : -149 < gridExponent (toRat x + toRat dt) := by
    have hle := (zpow_le_zpow_iff_right₀ (by norm_num : (1 : ℚ) < 2)).mp
      ((least_le_toRat hdt).trans hmiss)
    omega
  have hlog : 24 + k ≤ Int.log 2 (toRat x + toRat dt) := by
    unfold gridExponent at hgrid hnormal
    rw [abs_of_pos hpos] at hgrid hnormal
    omega
  have hbeyond : (2 : ℚ) ^ (24 + k) ≤ toRat x + toRat dt := by
    simpa using (Int.zpow_le_iff_le_log (b := 2) (by norm_num) hpos).mpr hlog
  have hround := two_pow_le_nearest (by omega) hbeyond
  rw [← hsame] at hround
  unfold horizon at h
  rw [hk] at h
  exact absurd h (not_lt.mpr hround)

/-- The last number before the horizon is a step away from it. -/
theorem add_le_horizon (hx : 0 ≤ toRat x) (hk : Int.clog 2 (toRat dt) = k)
    (h : toRat x < horizon dt) : toRat x + 2 ^ k ≤ horizon dt := by
  have hpow : (0 : ℚ) < 2 ^ k := by positivity
  rw [horizon_eq hk] at h ⊢
  rcases exists_fits_of_nonneg hx with hzero | ⟨m, e, hfits, hvalue⟩
  · rw [hzero]
    linarith
  · rw [hvalue] at h ⊢
    rcases le_or_gt k e with hle | hgt
    · obtain ⟨j, rfl⟩ : ∃ j : ℕ, e = k + j := ⟨(e - k).toNat, by omega⟩
      have hwhole : (m : ℚ) * 2 ^ (k + j) = (m * 2 ^ j : ℕ) * 2 ^ k := by
        rw [zpow_add₀ (by norm_num), zpow_natCast]
        push_cast
        ring
      rw [hwhole] at h ⊢
      have hcount : m * 2 ^ j < 2 ^ 24 := by exact_mod_cast lt_of_mul_lt_mul_right h hpow.le
      have hnext : ((m * 2 ^ j : ℕ) : ℚ) + 1 ≤ 2 ^ 24 := by exact_mod_cast hcount
      calc ((m * 2 ^ j : ℕ) : ℚ) * 2 ^ k + 2 ^ k = ((m * 2 ^ j : ℕ) + 1) * 2 ^ k := by ring
        _ ≤ 2 ^ 24 * 2 ^ k := by gcongr
    · have hcast : (m : ℚ) ≤ 2 ^ 24 := by exact_mod_cast hfits.lt.le
      have hstep : (2 : ℚ) ^ e ≤ 2 ^ (k - 1) := zpow_le_zpow_right₀ (by norm_num) (by omega)
      calc (m : ℚ) * 2 ^ e + 2 ^ k ≤ 2 ^ 24 * 2 ^ (k - 1) + 2 ^ k := by gcongr
        _ ≤ 2 ^ 24 * 2 ^ k := by rw [zpow_sub_one₀ (by norm_num)]; linarith

/-- From within the horizon no step leads beyond it. -/
theorem nearest_add_le_horizon (hx : 0 ≤ toRat x) (hdt : 0 < toRat dt)
    (h : toRat x ≤ horizon dt) {y : ℚ} (hy : 0 ≤ y) (hle : y ≤ toRat dt) :
    nearest (toRat x + y) ≤ horizon dt := by
  obtain ⟨k, hk⟩ : ∃ k, Int.clog 2 (toRat dt) = k := ⟨_, rfl⟩
  obtain ⟨hleast, -, hhigh⟩ := clog_toRat hdt hk
  have hscale : horizon dt = 2 ^ (24 + k) := congrArg (fun e => (2 : ℚ) ^ (24 + e)) hk
  rcases eq_or_lt_of_le h with heq | hlt
  · have hfull : horizon dt = (2 ^ 23 : ℕ) * 2 ^ (k + 1) := by
      rw [hscale, zpow_add₀ (by norm_num), zpow_add_one₀ (by norm_num)]
      norm_num
      ring
    have hhalf : y ≤ 1 / 2 * 2 ^ (k + 1) := by
      rw [zpow_add_one₀ (by norm_num)]
      linarith
    rw [heq, hfull, nearest_add_of_le_half (by norm_num) (by norm_num) (by omega) hy hhalf
      (.inl (by norm_num))]
  · have hsum : |toRat x + y| ≤ 2 ^ (24 + k) := by
      rw [abs_of_nonneg (add_nonneg hx hy), ← hscale]
      linarith [add_le_horizon hx hk hlt]
    rw [hscale]
    exact (le_abs_self _).trans (abs_nearest_le_zpow (by omega) hsum)

/-- The exponent of a number beyond the horizon. -/
theorem exists_fits_of_horizon_lt (hdt : 0 < toRat dt) (hk : Int.clog 2 (toRat dt) = k)
    (h : horizon dt < toRat x) :
    ∃ m e, Fits m e ∧ 2 ^ 23 ≤ m ∧ k < e ∧ toRat x = m * 2 ^ e := by
  have hpos : 0 < toRat x := lt_trans (by unfold horizon; positivity) h
  obtain hzero | ⟨m, e, hfits, hvalue⟩ := exists_fits_of_nonneg hpos.le
  · exact absurd hzero hpos.ne'
  have hlt : k < e := by
    rw [horizon_eq hk, hvalue] at h
    have hcast : (m : ℚ) ≤ 2 ^ 24 := by exact_mod_cast hfits.lt.le
    by_contra hge
    have hstep : (2 : ℚ) ^ e ≤ 2 ^ k := zpow_le_zpow_right₀ (by norm_num) (not_lt.mp hge)
    exact absurd h (not_lt.mpr (mul_le_mul hcast hstep (by positivity) (by positivity)))
  have hleast := (clog_toRat hdt hk).1
  exact ⟨m, e, hfits, hfits.full.resolve_left (by omega), hlt, hvalue⟩

/-- Beyond the horizon a number grows once at most: if it does, it has become even. -/
theorem nearest_add_again (hdt : 0 < toRat dt) (h : horizon dt < toRat x) :
    nearest (nearest (toRat x + toRat dt) + toRat dt) = nearest (toRat x + toRat dt) := by
  obtain ⟨k, hk⟩ : ∃ k, Int.clog 2 (toRat dt) = k := ⟨_, rfl⟩
  obtain ⟨m, e, hfits, hfull, hlt, hvalue⟩ := exists_fits_of_horizon_lt hdt hk h
  have hhalf : toRat dt ≤ 1 / 2 * 2 ^ e := by
    have hstep : (2 : ℚ) ^ (k + 1) ≤ 2 ^ e := zpow_le_zpow_right₀ (by norm_num) (by omega)
    rw [zpow_add_one₀ (by norm_num)] at hstep
    linarith [(clog_toRat hdt hk).2.2]
  rw [hvalue]
  by_cases heven : m % 2 = 0 ∨ toRat dt < 1 / 2 * 2 ^ e
  · have hstill := nearest_add_of_le_half hfull hfits.lt hfits.least hdt.le hhalf heven
    rw [hstill, hstill]
  · obtain ⟨hodd, hexact⟩ := not_or.mp heven
    rw [le_antisymm hhalf (not_lt.mp hexact),
      nearest_add_half_of_odd hfull hfits.lt hfits.least (by omega)]
    rcases Nat.lt_or_eq_of_le (Nat.succ_le_of_lt hfits.lt) with hlt | hcarry
    · exact nearest_add_of_le_half (by omega) hlt hfits.least (by positivity) le_rfl
        (.inl (by omega))
    · have hnext : ((m + 1 : ℕ) : ℚ) * 2 ^ e = (2 ^ 23 : ℕ) * 2 ^ (e + 1) := by
        rw [show m + 1 = 2 ^ 24 from hcarry, zpow_add_one₀ (by norm_num)]
        norm_num
        ring
      have hleast := hfits.least
      rw [hnext]
      refine nearest_add_of_le_half (by norm_num) (by norm_num) (by omega) (by positivity) ?_
        (.inl (by norm_num))
      exact mul_le_mul_of_nonneg_left (zpow_le_zpow_right₀ (by norm_num) (by omega)) (by norm_num)

/-- How far a number is brought by adding `dt` to it again and again: to the horizon, or one step
further if it is beyond that. -/
def reach (dt x : Float32) : ℚ :=
  max (horizon dt) (nearest (toRat x + toRat dt))

theorem reach_of_le_horizon (hx : 0 ≤ toRat x) (hdt : 0 < toRat dt) (h : toRat x ≤ horizon dt) :
    reach dt x = horizon dt :=
  max_eq_left (nearest_add_le_horizon hx hdt h hdt.le le_rfl)

theorem nearest_add_le_reach {y : ℚ} (hx : 0 ≤ toRat x) (hdt : 0 < toRat dt) (hy : 0 ≤ y)
    (hle : y ≤ toRat dt) (h : y = toRat dt ∨ toRat x ≤ horizon dt) :
    nearest (toRat x + y) ≤ reach dt x := by
  rcases h with rfl | h
  · exact le_max_right _ _
  · exact (nearest_add_le_horizon hx hdt h hy hle).trans (le_max_left _ _)

/-- A step does not change how far a number is brought. -/
theorem reach_add {y : ℚ} {z : Float32} (hx : 0 ≤ toRat x) (hdt : 0 < toRat dt) (hy : 0 ≤ y)
    (hle : y ≤ toRat dt) (h : y = toRat dt ∨ toRat x ≤ horizon dt)
    (hz : toRat z = nearest (toRat x + y)) : reach dt z = reach dt x := by
  rcases le_or_gt (toRat x) (horizon dt) with hnear | hbeyond
  · have hnonneg : 0 ≤ toRat z := hz ▸ nearest_nonneg (add_nonneg hx hy)
    rw [reach_of_le_horizon hx hdt hnear, reach_of_le_horizon hnonneg hdt]
    rw [hz]
    exact nearest_add_le_horizon hx hdt hnear hy hle
  · obtain rfl : y = toRat dt := h.resolve_right (not_le.mpr hbeyond)
    unfold reach
    rw [hz, nearest_add_again hdt hbeyond]

/-! ## Counting steps -/

/-- The multiple of the least positive number that a number from 0 on is. -/
def units (x : Float32) : ℕ :=
  ⌊toRat x * 2 ^ 149⌋₊

theorem cast_units (hx : 0 ≤ toRat x) : (units x : ℚ) = toRat x * 2 ^ 149 := by
  obtain ⟨n, hn⟩ : ∃ n : ℕ, toRat x * 2 ^ 149 = n := by
    rcases exists_fits_of_nonneg hx with hzero | ⟨m, e, hfits, hvalue⟩
    · exact ⟨0, by rw [hzero, zero_mul, Nat.cast_zero]⟩
    · obtain ⟨k, rfl⟩ : ∃ k : ℕ, e = k - 149 := ⟨(e + 149).toNat, by have := hfits.least; omega⟩
      refine ⟨m * 2 ^ k, ?_⟩
      rw [hvalue, zpow_sub₀ (by norm_num), zpow_natCast]
      push_cast
      field_simp
      norm_num
  rw [units, hn, Nat.floor_natCast]

theorem units_le_units {y : Float32} (h : toRat x ≤ toRat y) : units x ≤ units y :=
  Nat.floor_le_floor (mul_le_mul_of_nonneg_right h (by positivity))

theorem units_lt_units {y : Float32} (hx : 0 ≤ toRat x) (h : toRat x < toRat y) :
    units x < units y := by
  have hscaled : toRat x * 2 ^ 149 < toRat y * 2 ^ 149 := by gcongr
  rw [← cast_units hx, ← cast_units (hx.trans h.le)] at hscaled
  exact_mod_cast hscaled

end Horizon

end Storyboard
