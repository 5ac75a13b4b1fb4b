import Storyboard.Json.Number
import Storyboard.Proofs.Numeric.Bounds
import Storyboard.Proofs.Numeric.Widening

/-! # Arithmetic of binary64 numbers

A literal is read by way of binary64. This module is about positive numbers of that format, far
from the ends of its range: such a number has 53 bits, and every operation rounds the exact
result to the nearest number of 53 bits.
-/

namespace Storyboard

open Float.Model (Format UnpackedFloat totalExponent)
open Float.Model.UnpackedFloat

/-! ## Values -/

/-- The number has a sign and a positive value of 53 bits. -/
inductive HasValue (y : Float) (s : Sign) : ℚ → Prop
  | intro {m : ℕ} {e : ℤ} (pos : 0 < m) (parts : y.toModel.unpack = .finite s m e pos)
      (full : 2 ^ 52 ≤ m ∧ m < 2 ^ 53) (range : -1074 < e ∧ e ≤ 900) : HasValue y s (m * 2 ^ e)

/-- A rational is another one, rounded to 53 bits. -/
structure Rounds53 (v q : ℚ) : Prop where
  near : |v - q| ≤ q / 2 ^ 53
  exact : ∀ (n : ℕ) (j : ℤ), n < 2 ^ 53 → q = n * 2 ^ j → v = q

/-- The value is far from the ends of the range of binary64. -/
structure InRange (q : ℚ) : Prop where
  low : (2 : ℚ) ^ (-900 : ℤ) ≤ q
  high : q ≤ 2 ^ (900 : ℤ)

/-! ## Rounding -/

/-- A mantissa with one bit too many, which rounding can make, is shifted once more. -/
theorem carry_double (s : Sign) {r : ℕ} {t : ℤ} (hlow : 2 ^ 52 ≤ r) (hhigh : r ≤ 2 ^ 53)
    (ht : -1074 ≤ t) :
    ∃ (m : ℕ) (e : ℤ) (hm : 0 < m),
      (let shifted := shiftToTargetExponent .binary64 r t .exact
       if h : shifted.1.mantissa = 0 then .zero s
       else .finite s shifted.1.mantissa shifted.2 (Nat.pos_of_ne_zero h)) =
        UnpackedFloat.finite s m e hm ∧
      2 ^ 52 ≤ m ∧ m < 2 ^ 53 ∧ (m : ℚ) * 2 ^ e = r * 2 ^ t ∧ t ≤ e ∧ e ≤ t + 1 := by
  have hpos : 0 < r := (Nat.two_pow_pos 52).trans_le hlow
  rcases hhigh.lt_or_eq with hlt | rfl
  · have hlog : r.log2 = 52 := (Nat.log2_eq_iff hpos.ne').mpr ⟨hlow, hlt⟩
    refine ⟨r, t, hpos, ?_, hlow, hlt, rfl, le_rfl, by omega⟩
    rw [shift_double hlog ht]
    exact dif_neg hpos.ne'
  · have hshift : shiftToTargetExponent .binary64 (2 ^ 53) t .exact =
        (⟨2 ^ 52, false, false⟩, t + 1) := by
      have hone : (max (((2 ^ 53 : ℕ).log2 : ℤ) + t - 52) (-1074) - t).toNat = 1 := by
        rw [Nat.log2_two_pow]
        omega
      unfold shiftToTargetExponent shiftToExponent
      dsimp only
      rw [targetExponent_double, hone]
      rfl
    refine ⟨2 ^ 52, t + 1, Nat.two_pow_pos 52, ?_, le_rfl, by norm_num, ?_, by omega, le_rfl⟩
    · rw [hshift]
      exact dif_neg (Nat.two_pow_pos 52).ne'
    · rw [zpow_add_one₀ (by norm_num)]
      push_cast
      ring

/-- Rounding to whole numbers of 53 bits misses by at most one part in `2 ^ 53`. -/
theorem abs_halfEven_sub_le_div {x : ℚ} (hx : 2 ^ 52 ≤ x) :
    |(halfEven x : ℚ) - x| ≤ x / 2 ^ 53 := by
  have hhalf := abs_halfEven_sub_le x
  have hge : (1 : ℚ) / 2 ≤ x / 2 ^ 53 := by
    rw [le_div_iff₀ (by positivity)]
    linarith
  exact hhalf.trans hge

/-- A rational of at least 52 bits that has 53 bits on some grid is whole. -/
theorem exists_eq_natCast {x : ℚ} (hx : 2 ^ 52 ≤ x) {n : ℕ} {j : ℤ} (hn : n < 2 ^ 53)
    (heq : x = n * 2 ^ j) : ∃ k : ℕ, x = k := by
  have hj : 0 ≤ j := by
    by_contra hneg
    have hpow : (2 : ℚ) ^ j ≤ 2 ^ (-1 : ℤ) := zpow_le_zpow_right₀ (by norm_num) (by omega)
    have hlt : (n : ℚ) < 2 ^ 53 := by exact_mod_cast hn
    have hprod : (n : ℚ) * 2 ^ j ≤ n * 2 ^ (-1 : ℤ) := by gcongr
    norm_num only [zpow_neg_one] at hprod
    linarith
  obtain ⟨i, rfl⟩ := Int.eq_ofNat_of_zero_le hj
  exact ⟨n * 2 ^ i, by rw [heq]; push_cast; rfl⟩

theorem hasValue_ofModel_pack (s : Sign) {m : ℕ} {e : ℤ} (hm : 0 < m)
    (hfull : 2 ^ 52 ≤ m ∧ m < 2 ^ 53) (hrange : -1074 < e ∧ e ≤ 900) :
    HasValue (.ofModel (.pack (.finite s m e hm))) s (m * 2 ^ e) := by
  refine .intro hm ?_ hfull hrange
  refine @unpack_pack_full .binary64 s _ e hm hfull.1 hfull.2 ?_ ?_
  · change 0 < e + 1023 + 52
    omega
  · change (e + 1023 + 52).toNat + 1 < 2048
    omega

/-- Rounding to whole numbers on a grid is rounding to 53 bits there. -/
theorem rounds53_halfEven {z : ℚ} (hz : 2 ^ 52 ≤ z) (t : ℤ) :
    Rounds53 (halfEven z * 2 ^ t) (z * 2 ^ t) := by
  have hpow : (0 : ℚ) < 2 ^ t := by positivity
  constructor
  · rw [← sub_mul, abs_mul, abs_of_pos hpow, mul_div_right_comm]
    gcongr
    exact abs_halfEven_sub_le_div hz
  · intro n j hn heq
    have hgrid : z = n * 2 ^ (j - t) := by
      rw [zpow_sub₀ (by norm_num), ← mul_div_assoc, ← heq, mul_div_cancel_right₀ _ hpow.ne']
    obtain ⟨w, rfl⟩ := exists_eq_natCast hz hn hgrid
    have hsame : halfEven (w : ℚ) = w := by exact_mod_cast halfEven_intCast (w : ℤ)
    rw [hsame, Int.cast_natCast]

theorem InRange.exponent_bounds {z : ℚ} {t : ℤ} (h : InRange (z * 2 ^ t)) (hlow : 2 ^ 52 ≤ z)
    (hhigh : z < 2 ^ 53) : -1000 ≤ t ∧ t ≤ 848 := by
  constructor
  · have hlt : (2 : ℚ) ^ (-900 : ℤ) < 2 ^ (53 + t) := by
      refine h.low.trans_lt ?_
      rw [zpow_add₀ (by norm_num)]
      gcongr
      exact_mod_cast hhigh
    have hexponent := (zpow_lt_zpow_iff_right₀ (by norm_num)).mp hlt
    omega
  · have hle : (2 : ℚ) ^ (52 + t) ≤ 2 ^ (900 : ℤ) := by
      refine le_trans ?_ h.high
      rw [zpow_add₀ (by norm_num)]
      gcongr
      exact_mod_cast hlow
    have hexponent := (zpow_le_zpow_iff_right₀ (by norm_num)).mp hle
    omega

/-- A mantissa that has enough bits is shifted down to 53 of them, and then rounded. -/
theorem roundWithAccuracy_eq_finite (s : Sign) {m k : ℕ} {e : ℤ} {acc : Accuracy} {z : ℚ}
    (h : StandsFor (ExtendedMantissa.ofMantissaAndAccuracy m acc >>> k) z)
    (hlog : m.log2 = 52 + k) (hlow : 2 ^ 52 ≤ z) (hhigh : z < 2 ^ 53) (he : -1074 ≤ e + k) :
    ∃ (n : ℕ) (d : ℤ) (hn : 0 < n),
      roundWithAccuracy .binary64 s m e acc = .finite s n d hn ∧ 2 ^ 52 ≤ n ∧ n < 2 ^ 53 ∧
        (n : ℚ) * 2 ^ d = halfEven z * 2 ^ (e + k) ∧ e + k ≤ d ∧ d ≤ e + k + 1 := by
  have hround := h.roundedMantissa_eq
  obtain ⟨r, hr⟩ : ∃ r, (ExtendedMantissa.ofMantissaAndAccuracy m acc >>> k).roundedMantissa = r :=
    ⟨_, rfl⟩
  rw [hr] at hround
  have hrlow : 2 ^ 52 ≤ r := by
    have hle := le_halfEven (n := 2 ^ 52) (q := z) (by exact_mod_cast hlow)
    omega
  have hrhigh : r ≤ 2 ^ 53 := by
    have hle := halfEven_le (n := 2 ^ 53) (q := z) (by exact_mod_cast hhigh.le)
    omega
  have hfirst : shiftToTargetExponent .binary64 m e acc =
      (ExtendedMantissa.ofMantissaAndAccuracy m acc >>> k, e + k) := by
    unfold shiftToTargetExponent shiftToExponent
    dsimp only
    rw [targetExponent_double, show max ((m.log2 : ℤ) + e - 52) (-1074) = e + k by omega,
      show (e + k - e).toNat = k by omega]
  obtain ⟨n, d, hn, hfinite, hnlow, hnhigh, hcarry, hdlow, hdhigh⟩ := carry_double s hrlow hrhigh he
  refine ⟨n, d, hn, ?_, hnlow, hnhigh, ?_, hdlow, hdhigh⟩
  · unfold roundWithAccuracy
    rw [hfirst]
    dsimp only
    rw [hr]
    exact hfinite
  · rw [hcarry, ← hround, Int.cast_natCast]

/-- The bitwise procedure rounds a mantissa that has enough bits. -/
theorem roundWithAccuracy_hasValue (s : Sign) {m : ℕ} {e : ℤ} {acc : Accuracy} {x : ℚ}
    (h : StandsFor (.ofMantissaAndAccuracy m acc) x) (hlog : 52 ≤ m.log2)
    (hrange : InRange (x * 2 ^ e)) :
    ∃ v, HasValue (.ofModel (.pack (roundWithAccuracy .binary64 s m e acc))) s v ∧
      Rounds53 v (x * 2 ^ e) := by
  have hm : 0 < m := by
    rcases Nat.eq_zero_or_pos m with rfl | hm
    · cases hlog
    · exact hm
  have hbounds := h.pos_log2 (by rwa [mantissa_ofMantissaAndAccuracy])
  rw [mantissa_ofMantissaAndAccuracy] at hbounds
  obtain ⟨k, hk⟩ : ∃ k, m.log2 = 52 + k := ⟨m.log2 - 52, by omega⟩
  rw [hk, pow_add, show 52 + k + 1 = 53 + k by omega, pow_add] at hbounds
  obtain ⟨hxlow, hxhigh⟩ := hbounds
  have hpow : (0 : ℚ) < 2 ^ k := by positivity
  -- the exact result on the grid on which it is rounded
  obtain ⟨z, hz⟩ : ∃ z, x / 2 ^ k = z := ⟨_, rfl⟩
  have hzlow : 2 ^ 52 ≤ z := by rwa [← hz, le_div_iff₀ hpow]
  have hzhigh : z < 2 ^ 53 := by rwa [← hz, div_lt_iff₀ hpow]
  have hvalue : x * 2 ^ e = z * 2 ^ (e + k) := by
    rw [← hz, zpow_add₀ (by norm_num), zpow_natCast]
    field_simp
  rw [hvalue] at hrange ⊢
  obtain ⟨hleast, hmost⟩ := hrange.exponent_bounds hzlow hzhigh
  obtain ⟨n, d, hn, hparts, hnlow, hnhigh, heq, hdlow, hdhigh⟩ :=
    roundWithAccuracy_eq_finite (e := e) s (hz ▸ h.shiftRight k) hk hzlow hzhigh (by omega)
  rw [hparts]
  exact ⟨n * 2 ^ d, hasValue_ofModel_pack s hn ⟨hnlow, hnhigh⟩ (by omega),
    heq ▸ rounds53_halfEven hzlow (e + k)⟩

/-! ## Operations -/

section Operations

variable {x y : Float} {s t : Sign} {u v : ℚ}

theorem HasValue.pos (h : HasValue x s u) : 0 < u := by
  cases h with
  | intro pos => exact magnitude_pos pos _

theorem HasValue.isInf_eq_false (h : HasValue x s u) : x.isInf = false := by
  cases h with
  | intro pos parts =>
      change x.toModel.unpack.isInf = false
      rw [parts]
      rfl

theorem HasValue.neg (h : HasValue x s u) : HasValue (-x) (-s) u := by
  cases h with
  | @intro m e pos parts full range =>
      have hneg : -x = .ofModel (.pack (.finite (-s) m e pos)) := by
        change Float.ofModel (.pack x.toModel.unpack.neg) = _
        rw [parts]
        rfl
      rw [hneg]
      exact hasValue_ofModel_pack (-s) pos full range

/-- A product is the exact product, rounded. -/
theorem HasValue.mul (hx : HasValue x s u) (hy : HasValue y t v) (hrange : InRange (u * v)) :
    ∃ w, HasValue (x * y) (s * t) w ∧ Rounds53 w (u * v) := by
  cases hx with
  | @intro m d hm hparts hfull =>
      cases hy with
      | @intro n e hn hparts' hfull' =>
          have hproduct : x * y =
              .ofModel (.pack (roundWithAccuracy .binary64 (s * t) (m * n) (d + e) .exact)) := by
            change Float.ofModel (.pack (UnpackedFloat.mul .binary64 x.toModel.unpack
              y.toModel.unpack)) = _
            rw [hparts, hparts']
            rfl
          have hvalue : (m : ℚ) * 2 ^ d * (n * 2 ^ e) = (m * n : ℕ) * 2 ^ (d + e) := by
            rw [zpow_add₀ (by norm_num)]
            push_cast
            ring
          have hlog : 52 ≤ (m * n).log2 := by
            rw [Nat.le_log2 (Nat.mul_pos hm hn).ne']
            exact hfull.1.trans (Nat.le_mul_of_pos_right m hn)
          rw [hvalue] at hrange ⊢
          rw [hproduct]
          exact roundWithAccuracy_hasValue (s * t) (standsFor_exact (m * n)) hlog hrange

/-- The dividend is shifted so that the quotient of two full mantissas is full. -/
theorem divCore_double {m n : ℕ} {d e : ℤ} (hm : m.log2 = 52) (hn : n.log2 = 52)
    (hde : -1000 ≤ d - e) :
    divCore .binary64 m d n e =
      (m * 2 ^ 53 / n, d - e - 53, accuracyOfFraction (m * 2 ^ 53 % n) n) := by
  have htarget : min (d - e) (Format.binary64.targetExponent
      (totalExponent m d - totalExponent n e)) = d - e - 53 := by
    change min (d - e) (max (((m.log2 : ℤ) + 1 + d) - ((n.log2 : ℤ) + 1 + e) - 53) (-1074)) = _
    omega
  unfold divCore
  dsimp only
  rw [htarget, show (d - e - (d - e - 53)).toNat = 53 by omega, Nat.shiftLeft_eq]

/-- A quotient is the exact quotient, rounded. -/
theorem HasValue.div (hx : HasValue x s u) (hy : HasValue y t v) (hrange : InRange (u / v)) :
    ∃ w, HasValue (x / y) (s / t) w ∧ Rounds53 w (u / v) := by
  cases hx with
  | @intro m d hm hparts hfull =>
      cases hy with
      | @intro n e hn hparts' hfull' =>
          have hnpos : (0 : ℚ) < n := by exact_mod_cast hn
          have hvalue : (m : ℚ) * 2 ^ d / (n * 2 ^ e) =
              (m * 2 ^ 53 : ℕ) / n * 2 ^ (d - e - 53) := by
            rw [zpow_sub₀ (by norm_num), zpow_sub₀ (by norm_num)]
            push_cast
            field_simp
          have hde : -1000 ≤ d - e := by
            have hquotient : ((m * 2 ^ 53 : ℕ) : ℚ) / n ≤ 2 ^ 54 := by
              rw [div_le_iff₀ hnpos]
              have hle : m * 2 ^ 53 ≤ 2 ^ 54 * n := by omega
              exact_mod_cast hle
            have hle : (2 : ℚ) ^ (-900 : ℤ) ≤ 2 ^ (54 + (d - e - 53)) := by
              refine hrange.low.trans ?_
              rw [hvalue, zpow_add₀ (by norm_num)]
              gcongr
              exact_mod_cast hquotient
            have := (zpow_le_zpow_iff_right₀ (by norm_num)).mp hle
            omega
          have hcore := divCore_double ((Nat.log2_eq_iff hm.ne').mpr hfull)
            ((Nat.log2_eq_iff hn.ne').mpr hfull') hde
          have hquotient : x / y = .ofModel (.pack (roundWithAccuracy .binary64 (s / t)
              (m * 2 ^ 53 / n) (d - e - 53) (accuracyOfFraction (m * 2 ^ 53 % n) n))) := by
            change Float.ofModel (.pack (UnpackedFloat.div .binary64 x.toModel.unpack
              y.toModel.unpack)) = _
            rw [hparts, hparts']
            unfold UnpackedFloat.div
            dsimp only
            rw [hcore]
          have hlog : 52 ≤ (m * 2 ^ 53 / n).log2 := by
            have hge : 2 ^ 52 ≤ m * 2 ^ 53 / n := by
              rw [Nat.le_div_iff_mul_le hn]
              omega
            exact (Nat.le_log2 (by omega)).mpr hge
          rw [hvalue] at hrange ⊢
          rw [hquotient]
          exact roundWithAccuracy_hasValue (s / t) (standsFor_fraction _ hn) hlog hrange

end Operations

/-! ## Whole numbers and powers of ten -/

theorem hasValue_toFloat {n : ℕ} (hn : 0 < n) (hlt : n < 2 ^ 53) :
    HasValue n.toUInt64.toFloat .positive n := by
  have hlog : n.log2 < 53 := (Nat.log2_lt hn.ne').mpr hlt
  have hfull := log2_filled hn hlt
  have hcount : n.toUInt64.toNat = n := by
    rw [Nat.toUInt64, UInt64.toNat_ofNat', Nat.mod_eq_of_lt (by omega)]
  have hparts : n.toUInt64.toFloat = .ofModel (.pack
      (.finite .positive (filled n) (0 - (52 - n.log2 : ℕ)) (filled_pos hn))) := by
    rw [← round_double .positive hn hlt (by norm_num : (-1000 : ℤ) ≤ 0)]
    change Float.ofModel (.pack (UnpackedFloat.normalize .binary64 (n.toUInt64.toNat : ℤ) 0
      .positive)) = _
    rw [hcount]
    unfold UnpackedFloat.normalize
    rw [Int.compare_eq_gt.mpr (by omega)]
    rfl
  have hvalue := filled_value (m := n) 0
  rw [zpow_zero, mul_one] at hvalue
  rw [hparts, ← hvalue]
  exact hasValue_ofModel_pack .positive _ ((Nat.log2_eq_iff (filled_pos hn).ne').mp hfull)
    (by omega)

open Json.Literal (powerOfTen)

/-- The parts of a power of ten that binary64 can express. -/
def IsExactPower (n : ℕ) : Bool :=
  match (powerOfTen n).toModel.unpack with
  | .finite .positive m e _ =>
      2 ^ 52 ≤ m && m < 2 ^ 53 && -1074 < e && e ≤ 900 &&
        m * 2 ^ e.toNat == 10 ^ n * 2 ^ (-e).toNat
  | _ => false

theorem isExactPower_of_le : ∀ n : Fin 23, IsExactPower n = true := by
  decide +kernel

theorem hasValue_powerOfTen {n : ℕ} (hn : n ≤ 22) :
    HasValue (powerOfTen n) .positive (10 ^ n) := by
  have hpower := isExactPower_of_le ⟨n, by omega⟩
  unfold IsExactPower at hpower
  split at hpower
  · next m e hm hparts =>
    simp only [Bool.and_eq_true, decide_eq_true_eq, beq_iff_eq] at hpower
    obtain ⟨⟨⟨⟨hlow, hhigh⟩, hleast⟩, hmost⟩, hvalue⟩ := hpower
    have hcast : (m : ℚ) * 2 ^ e.toNat = 10 ^ n * 2 ^ (-e).toNat := by exact_mod_cast hvalue
    have hsplit := zpow_mul_pow_toNat (b := 2) (by norm_num) e
    have heq : (10 : ℚ) ^ n = m * 2 ^ e := by
      have hpow : (0 : ℚ) < 2 ^ (-e).toNat := by positivity
      rw [← mul_left_inj' hpow.ne', mul_assoc, hsplit, hcast]
    rw [heq]
    exact .intro hm hparts ⟨hlow, hhigh⟩ ⟨hleast, hmost⟩
  · cases hpower

theorem inRange_ten_pow {n : ℕ} (hn : n ≤ 60) : InRange (10 ^ n) := by
  constructor
  · calc (2 : ℚ) ^ (-900 : ℤ) ≤ 1 := zpow_le_one_of_nonpos₀ (by norm_num) (by norm_num)
      _ ≤ 10 ^ n := one_le_pow₀ (by norm_num)
  · calc (10 : ℚ) ^ n ≤ 10 ^ 60 := pow_le_pow_right₀ (by norm_num) hn
      _ ≤ 2 ^ (200 : ℤ) := by norm_num
      _ ≤ 2 ^ (900 : ℤ) := zpow_le_zpow_right₀ (by norm_num) (by norm_num)

/-- Larger powers of ten are rounded. -/
theorem exists_hasValue_powerOfTen {n : ℕ} (hn : n ≤ 60) :
    ∃ p, HasValue (powerOfTen n) .positive p ∧ Rounds53 p (10 ^ n) := by
  rcases Nat.lt_or_ge 22 n with hlarge | hsmall
  · have hdigits : 0 < 10 ^ n := Nat.pow_pos (by norm_num)
    have hpower : powerOfTen n = .ofModel (.pack (roundWithAccuracy .binary64 .positive
        (2 ^ 53 * 10 ^ n) (-53) .exact)) := by
      change Float.ofScientific 1 false n = _
      unfold Float.ofScientific
      rw [dif_neg (by omega)]
      change Float.ofModel (.pack (UnpackedFloat.ofScientific .binary64 1 (n : ℤ))) = _
      unfold UnpackedFloat.ofScientific
      have hbits : (2 : ℤ) ^ Format.binary64.exponentBits = 2048 := rfl
      rw [dif_neg one_ne_zero, hbits, if_neg (by omega), if_neg (by omega), if_pos (by omega)]
      rfl
    have hvalue : ((2 ^ 53 * 10 ^ n : ℕ) : ℚ) * 2 ^ (-53 : ℤ) = 10 ^ n := by
      push_cast
      norm_num
      ring
    have hlog : 52 ≤ (2 ^ 53 * 10 ^ n).log2 := by
      rw [Nat.le_log2 (by positivity)]
      omega
    rw [hpower, ← hvalue]
    refine roundWithAccuracy_hasValue .positive (standsFor_exact _) hlog ?_
    rw [hvalue]
    exact inRange_ten_pow hn
  · exact ⟨10 ^ n, hasValue_powerOfTen hsmall, by simp; positivity, fun _ _ _ _ => rfl⟩

/-! ## Rounding to binary32 -/

/-- A binary64 number is rounded once more to become a binary32 number. -/
theorem HasValue.rounds_narrow {y : Float} {s : Sign} {v : ℚ} (h : HasValue y s v) :
    Rounds (narrow y) (signed s v) := by
  cases h with
  | @intro m e pos parts =>
      have hnarrow : narrow y = .ofModel (.pack (UnpackedFloat.round .binary32 s m e)) := by
        unfold narrow
        rw [parts]
      rw [hnarrow]
      exact (round_encodes s e pos).rounds (magnitude_pos pos e).le

end Storyboard
