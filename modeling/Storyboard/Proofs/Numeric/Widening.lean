import Storyboard.Proofs.Numeric.Arithmetic

/-! # Numbers of both formats

The mantissa of a binary64 number is longer and its exponent has more room. So a binary32
number can be widened without any rounding, and it is found again when the result is rounded
to binary32.
-/

namespace Storyboard

open Float.Model
open Float.Model.UnpackedFloat

/-! ## Rounding to binary64 -/

theorem targetExponent_double (m : ℕ) (e : ℤ) :
    Format.binary64.targetExponent (totalExponent m e) = max (m.log2 + e - 52) (-1074) := by
  change max ((m.log2 : ℤ) + 1 + e - 53) (-1074) = _
  congr 1
  ring

/-- A mantissa that has all the bits already is not shifted. -/
theorem shift_double {m : ℕ} {e : ℤ} (hlog : m.log2 = 52) (he : -1074 ≤ e) :
    shiftToTargetExponent .binary64 m e .exact = (⟨m, false, false⟩, e) := by
  have hzero : (max ((m.log2 : ℤ) + e - 52) (-1074) - e).toNat = 0 := by omega
  unfold shiftToTargetExponent shiftToExponent
  dsimp only
  rw [targetExponent_double, hzero]
  exact congrArg (Prod.mk _) (add_zero e)

theorem roundWithAccuracy_double (s : Sign) {m : ℕ} {e : ℤ} (hm : 0 < m) (hlog : m.log2 = 52)
    (he : -1074 ≤ e) : roundWithAccuracy .binary64 s m e .exact = .finite s m e hm := by
  have hsame : ExtendedMantissa.roundedMantissa ⟨m, false, false⟩ = m := rfl
  unfold roundWithAccuracy
  rw [shift_double hlog he]
  dsimp only
  rw [hsame, shift_double hlog he]
  exact dif_neg hm.ne'

/-- A mantissa, filled up to the bits of binary64. -/
def filled (m : ℕ) : ℕ :=
  m * 2 ^ (52 - m.log2)

theorem log2_filled {m : ℕ} (hm : 0 < m) (hlt : m < 2 ^ 53) : (filled m).log2 = 52 := by
  have hlog : m.log2 < 53 := (Nat.log2_lt hm.ne').mpr hlt
  unfold filled
  rw [log2_mul_two_pow hm]
  omega

theorem filled_pos {m : ℕ} (hm : 0 < m) : 0 < filled m :=
  Nat.mul_pos hm (Nat.two_pow_pos _)

/-- A number of at most 53 bits is not changed by rounding. -/
theorem round_double (s : Sign) {m : ℕ} {e : ℤ} (hm : 0 < m) (hlt : m < 2 ^ 53)
    (he : -1000 ≤ e) :
    UnpackedFloat.round .binary64 s m e =
      .finite s (filled m) (e - (52 - m.log2 : ℕ)) (filled_pos hm) := by
  have hlog : m.log2 < 53 := (Nat.log2_lt hm.ne').mpr hlt
  have hshift : (e - max ((m.log2 : ℤ) + e - 52) (-1074)).toNat = 52 - m.log2 := by omega
  unfold UnpackedFloat.round decreaseExponent
  dsimp only
  rw [targetExponent_double, hshift, Nat.shiftLeft_eq]
  exact roundWithAccuracy_double s (filled_pos hm) (log2_filled hm hlt) (by omega)

/-! ## There and back -/

theorem parts_widen {x : Float32} {s : Sign} {m : ℕ} {e : ℤ} {hm : 0 < m}
    (hx : parts x = .finite s m e hm) :
    (widen x).toModel.unpack =
      .finite s (filled m) (e - (52 - m.log2 : ℕ)) (filled_pos hm) := by
  obtain ⟨hfits, he⟩ := fits_of_parts hx
  have hlt : m < 2 ^ 53 := hfits.lt.trans (by norm_num)
  have hlog := log2_filled hm hlt
  obtain ⟨hlo, hhi⟩ := (Nat.log2_eq_iff (filled_pos hm).ne').mp hlog
  have hleast := hfits.least
  have hwide : widen x = .ofModel (.pack (UnpackedFloat.round .binary64 s m e)) := by
    change x.toModel.unpack = _ at hx
    unfold widen
    rw [hx]
  rw [hwide, round_double s hm hlt (by omega)]
  have hrange : (-201 : ℤ) ≤ e - (52 - m.log2 : ℕ) ∧ e - (52 - m.log2 : ℕ) ≤ 104 := by omega
  generalize e - ((52 - m.log2 : ℕ) : ℤ) = d at hrange
  refine @unpack_pack_full .binary64 s _ d (filled_pos hm) hlo hhi ?_ ?_
  · change 0 < d + 1023 + 52
    omega
  · change (d + 1023 + 52).toNat + 1 < 2048
    omega

theorem filled_value {m : ℕ} (e : ℤ) :
    (filled m : ℚ) * 2 ^ (e - (52 - m.log2 : ℕ)) = m * 2 ^ e := by
  unfold filled
  rw [zpow_sub₀ (by norm_num), zpow_natCast]
  push_cast
  field_simp

/-- Widening loses nothing. -/
theorem narrow_widen (x : Float32) : narrow (widen x) = x := by
  cases hx : parts x with
  | finite s m e hm =>
      have hnarrow : narrow (widen x) = .ofModel (.pack (UnpackedFloat.round .binary32 s
          (filled m) (e - (52 - m.log2 : ℕ)))) := by
        unfold narrow
        rw [parts_widen hx]
      have hencodes := round_encodes s (e - (52 - m.log2 : ℕ)) (filled_pos hm)
      rw [filled_value] at hencodes
      have hvalue : toRat x = signed s (m * 2 ^ e) := congrArg ratOf hx
      have hrounds : Rounds (narrow (widen x)) (toRat x) := by
        rw [hnarrow, hvalue]
        exact hencodes.rounds (magnitude_pos hm e).le
      exact hrounds.eq_of_ne_zero (toRat_ne_zero_of_parts hx)
  | infinity s =>
      rw [← ofModel_pack_parts x, hx]
      cases s <;> rfl
  | notANumber =>
      rw [← ofModel_pack_parts x, hx]
      rfl
  | zero s =>
      rw [← ofModel_pack_parts x, hx]
      cases s <;> rfl

end Storyboard
