import Storyboard.Proofs.Json.Literals
import Storyboard.Proofs.Numeric.Doubles

/-! # Literals with a fraction or an exponent

Such a literal is a decimal `n * 10 ^ g`. It is read as a binary64 number that is near to the
decimal, but not always the nearest one: the power of ten is rounded, and the product or quotient
is rounded again.
-/

namespace Storyboard

open Float.Model.UnpackedFloat

/-! ## Scaling by powers of ten -/

/-- How far scaling can go amiss. -/
def scalingError : ℚ :=
  (1 + 1 / 2 ^ 50) / 2 ^ 52

/-- A rational is a decimal with the given exponent, scaled with binary64 numbers. -/
structure Scales (g : ℤ) (v q : ℚ) : Prop where
  near : |v - q| ≤ q * scalingError
  exact : g.natAbs ≤ 22 → ∀ (n : ℕ) (j : ℤ), n < 2 ^ 53 → q = n * 2 ^ j → v = q

section Scaling

variable {n k : ℕ} {p v : ℚ}

/-- A power of ten that is rounded to 53 bits. -/
theorem Rounds53.bounds (h : Rounds53 p (10 ^ k)) :
    10 ^ k * (1 - 1 / 2 ^ 53) ≤ p ∧ p ≤ 10 ^ k * (1 + 1 / 2 ^ 53) := by
  obtain ⟨hlow, hhigh⟩ := abs_le.mp h.near
  constructor <;> linarith

theorem Rounds53.pos (h : Rounds53 p (10 ^ k)) : 0 < p := by
  have hpow : (0 : ℚ) < 10 ^ k := by positivity
  linarith [h.bounds.1]

theorem inRange_mul (hn : 0 < n) (hlt : n < 2 ^ 53) (hk : k ≤ 60) (h : Rounds53 p (10 ^ k)) :
    InRange (n * p) := by
  have hone : (1 : ℚ) ≤ n := by exact_mod_cast hn
  have hnlt : (n : ℚ) ≤ 2 ^ 53 := by exact_mod_cast hlt.le
  have hten : (1 : ℚ) ≤ 10 ^ k := one_le_pow₀ (by norm_num)
  have hmost : (10 : ℚ) ^ k ≤ 10 ^ 60 := pow_le_pow_right₀ (by norm_num) hk
  obtain ⟨hlow, hhigh⟩ := h.bounds
  have hpos := h.pos
  constructor
  · calc (2 : ℚ) ^ (-900 : ℤ) ≤ 2 ^ (-1 : ℤ) := zpow_le_zpow_right₀ (by norm_num) (by norm_num)
      _ ≤ 1 * p := by
        norm_num
        linarith
      _ ≤ n * p := by gcongr
  · calc (n : ℚ) * p ≤ 2 ^ 53 * (2 * 10 ^ 60) := by
          gcongr
          linarith
      _ ≤ 2 ^ (254 : ℤ) := by norm_num
      _ ≤ 2 ^ (900 : ℤ) := zpow_le_zpow_right₀ (by norm_num) (by norm_num)

theorem inRange_div (hn : 0 < n) (hlt : n < 2 ^ 53) (hk : k ≤ 60) (h : Rounds53 p (10 ^ k)) :
    InRange (n / p) := by
  have hone : (1 : ℚ) ≤ n := by exact_mod_cast hn
  have hnlt : (n : ℚ) ≤ 2 ^ 53 := by exact_mod_cast hlt.le
  have hten : (1 : ℚ) ≤ 10 ^ k := one_le_pow₀ (by norm_num)
  have hmost : (10 : ℚ) ^ k ≤ 10 ^ 60 := pow_le_pow_right₀ (by norm_num) hk
  obtain ⟨hlow, hhigh⟩ := h.bounds
  have hpos := h.pos
  constructor
  · rw [le_div_iff₀ hpos]
    calc (2 : ℚ) ^ (-900 : ℤ) * p ≤ 2 ^ (-201 : ℤ) * (2 * 10 ^ 60) := by
          gcongr
          · norm_num
          · norm_num
          · linarith
      _ ≤ 1 := by norm_num
      _ ≤ n := hone
  · rw [div_le_iff₀ hpos]
    calc (n : ℚ) ≤ 2 ^ (54 : ℤ) * (1 / 2) := by
          norm_num at hnlt ⊢
          exact hnlt
      _ ≤ 2 ^ (900 : ℤ) * p := by
        gcongr
        · norm_num
        · norm_num
        · linarith

/-- Rounding twice misses by not much more than two parts in `2 ^ 53`. -/
theorem near_of_near {u q : ℚ} (hq : 0 ≤ q) (hu : |u - q| ≤ q / 2 ^ 53 ∨ |u - q| ≤ u / 2 ^ 53)
    (hv : |v - u| ≤ u / 2 ^ 53) : |v - q| ≤ q * scalingError := by
  obtain ⟨hvlow, hvhigh⟩ := abs_le.mp hv
  unfold scalingError
  rw [abs_le]
  rcases hu with hu | hu <;> obtain ⟨hulow, huhigh⟩ := abs_le.mp hu <;>
    constructor <;> norm_num at * <;> linarith

/-- The product of a whole number with a power of ten. -/
theorem scales_mul (hp : Rounds53 p (10 ^ k)) (hexact : k ≤ 22 → p = 10 ^ k)
    (hv : Rounds53 v (n * p)) : Scales k v (n * 10 ^ k) := by
  constructor
  · refine near_of_near (by positivity) (.inl ?_) hv.near
    rw [← mul_sub, abs_mul, abs_of_nonneg (Nat.cast_nonneg n), mul_div_assoc]
    exact mul_le_mul_of_nonneg_left hp.near (Nat.cast_nonneg n)
  · intro hk i j hi heq
    rw [hexact (by omega)] at hv
    exact hv.exact i j hi heq

/-- The quotient of a whole number by a power of ten. -/
theorem scales_div (hp : Rounds53 p (10 ^ k)) (hexact : k ≤ 22 → p = 10 ^ k)
    (hv : Rounds53 v (n / p)) : Scales (-k) v (n / 10 ^ k) := by
  have hpos := hp.pos
  have hpow : (0 : ℚ) < 10 ^ k := by positivity
  constructor
  · refine near_of_near (by positivity) (.inr ?_) hv.near
    have hsplit : n / p - n / 10 ^ k = n / p * ((10 ^ k - p) / 10 ^ k) := by
      field_simp
    have hratio : |(10 ^ k - p) / 10 ^ k| ≤ 1 / 2 ^ 53 := by
      rw [abs_div, abs_of_pos hpow, abs_sub_comm, div_le_iff₀ hpow]
      linarith [hp.near]
    rw [hsplit, abs_mul, abs_of_nonneg (by positivity : 0 ≤ n / p), div_eq_mul_one_div (n / p : ℚ)]
    exact mul_le_mul_of_nonneg_left hratio (by positivity)
  · intro hk i j hi heq
    rw [hexact (by omega)] at hv
    exact hv.exact i j hi heq

end Scaling

namespace Json.Literal

theorem exists_powerOfTen {k : ℕ} (hk : k ≤ 60) :
    ∃ p, HasValue (powerOfTen k) .positive p ∧ Rounds53 p (10 ^ k) ∧ (k ≤ 22 → p = 10 ^ k) := by
  rcases Nat.lt_or_ge 22 k with hlarge | hsmall
  · obtain ⟨p, hvalue, hrounds⟩ := exists_hasValue_powerOfTen hk
    exact ⟨p, hvalue, hrounds, fun h => absurd h (Nat.not_le_of_lt hlarge)⟩
  · exact ⟨10 ^ k, hasValue_powerOfTen hsmall, ⟨by simp; positivity, fun _ _ _ _ => rfl⟩,
      fun _ => rfl⟩

/-- A whole number is scaled to a binary64 number near to the decimal. -/
theorem exists_scale? {n : ℕ} (hn : 0 < n) (hlt : n < 2 ^ 53) {g : ℤ} (hg : g.natAbs ≤ 60) :
    ∃ y v, scale? n.toUInt64.toFloat g = some y ∧ HasValue y .positive v ∧
      Scales g v (n * 10 ^ g) := by
  have hwhole := hasValue_toFloat hn hlt
  cases g with
  | ofNat k =>
      have hk : k ≤ 60 := hg
      obtain ⟨p, hpower, hrounds, hexact⟩ := exists_powerOfTen hk
      obtain ⟨v, hvalue, hv⟩ := hwhole.mul hpower (inRange_mul hn hlt hk hrounds)
      refine ⟨_, v, ?_, hvalue, ?_⟩
      · unfold scale?
        dsimp only
        rw [if_pos (by omega), hvalue.isInf_eq_false]
        rfl
      · rw [Int.ofNat_eq_natCast, zpow_natCast]
        exact scales_mul hrounds hexact hv
  | negSucc k =>
      have hk : k + 1 ≤ 60 := hg
      obtain ⟨p, hpower, hrounds, hexact⟩ := exists_powerOfTen hk
      obtain ⟨v, hvalue, hv⟩ := hwhole.div hpower (inRange_div hn hlt hk hrounds)
      refine ⟨_, v, ?_, hvalue, ?_⟩
      · unfold scale? shrink
        dsimp only
        rw [if_pos (by omega)]
      · rw [zpow_negSucc, ← div_eq_mul_inv, Int.negSucc_eq]
        exact scales_div hrounds hexact hv

/-! ## The decimal of a literal -/

/-- All digits of a literal, as one whole number. -/
def significand (l : Literal) : ℕ :=
  ofDigits (l.whole ++ l.fraction.getD [])

/-- The exponent that is written. -/
def writtenExponent (l : Literal) : ℤ :=
  match l.exponent with
  | none => 0
  | some (negative, digits) => if negative then -ofDigits digits else ofDigits digits

/-- The exponent of the last digit. -/
def power (l : Literal) : ℤ :=
  l.writtenExponent - (l.fraction.getD []).length

/-- A literal that is not a mere whole number is read by scaling its digits, if there are not
too many of them. -/
theorem value?_eq_scale? {l : Literal} (h : l.fraction ≠ none ∨ l.exponent ≠ none)
    (hdigits : l.significand < 2 ^ 64) (hpower : l.writtenExponent.natAbs < 2 ^ 31) :
    l.value? = (scale? l.significand.toUInt64.toFloat l.power).map fun x =>
      .double (if l.negative then -x else x) := by
  obtain ⟨negative, whole, fraction, exponent⟩ := l
  have hwhole : gather 0 whole = (ofDigits whole, []) :=
    gather_eq [] whole ((ofDigits_le_append whole _).trans_lt hdigits)
  have hall : gather (ofDigits whole) (fraction.getD []) =
      (ofDigits (whole ++ fraction.getD []), []) := gather_eq whole _ hdigits
  have hlimit : exponentLimit = 2 ^ 31 := rfl
  unfold value?
  simp only [hwhole]
  cases exponent with
  | none =>
      cases fraction with
      | none => simp at h
      | some digits =>
          simp only [Option.getD_some] at hall
          simp [hall, significand, power, writtenExponent, hlimit]
  | some e =>
      obtain ⟨down, digits⟩ := e
      have hlt : ofDigits digits < exponentLimit := by
        rw [hlimit]
        cases down <;> simpa [writtenExponent] using hpower
      cases fraction with
      | none => 
          simp [gather, hlt, significand, power, writtenExponent]
      | some digits =>
          simp only [Option.getD_some] at hall
          simp [hall, hlt, significand, power, writtenExponent, sub_eq_add_neg, add_comm]

end Json.Literal

end Storyboard
