import Mathlib.Algebra.Order.Field.Power
import Mathlib.Data.Int.Log
import Mathlib.Data.Rat.Floor
import Mathlib.Tactic.Linarith
import Mathlib.Tactic.Positivity
import Mathlib.Tactic.Ring
import Storyboard.Proofs.Numeric.Encoding

/-! # Rounding to binary32

Every arithmetic operation computes an exact rational and rounds it once, to the nearest
multiple of a power of two that leaves at most 24 bits; of two equally near ones the even
one is taken. This module states that rule for rationals and shows that the bitwise
procedure, which shifts the mantissa and keeps two residual bits, follows it.
-/

namespace Storyboard

open Float.Model Float.Model.UnpackedFloat

/-- A power with an integer exponent, in whole powers. -/
theorem zpow_mul_pow_toNat {b : ℚ} (hb : b ≠ 0) (z : ℤ) : b ^ z * b ^ (-z).toNat = b ^ z.toNat := by
  rw [← zpow_natCast, ← zpow_natCast, ← zpow_add₀ hb]
  congr 1
  omega

/-! ## The nearest whole number -/

/-- The whole number nearest to a rational; of two equally near ones the even one. -/
def halfEven (q : ℚ) : ℤ :=
  if Int.fract q < 1 / 2 then ⌊q⌋
  else if 1 / 2 < Int.fract q then ⌊q⌋ + 1
  else ⌊q⌋ + ⌊q⌋ % 2

@[simp] theorem halfEven_intCast (n : ℤ) : halfEven n = n := by
  simp [halfEven]

theorem le_halfEven {n : ℤ} {q : ℚ} (h : (n : ℚ) ≤ q) : n ≤ halfEven q := by
  have hfloor : n ≤ ⌊q⌋ := Int.le_floor.mpr h
  unfold halfEven
  split_ifs <;> omega

theorem halfEven_le {n : ℤ} {q : ℚ} (h : q ≤ n) : halfEven q ≤ n := by
  rcases eq_or_lt_of_le h with rfl | hlt
  · rw [halfEven_intCast]
  · have hfloor : ⌊q⌋ < n := Int.floor_lt.mpr hlt
    unfold halfEven
    split_ifs <;> omega

/-- Rounding is symmetric, also where it has to choose. -/
theorem halfEven_neg (q : ℚ) : halfEven (-q) = -halfEven q := by
  by_cases hwhole : Int.fract q = 0
  · obtain ⟨n, rfl⟩ : ∃ n : ℤ, q = n := ⟨⌊q⌋, by linarith [Int.self_sub_floor q]⟩
    rw [← Int.cast_neg, halfEven_intCast, halfEven_intCast]
  · have hfract : Int.fract (-q) = 1 - Int.fract q := Int.fract_neg hwhole
    have hfloor : ⌊-q⌋ = -⌊q⌋ - 1 := by
      have hsum : (⌊-q⌋ : ℚ) = -⌊q⌋ - 1 := by
        linarith [Int.self_sub_floor q, Int.self_sub_floor (-q)]
      exact_mod_cast hsum
    unfold halfEven
    rw [hfract, hfloor]
    split_ifs <;> first | omega | (exfalso; linarith)

/-! ## The nearest binary32 number -/

/-- The exponent of the grid on which a rational is rounded. -/
def gridExponent (q : ℚ) : ℤ :=
  max (Int.log 2 |q| - 23) (-149)

/-- The nearest number of at most 24 bits; of two equally near ones the one with an even
mantissa. There is no largest one. -/
def nearest (q : ℚ) : ℚ :=
  halfEven (q / 2 ^ gridExponent q) * 2 ^ gridExponent q

theorem nearest_neg (q : ℚ) : nearest (-q) = -nearest q := by
  simp [nearest, gridExponent, neg_div, halfEven_neg]

@[simp] theorem nearest_zero : nearest 0 = 0 := by
  simp [nearest, halfEven]

theorem nearest_nonneg {q : ℚ} (h : 0 ≤ q) : 0 ≤ nearest q := by
  have hround : 0 ≤ halfEven (q / 2 ^ gridExponent q) :=
    le_halfEven (by rw [Int.cast_zero]; positivity)
  unfold nearest
  exact mul_nonneg (by exact_mod_cast hround) (by positivity)

/-- What is on the grid of some exponent and has at most 24 bits there is not changed. -/
theorem nearest_of_grid {q : ℚ} {m e : ℤ} (hq : q = m * 2 ^ e) (hm : |m| < 2 ^ 24)
    (he : -149 ≤ e) : nearest q = q := by
  rcases eq_or_ne q 0 with rfl | hne
  · exact nearest_zero
  have hgrid : gridExponent q ≤ e := by
    have hbound : |q| < (2 : ℕ) ^ (24 + e) := by
      rw [hq, abs_mul, abs_of_pos (by positivity : (0 : ℚ) < 2 ^ e), Nat.cast_ofNat,
        zpow_add₀ (by norm_num)]
      have hcast : (|m| : ℚ) < 2 ^ (24 : ℤ) := by exact_mod_cast hm
      gcongr
    have hlog := (Int.lt_zpow_iff_log_lt (by norm_num) (abs_pos.mpr hne)).mp hbound
    exact max_le (by omega) he
  unfold nearest
  generalize gridExponent q = grid at hgrid ⊢
  have hpow : (2 : ℚ) ^ (e - grid).toNat = 2 ^ e / 2 ^ grid := by
    rw [← zpow_natCast, Int.toNat_of_nonneg (by omega), zpow_sub₀ (by norm_num)]
  have hwhole : q / 2 ^ grid = (m * 2 ^ (e - grid).toNat : ℤ) := by
    push_cast
    rw [hpow, hq, mul_div_assoc]
  rw [hwhole, halfEven_intCast, ← hwhole, div_mul_cancel₀]
  positivity

/-! ## Residual bits -/

/-- What the round bit and the sticky bit say about the fraction that was cut off. -/
def Residue : Bool → Bool → ℚ → Prop
  | false, false, f => f = 0
  | false, true, f => 0 < f ∧ f < 1 / 2
  | true, false, f => f = 1 / 2
  | true, true, f => 1 / 2 < f ∧ f < 1

/-- A mantissa with residual bits stands for a rational. -/
def StandsFor (em : ExtendedMantissa) (x : ℚ) : Prop :=
  Residue em.roundBit em.stickyBit (x - em.mantissa)

namespace StandsFor

theorem fract_bounds {em : ExtendedMantissa} {x : ℚ} (h : StandsFor em x) :
    (em.mantissa : ℚ) ≤ x ∧ x < em.mantissa + 1 := by
  obtain ⟨m, r, s⟩ := em
  cases r <;> cases s <;> simp only [StandsFor, Residue] at h ⊢ <;> constructor <;> linarith

/-- Rounding by the residual bits is rounding of the rational. -/
theorem roundedMantissa_eq {em : ExtendedMantissa} {x : ℚ} (h : StandsFor em x) :
    (em.roundedMantissa : ℤ) = halfEven x := by
  have hfloor : ⌊x⌋ = em.mantissa := Int.floor_eq_iff.mpr h.fract_bounds
  have hfract : Int.fract x = x - em.mantissa := by
    rw [← Int.self_sub_floor, hfloor, Int.cast_natCast]
  unfold halfEven
  rw [hfract, hfloor]
  obtain ⟨m, r, s⟩ := em
  cases r <;> cases s <;> simp only [StandsFor, Residue] at h <;>
    simp only [ExtendedMantissa.roundedMantissa, ExtendedMantissa.accuracy,
      Accuracy.roundToNearestEven] <;>
    split_ifs <;> first | omega | (exfalso; linarith)

/-- A shift halves the rational and loses no information that rounding needs. -/
theorem shiftRightOne {em : ExtendedMantissa} {x : ℚ} (h : StandsFor em x) :
    StandsFor em.shiftRightOne (x / 2) := by
  obtain ⟨m, r, s⟩ := em
  have hsplit : (m : ℚ) = 2 * (m / 2 : ℕ) + (m % 2 : ℕ) := by
    exact_mod_cast (Nat.div_add_mod m 2).symm
  rcases Nat.mod_two_eq_zero_or_one m with hmod | hmod <;> cases r <;> cases s <;>
    simp only [StandsFor, ExtendedMantissa.shiftRightOne, Residue, hmod, bne_self_eq_false,
      Bool.or_self, Bool.or_true, Bool.or_false, Nat.cast_zero, Nat.cast_one,
      Nat.reduceBNe] at h hsplit ⊢ <;>
    first | linarith | (constructor <;> linarith)

theorem shiftRight {em : ExtendedMantissa} {x : ℚ} (h : StandsFor em x) (n : ℕ) :
    StandsFor (em >>> n) (x / 2 ^ n) := by
  change StandsFor (n.repeat ExtendedMantissa.shiftRightOne em) _
  induction n with
  | zero => simpa [Nat.repeat] using h
  | succ n ih =>
      rw [pow_succ, ← div_div]
      exact ih.shiftRightOne

end StandsFor

/-! ## Rounding parts -/

/-- Parts in canonical form, with a sign and a magnitude. -/
inductive Encodes (s : Sign) : ℚ → UnpackedFloat → Prop
  | zero : Encodes s 0 (.zero s)
  | finite {m : ℕ} {e : ℤ} (h : 0 < m) : Fits m e → Encodes s (m * 2 ^ e) (.finite s m e h)

theorem targetExponent_eq (m : ℕ) (e : ℤ) :
    Format.binary32.targetExponent (totalExponent m e) = max (m.log2 + e - 23) (-149) := by
  change max ((m.log2 : ℤ) + 1 + e - 24) (-149) = _
  congr 1
  ring

/-- There are enough bits to round once and for all. -/
def Ample (m : ℕ) (e : ℤ) : Prop :=
  23 ≤ m.log2 ∨ e ≤ -149

theorem StandsFor.pos_log2 {em : ExtendedMantissa} {x : ℚ} (h : StandsFor em x)
    (hm : 0 < em.mantissa) :
    (2 : ℚ) ^ em.mantissa.log2 ≤ x ∧ x < 2 ^ (em.mantissa.log2 + 1) := by
  have hlo : (2 : ℚ) ^ em.mantissa.log2 ≤ em.mantissa := by
    exact_mod_cast Nat.log2_self_le hm.ne'
  have hhi : (em.mantissa : ℚ) + 1 ≤ 2 ^ (em.mantissa.log2 + 1) := by
    exact_mod_cast Nat.lt_log2_self (n := em.mantissa)
  have hx := h.fract_bounds
  constructor <;> linarith

/-- A mantissa that is shifted to at most 24 bits may be rounded up to one that has 25. -/
theorem StandsFor.halfEven_shifted_le {em : ExtendedMantissa} {x : ℚ} {k : ℕ}
    (h : StandsFor em x) (hlog : em.mantissa.log2 ≤ 23 + k) :
    halfEven (x / 2 ^ k) ≤ 2 ^ 24 := by
  refine halfEven_le ?_
  rw [div_le_iff₀ (by positivity), Int.cast_pow, Int.cast_ofNat, ← pow_add]
  rcases Nat.eq_zero_or_pos em.mantissa with hzero | hm
  · have hlt := h.fract_bounds.2
    rw [hzero, Nat.cast_zero, zero_add] at hlt
    exact hlt.le.trans (one_le_pow₀ (by norm_num))
  · exact (h.pos_log2 hm).2.le.trans (pow_le_pow_right₀ (by norm_num) (by omega))

/-- A mantissa that is shifted to 24 bits keeps them. -/
theorem StandsFor.le_halfEven_shifted {em : ExtendedMantissa} {x : ℚ} {k : ℕ}
    (h : StandsFor em x) (hlog : em.mantissa.log2 = 23 + k) :
    2 ^ 23 ≤ halfEven (x / 2 ^ k) := by
  have hm : 0 < em.mantissa := by
    rcases Nat.eq_zero_or_pos em.mantissa with hzero | hm
    · rw [hzero, Nat.log2_zero] at hlog
      omega
    · exact hm
  refine le_halfEven ?_
  rw [le_div_iff₀ (by positivity), Int.cast_pow, Int.cast_ofNat, ← pow_add, ← hlog]
  exact (h.pos_log2 hm).1

/-- The exponent to which parts are shifted is that of the grid. -/
theorem gridExponent_eq {em : ExtendedMantissa} {x : ℚ} {e : ℤ} (h : StandsFor em x)
    (hx : 0 < x) (hample : Ample em.mantissa e) :
    gridExponent (x * 2 ^ e) = max (em.mantissa.log2 + e - 23) (-149) := by
  have hpos : 0 < x * 2 ^ e := by positivity
  unfold gridExponent
  rw [abs_of_pos hpos]
  rcases Nat.eq_zero_or_pos em.mantissa with hzero | hm
  · -- below 1 the logarithm is not that of the mantissa, but the least exponent is on the grid
    have hlt : x * 2 ^ e < (2 : ℕ) ^ e := by
      have := h.fract_bounds.2
      rw [hzero, Nat.cast_zero, zero_add] at this
      rw [Nat.cast_ofNat]
      exact mul_lt_of_lt_one_left (by positivity) this
    have hlog := (Int.lt_zpow_iff_log_lt (by norm_num) hpos).mp hlt
    rw [hzero] at hample ⊢
    have he : e ≤ -149 := hample.resolve_left (by decide)
    rw [max_eq_right (by omega), max_eq_right (by simp; omega)]
  · obtain ⟨hlo, hhi⟩ := h.pos_log2 hm
    have hscale (k : ℤ) : ((2 : ℕ) : ℚ) ^ (k + e) = 2 ^ k * 2 ^ e := by
      rw [Nat.cast_ofNat, zpow_add₀ (by norm_num)]
    have hge : (em.mantissa.log2 : ℤ) + e ≤ Int.log 2 (x * 2 ^ e) := by
      rw [← Int.zpow_le_iff_le_log (by norm_num) hpos, hscale, zpow_natCast]
      gcongr
    have hlt : Int.log 2 (x * 2 ^ e) < (em.mantissa.log2 + 1 : ℕ) + e := by
      rw [← Int.lt_zpow_iff_log_lt (by norm_num) hpos, hscale, zpow_natCast]
      gcongr
    push_cast at hlt
    rw [show Int.log 2 (x * 2 ^ e) = em.mantissa.log2 + e by omega]

theorem mantissa_ofMantissaAndAccuracy (m : ℕ) (acc : Accuracy) :
    (ExtendedMantissa.ofMantissaAndAccuracy m acc).mantissa = m := by
  unfold ExtendedMantissa.ofMantissaAndAccuracy
  split <;> rfl

/-- Rounding can fill up the mantissa; then it is shifted once more, which is exact. -/
theorem carry_encodes (s : Sign) {m : ℕ} {e : ℤ} (hm : m ≤ 2 ^ 24) (he : -149 ≤ e)
    (hfull : e = -149 ∨ 2 ^ 23 ≤ m) :
    Encodes s (m * 2 ^ e)
      (let shifted := shiftToTargetExponent .binary32 m e .exact
       if h : shifted.1.mantissa = 0 then .zero s
       else .finite s shifted.1.mantissa shifted.2 (Nat.pos_of_ne_zero h)) := by
  rcases hm.lt_or_eq with hlt | rfl
  · have hlog : m.log2 < 24 := by
      rcases Nat.eq_zero_or_pos m with rfl | hpos
      · decide
      · exact (Nat.log2_lt hpos.ne').mpr hlt
    have hshift : shiftToTargetExponent .binary32 m e .exact = (⟨m, false, false⟩, e) := by
      have hzero : (max ((m.log2 : ℤ) + e - 23) (-149) - e).toNat = 0 := by omega
      unfold shiftToTargetExponent shiftToExponent
      dsimp only
      rw [targetExponent_eq, hzero]
      exact congrArg (Prod.mk _) (add_zero e)
    rw [hshift]
    dsimp only
    by_cases hzero : m = 0
    · rw [dif_pos hzero, hzero, Nat.cast_zero, zero_mul]
      exact .zero
    · have hpos := Nat.pos_of_ne_zero hzero
      rw [dif_neg hzero]
      exact .finite hpos ⟨hpos, hlt, he, hfull⟩
  · have hshift : shiftToTargetExponent .binary32 (2 ^ 24) e .exact =
        (⟨2 ^ 23, false, false⟩, e + 1) := by
      have hone : (max (((2 ^ 24 : ℕ).log2 : ℤ) + e - 23) (-149) - e).toNat = 1 := by
        rw [Nat.log2_two_pow]
        omega
      unfold shiftToTargetExponent shiftToExponent
      dsimp only
      rw [targetExponent_eq, hone]
      rfl
    rw [hshift]
    dsimp only
    rw [dif_neg (by decide)]
    have hvalue : ((2 ^ 24 : ℕ) : ℚ) * 2 ^ e = (2 ^ 23 : ℕ) * 2 ^ (e + 1) := by
      rw [zpow_add_one₀ (by norm_num)]
      push_cast
      ring
    rw [hvalue]
    exact .finite (by norm_num) ⟨by norm_num, by norm_num, by omega, Or.inr le_rfl⟩

/-- The bitwise procedure rounds to the nearest number, for a positive magnitude. -/
theorem roundWithAccuracy_encodes (s : Sign) {m : ℕ} {e : ℤ} {acc : Accuracy} {x : ℚ}
    (h : StandsFor (.ofMantissaAndAccuracy m acc) x) (hx : 0 < x) (hample : Ample m e) :
    Encodes s (nearest (x * 2 ^ e)) (roundWithAccuracy .binary32 s m e acc) := by
  have hgrid := gridExponent_eq h hx (by rwa [mantissa_ofMantissaAndAccuracy])
  have hlow := @h.le_halfEven_shifted
  have hhigh := @h.halfEven_shifted_le
  rw [mantissa_ofMantissaAndAccuracy] at hgrid hlow hhigh
  obtain ⟨t, ht⟩ : ∃ t, max ((m.log2 : ℤ) + e - 23) (-149) = t := ⟨_, rfl⟩
  rw [ht] at hgrid
  obtain ⟨k, hk⟩ : ∃ k : ℕ, t = e + k := by
    refine ⟨(t - e).toNat, ?_⟩
    unfold Ample at hample
    omega
  have hfirst : shiftToTargetExponent .binary32 m e acc =
      (ExtendedMantissa.ofMantissaAndAccuracy m acc >>> k, t) := by
    unfold shiftToTargetExponent shiftToExponent
    dsimp only
    rw [targetExponent_eq, ht, hk, show (e + k - e).toNat = k by omega]
  have hshifted := h.shiftRight k
  have hround := hshifted.roundedMantissa_eq
  have hscale : x * 2 ^ e / 2 ^ t = x / 2 ^ k := by
    rw [hk, zpow_add₀ (by norm_num), zpow_natCast, mul_div_mul_comm]
    field_simp
  have hnearest : nearest (x * 2 ^ e) =
      (ExtendedMantissa.ofMantissaAndAccuracy m acc >>> k).roundedMantissa * 2 ^ t := by
    unfold nearest
    rw [hgrid, hscale, ← hround, Int.cast_natCast]
  have hle : (ExtendedMantissa.ofMantissaAndAccuracy m acc >>> k).roundedMantissa ≤ 2 ^ 24 := by
    have := @hhigh k (by omega)
    omega
  have hfull : t = -149 ∨
      2 ^ 23 ≤ (ExtendedMantissa.ofMantissaAndAccuracy m acc >>> k).roundedMantissa := by
    refine or_iff_not_imp_left.mpr fun hne => ?_
    have := @hlow k (by omega)
    omega
  unfold roundWithAccuracy
  dsimp only
  rw [hfirst, hnearest]
  exact carry_encodes s hle (by omega) hfull

theorem standsFor_exact (m : ℕ) :
    StandsFor (ExtendedMantissa.ofMantissaAndAccuracy m .exact) m := by
  simp [StandsFor, ExtendedMantissa.ofMantissaAndAccuracy, Residue]

theorem log2_mul_two_pow {m : ℕ} (hm : 0 < m) (k : ℕ) : (m * 2 ^ k).log2 = m.log2 + k := by
  rw [Nat.log2_eq_iff (by positivity), pow_add, add_right_comm, pow_add]
  exact ⟨Nat.mul_le_mul_right _ (Nat.log2_self_le hm.ne'),
    Nat.mul_lt_mul_of_pos_right Nat.lt_log2_self (Nat.two_pow_pos k)⟩

/-- Parts with too few bits are first widened, which is exact. -/
theorem round_encodes (s : Sign) {m : ℕ} (e : ℤ) (hm : 0 < m) :
    Encodes s (nearest (m * 2 ^ e)) (UnpackedFloat.round .binary32 s m e) := by
  unfold UnpackedFloat.round decreaseExponent
  dsimp only
  rw [targetExponent_eq, Nat.shiftLeft_eq]
  obtain ⟨k, hk⟩ : ∃ k : ℕ, (e - max ((m.log2 : ℤ) + e - 23) (-149)).toNat = k := ⟨_, rfl⟩
  rw [hk]
  have hvalue : (m : ℚ) * 2 ^ e = (m * 2 ^ k : ℕ) * 2 ^ (e - k) := by
    rw [zpow_sub₀ (by norm_num), zpow_natCast]
    push_cast
    field_simp
  have hlog := log2_mul_two_pow hm k
  rw [hvalue]
  refine roundWithAccuracy_encodes s (standsFor_exact _) (by positivity) ?_
  unfold Ample
  rw [hlog]
  omega

end Storyboard
