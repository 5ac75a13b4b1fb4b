import Mathlib.Algebra.Order.Ring.Abs
import Mathlib.Data.Nat.Prime.Basic
import Mathlib.Tactic.FieldSimp
import Mathlib.Tactic.NormNum
import Storyboard.Proofs.Numeric.Rounding

/-! # Decimals near to the middle between two numbers

A decimal of few digits can be very near to the middle between two neighbouring numbers without
being it, and then it may be rounded to the wrong one if it is not known exactly. How near it can
be is a matter of how well a ratio of a power of ten and a power of two is approximated by ratios
of smaller numbers. For each power of ten one such ratio decides it.
-/

namespace Storyboard

/-! ## Approximations of a ratio -/

/-- The last convergent of `p / q` with a denominator of at most `limit`, among the next `fuel`
ones; `a₀ / b₀` and `a₁ / b₁` are the convergents before. -/
def convergent (limit : ℕ) : (fuel p q a₀ b₀ a₁ b₁ : ℕ) → ℕ × ℕ
  | 0, _, _, _, _, a₁, b₁ => (a₁, b₁)
  | fuel + 1, p, q, a₀, b₀, a₁, b₁ =>
      if q = 0 ∨ limit < p / q * b₁ + b₀ then (a₁, b₁)
      else convergent limit fuel q (p % q) a₁ b₁ (p / q * a₁ + a₀) (p / q * b₁ + b₀)

/-- The ratio `k / n` is exactly `p / q`, or `n * p` and `k * q` are more than one part in `2 ^ 52`
apart. -/
def IsApart (p q n k : ℕ) : Prop :=
  n * p = k * q ∨ k * q * (2 ^ 40 + 1) < (n * p - k * q : ℤ).natAbs * 2 ^ 92

instance (p q n k : ℕ) : Decidable (IsApart p q n k) :=
  inferInstanceAs (Decidable (_ ∨ _))

/-- There is one coincidence beyond that: `7038531e-32` is hardly less than the middle between two
numbers, which is `22841339 / 2 ^ 108`. -/
def IsCoincidence (p q n k : ℕ) : Prop :=
  (p = 2 ^ 108 ∧ q = 10 ^ 32) ∧ n = 7038531 ∧ k = 22841339

instance (p q n k : ℕ) : Decidable (IsCoincidence p q n k) :=
  inferInstanceAs (Decidable (_ ∧ _))

/-- The ratio `a / b` is so near to `p / q` that every other ratio of numbers of that size is
farther away. If it is too near, it is the coincidence, or its numbers are not among those that
matter: denominators up to `2 ^ 24` and odd numerators below `2 ^ 25`. -/
structure Decides (p q a b : ℕ) : Prop where
  coprime : Nat.Coprime a b
  small : b ≤ 2 ^ 25
  near : 2 ^ 25 * (b * p - a * q : ℤ).natAbs ≤ q
  apart : IsApart p q b a ∨ IsCoincidence p q b a ∨ 2 ^ 24 < b ∨ 2 ^ 25 ≤ a ∨ a % 2 = 0

instance (p q a b : ℕ) : Decidable (Decides p q a b) :=
  decidable_of_iff (Nat.Coprime a b ∧ b ≤ 2 ^ 25 ∧ 2 ^ 25 * (b * p - a * q : ℤ).natAbs ≤ q ∧
      (IsApart p q b a ∨ IsCoincidence p q b a ∨ 2 ^ 24 < b ∨ 2 ^ 25 ≤ a ∨ a % 2 = 0))
    ⟨fun ⟨h₁, h₂, h₃, h₄⟩ => ⟨h₁, h₂, h₃, h₄⟩, fun ⟨h₁, h₂, h₃, h₄⟩ => ⟨h₁, h₂, h₃, h₄⟩⟩

variable {p q a b n k : ℕ}

/-- Multiples of both numbers are as far apart, in proportion. -/
theorem IsApart.mul (h : IsApart p q b a) {t : ℕ} (ht : 0 < t) : IsApart p q (t * b) (t * a) := by
  rcases h with h | h
  · refine .inl ?_
    rw [mul_assoc, h, mul_assoc]
  · refine .inr ?_
    have hscale : ((t * b : ℕ) * p - (t * a : ℕ) * q : ℤ) = t * (b * p - a * q) := by
      push_cast
      ring
    rw [hscale, Int.natAbs_mul, Int.natAbs_natCast]
    calc t * a * q * (2 ^ 40 + 1) = t * (a * q * (2 ^ 40 + 1)) := by ring
      _ < t * ((b * p - a * q : ℤ).natAbs * 2 ^ 92) := Nat.mul_lt_mul_of_pos_left h ht
      _ = t * (b * p - a * q : ℤ).natAbs * 2 ^ 92 := by ring

/-- A ratio other than the one that decides is far enough away. -/
theorem Decides.isApart_of_ne (h : Decides p q a b) (hq : 0 < q) (hn : n ≤ 2 ^ 24)
    (hk : k < 2 ^ 25) (hne : n * a ≠ k * b) : IsApart p q n k := by
  obtain ⟨x, hx⟩ : ∃ x : ℤ, n * p - k * q = x := ⟨_, rfl⟩
  obtain ⟨y, hy⟩ : ∃ y : ℤ, b * p - a * q = y := ⟨_, rfl⟩
  obtain ⟨z, hz⟩ : ∃ z : ℤ, n * a - k * b = z := ⟨_, rfl⟩
  have hdet : b * x - n * y = q * z := by
    rw [← hx, ← hy, ← hz]
    ring
  have hzpos : 1 ≤ |z| := by
    refine Int.one_le_abs fun hzero => hne ?_
    rw [hzero] at hz
    exact_mod_cast sub_eq_zero.mp hz
  have hnear : 2 ^ 25 * |y| ≤ q := by
    have hnat := h.near
    rw [hy] at hnat
    rw [Int.abs_eq_natAbs]
    exact_mod_cast hnat
  have hsum : (q : ℤ) * |z| ≤ b * |x| + n * |y| := by
    have htriangle := abs_sub (b * x : ℤ) (n * y)
    rw [hdet] at htriangle
    simpa [abs_mul] using htriangle
  have hny : 2 * (n * |y|) ≤ q := by
    have hle : (n : ℤ) * |y| ≤ 2 ^ 24 * |y| := by
      gcongr
      exact_mod_cast hn
    linarith
  have hbx : (b : ℤ) * |x| ≤ 2 ^ 25 * |x| := by
    gcongr
    exact_mod_cast h.small
  have hqz : (q : ℤ) ≤ q * |z| := le_mul_of_one_le_right (by positivity) hzpos
  have hfar : (q : ℤ) ≤ 2 ^ 26 * |x| := by linarith
  refine .inr ?_
  rw [hx]
  have hcast : q ≤ 2 ^ 26 * x.natAbs := by
    rw [Int.abs_eq_natAbs] at hfar
    exact_mod_cast hfar
  calc k * q * (2 ^ 40 + 1) ≤ 2 ^ 25 * q * (2 ^ 40 + 1) := by gcongr
    _ < q * 2 ^ 66 := by omega
    _ ≤ 2 ^ 26 * x.natAbs * 2 ^ 66 := by gcongr
    _ = x.natAbs * 2 ^ 92 := by ring

theorem Decides.isApart (h : Decides p q a b) (hq : 0 < q) (hn : 0 < n) (hn' : n ≤ 2 ^ 24)
    (hk : k < 2 ^ 25) (hodd : k % 2 = 1) : IsApart p q n k ∨ IsCoincidence p q n k := by
  by_cases heq : n * a = k * b
  · -- both numbers are the same multiple of those of the ratio that decides
    have hdvd : b ∣ n := h.coprime.symm.dvd_of_dvd_mul_right (heq ▸ Nat.dvd_mul_left b k)
    obtain ⟨t, rfl⟩ := hdvd
    have hb : 0 < b := Nat.pos_of_mul_pos_right hn
    have ht : 0 < t := Nat.pos_of_mul_pos_left hn
    have hkt : k = t * a := by
      refine Nat.eq_of_mul_eq_mul_right hb ?_
      rw [← heq]
      ring
    subst hkt
    rw [Nat.mul_comm b t] at hn' ⊢
    rcases h.apart with hapart | ⟨hratio, rfl, rfl⟩ | hlarge | hlarge | heven
    · exact .inl (hapart.mul ht)
    · -- twice the coincidence has an even number
      obtain rfl | rfl : t = 1 ∨ t = 2 := by omega
      · exact .inr ⟨hratio, rfl, rfl⟩
      · omega
    · exact absurd (hlarge.trans_le (Nat.le_mul_of_pos_left b ht)) (not_lt.mpr hn')
    · exact absurd (hk.trans_le hlarge) (not_lt.mpr (Nat.le_mul_of_pos_left a ht))
    · rw [Nat.mul_mod, heven, Nat.mul_zero] at hodd
      omega
  · exact .inl (h.isApart_of_ne hq hn' hk heq)

/-! ## Powers of ten -/

/-- The exponent of the last power of two that is at most `10 ^ g`. -/
def tenLog (g : ℤ) : ℤ :=
  if 0 ≤ g then Nat.log2 (10 ^ g.toNat) else -Nat.log2 (10 ^ (-g).toNat) - 1

/-- The ratio of `10 ^ g` to half of that power of two, in whole numbers. -/
def tenNumerator (g : ℤ) : ℕ :=
  10 ^ g.toNat * 2 ^ (1 - tenLog g).toNat

@[inherit_doc tenNumerator]
def tenDenominator (g : ℤ) : ℕ :=
  10 ^ (-g).toNat * 2 ^ (tenLog g - 1).toNat

theorem tenDenominator_pos (g : ℤ) : 0 < tenDenominator g :=
  Nat.mul_pos (Nat.pow_pos (by norm_num)) (Nat.pow_pos (by norm_num))

theorem ten_zpow_eq (g : ℤ) :
    (10 : ℚ) ^ g = tenNumerator g / tenDenominator g * 2 ^ (tenLog g - 1) := by
  have hten := zpow_mul_pow_toNat (b := 10) (by norm_num) g
  have htwo := zpow_mul_pow_toNat (b := 2) (by norm_num) (tenLog g - 1)
  rw [neg_sub] at htwo
  have hden : (0 : ℚ) < tenDenominator g := by exact_mod_cast tenDenominator_pos g
  rw [div_mul_eq_mul_div, eq_div_iff hden.ne']
  unfold tenNumerator tenDenominator
  push_cast
  rw [← hten, ← htwo]
  ring

theorem log2_bounds {a : ℕ} (ha : 0 < a) : (2 : ℚ) ^ a.log2 ≤ a ∧ (a : ℚ) < 2 ^ (a.log2 + 1) :=
  ⟨by exact_mod_cast Nat.log2_self_le ha.ne', by exact_mod_cast Nat.lt_log2_self⟩

theorem tenLog_bounds (g : ℤ) :
    (2 : ℚ) ^ tenLog g ≤ 10 ^ g ∧ (10 : ℚ) ^ g < 2 ^ (tenLog g + 1) := by
  unfold tenLog
  split
  · next hg =>
    have hcast : (10 : ℚ) ^ g = (10 ^ g.toNat : ℕ) := by
      push_cast
      rw [← zpow_natCast, Int.toNat_of_nonneg hg]
    rw [hcast]
    exact_mod_cast log2_bounds (Nat.pow_pos (by norm_num : 0 < 10) (n := g.toNat))
  · next hg =>
    obtain ⟨k, rfl⟩ : ∃ k : ℕ, g = -(k + 1 : ℕ) := ⟨(-g).toNat - 1, by omega⟩
    have hnat : (-(-((k + 1 : ℕ) : ℤ))).toNat = k + 1 := by omega
    rw [hnat, zpow_neg, zpow_natCast, sub_add_cancel]
    have hpos : 0 < 10 ^ (k + 1) := Nat.pow_pos (by norm_num)
    obtain ⟨hlow, hhigh⟩ := log2_bounds hpos
    -- a power of ten is no power of two
    have hne : (2 : ℚ) ^ (10 ^ (k + 1)).log2 ≠ (10 ^ (k + 1) : ℕ) := by
      intro heq
      have hnat : 2 ^ (10 ^ (k + 1)).log2 = 10 ^ (k + 1) := by exact_mod_cast heq
      have hdvd : 5 ∣ 2 ^ (10 ^ (k + 1)).log2 := by
        rw [hnat]
        exact Dvd.dvd.pow (by norm_num) (by omega)
      exact absurd (Nat.prime_five.dvd_of_dvd_pow hdvd) (by norm_num)
    have hlt := lt_of_le_of_ne hlow hne
    push_cast at hlt hhigh
    constructor
    · rw [sub_eq_add_neg, ← neg_add, zpow_neg]
      have hexponent : (2 : ℚ) ^ (((10 ^ (k + 1)).log2 : ℤ) + 1) =
          2 ^ ((10 ^ (k + 1)).log2 + 1) := by
        rw [← zpow_natCast]
        push_cast
        rfl
      rw [hexponent]
      exact inv_anti₀ (by positivity) hhigh.le
    · rw [zpow_neg, zpow_natCast]
      exact inv_strictAnti₀ (by positivity) hlt

/-- For the powers of ten that matter there is a ratio that decides. -/
def IsDecided (g : ℤ) : Prop :=
  let c := convergent (2 ^ 25) 40 (tenNumerator g) (tenDenominator g) 0 1 1 0
  Decides (tenNumerator g) (tenDenominator g) c.1 c.2

instance (g : ℤ) : Decidable (IsDecided g) :=
  inferInstanceAs (Decidable (Decides _ _ _ _))

-- the kernel computes the convergents and compares; there are 83 powers of ten
theorem isDecided_of_fin : ∀ i : Fin 83, IsDecided ((i : ℕ) - 44) := by
  decide +kernel

/-- Of these powers of ten only one has the ratio of the coincidence. -/
theorem tenLog_of_fin : ∀ i : Fin 83, tenDenominator ((i : ℕ) - 44) = 10 ^ 32 →
    tenLog ((i : ℕ) - 44) = -107 := by
  decide +kernel

/-- None of the powers of ten is just below a power of two. -/
theorem tenNumerator_of_fin : ∀ i : Fin 92,
    tenNumerator ((i : ℕ) - 53) * 2 ^ 26 + 4 * tenDenominator ((i : ℕ) - 53) ≤
      4 * tenDenominator ((i : ℕ) - 53) * 2 ^ 26 := by
  decide +kernel

/-! ## Decimals and middles -/

/-- One part in `2 ^ 52`, and very little more. -/
def separation : ℚ :=
  (1 + 1 / 2 ^ 40) / 2 ^ 52

/-- A grid of decimals that is finer than one of binary numbers is finer by some part. -/
theorem ten_zpow_le_of_lt {g e : ℤ} (hg : -53 ≤ g ∧ g ≤ 38) (h : (10 : ℚ) ^ g < 2 ^ e) :
    (10 : ℚ) ^ g ≤ 2 ^ e * (1 - 1 / 2 ^ 26) := by
  obtain ⟨i, hi⟩ : ∃ i : Fin 92, ((i : ℕ) : ℤ) - 53 = g :=
    ⟨⟨(g + 53).toNat, by omega⟩, by simp only; omega⟩
  have hcheck := tenNumerator_of_fin i
  rw [hi] at hcheck
  have hexponent : tenLog g < e := by
    have hlt := (tenLog_bounds g).1.trans_lt h
    exact (zpow_lt_zpow_iff_right₀ (by norm_num)).mp hlt
  have hden : (0 : ℚ) < tenDenominator g := by exact_mod_cast tenDenominator_pos g
  have hratio : (tenNumerator g : ℚ) / tenDenominator g ≤ 4 * (1 - 1 / 2 ^ 26) := by
    have hcast : (tenNumerator g : ℚ) * 2 ^ 26 + 4 * tenDenominator g ≤
        4 * tenDenominator g * 2 ^ 26 := by
      exact_mod_cast hcheck
    rw [div_le_iff₀ hden]
    linarith
  calc (10 : ℚ) ^ g = tenNumerator g / tenDenominator g * 2 ^ (tenLog g - 1) := ten_zpow_eq g
    _ ≤ 4 * (1 - 1 / 2 ^ 26) * 2 ^ (tenLog g - 1) := by gcongr
    _ = 2 ^ (tenLog g + 1) * (1 - 1 / 2 ^ 26) := by
      rw [show tenLog g + 1 = tenLog g - 1 + 2 by ring, zpow_add₀ (by norm_num)]
      ring
    _ ≤ 2 ^ e * (1 - 1 / 2 ^ 26) := by
      gcongr
      · norm_num
      · omega

theorem two_le_ratio (g : ℤ) : (2 : ℚ) ≤ tenNumerator g / tenDenominator g := by
  have hlow : 2 * (2 : ℚ) ^ (tenLog g - 1) ≤
      tenNumerator g / tenDenominator g * 2 ^ (tenLog g - 1) := by
    rw [← ten_zpow_eq, ← zpow_one_add₀ (by norm_num), add_sub_cancel]
    exact (tenLog_bounds g).1
  exact le_of_mul_le_mul_right hlow (by positivity)

/-- What is apart in whole numbers is separated as a ratio. -/
theorem IsApart.eq_or_separation_lt (h : IsApart p q n k) (hq : 0 < q) :
    (n * p / q : ℚ) = k ∨ k * separation < |(n * p / q : ℚ) - k| := by
  have hqpos : (0 : ℚ) < q := by exact_mod_cast hq
  refine h.imp (fun heq => ?_) (fun hlt => ?_)
  · rw [div_eq_iff hqpos.ne']
    exact_mod_cast heq
  · have habs : ((n * p - k * q : ℤ).natAbs : ℚ) = |(n * p - k * q : ℚ)| := by
      rw [Nat.cast_natAbs]
      push_cast
      rfl
    have hcast : (k : ℚ) * q * (2 ^ 40 + 1) < |(n * p - k * q : ℚ)| * 2 ^ 92 := by
      rw [← habs]
      exact_mod_cast hlt
    rw [div_sub' hqpos.ne', mul_comm (q : ℚ) k, abs_div, abs_of_pos hqpos, lt_div_iff₀ hqpos]
    unfold separation
    linarith

/-- A decimal, counted in halves of a step of the binary numbers. -/
theorem exists_decimal_eq {g e : ℤ} (he : (2 : ℚ) ^ e ≤ 10 ^ g) (n : ℕ) :
    ∃ j : ℕ, tenLog g = e + j ∧
      n * (10 : ℚ) ^ g = (n * 2 ^ j : ℕ) * tenNumerator g / tenDenominator g * 2 ^ (e - 1) := by
  have hlt := (zpow_lt_zpow_iff_right₀ (by norm_num)).mp (he.trans_lt (tenLog_bounds g).2)
  obtain ⟨j, hj⟩ : ∃ j : ℕ, tenLog g = e + j := ⟨(tenLog g - e).toNat, by omega⟩
  refine ⟨j, hj, ?_⟩
  rw [ten_zpow_eq, hj, show e + (j : ℤ) - 1 = e - 1 + j by ring, zpow_add₀ (by norm_num),
    zpow_natCast]
  push_cast
  ring

/-- On a grid of decimals that is coarser than that of the binary numbers, a decimal is a middle
between two numbers, or keeps away from it. -/
theorem eq_or_separation_lt {g e : ℤ} {n k : ℕ} (hg : -44 ≤ g ∧ g ≤ 38)
    (he : (2 : ℚ) ^ e ≤ 10 ^ g) (hn : 0 < n) (hbound : n * (10 : ℚ) ^ g ≤ 2 ^ 24 * 2 ^ e)
    (hk : k < 2 ^ 25) (hodd : k % 2 = 1) :
    n * (10 : ℚ) ^ g = k * 2 ^ (e - 1) ∨
      k * 2 ^ (e - 1) * separation < |n * (10 : ℚ) ^ g - k * 2 ^ (e - 1)| ∨
      (e = -107 ∧ k = 22841339) := by
  obtain ⟨i, hi⟩ : ∃ i : Fin 83, ((i : ℕ) : ℤ) - 44 = g :=
    ⟨⟨(g + 44).toNat, by omega⟩, by simp only; omega⟩
  have hdecided := isDecided_of_fin i
  have hspecial := tenLog_of_fin i
  rw [hi] at hdecided hspecial
  have hunit : (0 : ℚ) < 2 ^ (e - 1) := by positivity
  obtain ⟨j, hj, hdecimal⟩ := exists_decimal_eq he n
  have hsmall : n * 2 ^ j ≤ 2 ^ 24 := by
    have hle : (n * 2 ^ j : ℕ) * 2 * (2 : ℚ) ^ (e - 1) ≤ 2 ^ 24 * 2 * 2 ^ (e - 1) := by
      calc (n * 2 ^ j : ℕ) * 2 * (2 : ℚ) ^ (e - 1)
          ≤ (n * 2 ^ j : ℕ) * (tenNumerator g / tenDenominator g) * 2 ^ (e - 1) := by
            gcongr
            exact two_le_ratio g
        _ = n * 10 ^ g := by rw [hdecimal, mul_div_assoc]
        _ ≤ 2 ^ 24 * 2 ^ e := hbound
        _ = 2 ^ 24 * 2 * 2 ^ (e - 1) := by
          rw [mul_assoc, ← zpow_one_add₀ (by norm_num), add_sub_cancel]
    exact_mod_cast le_of_mul_le_mul_right (le_of_mul_le_mul_right hle hunit) (by norm_num)
  have hpos : 0 < n * 2 ^ j := Nat.mul_pos hn (Nat.two_pow_pos j)
  rcases hdecided.isApart (tenDenominator_pos g) hpos hsmall hk hodd with
    hapart | ⟨⟨-, hq⟩, hnumber, hmiddle⟩
  · rw [hdecimal]
    rcases hapart.eq_or_separation_lt (tenDenominator_pos g) with heq | hlt
    · exact .inl (by rw [heq])
    · refine .inr (.inl ?_)
      rw [← sub_mul, abs_mul, abs_of_pos hunit, mul_right_comm]
      exact mul_lt_mul_of_pos_right hlt hunit
  · refine .inr (.inr ⟨?_, hmiddle⟩)
    -- the number of that decimal is odd, so no factor of two belongs to the scale
    have hj0 : j = 0 := by
      rcases j with - | j
      · rfl
      · rw [pow_succ, ← mul_assoc] at hnumber
        omega
    rw [← hspecial hq, hj, hj0]
    simp

end Storyboard
