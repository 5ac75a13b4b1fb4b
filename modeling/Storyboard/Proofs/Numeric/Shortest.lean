import Mathlib.Tactic.FieldSimp
import Mathlib.Tactic.NormNum
import Storyboard.Numeric.Shortest
import Storyboard.Proofs.Numeric.Rounding

/-! # The decimal that a number is written as

The digits of a number are those of a decimal that rounds to it. With the fewest digits the
decimal need not be near to the number, but unless the next number below is nearer than the next
one above, it is the nearest one on its grid.
-/

namespace Storyboard.Magnitude

variable {m : Magnitude} {grid : ℤ} {n k : ℕ}

/-! ## The interval of a number -/

/-- The number itself. -/
def value (m : Magnitude) : ℚ :=
  m.mantissa * 2 ^ m.exponent

/-- Halfway to the next number below. -/
def low (m : Magnitude) : ℚ :=
  (4 * m.mantissa - if m.closeBelow then 1 else 2) * 2 ^ (m.exponent - 2)

/-- Halfway to the next number above. -/
def high (m : Magnitude) : ℚ :=
  (4 * m.mantissa + 2) * 2 ^ (m.exponent - 2)

/-- A rational lies in the interval of the number. The ends belong to it if the mantissa is even. -/
def Contains (m : Magnitude) (v : ℚ) : Prop :=
  if m.mantissa % 2 = 0 then m.low ≤ v ∧ v ≤ m.high else m.low < v ∧ v < m.high

theorem Contains.bounds {v : ℚ} (h : m.Contains v) : m.low ≤ v ∧ v ≤ m.high := by
  unfold Contains at h
  split at h
  · exact h
  · exact ⟨h.1.le, h.2.le⟩

theorem contains_of_between {v : ℚ} (hlow : m.low < v) (hhigh : v < m.high) : m.Contains v := by
  unfold Contains
  split
  · exact ⟨hlow.le, hhigh.le⟩
  · exact ⟨hlow, hhigh⟩

theorem value_eq (m : Magnitude) : m.value = 4 * m.mantissa * 2 ^ (m.exponent - 2) := by
  unfold value
  rw [zpow_sub₀ (by norm_num)]
  ring

/-- Counting on the grid is comparing rationals. -/
theorem exists_scale (m : Magnitude) (grid : ℤ) :
    ∃ c : ℚ, 0 < c ∧ (m.numerator grid : ℚ) = c * 2 ^ (m.exponent - 2) ∧
      (m.denominator grid : ℚ) = c * 10 ^ grid := by
  refine ⟨2 ^ (2 - m.exponent).toNat * 10 ^ (-grid).toNat, by positivity, ?_, ?_⟩
  · have htwo := zpow_mul_pow_toNat (b := 2) (by norm_num) (m.exponent - 2)
    rw [neg_sub] at htwo
    have hcast : (m.numerator grid : ℚ) = 2 ^ (m.exponent - 2).toNat * 10 ^ (-grid).toNat := by
      unfold numerator
      exact_mod_cast rfl
    rw [hcast, ← htwo]
    ring
  · have hcast : (m.denominator grid : ℚ) = 2 ^ (2 - m.exponent).toNat * 10 ^ grid.toNat := by
      unfold denominator
      exact_mod_cast rfl
    rw [hcast, ← zpow_mul_pow_toNat (by norm_num : (10 : ℚ) ≠ 0) grid]
    ring

theorem mul_numerator_le_iff :
    k * m.numerator grid ≤ n * m.denominator grid ↔
      (k : ℚ) * 2 ^ (m.exponent - 2) ≤ n * 10 ^ grid := by
  obtain ⟨c, hc, hnum, hden⟩ := m.exists_scale grid
  rw [← Nat.cast_le (α := ℚ), Nat.cast_mul, Nat.cast_mul, hnum, hden, mul_left_comm,
    mul_left_comm (n : ℚ), mul_le_mul_iff_right₀ hc]

theorem le_mul_numerator_iff :
    n * m.denominator grid ≤ k * m.numerator grid ↔
      (n : ℚ) * 10 ^ grid ≤ k * 2 ^ (m.exponent - 2) := by
  obtain ⟨c, hc, hnum, hden⟩ := m.exists_scale grid
  rw [← Nat.cast_le (α := ℚ), Nat.cast_mul, Nat.cast_mul, hnum, hden, mul_left_comm,
    mul_left_comm (k : ℚ), mul_le_mul_iff_right₀ hc]

theorem low_eq_natCast (hm : 0 < m.mantissa) :
    m.low = (4 * m.mantissa - if m.closeBelow then 1 else 2 : ℕ) * 2 ^ (m.exponent - 2) := by
  unfold low
  rw [Nat.cast_sub (by split <;> omega)]
  split <;> push_cast <;> rfl

theorem high_eq_natCast (m : Magnitude) :
    m.high = (4 * m.mantissa + 2 : ℕ) * 2 ^ (m.exponent - 2) := by
  unfold high
  push_cast
  rfl

/-- A decimal of a grid rounds to the number if it lies in the interval of the number. -/
theorem admits_iff (hm : 0 < m.mantissa) : m.Admits grid n ↔ m.Contains (n * 10 ^ grid) := by
  unfold Admits Contains
  rw [low_eq_natCast hm, high_eq_natCast]
  dsimp only
  split
  · rw [mul_numerator_le_iff, le_mul_numerator_iff]
  · rw [← not_le, ← not_le, mul_numerator_le_iff, le_mul_numerator_iff, not_le, not_le]

/-! ## The neighbours on a grid -/

/-- The last decimal of a grid that is not above the number. -/
def below (m : Magnitude) (grid : ℤ) : ℕ :=
  4 * m.mantissa * m.numerator grid / m.denominator grid

theorem denominator_pos (m : Magnitude) (grid : ℤ) : 0 < m.denominator grid :=
  Nat.mul_pos (Nat.pow_pos (by norm_num)) (Nat.pow_pos (by norm_num))

theorem below_le (m : Magnitude) (grid : ℤ) : m.below grid * 10 ^ grid ≤ m.value := by
  have hle : m.below grid * m.denominator grid ≤ 4 * m.mantissa * m.numerator grid :=
    Nat.div_mul_le_self _ _
  rw [le_mul_numerator_iff] at hle
  rw [value_eq]
  exact_mod_cast hle

theorem lt_succ_below (m : Magnitude) (grid : ℤ) :
    m.value < (m.below grid + 1 : ℕ) * 10 ^ grid := by
  have hlt : 4 * m.mantissa * m.numerator grid < (m.below grid + 1) * m.denominator grid :=
    (Nat.div_lt_iff_lt_mul (m.denominator_pos grid)).mp (Nat.lt_succ_self _)
  rw [← not_le, le_mul_numerator_iff, not_le] at hlt
  rw [value_eq]
  exact_mod_cast hlt

theorem nearestOn_eq (m : Magnitude) (tie : Tie) (grid : ℤ) :
    m.nearestOn tie grid =
      if m.Admits grid (m.below grid) then
        if m.Admits grid (m.below grid + 1) then
          match compare (2 * (4 * m.mantissa * m.numerator grid))
              ((2 * m.below grid + 1) * m.denominator grid) with
          | .lt => some (m.below grid)
          | .gt => some (m.below grid + 1)
          | .eq => some (if tie = .even ∧ m.below grid % 2 = 0 then m.below grid
              else m.below grid + 1)
        else some (m.below grid)
      else if m.Admits grid (m.below grid + 1) then some (m.below grid + 1) else none :=
  rfl

/-- The decimal that is chosen on a grid rounds to the number, and is one of its neighbours.
If both neighbours round to the number, it is not the farther one. -/
theorem nearestOn_spec {tie : Tie} (h : m.nearestOn tie grid = some n) :
    m.Admits grid n ∧
      (n = m.below grid ∧
          (m.Admits grid (m.below grid + 1) → 2 * m.value ≤ (2 * m.below grid + 1) * 10 ^ grid) ∨
        n = m.below grid + 1 ∧
          (m.Admits grid (m.below grid) → (2 * m.below grid + 1) * 10 ^ grid ≤ 2 * m.value)) := by
  have hmiddle : 2 * (4 * m.mantissa * m.numerator grid) = 8 * m.mantissa * m.numerator grid := by
    ring
  have hvalue : 2 * m.value = (8 * m.mantissa : ℕ) * 2 ^ (m.exponent - 2) := by
    rw [value_eq]
    push_cast
    ring
  have hcast : ((2 * m.below grid + 1 : ℕ) : ℚ) = 2 * m.below grid + 1 := by
    push_cast
    rfl
  have hlow : 2 * (4 * m.mantissa * m.numerator grid) ≤
      (2 * m.below grid + 1) * m.denominator grid →
      2 * m.value ≤ (2 * m.below grid + 1) * 10 ^ grid := by
    rw [hmiddle, mul_numerator_le_iff, hvalue, hcast]
    exact id
  have hhigh : (2 * m.below grid + 1) * m.denominator grid ≤
      2 * (4 * m.mantissa * m.numerator grid) →
      (2 * m.below grid + 1) * 10 ^ grid ≤ 2 * m.value := by
    rw [hmiddle, le_mul_numerator_iff, hvalue, hcast]
    exact id
  rw [nearestOn_eq] at h
  by_cases hbelow : m.Admits grid (m.below grid) <;>
    by_cases habove : m.Admits grid (m.below grid + 1)
  · rw [if_pos hbelow, if_pos habove] at h
    split at h <;> rename_i hcompare <;> cases h
    · exact ⟨hbelow, .inl ⟨rfl, fun _ => hlow (compare_lt_iff_lt.mp hcompare).le⟩⟩
    · exact ⟨habove, .inr ⟨rfl, fun _ => hhigh (compare_gt_iff_gt.mp hcompare).le⟩⟩
    · have heq := compare_eq_iff_eq.mp hcompare
      split
      · exact ⟨hbelow, .inl ⟨rfl, fun _ => hlow heq.le⟩⟩
      · exact ⟨habove, .inr ⟨rfl, fun _ => hhigh heq.ge⟩⟩
  · rw [if_pos hbelow, if_neg habove] at h
    cases h
    exact ⟨hbelow, .inl ⟨rfl, fun h => absurd h habove⟩⟩
  · rw [if_neg hbelow, if_pos habove] at h
    cases h
    exact ⟨habove, .inr ⟨rfl, fun h => absurd h hbelow⟩⟩
  · rw [if_neg hbelow, if_neg habove] at h
    cases h

theorem isSome_nearestOn (tie : Tie) (h : m.Admits grid (m.below grid)) :
    (m.nearestOn tie grid).isSome := by
  rw [nearestOn_eq, if_pos h]
  split
  · split <;> rfl
  · rfl

theorem low_eq (hclose : m.closeBelow = false) : m.low = m.value - 2 ^ m.exponent / 2 := by
  rw [value, low, hclose, zpow_sub₀ (by norm_num)]
  simp only [Bool.false_eq_true, if_false]
  ring

theorem high_eq (m : Magnitude) : m.high = m.value + 2 ^ m.exponent / 2 := by
  rw [value, high, zpow_sub₀ (by norm_num)]
  ring

/-- If the next numbers below and above are equally far away, the decimal is the nearest one. -/
theorem abs_sub_value_le_of_nearestOn {tie : Tie} (hm : 0 < m.mantissa)
    (hclose : m.closeBelow = false) (h : m.nearestOn tie grid = some n) :
    |n * 10 ^ grid - m.value| ≤ 10 ^ grid / 2 := by
  have hpow : (0 : ℚ) < 10 ^ grid := zpow_pos (by norm_num) _
  have hbelow := m.below_le grid
  have habove := m.lt_succ_below grid
  push_cast at habove
  have hstep : (0 : ℚ) < 2 ^ m.exponent := zpow_pos (by norm_num) _
  have hlow := low_eq hclose
  have hhigh := m.high_eq
  rw [abs_le]
  obtain ⟨hadmits, ⟨rfl, hother⟩ | ⟨rfl, hother⟩⟩ := nearestOn_spec h <;>
    obtain ⟨hmin, hmax⟩ := ((admits_iff hm).mp hadmits).bounds <;> push_cast at hmin hmax ⊢
  · refine ⟨?_, by linarith⟩
    by_contra hfar
    have hadmits' : m.Admits grid (m.below grid + 1) := by
      apply (admits_iff hm).mpr (contains_of_between _ _) <;> push_cast <;> linarith
    linarith [hother hadmits']
  · refine ⟨by linarith, ?_⟩
    by_contra hfar
    have hadmits' : m.Admits grid (m.below grid) :=
      (admits_iff hm).mpr (contains_of_between (by linarith) (by linarith))
    linarith [hother hadmits']

/-! ## The leading digit -/

theorem toDigits_bounds {k : ℕ} (hk : 0 < k) :
    10 ^ ((Nat.toDigits 10 k).length - 1) ≤ k ∧ k < 10 ^ (Nat.toDigits 10 k).length := by
  have hlength : 0 < (Nat.toDigits 10 k).length := Nat.length_toDigits_pos
  refine ⟨?_, (Nat.length_toDigits_le_iff (by norm_num) hlength).mp le_rfl⟩
  rcases Nat.eq_zero_or_pos ((Nat.toDigits 10 k).length - 1) with hone | hmore
  · rw [hone]
    exact hk
  · by_contra hlt
    have hle := (Nat.length_toDigits_le_iff (by norm_num) hmore).mpr (not_le.mp hlt)
    omega

theorem value_pos (hm : 0 < m.mantissa) : 0 < m.value := by
  unfold value
  positivity

/-- The lengths of two numbers tell where the leading digit of their ratio stands, but for one
place. -/
theorem div_bounds {a b : ℕ} (ha : 0 < a) (hb : 0 < b) {shift : ℤ}
    (hshift : shift = (Nat.toDigits 10 b).length - (Nat.toDigits 10 a).length) :
    (10 : ℚ) ^ (-shift - 1) ≤ a / b ∧ (a : ℚ) / b < 10 ^ (-shift + 1) := by
  have hbpos : (0 : ℚ) < b := by exact_mod_cast hb
  obtain ⟨i, hi⟩ : ∃ i, (Nat.toDigits 10 a).length = i + 1 :=
    ⟨_, (Nat.succ_pred_eq_of_pos Nat.length_toDigits_pos).symm⟩
  obtain ⟨j, hj⟩ : ∃ j, (Nat.toDigits 10 b).length = j + 1 :=
    ⟨_, (Nat.succ_pred_eq_of_pos Nat.length_toDigits_pos).symm⟩
  obtain ⟨halow, hahigh⟩ := toDigits_bounds ha
  obtain ⟨hblow, hbhigh⟩ := toDigits_bounds hb
  rw [hi, Nat.add_sub_cancel] at halow
  rw [hi] at hahigh
  rw [hj, Nat.add_sub_cancel] at hblow
  rw [hj] at hbhigh
  rw [hi, hj] at hshift
  have halow' : (10 : ℚ) ^ i ≤ a := by exact_mod_cast halow
  have hahigh' : (a : ℚ) < 10 ^ (i + 1) := by exact_mod_cast hahigh
  have hblow' : (10 : ℚ) ^ j ≤ b := by exact_mod_cast hblow
  have hbhigh' : (b : ℚ) ≤ 10 ^ (j + 1) := by exact_mod_cast hbhigh.le
  constructor
  · rw [le_div_iff₀ hbpos]
    calc (10 : ℚ) ^ (-shift - 1) * b ≤ 10 ^ (-shift - 1) * 10 ^ (j + 1) := by gcongr
      _ = 10 ^ i := by
        rw [← zpow_natCast, ← zpow_natCast, ← zpow_add₀ (by norm_num)]
        congr 1
        push_cast at hshift ⊢
        omega
      _ ≤ a := halow'
  · rw [div_lt_iff₀ hbpos]
    calc (a : ℚ) < 10 ^ (i + 1) := hahigh'
      _ = 10 ^ (-shift + 1) * 10 ^ j := by
        rw [← zpow_natCast, ← zpow_natCast, ← zpow_add₀ (by norm_num)]
        congr 1
        push_cast at hshift ⊢
        omega
      _ ≤ 10 ^ (-shift + 1) * b := by gcongr

theorem mul_pow_toNat_le_iff {a b : ℕ} (hb : 0 < b) (shift : ℤ) :
    b * 10 ^ (-shift).toNat ≤ a * 10 ^ shift.toNat ↔ (10 : ℚ) ^ (-shift) ≤ a / b := by
  have hbpos : (0 : ℚ) < b := by exact_mod_cast hb
  have hpow : (0 : ℚ) < 10 ^ shift.toNat := by positivity
  have hsplit := zpow_mul_pow_toNat (b := 10) (by norm_num) (-shift)
  rw [neg_neg] at hsplit
  rw [← Nat.cast_le (α := ℚ), le_div_iff₀ hbpos]
  push_cast
  rw [← hsplit, ← mul_assoc, mul_le_mul_iff_left₀ hpow, mul_comm]

/-- The leading digit is not zero, and it stands at the leading exponent. -/
theorem leadingExponent_spec (hm : 0 < m.mantissa) :
    (10 : ℚ) ^ m.leadingExponent ≤ m.value ∧ m.value < 10 ^ (m.leadingExponent + 1) := by
  obtain ⟨a, ha⟩ : ∃ a, 4 * m.mantissa * m.numerator 0 = a := ⟨_, rfl⟩
  obtain ⟨b, hb⟩ : ∃ b, m.denominator 0 = b := ⟨_, rfl⟩
  have hbpos : 0 < b := hb ▸ m.denominator_pos 0
  have hapos : 0 < a := by
    rw [← ha]
    exact Nat.mul_pos (Nat.mul_pos (by norm_num) hm)
      (Nat.mul_pos (Nat.pow_pos (by norm_num)) (Nat.pow_pos (by norm_num)))
  have hvalue : m.value = a / b := by
    obtain ⟨c, hc, hnum, hden⟩ := m.exists_scale 0
    rw [zpow_zero, mul_one] at hden
    rw [← ha, ← hb, Nat.cast_mul, hnum, hden, value_eq]
    push_cast
    field_simp
  obtain ⟨shift, hshift⟩ : ∃ shift : ℤ,
      shift = (Nat.toDigits 10 b).length - (Nat.toDigits 10 a).length := ⟨_, rfl⟩
  have hlead : m.leadingExponent =
      if b * 10 ^ (-shift).toNat ≤ a * 10 ^ shift.toNat then -shift else -shift - 1 := by
    unfold leadingExponent
    rw [ha, hb, hshift]
    rfl
  obtain ⟨hlow, hhigh⟩ := div_bounds hapos hbpos hshift
  have htest := mul_pow_toNat_le_iff (a := a) hbpos shift
  rw [hlead, hvalue]
  split
  · next h => exact ⟨htest.mp h, hhigh⟩
  · next h =>
    rw [sub_add_cancel]
    exact ⟨hlow, not_le.mp (mt htest.mpr h)⟩

/-! ## The fewest digits -/

/-- With nine digits there is a decimal between the number and the next one below. -/
theorem admits_below_of_nine (hm : 0 < m.mantissa) (hlt : m.mantissa < 2 ^ 24) :
    m.Admits (m.leadingExponent - 8) (m.below (m.leadingExponent - 8)) := by
  obtain ⟨hlead, -⟩ := leadingExponent_spec hm
  have hbelow := m.below_le (m.leadingExponent - 8)
  have habove := m.lt_succ_below (m.leadingExponent - 8)
  push_cast at habove
  have hunit : (0 : ℚ) < 2 ^ (m.exponent - 2) := by positivity
  have hmantissa : (m.mantissa : ℚ) < 2 ^ 24 := by exact_mod_cast hlt
  have hvalue : m.value < 2 ^ 26 * 2 ^ (m.exponent - 2) := by
    rw [value_eq]
    gcongr
    linarith
  have hstep : (10 : ℚ) ^ (m.leadingExponent - 8) < 2 ^ (m.exponent - 2) := by
    rw [zpow_sub₀ (by norm_num), div_lt_iff₀ (by positivity)]
    calc (10 : ℚ) ^ m.leadingExponent ≤ m.value := hlead
      _ < 2 ^ 26 * 2 ^ (m.exponent - 2) := hvalue
      _ ≤ 2 ^ (m.exponent - 2) * 10 ^ (8 : ℤ) := by
        rw [mul_comm]
        gcongr
        norm_num
  have hlow : m.low ≤ m.value - 2 ^ (m.exponent - 2) := by
    rw [value_eq, low]
    split <;> linarith
  have hhigh : m.value < m.high := by
    rw [value_eq, high]
    linarith
  exact (admits_iff hm).mpr (contains_of_between (by linarith) (by linarith))

/-- A number of at most 24 bits is written with at most nine digits, as a decimal that is chosen
on its grid. -/
theorem shortest_spec (tie : Tie) (hm : 0 < m.mantissa) (hlt : m.mantissa < 2 ^ 24) :
    ∃ count ≤ 8, ∃ n, m.shortest tie = ⟨n, m.leadingExponent - (count : ℕ)⟩ ∧
      m.nearestOn tie (m.leadingExponent - (count : ℕ)) = some n := by
  obtain ⟨attempt, hattempt⟩ : ∃ attempt : ℕ → Option Decimal, attempt = fun count : ℕ =>
      (m.nearestOn tie (m.leadingExponent - count)).map
        (Decimal.mk · (m.leadingExponent - count)) := ⟨_, rfl⟩
  have hshortest : m.shortest tie =
      ((List.range 17).findSome? attempt).getD ⟨m.mantissa, m.exponent⟩ := by
    rw [hattempt]
    rfl
  have hsome : ((List.range 9).findSome? attempt).isSome := by
    rw [List.findSome?_isSome_iff]
    refine ⟨8, by simp, ?_⟩
    rw [hattempt, Option.isSome_map]
    exact isSome_nearestOn tie (admits_below_of_nine hm hlt)
  obtain ⟨d, hd⟩ := Option.isSome_iff_exists.mp hsome
  have hsplit : List.range 17 = List.range 9 ++ [9, 10, 11, 12, 13, 14, 15, 16] := by decide
  obtain ⟨count, hcount, hfound⟩ := List.exists_of_findSome?_eq_some hd
  rw [hattempt, Option.map_eq_some_iff] at hfound
  obtain ⟨n, hn, rfl⟩ := hfound
  refine ⟨count, by simpa [Nat.lt_succ_iff] using hcount, n, ?_, hn⟩
  rw [hshortest, hsplit, List.findSome?_append, hd, Option.some_or, Option.getD_some]

end Storyboard.Magnitude
