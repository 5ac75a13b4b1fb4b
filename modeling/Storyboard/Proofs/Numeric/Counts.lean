import Storyboard.Numeric.Binary
import Storyboard.Proofs.Numeric.Arithmetic

/-! # Whole numbers

A count of at most 24 bits is a binary32 number itself, and sums and differences of such
counts are exact. A longer count is rounded, but to a number that is whole again.
-/

namespace Storyboard

open Float.Model (UnpackedFloat)
open Float.Model.UnpackedFloat

/-- A number stands for a whole one. -/
structure IsWhole (x : Float32) (n : ℕ) : Prop where
  finite : x.isFinite
  value : toRat x = n

theorem nearest_natCast {n : ℕ} (h : n ≤ 2 ^ 24) : nearest n = n := by
  rcases Nat.lt_or_eq_of_le h with hlt | rfl
  · have habs : |(n : ℤ)| < 2 ^ 24 := by
      rw [Nat.abs_cast]
      exact_mod_cast hlt
    exact nearest_of_grid (e := 0) (by simp) habs (by norm_num)
  · exact nearest_of_grid (m := 1) (e := 24) (by norm_num) (by norm_num) (by norm_num)

theorem abs_natCast_lt {n : ℕ} (h : n < 2 ^ 128) : |(n : ℚ)| < 2 ^ 128 := by
  rw [Nat.abs_cast]
  exact_mod_cast h

/-- A count is rounded to the nearest number. -/
theorem ofCount_rounds {n : ℕ} (h : n < 2 ^ 64) : Rounds (ofCount n) n := by
  have hrounds := normalize_rounds n 0
  rw [zpow_zero, mul_one, Int.cast_natCast] at hrounds
  change Rounds
    (.ofModel (.pack (UnpackedFloat.normalize .binary32 (n.toUInt64.toNat : ℕ) 0 .positive))) n
  rwa [Nat.toUInt64, UInt64.toNat_ofNat_of_lt' h]

theorem ofCount_isWhole {n : ℕ} (h : n ≤ 2 ^ 24) : IsWhole (ofCount n) n := by
  obtain ⟨hfinite, hvalue⟩ := (ofCount_rounds (by omega : n < 2 ^ 64)).exact (nearest_natCast h)
    (abs_natCast_lt (by omega))
  exact ⟨hfinite, hvalue⟩

@[simp] theorem ofCount_zero : ofCount 0 = 0 := rfl

@[simp] theorem ofCount_one : ofCount 1 = 1 := rfl

namespace IsWhole

variable {x y : Float32} {m n : ℕ}

theorem le_iff (hx : IsWhole x m) (hy : IsWhole y n) : x ≤ y ↔ m ≤ n := by
  rw [le_iff_toRat_le hx.finite hy.finite, hx.value, hy.value, Nat.cast_le]

theorem eq_of_pos (hx : IsWhole x n) (hy : IsWhole y n) (hn : 0 < n) : x = y := by
  refine eq_of_toRat_eq (hx.value.trans hy.value.symm) ?_
  rw [hx.value]
  exact_mod_cast hn.ne'

theorem eq_ofCount (hx : IsWhole x n) (hn : 0 < n) (h : n ≤ 2 ^ 24) : x = ofCount n :=
  hx.eq_of_pos (ofCount_isWhole h) hn

theorem zero : IsWhole 0 0 := ⟨rfl, by rw [toRat_zero, Nat.cast_zero]⟩

theorem not_isNaN (hx : IsWhole x n) : ¬ x.isNaN = true := by
  change ¬ (parts x).isNaN = true
  rcases parts_of_isFinite hx.finite with ⟨s, hpx⟩ | ⟨s, m, e, hm, hpx⟩ <;> rw [hpx] <;> nofun

/-- A zero of either sign becomes the count 0. -/
theorem maxNumber_zero (hx : IsWhole x n) (h : n ≤ 2 ^ 24) : maxNumber x 0 = ofCount n := by
  unfold maxNumber
  rw [if_neg hx.not_isNaN]
  split
  · next hle =>
    rw [hx.le_iff zero] at hle
    rw [Nat.le_zero.mp hle, ofCount_zero]
  · next hgt =>
    rw [hx.le_iff zero] at hgt
    exact hx.eq_ofCount (by omega) h

theorem minNumber (hx : IsWhole x m) (hy : IsWhole y n) :
    IsWhole (Storyboard.minNumber x y) (min m n) := by
  unfold Storyboard.minNumber
  rw [if_neg hx.not_isNaN]
  split
  · next hle => rwa [Nat.min_eq_right ((hy.le_iff hx).mp hle)]
  · next hgt => rwa [Nat.min_eq_left (Nat.le_of_not_le (mt (hy.le_iff hx).mpr hgt))]

/-- The least of some whole numbers is at most each of them, and at least what all of them
are. -/
theorem foldl_minNumber {l : List Float32} {low : ℕ} (hx : IsWhole x m) (hlow : low ≤ m)
    (hl : ∀ y ∈ l, ∃ n, IsWhole y n ∧ low ≤ n) :
    ∃ least, IsWhole (l.foldl Storyboard.minNumber x) least ∧ low ≤ least ∧ least ≤ m ∧
      ∀ y ∈ l, ∀ n, IsWhole y n → least ≤ n := by
  induction l generalizing x m with
  | nil => exact ⟨m, hx, hlow, le_rfl, nofun⟩
  | cons y l ih =>
      obtain ⟨⟨n, hy, hn⟩, hl⟩ := List.forall_mem_cons.mp hl
      obtain ⟨least, hleast, hge, hle, hall⟩ := ih (hx.minNumber hy) (le_min hlow hn) hl
      refine ⟨least, hleast, hge, hle.trans (min_le_left m n), List.forall_mem_cons.mpr ⟨?_, hall⟩⟩
      intro n' hy'
      have heq : (n : ℚ) = n' := hy.value.symm.trans hy'.value
      rw [← Nat.cast_injective heq]
      exact hle.trans (min_le_right m n)

end IsWhole

theorem sub_self_number {x : Float32} (hx : x.isFinite) : x - x = 0 := by
  change Float32.ofModel (.pack (sub .binary32 (parts x) (parts x))) = 0
  rcases parts_of_isFinite hx with ⟨s, hpx⟩ | ⟨s, m, e, hm, hpx⟩ <;> rw [hpx]
  · cases s <;> rfl
  · change Float32.ofModel (.pack (UnpackedFloat.normalize .binary32
      (s.apply (decreaseExponent m e (min e e)).1 - s.apply (decreaseExponent m e (min e e)).1)
      (min e e) .positive)) = 0
    rw [Int.sub_self]
    rfl

theorem ofCount_add {m n : ℕ} (h : m + n ≤ 2 ^ 24) : ofCount m + ofCount n = ofCount (m + n) := by
  rcases Nat.eq_zero_or_pos (m + n) with hzero | hpos
  · obtain ⟨rfl, rfl⟩ : m = 0 ∧ n = 0 := by omega
    rfl
  · have hm := ofCount_isWhole (by omega : m ≤ 2 ^ 24)
    have hn := ofCount_isWhole (by omega : n ≤ 2 ^ 24)
    have hrounds := add_rounds hm.finite hn.finite
    rw [hm.value, hn.value, ← Nat.cast_add] at hrounds
    obtain ⟨hfinite, hvalue⟩ := hrounds.exact (nearest_natCast h) (abs_natCast_lt (by omega))
    exact IsWhole.eq_ofCount ⟨hfinite, hvalue⟩ hpos h

theorem ofCount_sub {m n : ℕ} (hle : n ≤ m) (h : m ≤ 2 ^ 24) :
    ofCount m - ofCount n = ofCount (m - n) := by
  have hm := ofCount_isWhole h
  have hn := ofCount_isWhole (by omega : n ≤ 2 ^ 24)
  rcases Nat.eq_or_lt_of_le hle with rfl | hlt
  · rw [Nat.sub_self, ofCount_zero]
    exact sub_self_number hm.finite
  · have hrounds := sub_rounds hm.finite hn.finite
    rw [hm.value, hn.value, ← Nat.cast_sub hle] at hrounds
    obtain ⟨hfinite, hvalue⟩ := hrounds.exact (nearest_natCast (by omega))
      (abs_natCast_lt (by omega))
    exact IsWhole.eq_ofCount ⟨hfinite, hvalue⟩ (by omega) (by omega)

/-- Between neighbouring counts the line has slope 1. -/
theorem lerp_ofCount {n : ℕ} (h : n + 1 ≤ 2 ^ 24) (t : Float32) :
    lerp (ofCount n) (ofCount (n + 1)) t = ofCount n + t := by
  unfold lerp
  rw [ofCount_sub (by omega) h, Nat.add_sub_cancel_left, ofCount_one, one_mul_number]

/-! ## Whole parts -/

theorem roundToInt_eq (s : Sign) (m : ℕ) (e : ℤ) :
    roundToInt s m e = s.apply ⌊(m : ℚ) * 2 ^ e⌋₊ := by
  have hstands := (standsFor_exact (m <<< e.toNat)).shiftRight (-e).toNat
  have hvalue : ((m <<< e.toNat : ℕ) : ℚ) / 2 ^ (-e).toNat = m * 2 ^ e := by
    rw [Nat.shiftLeft_eq, Nat.cast_mul, Nat.cast_pow, Nat.cast_ofNat, mul_div_assoc,
      ← zpow_natCast, ← zpow_natCast, ← zpow_sub₀ (by norm_num)]
    congr 2
    omega
  rw [hvalue] at hstands
  unfold roundToInt decreaseExponent shiftToExponent
  dsimp only
  rw [show (e - 0).toNat = e.toNat by omega, show (0 - (e - e.toNat)).toNat = (-e).toNat by omega,
    (Nat.floor_eq_iff (by positivity)).mpr hstands.fract_bounds]

theorem toNat_ofNatClamp (n : ℕ) : (UInt64.ofNatClamp n).toNat = min n (2 ^ 64 - 1) := by
  rcases lt_or_ge n (2 ^ 64) with h | h
  · rw [UInt64.toNat_ofNatClamp_of_lt h]
    omega
  · rw [UInt64.ofNatClamp, dif_neg (show ¬ n < UInt64.size from not_lt.mpr h),
      UInt64.toNat_ofNatLT, UInt64.size]
    omega

/-- The whole part is the floor, kept within 64 bits. -/
theorem wholePart_eq {x : Float32} (hx : x.isFinite) :
    wholePart x = min ⌊toRat x⌋₊ (2 ^ 64 - 1) := by
  change (UInt64.ofNatClamp ((parts x).toInt 0 (2 ^ 64 - 1)).toNat).toNat = _
  rw [toNat_ofNatClamp]
  congr 1
  unfold toRat
  rcases parts_of_isFinite hx with ⟨s, hpx⟩ | ⟨s, m, e, hm, hpx⟩ <;> rw [hpx]
  · exact Nat.floor_zero.symm
  · change (roundToInt s m e).toNat = ⌊signed s (m * 2 ^ e)⌋₊
    rw [roundToInt_eq]
    cases s
    · have hneg : signed .negative ((m : ℚ) * 2 ^ e) ≤ 0 :=
        neg_nonpos.mpr (magnitude_pos hm e).le
      rw [Nat.floor_of_nonpos hneg, Sign.apply]
      omega
    · rw [signed, Sign.apply, Int.toNat_natCast]

theorem IsWhole.wholePart_eq {x : Float32} {n : ℕ} (hx : IsWhole x n) :
    wholePart x = min n (2 ^ 64 - 1) := by
  rw [Storyboard.wholePart_eq hx.finite, hx.value, Nat.floor_natCast]

/-- A count of more than 24 bits is rounded to a multiple of a power of two. -/
theorem nearest_natCast_of_lt {n : ℕ} (hlo : 2 ^ 24 ≤ n) (hhi : n < 2 ^ 64) :
    ∃ m : ℕ, 0 < m ∧ m ≤ 2 ^ 64 ∧ nearest n = m := by
  have hlog : 24 ≤ Nat.log 2 n := Nat.le_log_of_pow_le (by norm_num) hlo
  have hlog' : Nat.log 2 n < 64 := Nat.log_lt_of_lt_pow (by omega) hhi
  obtain ⟨g, hg⟩ : ∃ g, Nat.log 2 n = g + 23 := ⟨Nat.log 2 n - 23, by omega⟩
  have hgrid : gridExponent n = g := by
    unfold gridExponent
    rw [Nat.abs_cast, Int.log_natCast, hg]
    omega
  have hpow : (0 : ℚ) < 2 ^ g := by positivity
  have hlow : 1 ≤ halfEven ((n : ℚ) / 2 ^ g) := by
    refine le_halfEven ?_
    rw [Int.cast_one, le_div_iff₀ hpow, one_mul]
    have hle : 2 ^ g ≤ n :=
      (Nat.pow_le_pow_right (by norm_num) (by omega)).trans (Nat.pow_log_le_self 2 (by omega))
    exact_mod_cast hle
  have hhigh : halfEven ((n : ℚ) / 2 ^ g) ≤ 2 ^ (64 - g) := by
    refine halfEven_le ?_
    rw [div_le_iff₀ hpow]
    have hle : n ≤ 2 ^ (64 - g) * 2 ^ g := by
      rw [← pow_add, Nat.sub_add_cancel (by omega)]
      exact hhi.le
    exact_mod_cast hle
  obtain ⟨k, hk⟩ : ∃ k : ℕ, halfEven ((n : ℚ) / 2 ^ g) = k :=
    ⟨_, (Int.toNat_of_nonneg (by omega)).symm⟩
  rw [hk] at hlow hhigh
  refine ⟨k * 2 ^ g, Nat.mul_pos (by omega) (by positivity), ?_, ?_⟩
  · have hk' : k ≤ 2 ^ (64 - g) := by exact_mod_cast hhigh
    calc k * 2 ^ g ≤ 2 ^ (64 - g) * 2 ^ g := Nat.mul_le_mul_right _ hk'
      _ = 2 ^ 64 := by rw [← pow_add, Nat.sub_add_cancel (by omega)]
  · unfold nearest
    rw [hgrid, zpow_natCast, hk]
    push_cast
    rfl

/-- A count that is rounded is still whole. -/
theorem exists_isWhole_ofCount (n : ℕ) :
    ofCount n = 0 ∨ ∃ m : ℕ, 0 < m ∧ m ≤ 2 ^ 64 ∧ IsWhole (ofCount n) m := by
  rw [show ofCount n = ofCount n.toUInt64.toNat from
    congrArg UInt64.toFloat32 (UInt64.ofNat_toNat (x := n.toUInt64)).symm]
  -- a count is reduced to 64 bits first, and may become 0
  have hhi := n.toUInt64.toNat_lt
  generalize n.toUInt64.toNat = k at hhi
  rcases Nat.eq_zero_or_pos k with rfl | hpos
  · exact .inl rfl
  · right
    rcases le_or_gt (2 ^ 24) k with hlo | hlo
    · obtain ⟨m, hm, hle, hnearest⟩ := nearest_natCast_of_lt hlo hhi
      have hlt := abs_natCast_lt (by omega : m < 2 ^ 128)
      obtain ⟨hfinite, hvalue⟩ := (ofCount_rounds hhi).finite (by rwa [hnearest])
      exact ⟨m, hm, hle, hfinite, hvalue.trans hnearest⟩
    · exact ⟨k, hpos, by omega, ofCount_isWhole (by omega)⟩

theorem isFinite_ofCount (n : ℕ) : (ofCount n).isFinite := by
  rcases exists_isWhole_ofCount n with hzero | ⟨m, -, -, hwhole⟩
  · rw [hzero]
    rfl
  · exact hwhole.finite

/-- The whole part of a rounded count is rounded to the same number. -/
theorem ofCount_wholePart_ofCount (n : ℕ) : ofCount (wholePart (ofCount n)) = ofCount n := by
  rcases exists_isWhole_ofCount n with hzero | ⟨m, hpos, hle, hwhole⟩
  · rw [hzero]
    rfl
  rw [hwhole.wholePart_eq]
  rcases Nat.lt_or_eq_of_le hle with hlt | rfl
  · rw [Nat.min_eq_left (by omega)]
    have hrounds := ofCount_rounds hlt
    rw [← hwhole.value] at hrounds
    obtain ⟨hfinite, hvalue⟩ := hrounds.exact_toRat
    exact IsWhole.eq_of_pos ⟨hfinite, hvalue.trans hwhole.value⟩ hwhole hpos
  · -- the count was rounded up to `2 ^ 64`, and its whole part is `2 ^ 64 - 1`
    refine IsWhole.eq_of_pos ⟨rfl, ?_⟩ hwhole hpos
    change signed .positive ((2 ^ 23 : ℕ) * 2 ^ (41 : ℤ)) = ((2 ^ 64 : ℕ) : ℚ)
    norm_num [signed]

theorem wholePart_ofCount {n : ℕ} (h : n ≤ 2 ^ 24) : wholePart (ofCount n) = n := by
  rw [(ofCount_isWhole h).wholePart_eq]
  omega

end Storyboard
