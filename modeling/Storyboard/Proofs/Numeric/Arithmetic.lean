import Storyboard.Proofs.Numeric.Rounding

/-! # Arithmetic of binary32 numbers

A finite number stands for a rational. This module says which rational an operation rounds,
that comparison of finite numbers is comparison of rationals, and that a rational other than
zero is the value of at most one number.
-/

namespace Storyboard

open Float.Model (Format UnpackedFloat)
open Float.Model.UnpackedFloat

/-! ## Values -/

/-- A rational with the sign of a number. -/
def signed : Sign → ℚ → ℚ
  | .negative, q => -q
  | .positive, q => q

/-- The rational that parts stand for; 0 if they are not finite. -/
def ratOf : UnpackedFloat → ℚ
  | .finite s m e _ => signed s (m * 2 ^ e)
  | _ => 0

/-- The rational that a number stands for; 0 if it is not finite. -/
def toRat (x : Float32) : ℚ :=
  ratOf (parts x)

/-- A finite number has the parts of a zero or of a magnitude. -/
theorem parts_of_isFinite {x : Float32} (hx : x.isFinite) :
    (∃ s, parts x = .zero s) ∨ ∃ s m e hm, parts x = .finite s m e hm := by
  change (parts x).isFinite = true at hx
  cases hpx : parts x with
  | infinity s => rw [hpx] at hx; cases hx
  | notANumber => rw [hpx] at hx; cases hx
  | zero s => exact .inl ⟨s, rfl⟩
  | finite s m e hm => exact .inr ⟨s, m, e, hm, rfl⟩

theorem magnitude_pos {m : ℕ} (hm : 0 < m) (e : ℤ) : (0 : ℚ) < m * 2 ^ e := by
  positivity

/-- Of canonical magnitudes the one with the larger exponent is larger. -/
theorem Fits.lt_of_exponent_lt {m n : ℕ} {d e : ℤ} (hm : Fits m d) (hn : Fits n e) (h : d < e) :
    (m : ℚ) * 2 ^ d < n * 2 ^ e := by
  have hfull : 2 ^ 23 ≤ n := hn.full.resolve_left (by have := hm.least; omega)
  have hlt : (m : ℚ) < 2 ^ 24 := by exact_mod_cast hm.lt
  have hle : (2 : ℚ) ^ 23 ≤ n := by exact_mod_cast hfull
  calc (m : ℚ) * 2 ^ d < 2 ^ 24 * 2 ^ d := by gcongr
    _ = 2 ^ 23 * 2 ^ (d + 1) := by rw [zpow_add_one₀ (by norm_num)]; ring
    _ ≤ 2 ^ 23 * 2 ^ e := by gcongr <;> norm_num; omega
    _ ≤ n * 2 ^ e := by gcongr

theorem Fits.compare_eq {m n : ℕ} {d e : ℤ} (hm : Fits m d) (hn : Fits n e) :
    (compare d e).then (compare m n) = compare ((m : ℚ) * 2 ^ d) (n * 2 ^ e) := by
  rcases lt_trichotomy d e with h | rfl | h
  · rw [compare_lt_iff_lt.mpr h, compare_lt_iff_lt.mpr (hm.lt_of_exponent_lt hn h)]
    rfl
  · rw [compare_eq_iff_eq.mpr rfl]
    change compare m n = _
    have hpow : (0 : ℚ) < 2 ^ d := by positivity
    rcases lt_trichotomy m n with h | rfl | h
    · rw [compare_lt_iff_lt.mpr h, eq_comm, compare_lt_iff_lt]
      gcongr
    · rw [compare_eq_iff_eq.mpr rfl, compare_eq_iff_eq.mpr rfl]
    · rw [compare_gt_iff_gt.mpr h, eq_comm, compare_gt_iff_gt]
      gcongr
  · rw [compare_gt_iff_gt.mpr h, compare_gt_iff_gt.mpr (hn.lt_of_exponent_lt hm h)]
    rfl

theorem compare_neg_neg (a b : ℚ) : compare (-a) (-b) = compare b a := by
  rcases lt_trichotomy b a with h | rfl | h
  · rw [compare_lt_iff_lt.mpr h, compare_lt_iff_lt.mpr (neg_lt_neg h)]
  · rw [compare_eq_iff_eq.mpr rfl, compare_eq_iff_eq.mpr rfl]
  · rw [compare_gt_iff_gt.mpr h, compare_gt_iff_gt.mpr (neg_lt_neg h)]

/-- Comparison of finite numbers is comparison of their values. -/
theorem compare_parts {x y : Float32} (hx : x.isFinite) (hy : y.isFinite) :
    (parts x).compare (parts y) = some (compare (toRat x) (toRat y)) := by
  unfold toRat
  rcases parts_of_isFinite hx with ⟨s, hpx⟩ | ⟨s, m, d, hm, hpx⟩ <;>
    rcases parts_of_isFinite hy with ⟨t, hpy⟩ | ⟨t, n, e, hn, hpy⟩ <;> rw [hpx, hpy]
  · rfl
  · have hpos := magnitude_pos hn e
    cases t
    · exact congrArg some (compare_gt_iff_gt.mpr (neg_lt_zero.mpr hpos)).symm
    · exact congrArg some (compare_lt_iff_lt.mpr hpos).symm
  · have hpos := magnitude_pos hm d
    cases s
    · exact congrArg some (compare_lt_iff_lt.mpr (neg_lt_zero.mpr hpos)).symm
    · exact congrArg some (compare_gt_iff_gt.mpr hpos).symm
  · have hmpos := magnitude_pos hm d
    have hnpos := magnitude_pos hn e
    have heq := (fits_of_parts hpx).1.compare_eq (fits_of_parts hpy).1
    cases s <;> cases t
    · change some ((compare d e).then (compare m n)).swap = some (compare (-_) (-_))
      rw [heq, compare_neg_neg, ← Std.OrientedCmp.eq_swap]
    · exact congrArg some (compare_lt_iff_lt.mpr ((neg_lt_zero.mpr hmpos).trans hnpos)).symm
    · exact congrArg some (compare_gt_iff_gt.mpr ((neg_lt_zero.mpr hnpos).trans hmpos)).symm
    · exact congrArg some heq

theorem le_iff_toRat_le {x y : Float32} (hx : x.isFinite) (hy : y.isFinite) :
    x ≤ y ↔ toRat x ≤ toRat y := by
  change decide (((parts x).compare (parts y)).any (·.isLE) = true) = true ↔ _
  rw [decide_eq_true_iff, compare_parts hx hy, Option.any_some, ← Ordering.ne_gt_iff_isLE]
  exact compare_le_iff_le

theorem lt_iff_toRat_lt {x y : Float32} (hx : x.isFinite) (hy : y.isFinite) :
    x < y ↔ toRat x < toRat y := by
  change decide (((parts x).compare (parts y) == some .lt) = true) = true ↔ _
  rw [decide_eq_true_iff, compare_parts hx hy, ← compare_lt_iff_lt]
  simp

theorem toRat_pos {x : Float32} (hx : x.isFinite) (hpos : 0 < x) : 0 < toRat x :=
  (lt_iff_toRat_lt rfl hx).mp hpos

theorem beq_iff_toRat_eq {x y : Float32} (hx : x.isFinite) (hy : y.isFinite) :
    (x == y) = true ↔ toRat x = toRat y := by
  change ((parts x).compare (parts y) == some .eq) = true ↔ _
  rw [compare_parts hx hy, ← compare_eq_iff_eq]
  simp

theorem parts_of_toRat_ne_zero {x : Float32} (hne : toRat x ≠ 0) :
    ∃ s m e hm, parts x = .finite s m e hm := by
  unfold toRat at hne
  cases hpx : parts x with
  | infinity s => exact absurd (hpx ▸ rfl) hne
  | notANumber => exact absurd (hpx ▸ rfl) hne
  | zero s => exact absurd (hpx ▸ rfl) hne
  | finite s m e hm => exact ⟨s, m, e, hm, rfl⟩

theorem toRat_ne_zero_of_parts {x : Float32} {s : Sign} {m : ℕ} {e : ℤ} {hm : 0 < m}
    (hx : parts x = .finite s m e hm) : toRat x ≠ 0 := by
  have hpos := magnitude_pos hm e
  unfold toRat
  rw [hx]
  cases s
  · exact neg_ne_zero.mpr hpos.ne'
  · exact hpos.ne'

/-- A sign and a positive magnitude are determined by the number that they make. -/
theorem signed_inj {s t : Sign} {q r : ℚ} (hq : 0 < q) (hr : 0 < r) (h : signed s q = signed t r) :
    s = t ∧ q = r := by
  cases s <;> cases t <;> simp only [signed] at h
  · exact ⟨rfl, neg_inj.mp h⟩
  · linarith
  · linarith
  · exact ⟨rfl, h⟩

/-- A value other than zero belongs to one number only. -/
theorem eq_of_toRat_eq {x y : Float32} (h : toRat x = toRat y) (hne : toRat x ≠ 0) : x = y := by
  apply parts_injective
  obtain ⟨s, m, d, hm, hpx⟩ := parts_of_toRat_ne_zero hne
  obtain ⟨t, n, e, hn, hpy⟩ := parts_of_toRat_ne_zero (h ▸ hne)
  unfold toRat at h
  rw [hpx, hpy] at h
  obtain ⟨hsign, hmagnitude⟩ := signed_inj (magnitude_pos hm d) (magnitude_pos hn e) h
  have heq := (fits_of_parts hpx).1.compare_eq (fits_of_parts hpy).1
  rw [compare_eq_iff_eq.mpr hmagnitude, Ordering.then_eq_eq] at heq
  rw [hpx, hpy, UnpackedFloat.finite.injEq]
  exact ⟨hsign, compare_eq_iff_eq.mp heq.2, compare_eq_iff_eq.mp heq.1⟩

/-! ## Rounded results -/

/-- A number is a rational, rounded. What is too large for the format becomes infinite. -/
structure Rounds (z : Float32) (q : ℚ) : Prop where
  finite : |nearest q| < 2 ^ 128 → z.isFinite ∧ toRat z = nearest q
  above : 2 ^ 128 ≤ nearest q → parts z = .infinity .positive
  below : nearest q ≤ -2 ^ 128 → parts z = .infinity .negative

/-- A canonical magnitude is in the range of the format exactly if its exponent is. -/
theorem Fits.lt_iff {m : ℕ} {e : ℤ} (h : Fits m e) : (m : ℚ) * 2 ^ e < 2 ^ 128 ↔ e ≤ 104 := by
  constructor
  · intro hlt
    by_contra hgt
    have hfull : (2 : ℚ) ^ 23 ≤ m := by exact_mod_cast h.full.resolve_left (by omega)
    have hpow : (2 : ℚ) ^ (105 : ℤ) ≤ 2 ^ e := zpow_le_zpow_right₀ (by norm_num) (by omega)
    have hprod : (2 : ℚ) ^ 23 * 2 ^ (105 : ℤ) ≤ m * 2 ^ e := by gcongr
    norm_num at hprod hlt
    linarith
  · intro hle
    have hlt : (m : ℚ) < 2 ^ 24 := by exact_mod_cast h.lt
    have hpow : (2 : ℚ) ^ e ≤ 2 ^ (104 : ℤ) := zpow_le_zpow_right₀ (by norm_num) hle
    calc (m : ℚ) * 2 ^ e < 2 ^ 24 * 2 ^ e := by gcongr
      _ ≤ 2 ^ 24 * 2 ^ (104 : ℤ) := by gcongr
      _ = 2 ^ 128 := by norm_num

/-- Encoding canonical parts of a magnitude gives the rounded number. -/
theorem Encodes.rounds {s : Sign} {q : ℚ} {u : UnpackedFloat} (h : Encodes s (nearest q) u)
    (hq : 0 ≤ q) : Rounds (.ofModel (.pack u)) (signed s q) := by
  have hsigned : nearest (signed s q) = signed s (nearest q) := by
    cases s
    · exact nearest_neg q
    · rfl
  have hr := nearest_nonneg hq
  generalize nearest q = r at h hsigned hr
  have hinf : 2 ^ 128 ≤ r → (Float32.Model.pack u).unpack = .infinity s := by
    intro hge
    cases h with
    | zero => norm_num at hge
    | finite hm hfits =>
        refine unpack_pack_of_overflow s hm ?_
        by_contra hlt
        exact absurd (hfits.lt_iff.mpr (by omega)) (not_lt.mpr hge)
  refine ⟨?_, ?_, ?_⟩
  · intro hlt
    have hlt' : r < 2 ^ 128 := by
      rw [hsigned] at hlt
      cases s
      · simpa [signed, abs_of_nonneg hr] using hlt
      · simpa [signed, abs_of_nonneg hr] using hlt
    rw [hsigned]
    change (Float32.Model.pack u).unpack.isFinite = true ∧ ratOf (Float32.Model.pack u).unpack = _
    cases h with
    | zero =>
        rw [unpack_pack_zero]
        refine ⟨rfl, ?_⟩
        cases s
        · exact neg_zero.symm
        · rfl
    | finite hm hfits =>
        rw [unpack_pack_of_fits s hm hfits (hfits.lt_iff.mp hlt')]
        exact ⟨rfl, rfl⟩
  · intro hge
    rw [hsigned] at hge
    cases s
    · simp only [signed] at hge
      norm_num at hge
      linarith
    · exact hinf hge
  · intro hle
    rw [hsigned] at hle
    cases s
    · exact hinf (by simpa [signed] using hle)
    · simp only [signed] at hle
      norm_num at hle
      linarith

theorem ofModel_pack_parts (x : Float32) : Float32.ofModel (.pack (parts x)) = x := by
  obtain ⟨x⟩ := x
  exact congrArg _ (pack_unpack x)

/-- The value of a number is not changed by rounding. -/
theorem Fits.nearest_eq {m : ℕ} {e : ℤ} (h : Fits m e) : nearest (m * 2 ^ e) = m * 2 ^ e := by
  have hlt : |(m : ℤ)| < 2 ^ 24 := by
    rw [Nat.abs_cast]
    exact_mod_cast h.lt
  exact nearest_of_grid (by rw [Int.cast_natCast]) hlt h.least

theorem rounds_zero (s : Sign) : Rounds (.ofModel (.pack (.zero s))) 0 := by
  have hencodes : Encodes s (nearest 0) (.zero s) := by rw [nearest_zero]; exact .zero
  have hrounds := hencodes.rounds le_rfl
  cases s <;> simpa [signed] using hrounds

theorem rounds_toRat {x : Float32} (hx : x.isFinite) : Rounds x (toRat x) := by
  have hself := ofModel_pack_parts x
  unfold toRat
  rcases parts_of_isFinite hx with ⟨s, hpx⟩ | ⟨s, m, e, hm, hpx⟩
  · rw [hpx] at hself ⊢
    rw [← hself]
    exact rounds_zero s
  · have hfits := (fits_of_parts hpx).1
    have hencodes : Encodes s (nearest (m * 2 ^ e)) (.finite s m e hm) := by
      rw [hfits.nearest_eq]
      exact .finite hm hfits
    have hrounds := hencodes.rounds (magnitude_pos hm e).le
    rw [hpx] at hself ⊢
    rwa [hself] at hrounds

theorem normalize_rounds (m e : ℤ) :
    Rounds (.ofModel (.pack (UnpackedFloat.normalize .binary32 m e .positive))) (m * 2 ^ e) := by
  unfold UnpackedFloat.normalize
  rcases lt_trichotomy m 0 with h | rfl | h
  · rw [Int.compare_eq_lt.mpr h]
    have hm : 0 < (-m).toNat := by omega
    have hcast : (((-m).toNat : ℕ) : ℚ) = -m := by
      exact_mod_cast Int.toNat_of_nonneg (by omega : 0 ≤ -m)
    have hrounds := (round_encodes .negative e hm).rounds (magnitude_pos hm e).le
    rw [hcast] at hrounds
    simpa [signed] using hrounds
  · rw [compare_eq_iff_eq.mpr rfl]
    simpa using rounds_zero .positive
  · rw [Int.compare_eq_gt.mpr h]
    have hm : 0 < m.toNat := by omega
    have hcast : ((m.toNat : ℕ) : ℚ) = m := by
      exact_mod_cast Int.toNat_of_nonneg (by omega : 0 ≤ m)
    have hrounds := (round_encodes .positive e hm).rounds (magnitude_pos hm e).le
    rw [hcast] at hrounds
    simpa [signed] using hrounds

theorem decreaseExponent_value (s : Sign) (m : ℕ) {d e : ℤ} (h : e ≤ d) :
    ((s.apply (decreaseExponent m d e).1 : ℤ) : ℚ) * 2 ^ e = signed s (m * 2 ^ d) := by
  obtain ⟨k, rfl⟩ : ∃ k : ℕ, d = e + k := ⟨(d - e).toNat, by omega⟩
  have hshift : (decreaseExponent m (e + k) e).1 = m * 2 ^ k := by
    unfold decreaseExponent
    dsimp only
    rw [Nat.shiftLeft_eq, show (e + k - e).toNat = k by omega]
  rw [hshift, zpow_add₀ (by norm_num), zpow_natCast]
  cases s <;> simp only [Sign.apply, signed] <;> push_cast <;> ring

/-- A sum is the exact sum, rounded. -/
theorem add_rounds {x y : Float32} (hx : x.isFinite) (hy : y.isFinite) :
    Rounds (x + y) (toRat x + toRat y) := by
  have hxself := rounds_toRat hx
  have hyself := rounds_toRat hy
  have hxpack := ofModel_pack_parts x
  have hypack := ofModel_pack_parts y
  change Rounds (.ofModel (.pack (add .binary32 (parts x) (parts y)))) _
  unfold toRat at *
  rcases parts_of_isFinite hx with ⟨s, hpx⟩ | ⟨s, m, d, hm, hpx⟩ <;>
    rcases parts_of_isFinite hy with ⟨t, hpy⟩ | ⟨t, n, e, hn, hpy⟩ <;>
    rw [hpx] at hxself hxpack ⊢ <;> rw [hpy] at hyself hypack ⊢
  · change Rounds (.ofModel (.pack (if s == t then .zero s else .zero .positive))) (0 + 0)
    rw [show (0 : ℚ) + 0 = 0 from add_zero 0]
    split <;> exact rounds_zero _
  · change Rounds (.ofModel (.pack (.finite t n e hn))) (0 + _)
    rwa [hypack, zero_add]
  · change Rounds (.ofModel (.pack (.finite s m d hm))) (_ + 0)
    rwa [hxpack, add_zero]
  · have hrounds := normalize_rounds (s.apply (decreaseExponent m d (min d e)).1 +
      t.apply (decreaseExponent n e (min d e)).1) (min d e)
    rw [Int.cast_add, add_mul, decreaseExponent_value s m (min_le_left d e),
      decreaseExponent_value t n (min_le_right d e)] at hrounds
    exact hrounds

/-! ## Negation and difference -/

theorem parts_neg (x : Float32) : parts (-x) = (parts x).neg := by
  change (Float32.Model.pack (parts x).neg).unpack = _
  cases hpx : parts x with
  | infinity s => cases s <;> rfl
  | notANumber => rfl
  | zero s => exact unpack_pack_zero _
  | finite s m e hm =>
      obtain ⟨hfits, he⟩ := fits_of_parts hpx
      exact unpack_pack_of_fits _ hm hfits he

theorem isFinite_neg (x : Float32) : (-x).isFinite = x.isFinite := by
  change (parts (-x)).isFinite = (parts x).isFinite
  rw [parts_neg]
  cases parts x <;> rfl

@[simp] theorem toRat_neg (x : Float32) : toRat (-x) = -toRat x := by
  unfold toRat
  rw [parts_neg]
  cases parts x with
  | finite s m e hm =>
      cases s
      · exact (neg_neg _).symm
      · rfl
  | infinity s => exact neg_zero.symm
  | notANumber => exact neg_zero.symm
  | zero s => exact neg_zero.symm

/-- A difference is the sum with the negated number. -/
theorem sub_eq_add_negated (x y : Float32) : x - y = x + -y := by
  change Float32.ofModel (.pack (sub .binary32 (parts x) (parts y))) =
    .ofModel (.pack (add .binary32 (parts x) (parts (-y))))
  rw [parts_neg]
  congr 2
  cases parts x with
  | infinity s => cases parts y with
    | infinity t => cases s <;> cases t <;> rfl
    | _ => rfl
  | notANumber => cases parts y <;> rfl
  | zero s => cases parts y with
    | zero t => cases s <;> cases t <;> rfl
    | _ => rfl
  | finite s m d hm => cases parts y with
    | finite t n e hn =>
        change UnpackedFloat.normalize _ (_ - _) _ _ = UnpackedFloat.normalize _ (_ + _) _ _
        congr 1
        cases t
        · exact Int.sub_neg _ _
        · exact Int.sub_eq_add_neg
    | _ => rfl

/-- A difference is the exact difference, rounded. -/
theorem sub_rounds {x y : Float32} (hx : x.isFinite) (hy : y.isFinite) :
    Rounds (x - y) (toRat x - toRat y) := by
  rw [sub_eq_add_negated, sub_eq_add_neg, ← toRat_neg]
  exact add_rounds hx (by rwa [isFinite_neg])

/-! ## Products -/

theorem signed_mul (s t : Sign) (p q : ℚ) : signed (s * t) (p * q) = signed s p * signed t q := by
  cases s <;> cases t
  · exact (neg_mul_neg p q).symm
  · exact (neg_mul p q).symm
  · exact (mul_neg p q).symm
  · rfl

/-- The product of canonical mantissas has bits enough to be rounded as it is. -/
theorem Fits.ample_mul {m n : ℕ} {d e : ℤ} (hm : Fits m d) (hn : Fits n e) :
    Ample (m * n) (d + e) := by
  have hpos : m * n ≠ 0 := (Nat.mul_pos hm.pos hn.pos).ne'
  rcases hm.full with hd | hd
  · rcases hn.full with he | he
    · exact .inr (by omega)
    · exact .inl ((Nat.le_log2 hpos).mpr (he.trans (Nat.le_mul_of_pos_left n hm.pos)))
  · exact .inl ((Nat.le_log2 hpos).mpr (hd.trans (Nat.le_mul_of_pos_right m hn.pos)))

/-- A product is the exact product, rounded. -/
theorem mul_rounds {x y : Float32} (hx : x.isFinite) (hy : y.isFinite) :
    Rounds (x * y) (toRat x * toRat y) := by
  change Rounds (.ofModel (.pack (mul .binary32 (parts x) (parts y)))) _
  unfold toRat
  rcases parts_of_isFinite hx with ⟨s, hpx⟩ | ⟨s, m, d, hm, hpx⟩ <;>
    rcases parts_of_isFinite hy with ⟨t, hpy⟩ | ⟨t, n, e, hn, hpy⟩ <;> rw [hpx, hpy]
  · exact (zero_mul (0 : ℚ)).symm ▸ rounds_zero (s * t)
  · exact (zero_mul (ratOf (.finite t n e hn))).symm ▸ rounds_zero (s * t)
  · exact (mul_zero (ratOf (.finite s m d hm))).symm ▸ rounds_zero (s * t)
  · have hample := (fits_of_parts hpx).1.ample_mul (fits_of_parts hpy).1
    have hpos : (0 : ℚ) < (m * n : ℕ) := by exact_mod_cast Nat.mul_pos hm hn
    have hrounds := (roundWithAccuracy_encodes (s * t) (standsFor_exact (m * n)) hpos
      hample).rounds (mul_nonneg hpos.le (by positivity))
    have hprod : ((m * n : ℕ) : ℚ) * 2 ^ (d + e) = m * 2 ^ d * (n * 2 ^ e) := by
      rw [zpow_add₀ (by norm_num)]
      push_cast
      ring
    rwa [hprod, signed_mul] at hrounds

/-! ## Exact results -/

theorem nearest_toRat (x : Float32) : nearest (toRat x) = toRat x := by
  unfold toRat
  cases hpx : parts x with
  | finite s m e hm =>
      have hfits := (fits_of_parts hpx).1
      cases s
      · exact (nearest_neg _).trans (congrArg _ hfits.nearest_eq)
      · exact hfits.nearest_eq
  | _ => exact nearest_zero

theorem abs_toRat_lt (x : Float32) : |toRat x| < 2 ^ 128 := by
  unfold toRat
  cases hpx : parts x with
  | finite s m e hm =>
      obtain ⟨hfits, he⟩ := fits_of_parts hpx
      have hlt := hfits.lt_iff.mpr he
      have hpos := magnitude_pos hm e
      cases s
      · change |-(_ : ℚ)| < _
        rwa [abs_neg, abs_of_pos hpos]
      · exact (abs_of_pos hpos).trans_lt hlt
  | _ =>
      change |(0 : ℚ)| < _
      norm_num

/-- A rational of the format is not changed. -/
theorem Rounds.exact {z : Float32} {q : ℚ} (h : Rounds z q) (hgrid : nearest q = q)
    (hlt : |q| < 2 ^ 128) : z.isFinite ∧ toRat z = q := by
  have hfinite := h.finite (by rwa [hgrid])
  rwa [hgrid] at hfinite

/-- Of an operation with the value of a number as its exact result, it is the result. -/
theorem Rounds.exact_toRat {z x : Float32} (h : Rounds z (toRat x)) :
    z.isFinite ∧ toRat z = toRat x :=
  h.exact (nearest_toRat x) (abs_toRat_lt x)

@[inherit_doc Rounds.exact_toRat]
theorem Rounds.eq_of_ne_zero {z x : Float32} (h : Rounds z (toRat x)) (hne : toRat x ≠ 0) :
    z = x := by
  have heq := h.exact_toRat.2
  exact eq_of_toRat_eq heq (heq ▸ hne)

theorem add_zero_number {x y : Float32} (hx : x.isFinite) (hy : y.isFinite) (hzero : toRat y = 0) :
    (x + y).isFinite ∧ toRat (x + y) = toRat x := by
  have hrounds := add_rounds hx hy
  rw [hzero, add_zero] at hrounds
  exact hrounds.exact_toRat

@[simp] theorem toRat_zero : toRat 0 = 0 := rfl

theorem toRat_one : toRat 1 = 1 := by
  change signed .positive ((2 ^ 23 : ℕ) * 2 ^ (-23 : ℤ)) = 1
  norm_num [signed]

theorem one_mul_number (x : Float32) : 1 * x = x := by
  change Float32.ofModel (.pack (mul .binary32 (.finite .positive (2 ^ 23) (-23) _) (parts x))) = x
  cases hpx : parts x with
  | finite s m e hm =>
      have hx : x.isFinite = true := by
        change (parts x).isFinite = true
        rw [hpx]
        rfl
      have hrounds := mul_rounds (x := 1) rfl hx
      rw [toRat_one, one_mul] at hrounds
      rw [← hpx]
      exact hrounds.eq_of_ne_zero (toRat_ne_zero_of_parts hpx)
  | infinity s =>
      rw [← ofModel_pack_parts x, hpx]
      cases s <;> rfl
  | notANumber =>
      rw [← ofModel_pack_parts x, hpx]
      rfl
  | zero s =>
      rw [← ofModel_pack_parts x, hpx]
      cases s <;> rfl

theorem mul_comm_number (x y : Float32) : x * y = y * x := by
  have hsign : ∀ s t : Sign, s * t = t * s := by
    intro s t
    cases s <;> cases t <;> rfl
  have hparts : ∀ u v : UnpackedFloat, mul .binary32 u v = mul .binary32 v u := by
    intro u v
    cases u <;> cases v
    case finite.finite s m d hm t n e hn =>
      change roundWithAccuracy .binary32 (s * t) (m * n) (d + e) .exact =
        roundWithAccuracy .binary32 (t * s) (n * m) (e + d) .exact
      rw [hsign, Nat.mul_comm, Int.add_comm]
    all_goals first
      | rfl
      | exact congrArg UnpackedFloat.infinity (hsign _ _)
      | exact congrArg UnpackedFloat.zero (hsign _ _)
  exact congrArg (fun u => Float32.ofModel (.pack u)) (hparts (parts x) (parts y))

/-! ## Order with numbers that are not finite -/

/-- The numbers that are at least 0: one infinity, and the finite ones of such a value. -/
theorem zero_le_iff (x : Float32) :
    0 ≤ x ↔ parts x = .infinity .positive ∨ (x.isFinite = true ∧ 0 ≤ toRat x) := by
  by_cases hx : x.isFinite
  · rw [le_iff_toRat_le rfl hx, toRat_zero]
    constructor
    · exact fun h => .inr ⟨hx, h⟩
    · rintro (h | h)
      · change (parts x).isFinite = true at hx
        rw [h] at hx
        cases hx
      · exact h.2
  · have hne : (parts x).isFinite ≠ true := hx
    change
      decide (((UnpackedFloat.zero .positive).compare (parts x)).any (·.isLE) = true) = true ↔ _
    cases hpx : parts x with
    | infinity s =>
        cases s
        · exact ⟨nofun, fun h => h.elim nofun fun h => absurd h.1 hx⟩
        · exact ⟨fun _ => .inl rfl, fun _ => rfl⟩
    | notANumber => exact ⟨nofun, fun h => h.elim nofun fun h => absurd h.1 hx⟩
    | zero s => exact absurd (hpx ▸ rfl) hne
    | finite s m e hm => exact absurd (hpx ▸ rfl) hne

theorem zero_le_maxNumber (x : Float32) : 0 ≤ maxNumber x 0 := by
  unfold maxNumber
  split
  · exact (zero_le_iff 0).mpr (.inr ⟨rfl, le_rfl⟩)
  · next hnan =>
    split
    · exact (zero_le_iff 0).mpr (.inr ⟨rfl, le_rfl⟩)
    · next hle =>
      rw [zero_le_iff]
      by_cases hx : x.isFinite
      · rw [le_iff_toRat_le hx rfl, toRat_zero, not_le] at hle
        exact .inr ⟨hx, hle.le⟩
      · change ¬ (parts x).isNaN = true at hnan
        change ¬ (parts x).isFinite = true at hx
        change ¬ decide (((parts x).compare (.zero .positive)).any (·.isLE) = true) = true at hle
        cases hpx : parts x with
        | infinity s =>
            rw [hpx] at hle
            cases s
            · exact absurd rfl hle
            · exact .inl rfl
        | notANumber => exact absurd (hpx ▸ rfl) hnan
        | zero s => exact absurd (hpx ▸ rfl) hx
        | finite s m e hm => exact absurd (hpx ▸ rfl) hx

theorem infinity_add_parts (s : Sign) {u : UnpackedFloat} (h : u.isFinite) :
    add .binary32 (.infinity s) u = .infinity s ∧ add .binary32 u (.infinity s) = .infinity s := by
  cases u with
  | infinity t => cases h
  | notANumber => cases h
  | zero t => exact ⟨rfl, rfl⟩
  | finite t n e hn => exact ⟨rfl, rfl⟩

/-- A sum of numbers from 0 on is infinite if one of them is. -/
theorem parts_add_of_infinity {x y : Float32} (hx : 0 ≤ x) (hy : 0 ≤ y)
    (h : parts x = .infinity .positive ∨ parts y = .infinity .positive) :
    parts (x + y) = .infinity .positive := by
  have hparts : parts (x + y) = (Float32.Model.pack (add .binary32 (parts x) (parts y))).unpack :=
    rfl
  rw [hparts]
  rcases (zero_le_iff x).mp hx with hx | ⟨hx, -⟩
  · rw [hx]
    rcases (zero_le_iff y).mp hy with hy | ⟨hy, -⟩
    · rw [hy]
      rfl
    · rw [(infinity_add_parts .positive hy).1]
      rfl
  · have hne : parts x ≠ .infinity .positive := by
      intro hinf
      change (parts x).isFinite = true at hx
      rw [hinf] at hx
      cases hx
    rw [h.resolve_left hne, (infinity_add_parts .positive hx).2]
    rfl

theorem zero_le_add {x y : Float32} (hx : 0 ≤ x) (hy : 0 ≤ y) : 0 ≤ x + y := by
  rw [zero_le_iff]
  rcases (zero_le_iff x).mp hx with hinf | ⟨hfx, hvx⟩
  · exact .inl (parts_add_of_infinity hx hy (.inl hinf))
  · rcases (zero_le_iff y).mp hy with hinf | ⟨hfy, hvy⟩
    · exact .inl (parts_add_of_infinity hx hy (.inr hinf))
    · have hrounds := add_rounds hfx hfy
      have hnonneg := nearest_nonneg (add_nonneg hvx hvy)
      rcases lt_or_ge (nearest (toRat x + toRat y)) (2 ^ 128) with hlt | hge
      · obtain ⟨hfinite, hvalue⟩ := hrounds.finite (by rwa [abs_of_nonneg hnonneg])
        exact .inr ⟨hfinite, hvalue ▸ hnonneg⟩
      · exact .inl (hrounds.above hge)

/-- Numbers from 0 on are comparable with finite ones. -/
theorem lt_of_not_le {x y : Float32} (hx : x.isFinite) (hy : 0 ≤ y) (h : ¬ x ≤ y) : y < x := by
  rcases (zero_le_iff y).mp hy with hinf | ⟨hfinite, -⟩
  · refine absurd ?_ h
    change decide (((parts x).compare (parts y)).any (·.isLE) = true) = true
    rw [hinf]
    rcases parts_of_isFinite hx with ⟨s, hpx⟩ | ⟨s, m, e, hm, hpx⟩ <;> rw [hpx]
    · rfl
    · cases s <;> rfl
  · rw [le_iff_toRat_le hx hfinite, not_le] at h
    exact (lt_iff_toRat_lt hfinite hx).mpr h

theorem not_infinity_of_lt {x y : Float32} (hlt : x < y) (hy : y.isFinite) :
    parts x ≠ .infinity .positive := by
  intro hinf
  change decide (((parts x).compare (parts y) == some .lt) = true) = true at hlt
  rw [hinf] at hlt
  rcases parts_of_isFinite hy with ⟨s, hpy⟩ | ⟨s, m, e, hm, hpy⟩ <;> rw [hpy] at hlt <;>
    cases s <;> cases hlt

/-- A number from 0 on that is below a finite one is finite. -/
theorem finite_of_lt {x y : Float32} (hx : 0 ≤ x) (hlt : x < y) (hy : y.isFinite) :
    x.isFinite = true ∧ 0 ≤ toRat x ∧ toRat x < toRat y := by
  obtain ⟨hfinite, hnonneg⟩ := ((zero_le_iff x).mp hx).resolve_left (not_infinity_of_lt hlt hy)
  exact ⟨hfinite, hnonneg, (lt_iff_toRat_lt hfinite hy).mp hlt⟩

/-! ## Zeros and NaN -/

theorem beq_false_of_nan {x : Float32} (hx : parts x = .notANumber) (y : Float32) :
    (x == y) = false := by
  change ((parts x).compare (parts y) == some .eq) = false
  rw [hx]
  rfl

theorem mul_zero_number {x : Float32} (hx : x.isFinite) : (x * 0).isFinite ∧ toRat (x * 0) = 0 := by
  have hrounds := mul_rounds hx (show (0 : Float32).isFinite from rfl)
  rw [toRat_zero, mul_zero] at hrounds
  exact hrounds.exact nearest_zero (by norm_num)

theorem mul_zero_nan {x : Float32} (hx : ¬ x.isFinite) : parts (x * 0) = .notANumber := by
  have hproduct : mul .binary32 (parts x) (.zero .positive) = .notANumber := by
    have hne : (parts x).isFinite ≠ true := hx
    cases hpx : parts x with
    | infinity s => rfl
    | notANumber => rfl
    | zero s => exact absurd (hpx ▸ rfl) hne
    | finite s m e hm => exact absurd (hpx ▸ rfl) hne
  change (Float32.Model.pack (mul .binary32 (parts x) (.zero .positive))).unpack = _
  rw [hproduct]
  rfl

theorem add_nan (x : Float32) {y : Float32} (hy : parts y = .notANumber) :
    parts (x + y) = .notANumber := by
  have hsum : add .binary32 (parts x) .notANumber = .notANumber := by cases parts x <;> rfl
  change (Float32.Model.pack (add .binary32 (parts x) (parts y))).unpack = _
  rw [hy, hsum]
  rfl

end Storyboard
