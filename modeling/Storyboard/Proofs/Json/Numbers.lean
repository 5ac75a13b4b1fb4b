import Storyboard.Proofs.Json.Layouts
import Storyboard.Proofs.Json.Rereading
import Storyboard.Proofs.Numeric.Coincidences
import Storyboard.Proofs.Numeric.Intervals

/-! # Numbers come back

The text of a finite number is read as that number. Reading goes astray by a small part of the
decimal that stands in the text, but the decimal keeps that far away from the middles between the
number and its neighbours, unless it is such a middle itself; then it is read without an error.
-/

namespace Storyboard

open Float.Model Float.Model.UnpackedFloat
open Json (layout ofWord?)

namespace Magnitude

variable {m : Magnitude} {v : ℚ}

/-! ## Decimals with a small error -/

/-- A decimal that is separated from a middle above it stays below it with the error of scaling. -/
theorem lt_of_separation {d middle : ℚ} (hd : 0 < d) (hle : d ≤ middle)
    (hapart : middle * separation < |d - middle|) (hv : |v - d| ≤ d * scalingError) :
    v < middle := by
  rw [abs_of_nonpos (by linarith)] at hapart
  have herror : d * scalingError ≤ middle * separation := by
    unfold scalingError separation
    norm_num
    linarith
  linarith [(abs_le.mp hv).2]

/-- A decimal that is separated from a middle below it stays above it with the error of scaling. -/
theorem lt_of_separation_below {d middle : ℚ} (hmiddle : 0 < middle) (hle : middle ≤ d)
    (hapart : middle * separation < |d - middle|) (hv : |v - d| ≤ d * scalingError) :
    middle < v := by
  rw [abs_of_nonneg (by linarith)] at hapart
  unfold scalingError at hv
  unfold separation at hapart
  norm_num at hapart hv
  linarith [(abs_le.mp hv).1]

/-- The decimal of a number is `n * 10 ^ g`, and `v` is read in its place. -/
structure IsRead (m : Magnitude) (n : ℕ) (g : ℤ) (v : ℚ) : Prop where
  nearestOn : m.nearestOn .even g = some n
  near : |v - n * (10 : ℚ) ^ g| ≤ n * 10 ^ g * scalingError
  exact : ∀ (b : ℕ) (j : ℤ), b < 2 ^ 25 → n * (10 : ℚ) ^ g = b * 2 ^ j → v = n * 10 ^ g

variable {n : ℕ} {g : ℤ}

theorem contains_of_nearestOn (hm : m.IsSingle) (h : m.nearestOn .even g = some n) :
    m.Contains (n * 10 ^ g) :=
  (admits_iff hm.fits.pos).mp (nearestOn_spec h).1

theorem digits_pos (hm : m.IsSingle) (h : m.nearestOn .even g = some n) : 0 < n := by
  refine Nat.pos_of_ne_zero ?_
  rintro rfl
  have hlow := (low_pos hm).trans_le (contains_of_nearestOn hm h).bounds.1
  rw [Nat.cast_zero, zero_mul] at hlow
  exact absurd hlow (lt_irrefl 0)

theorem IsRead.decimal_lt (h : m.IsRead n g v) (hm : m.IsSingle) :
    n * (10 : ℚ) ^ g < 2 ^ 24 * 2 ^ m.exponent := by
  have hlt := hm.lt_binade (contains_of_nearestOn hm h.nearestOn).bounds.2
  rw [zpow_add₀ (by norm_num)] at hlt
  exact_mod_cast hlt

/-- On a grid that is finer than the binary one the nearest decimal is far from the middles. -/
theorem IsRead.contains_of_fine (h : m.IsRead n g v) (hm : m.IsSingle)
    (hclose : m.closeBelow = false) (hg : -53 ≤ g ∧ g ≤ 38)
    (hfine : (10 : ℚ) ^ g < 2 ^ m.exponent) : m.Contains v := by
  have hunit : (0 : ℚ) < 2 ^ m.exponent := by positivity
  have hgap := ten_zpow_le_of_lt hg hfine
  have hnearest := abs_sub_value_le_of_nearestOn hm.fits.pos hclose h.nearestOn
  have herror : n * (10 : ℚ) ^ g * scalingError < 2 ^ m.exponent / 2 ^ 27 := by
    calc n * (10 : ℚ) ^ g * scalingError ≤ 2 ^ 24 * 2 ^ m.exponent * scalingError := by
          refine mul_le_mul_of_nonneg_right (h.decimal_lt hm).le ?_
          unfold scalingError
          positivity
      _ < 2 ^ m.exponent / 2 ^ 27 := by
        unfold scalingError
        norm_num
        linarith
  have habs : |v - m.value| < 2 ^ m.exponent / 2 := by
    calc |v - m.value| ≤ |v - n * (10 : ℚ) ^ g| + |n * (10 : ℚ) ^ g - m.value| := abs_sub_le _ _ _
      _ < 2 ^ m.exponent / 2 ^ 27 + 10 ^ g / 2 :=
        add_lt_add_of_lt_of_le (h.near.trans_lt herror) hnearest
      _ ≤ 2 ^ m.exponent / 2 := by
        norm_num at hgap ⊢
        linarith
  obtain ⟨hlow, hhigh⟩ := abs_lt.mp habs
  apply contains_of_between
  · rw [low_eq hclose]
    linarith
  · rw [m.high_eq]
    linarith

/-- On other grids a decimal is a middle, or is separated from both of them. -/
theorem IsRead.contains_of_coarse (h : m.IsRead n g v) (hm : m.IsSingle)
    (hclose : m.closeBelow = false) (hg : -44 ≤ g ∧ g ≤ 38)
    (hcoarse : (2 : ℚ) ^ m.exponent ≤ 10 ^ g)
    (hother : m.exponent = -107 → m.mantissa ≠ 11420669 ∧ m.mantissa ≠ 11420670) :
    m.Contains v := by
  have hpos := hm.fits.pos
  have hmost := hm.fits.lt
  have hn := digits_pos hm h.nearestOn
  have hhalf : (2 : ℚ) ^ m.exponent = 2 * 2 ^ (m.exponent - 1) := by
    rw [← zpow_one_add₀ (by norm_num), add_sub_cancel]
  have hlow : m.low = (2 * m.mantissa - 1 : ℕ) * 2 ^ (m.exponent - 1) := by
    rw [low_eq hclose, value, hhalf, Nat.cast_sub (by omega)]
    push_cast
    ring
  have hhigh : m.high = (2 * m.mantissa + 1 : ℕ) * 2 ^ (m.exponent - 1) := by
    rw [m.high_eq, value, hhalf]
    push_cast
    ring
  have hmiddle : ∀ k : ℕ, k < 2 ^ 25 → k % 2 = 1 → ¬ (m.exponent = -107 ∧ k = 22841339) →
      v = n * 10 ^ g ∨
        k * 2 ^ (m.exponent - 1) * separation < |n * (10 : ℚ) ^ g - k * 2 ^ (m.exponent - 1)| := by
    intro k hk hodd hne
    rcases eq_or_separation_lt hg hcoarse hn (h.decimal_lt hm).le hk hodd with
      heq | hapart | hspecial
    · exact .inl (h.exact k (m.exponent - 1) hk heq)
    · exact .inr hapart
    · exact absurd hspecial hne
  have hcontains := contains_of_nearestOn hm h.nearestOn
  have hbounds := hcontains.bounds
  rcases hmiddle (2 * m.mantissa + 1) (by omega) (by omega) (by omega) with hv | habove
  · exact hv ▸ hcontains
  rcases hmiddle (2 * m.mantissa - 1) (by omega) (by omega) (by omega) with hv | hbelow
  · exact hv ▸ hcontains
  rw [← hhigh] at habove
  rw [← hlow] at hbelow
  exact contains_of_between (lt_of_separation_below (low_pos hm) hbounds.1 hbelow h.near)
    (lt_of_separation (by positivity) hbounds.2 habove h.near)

/-- The decimal of a number is farther away from the ends of the interval than scaling can go
amiss. -/
def KeepsAway (m : Magnitude) : Prop :=
  let d := m.shortest .even
  (4 * m.mantissa - if m.closeBelow then 1 else 2) * 2 ^ 51 * m.numerator d.exponent <
      d.digits * (2 ^ 51 - 1) * m.denominator d.exponent ∧
    d.digits * (2 ^ 51 + 1) * m.denominator d.exponent <
      (4 * m.mantissa + 2) * 2 ^ 51 * m.numerator d.exponent

instance (m : Magnitude) : Decidable m.KeepsAway :=
  inferInstanceAs (Decidable (_ ∧ _))

theorem KeepsAway.contains (h : m.KeepsAway) (hm : m.IsSingle)
    (hshortest : m.shortest .even = ⟨n, g⟩)
    (hv : |v - n * (10 : ℚ) ^ g| ≤ n * 10 ^ g * scalingError) : m.Contains v := by
  obtain ⟨hbelow, habove⟩ := h
  rw [hshortest] at hbelow habove
  rw [← not_le, le_mul_numerator_iff, not_le, Nat.cast_mul, mul_right_comm,
    ← low_eq_natCast hm.fits.pos] at hbelow
  rw [← not_le, mul_numerator_le_iff, not_le, Nat.cast_mul (4 * _ + 2), mul_right_comm,
    ← high_eq_natCast] at habove
  have hdecimal : (0 : ℚ) ≤ n * 10 ^ g := by positivity
  have herror : n * (10 : ℚ) ^ g * scalingError ≤ n * 10 ^ g / 2 ^ 51 := by
    unfold scalingError
    norm_num
    linarith
  obtain ⟨hlow, hhigh⟩ := abs_le.mp (hv.trans herror)
  norm_num at hbelow habove hlow hhigh
  apply contains_of_between <;> linarith

-- the kernel computes the 253 decimals and compares them in whole numbers
theorem keepsAway_of_fin : ∀ i : Fin 253, KeepsAway ⟨2 ^ 23, (i : ℕ) - 148, true⟩ := by
  decide +kernel

/-- The powers of two, of which the neighbours are at different distances. -/
theorem keepsAway_of_closeBelow (hm : m.IsSingle) (hclose : m.closeBelow = true) : m.KeepsAway := by
  obtain ⟨hmantissa, hexponent⟩ := hm.closeBelow.mp hclose
  have hmost := hm.most
  obtain ⟨i, hi⟩ : ∃ i : Fin 253, m.exponent = (i : ℕ) - 148 :=
    ⟨⟨(m.exponent + 148).toNat, by omega⟩, by simp only; omega⟩
  have heq : m = ⟨2 ^ 23, (i : ℕ) - 148, true⟩ := by
    cases m
    simp_all
  exact heq ▸ keepsAway_of_fin i

theorem keepsAway_above_coincidence : KeepsAway ⟨11420670, -107, false⟩ := by
  decide +kernel

theorem le_of_coarse (hm : m.IsSingle) (hcoarse : (2 : ℚ) ^ m.exponent ≤ 10 ^ g) : -44 ≤ g := by
  have hlt : (10 : ℚ) ^ (-45 : ℤ) < 10 ^ g := by
    calc (10 : ℚ) ^ (-45 : ℤ) < 2 ^ (-149 : ℤ) := by norm_num
      _ ≤ 2 ^ m.exponent := zpow_le_zpow_right₀ (by norm_num) hm.fits.least
      _ ≤ 10 ^ g := hcoarse
  have hexponent := (zpow_lt_zpow_iff_right₀ (by norm_num)).mp hlt
  omega

/-- But for the coincidence, what is read in place of the decimal is in the interval as well. -/
theorem IsRead.contains (h : m.IsRead n g v) (hm : m.IsSingle)
    (hshortest : m.shortest .even = ⟨n, g⟩) (hg : -53 ≤ g ∧ g ≤ 38)
    (hne : m ≠ ⟨11420669, -107, false⟩) : m.Contains v := by
  cases hclose : m.closeBelow with
  | true => exact (keepsAway_of_closeBelow hm hclose).contains hm hshortest h.near
  | false =>
      have heq : ∀ mantissa, m.exponent = -107 → m.mantissa = mantissa →
          m = ⟨mantissa, -107, false⟩ := by
        intro mantissa hexponent hmantissa
        cases m
        simp_all
      by_cases habove : m = ⟨11420670, -107, false⟩
      · exact (habove ▸ keepsAway_above_coincidence : m.KeepsAway).contains hm hshortest h.near
      rcases lt_or_ge ((10 : ℚ) ^ g) (2 ^ m.exponent) with hfine | hcoarse
      · exact h.contains_of_fine hm hclose hg hfine
      · refine h.contains_of_coarse hm hclose ⟨le_of_coarse hm hcoarse, hg.2⟩ hcoarse ?_
        exact fun hexponent => ⟨mt (heq _ hexponent) hne, mt (heq _ hexponent) habove⟩

/-! ## The decimal of a number as a text -/

theorem leadingExponent_bounds (hm : m.IsSingle) :
    -45 ≤ m.leadingExponent ∧ m.leadingExponent ≤ 38 := by
  obtain ⟨hlow, hhigh⟩ := leadingExponent_spec hm.fits.pos
  constructor
  · have hleast : (10 : ℚ) ^ (-45 : ℤ) < 10 ^ (m.leadingExponent + 1) := by
      have hone : (1 : ℚ) ≤ m.mantissa := by exact_mod_cast hm.fits.pos
      have hunit : (2 : ℚ) ^ (-149 : ℤ) ≤ 2 ^ m.exponent :=
        zpow_le_zpow_right₀ (by norm_num) hm.fits.least
      calc (10 : ℚ) ^ (-45 : ℤ) ≤ 1 * 2 ^ (-149 : ℤ) := by norm_num
        _ ≤ m.mantissa * 2 ^ m.exponent := by gcongr
        _ < 10 ^ (m.leadingExponent + 1) := hhigh
    have hlt := (zpow_lt_zpow_iff_right₀ (by norm_num)).mp hleast
    omega
  · have hmost : (10 : ℚ) ^ m.leadingExponent < 10 ^ (39 : ℤ) := by
      calc (10 : ℚ) ^ m.leadingExponent ≤ m.mantissa * 2 ^ m.exponent := hlow
        _ < 2 ^ 128 := hm.fits.lt_iff.mpr hm.most
        _ ≤ 10 ^ (39 : ℤ) := by norm_num
    have hlt := (zpow_lt_zpow_iff_right₀ (by norm_num)).mp hmost
    omega

/-- A decimal on a grid at most eight places below the leading digit has at most ten digits. -/
theorem digits_lt {count : ℕ} (hm : m.IsSingle) (hcount : count ≤ 8)
    (h : m.nearestOn .even (m.leadingExponent - count) = some n) : n < 10 ^ 15 := by
  have hhigh := (contains_of_nearestOn hm h).bounds.2
  have hlead := (leadingExponent_spec hm.fits.pos).2
  have hone : (1 : ℚ) ≤ m.mantissa := by exact_mod_cast hm.fits.pos
  have hunit : (2 : ℚ) ^ m.exponent ≤ m.value := le_mul_of_one_le_left (by positivity) hone
  have hpos := value_pos hm.fits.pos
  have hgrid : (0 : ℚ) < 10 ^ (m.leadingExponent - count) := by positivity
  rw [m.high_eq] at hhigh
  have hlt : (n : ℚ) * 10 ^ (m.leadingExponent - count) <
      10 ^ 15 * 10 ^ (m.leadingExponent - count) := by
    calc (n : ℚ) * 10 ^ (m.leadingExponent - count) ≤ 2 * m.value := by linarith
      _ < 10 * 10 ^ (m.leadingExponent + 1) := by linarith
      _ = 10 ^ (count + 2) * 10 ^ (m.leadingExponent - count) := by
        rw [← zpow_one_add₀ (by norm_num), ← zpow_natCast, ← zpow_add₀ (by norm_num)]
        congr 1
        push_cast
        ring
      _ ≤ 10 ^ 15 * 10 ^ (m.leadingExponent - count) := by
        gcongr
        · norm_num
        · omega
  exact_mod_cast lt_of_mul_lt_mul_right hlt hgrid.le

/-- The text of the decimal of a number, with a sign or without. -/
def decimalText (m : Magnitude) (negative : Bool) : List Char :=
  if negative then '-' :: layout.decimal (m.shortest .even) else layout.decimal (m.shortest .even)

theorem exists_isRead (hm : m.IsSingle) :
    ∃ n g y v, m.shortest .even = ⟨n, g⟩ ∧ (-53 ≤ g ∧ g ≤ 38) ∧ m.IsRead n g v ∧
      HasValue y .positive v ∧ ∀ negative : Bool, ofWord? (m.decimalText negative) =
        some (.number (.double (if negative then -y else y))) := by
  obtain ⟨count, hcount, n, hshortest, hn⟩ := shortest_spec .even hm.fits.pos hm.fits.lt
  obtain ⟨hlead, hlead'⟩ := leadingExponent_bounds hm
  obtain ⟨y, v, hread, hvalue, hnear, hexact⟩ := Json.ofWord?_decimal
    (d := ⟨n, m.leadingExponent - count⟩) (digits_pos hm hn) (digits_lt hm hcount hn)
    (by simp only; omega) (by simp only; omega)
  refine ⟨n, m.leadingExponent - count, y, v, hshortest, by omega, ⟨hn, hnear, hexact⟩, hvalue, ?_⟩
  intro negative
  rw [decimalText, hshortest]
  exact hread negative

/-- The coincidence is separated from the middle above it by less than scaling can go amiss, but
it is read well. -/
theorem single?_coincidence :
    (ofWord? (decimalText ⟨11420669, -107, false⟩ false)).bind Json.single? =
      some (.ofModel (.pack (.finite .positive 11420669 (-107) (by decide)))) := by
  decide +kernel

/-- The text of the decimal of a number is read as a binary64 number that is rounded to it. -/
theorem exists_hasValue (hm : m.IsSingle) :
    ∃ y v, HasValue y .positive v ∧ nearest v = m.value ∧
      ∀ negative : Bool, ofWord? (m.decimalText negative) =
        some (.number (.double (if negative then -y else y))) := by
  obtain ⟨n, g, y, v, hshortest, hg, hisRead, hvalue, hread⟩ := exists_isRead hm
  refine ⟨y, v, hvalue, ?_, hread⟩
  by_cases hcoincidence : m = ⟨11420669, -107, false⟩
  · have hsingle := single?_coincidence
    rw [← hcoincidence, hread false] at hsingle
    have hnarrow : narrow y = _ := Option.some.inj hsingle
    have hrounds : Rounds (narrow y) v := hvalue.rounds_narrow
    rw [hrounds.nearest_eq (by rw [hnarrow]; decide +kernel), hnarrow, hcoincidence]
    rfl
  · exact (hisRead.contains hm hshortest hg hcoincidence).nearest_eq hm

end Magnitude

/-! ## Every number comes back -/

namespace Json

variable {x : Float32}

/-- The magnitude that is written for the parts of a number. -/
def magnitudeOf (m : ℕ) (e : ℤ) : Magnitude :=
  ⟨m, e, m == Nat.pow 2 23 && -149 < e⟩

theorem isSingle_magnitudeOf {s : Sign} {m : ℕ} {e : ℤ} {hm : 0 < m}
    (hx : parts x = .finite s m e hm) : (magnitudeOf m e).IsSingle := by
  obtain ⟨hfits, he⟩ := fits_of_parts hx
  exact ⟨hfits, he, by simp [magnitudeOf]⟩

theorem toList_render (negative : Bool) (m : Magnitude) :
    (layout.render (.finite negative m)).toList = m.decimalText negative :=
  String.toList_ofList

theorem single?_zero (s : Sign) :
    (ofWord? (layout.render (.zero (s == .negative))).toList).bind single? =
      some (.ofModel (.pack (.zero s))) := by
  cases s <;> decide +kernel

/-- From the text of a finite number that number is read. -/
theorem single?_reread (hx : x.isFinite) :
    (Json.number (.single x)).reread.bind single? = some x := by
  have hself := ofModel_pack_parts x
  have htext : (Number.single x).text =
      layout.render (.ofUnpacked (Nat.pow 2 23) (-149) (parts x)) := if_pos hx
  rw [reread, htext]
  rcases parts_of_isFinite hx with ⟨s, hparts⟩ | ⟨s, m, e, hm, hparts⟩
  · rw [hparts] at hself ⊢
    rw [← hself]
    exact single?_zero s
  · obtain ⟨y, v, hvalue, hnearest, hread⟩ :=
      Magnitude.exists_hasValue (isSingle_magnitudeOf hparts)
    have hrender : (layout.render (.ofUnpacked (Nat.pow 2 23) (-149) (parts x))).toList =
        (magnitudeOf m e).decimalText (s == .negative) := by
      rw [hparts]
      exact toList_render _ _
    rw [hrender, hread]
    have htoRat : nearest (signed s v) = toRat x := by
      have hvalue : toRat x = signed s (magnitudeOf m e).value := congrArg ratOf hparts
      rw [hvalue, ← hnearest]
      cases s with
      | negative => exact nearest_neg v
      | positive => rfl
    have hsigned : HasValue (if s == .negative then -y else y) s v := by
      cases s with
      | negative => exact hvalue.neg
      | positive => exact hvalue
    have hrounds := hsigned.rounds_narrow
    have hnarrow := (hrounds.finite (htoRat ▸ abs_toRat_lt x)).2.trans htoRat
    exact congrArg some (eq_of_toRat_eq hnarrow (hnarrow ▸ toRat_ne_zero_of_parts hparts))

end Json

end Storyboard
