import Storyboard.Proofs.Playback.Finiteness
import Storyboard.Proofs.Playback.Foresight

/-! # The segments of a table

A table of `n` entries, with `n` at least 2, has a segment from each entry but the last one to the
next. A position lies in the segment that begins at its floor; what lies before the table belongs to
the first segment, and what lies behind it to the last one. The value at a position is computed
from the two ends of its segment, and from nothing else.
-/

namespace Storyboard

/-! ## The segment of a position -/

theorem segmentAt_of_le_zero {x : Float32} (hx : x ≤ 0) (size : ℕ) : segmentAt size x = 0 :=
  if_pos hx

theorem segmentAt_of_isNaN {x : Float32} (hx : x.isNaN = true) (size : ℕ) :
    segmentAt size x = 0 := by
  unfold segmentAt
  rw [if_neg (not_le_of_isNaN (.inl hx)), wholePart_of_isNaN hx, Nat.zero_min]

theorem segmentAt_succ_lt {size : ℕ} (hsize : 2 ≤ size) (x : Float32) :
    segmentAt size x + 1 < size := by
  unfold segmentAt
  split <;> omega

/-- The whole part is the floor, kept within 64 bits, also of what is infinite. -/
theorem wholePart_of_not_le_zero {x : Float32} (hx : x.isNaN = false) (hpos : ¬ x ≤ 0) :
    0 ≤ rank x ∧ wholePart x = min ⌊rank x⌋₊ (2 ^ 64 - 1) := by
  have hrank : 0 ≤ rank x := by
    rw [le_iff_rank_le hx rfl] at hpos
    exact le_of_not_ge hpos
  refine ⟨hrank, ?_⟩
  by_cases hfinite : x.isFinite
  · rw [rank_of_isFinite hfinite]
    exact wholePart_eq hfinite
  · obtain ⟨s, hs⟩ := parts_of_not_isFinite hfinite hx
    have hvalue := rank_of_infinity hs
    cases s with
    | negative =>
        rw [hvalue] at hrank
        norm_num [signed] at hrank
    | positive =>
        have hfloor : ⌊rank x⌋₊ = 2 ^ 128 := by
          rw [hvalue, signed, ← Nat.cast_ofNat, ← Nat.cast_pow, Nat.floor_natCast]
        have hwhole : wholePart x = 2 ^ 64 - 1 := by
          change (UInt64.ofNatClamp ((parts x).toInt 0 (2 ^ 64 - 1)).toNat).toNat = _
          rw [hs]
          rfl
        rw [hfloor, hwhole]
        rfl

/-- A position lies in the segment that its floor is the number of, as far as there is one. -/
theorem cast_segmentAt {size : ℕ} (hsize : 2 ≤ size) (hbits : size ≤ 2 ^ 64) {x : Float32}
    (hx : x.isNaN = false) :
    (segmentAt size x : ℤ) = max 0 (min ⌊rank x⌋ (size - 2)) := by
  by_cases hle : x ≤ 0
  · have hrank : rank x ≤ 0 := (le_iff_rank_le hx rfl).mp hle
    have hfloor : ⌊rank x⌋ ≤ 0 := by exact_mod_cast (Int.floor_le _).trans hrank
    rw [segmentAt_of_le_zero hle]
    omega
  · obtain ⟨hrank, hwhole⟩ := wholePart_of_not_le_zero hx hle
    have hfloor := Int.natCast_floor_eq_floor hrank
    unfold segmentAt
    rw [if_neg hle, hwhole]
    omega

/-! ## The value at a position -/

namespace Interpolation

/-- A table of two entries or more is read at both ends of the segment of the position. -/
theorem exists_segment (i : Interpolation) (hsize : 2 ≤ i.table.size) (x : Float32) :
    ∃ a b, i.table[segmentAt i.table.size x]? = some a ∧
      i.table[segmentAt i.table.size x + 1]? = some b ∧
      i.valueAt x = a + (b - a) * (x - ofCount (segmentAt i.table.size x)) := by
  have hsegment := segmentAt_succ_lt hsize x
  refine ⟨_, _, Array.getElem?_eq_getElem (Nat.lt_of_succ_lt hsegment),
    Array.getElem?_eq_getElem hsegment, ?_⟩
  have hvalue := valueAt_of_one_lt i.property.defaultSeed hsize x
  rwa [getElem!_pos i.table _ (Nat.lt_of_succ_lt hsegment), getElem!_pos i.table _ hsegment]
    at hvalue

/-- Interpolations of tables that agree at both ends of a segment have the same value there. -/
theorem valueAt_eq_of_agree {i j : Interpolation} {x : Float32} (hi : 2 ≤ i.table.size)
    (hsize : j.table.size = i.table.size)
    (hfirst : j.table[segmentAt i.table.size x]? = i.table[segmentAt i.table.size x]?)
    (hsecond : j.table[segmentAt i.table.size x + 1]? = i.table[segmentAt i.table.size x + 1]?) :
    j.valueAt x = i.valueAt x := by
  obtain ⟨a, b, ha, hb, hvalue⟩ := i.exists_segment hi x
  obtain ⟨c, d, hc, hd, hvalue'⟩ := j.exists_segment (hsize ▸ hi) x
  rw [hsize] at hc hd hvalue'
  cases (hc.symm.trans hfirst).trans ha
  cases (hd.symm.trans hsecond).trans hb
  rw [hvalue, hvalue']

/-- At every position there is a value. Without entries it is the seed of the property, and a
single entry is the value everywhere. Otherwise the value is on the line through two neighbouring
entries: those at the floor of the position and behind it, or the first two or the last two if
there are none. So tables of the same length that agree at these two give the same value. A NaN
is looked up on the first line. Counts have 64 bits, and so no table is longer than these can
count. -/
theorem value_within_segment (i : Interpolation) (hbits : i.table.size ≤ 2 ^ 64) (x : Float32) :
    (i.table.size = 0 → i.valueAt x = i.property.defaultSeed) ∧
    (∀ v, i.table = #[v] → i.valueAt x = v) ∧
    (2 ≤ i.table.size → ∃ (s : ℕ) (a b : Float32),
      (x.isNaN = false → (s : ℤ) = max 0 (min ⌊rank x⌋ (i.table.size - 2))) ∧
      (x.isNaN = true → s = 0) ∧
      s + 1 ≤ i.table.size - 1 ∧ i.table[s]? = some a ∧ i.table[s + 1]? = some b ∧
      i.valueAt x = a + (b - a) * (x - ofCount s) ∧
      ∀ j : Interpolation, j.table.size = i.table.size → j.table[s]? = some a →
        j.table[s + 1]? = some b → j.valueAt x = i.valueAt x) := by
  refine ⟨?_, ?_, ?_⟩
  · intro hsize
    change Storyboard.valueAt _ i.table x = _
    unfold Storyboard.valueAt
    split
    · rfl
    · omega
    · omega
  · intro v htable
    have hsize : i.table.size = 1 := by rw [htable]; rfl
    refine (valueAt_of_size_eq_one i.property.defaultSeed hsize x).trans ?_
    rw [htable]
    rfl
  · intro hsize
    have hsegment := segmentAt_succ_lt hsize x
    obtain ⟨a, b, ha, hb, hvalue⟩ := i.exists_segment hsize x
    refine ⟨segmentAt i.table.size x, a, b, cast_segmentAt hsize hbits,
      fun hx => segmentAt_of_isNaN hx _, by omega, ha, hb, hvalue, ?_⟩
    intro j hlength hfirst hsecond
    exact valueAt_eq_of_agree hsize hlength (hfirst.trans ha.symm) (hsecond.trans hb.symm)

/-- Behind a table of three entries the second line goes on. -/
theorem value_within_segment_behind :
    let i : Interpolation := ⟨.translateX, ⟨0⟩, #[0, 10, 30], .number⟩
    i.table.size ≤ 2 ^ 64 ∧ (2.5 : Float32).isNaN = false ∧
      i.valueAt 2.5 = 10 + (30 - 10) * (2.5 - ofCount 1) := by
  intro i
  have hbits : i.table.size ≤ 2 ^ 64 := by decide
  have hnumber : (2.5 : Float32).isNaN = false := rfl
  have hrank : rank 2.5 = 5 / 2 := by
    change signed .positive ((5 * 2 ^ 21 : ℕ) * 2 ^ (-22 : ℤ)) = 5 / 2
    norm_num [signed]
  obtain ⟨-, -, hsegment⟩ := i.value_within_segment hbits 2.5
  obtain ⟨s, a, b, hfloor, -, -, ha, hb, hvalue, -⟩ := hsegment (by decide)
  obtain rfl : s = 1 := by
    have hclamp := hfloor hnumber
    rw [hrank, show ⌊(5 / 2 : ℚ)⌋ = 2 by norm_num, show i.table.size = 3 from rfl] at hclamp
    omega
  cases ha
  cases hb
  exact ⟨hbits, hnumber, hvalue⟩

end Interpolation

end Storyboard
