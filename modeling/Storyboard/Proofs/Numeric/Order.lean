import Storyboard.Proofs.Numeric.Arithmetic

/-! # The order of binary32 numbers

All numbers but NaN stand in one line, with an infinity at each end. So the smaller of two
numbers can be taken again and again, and what remains is the least of all of them.
-/

namespace Storyboard

open Float.Model (UnpackedFloat)
open Float.Model.UnpackedFloat

/-- The rank of a number in the line, with the infinities behind all finite numbers. What is
said of a NaN does not matter. -/
def rank (x : Float32) : ℚ :=
  match parts x with
  | .infinity s => signed s (2 ^ 128)
  | _ => toRat x

theorem rank_of_isFinite {x : Float32} (hx : x.isFinite) : rank x = toRat x := by
  unfold rank
  rcases parts_of_isFinite hx with ⟨s, hpx⟩ | ⟨s, m, e, hm, hpx⟩ <;> rw [hpx]

theorem rank_of_infinity {x : Float32} {s : Sign} (hx : parts x = .infinity s) :
    rank x = signed s (2 ^ 128) := by
  unfold rank
  rw [hx]

/-- A number that is not finite is an infinity or a NaN. -/
theorem parts_of_not_isFinite {x : Float32} (hx : ¬ x.isFinite) (hnan : x.isNaN = false) :
    ∃ s, parts x = .infinity s := by
  change ¬ (parts x).isFinite = true at hx
  change (parts x).isNaN = false at hnan
  cases hpx : parts x with
  | infinity s => exact ⟨s, rfl⟩
  | notANumber => rw [hpx] at hnan; cases hnan
  | zero s => exact absurd (hpx ▸ rfl) hx
  | finite s m e hm => exact absurd (hpx ▸ rfl) hx

/-- Every finite number stands between the infinities. -/
theorem compare_infinity {y : Float32} (hy : y.isFinite) :
    (infinity .negative).compare (parts y) = some .lt ∧
      (infinity .positive).compare (parts y) = some .gt ∧
      (parts y).compare (infinity .negative) = some .gt ∧
      (parts y).compare (infinity .positive) = some .lt := by
  rcases parts_of_isFinite hy with ⟨t, hpy⟩ | ⟨t, m, e, hm, hpy⟩ <;> rw [hpy] <;> cases t <;>
    exact ⟨rfl, rfl, rfl, rfl⟩

/-- Numbers are compared by their ranks. -/
theorem compare_rank {x y : Float32} (hx : x.isNaN = false) (hy : y.isNaN = false) :
    (parts x).compare (parts y) = some (compare (rank x) (rank y)) := by
  have hbounds : ∀ z : Float32, signed .negative (2 ^ 128) < toRat z ∧
      toRat z < signed .positive (2 ^ 128) := fun z => abs_lt.mp (abs_toRat_lt z)
  by_cases hfx : x.isFinite <;> by_cases hfy : y.isFinite
  · rw [compare_parts hfx hfy, rank_of_isFinite hfx, rank_of_isFinite hfy]
  · obtain ⟨t, hpy⟩ := parts_of_not_isFinite hfy hy
    rw [rank_of_isFinite hfx, rank_of_infinity hpy, hpy]
    obtain ⟨-, -, hbelow, habove⟩ := compare_infinity hfx
    cases t
    · rw [hbelow, compare_gt_iff_gt.mpr (hbounds x).1]
    · rw [habove, compare_lt_iff_lt.mpr (hbounds x).2]
  · obtain ⟨s, hpx⟩ := parts_of_not_isFinite hfx hx
    rw [rank_of_isFinite hfy, rank_of_infinity hpx, hpx]
    obtain ⟨hbelow, habove, -, -⟩ := compare_infinity hfy
    cases s
    · rw [hbelow, compare_lt_iff_lt.mpr (hbounds y).1]
    · rw [habove, compare_gt_iff_gt.mpr (hbounds y).2]
  · obtain ⟨s, hpx⟩ := parts_of_not_isFinite hfx hx
    obtain ⟨t, hpy⟩ := parts_of_not_isFinite hfy hy
    rw [rank_of_infinity hpx, rank_of_infinity hpy, hpx, hpy]
    have hsigns := (hbounds 0).1.trans (hbounds 0).2
    cases s <;> cases t
    · rw [compare_eq_iff_eq.mpr rfl]
      rfl
    · rw [compare_lt_iff_lt.mpr hsigns]
      rfl
    · rw [compare_gt_iff_gt.mpr hsigns]
      rfl
    · rw [compare_eq_iff_eq.mpr rfl]
      rfl

theorem le_iff_rank_le {x y : Float32} (hx : x.isNaN = false) (hy : y.isNaN = false) :
    x ≤ y ↔ rank x ≤ rank y := by
  change decide (((parts x).compare (parts y)).any (·.isLE) = true) = true ↔ _
  rw [decide_eq_true_iff, compare_rank hx hy, Option.any_some, ← Ordering.ne_gt_iff_isLE]
  exact compare_le_iff_le

theorem beq_iff_rank_eq {x y : Float32} (hx : x.isNaN = false) (hy : y.isNaN = false) :
    (x == y) = true ↔ rank x = rank y := by
  change ((parts x).compare (parts y) == some .eq) = true ↔ _
  rw [compare_rank hx hy, ← compare_eq_iff_eq]
  simp

/-- A NaN is not comparable. -/
theorem not_le_of_isNaN {x y : Float32} (h : x.isNaN = true ∨ y.isNaN = true) : ¬ x ≤ y := by
  change (parts x).isNaN = true ∨ (parts y).isNaN = true at h
  change ¬ decide (((parts x).compare (parts y)).any (·.isLE) = true) = true
  rw [decide_eq_true_iff]
  rcases h with h | h
  · cases hpx : parts x <;> rw [hpx] at h <;> cases h
    nofun
  · cases hpy : parts y <;> rw [hpy] at h <;> cases h
    cases parts x <;> nofun

theorem isNaN_of_le {x y : Float32} (h : x ≤ y) : x.isNaN = false ∧ y.isNaN = false := by
  rw [Bool.eq_false_iff, Bool.eq_false_iff]
  exact ⟨fun hx => not_le_of_isNaN (.inl hx) h, fun hy => not_le_of_isNaN (.inr hy) h⟩

theorem isNaN_of_isFinite {x : Float32} (hx : x.isFinite) : x.isNaN = false :=
  (isNaN_of_le ((le_iff_toRat_le hx hx).mpr le_rfl)).1

/-- A number from 0 on that is not above a finite one is finite. -/
theorem finite_of_le {x y : Float32} (hx : 0 ≤ x) (hle : x ≤ y) (hy : y.isFinite) :
    x.isFinite = true ∧ 0 ≤ toRat x ∧ toRat x ≤ toRat y := by
  rcases (zero_le_iff x).mp hx with hinf | ⟨hfinite, hnonneg⟩
  · rw [le_iff_rank_le (isNaN_of_le hle).1 (isNaN_of_le hle).2, rank_of_infinity hinf,
      rank_of_isFinite hy] at hle
    exact absurd hle (not_le.mpr (abs_lt.mp (abs_toRat_lt y)).2)
  · exact ⟨hfinite, hnonneg, (le_iff_toRat_le hfinite hy).mp hle⟩

theorem le_refl_number {x : Float32} (hx : x.isNaN = false) : x ≤ x :=
  (le_iff_rank_le hx hx).mpr le_rfl

/-- What is not above a number is not above it in the line, or a NaN. -/
theorem not_lt_iff {x y : Float32} (hy : y.isNaN = false) : ¬ y < x ↔ x.isNaN = true ∨ x ≤ y := by
  cases hx : x.isNaN with
  | true =>
      refine iff_of_true ?_ (.inl rfl)
      change (parts x).isNaN = true at hx
      change ¬ decide (((parts y).compare (parts x) == some .lt) = true) = true
      cases hpx : parts x <;> rw [hpx] at hx <;> cases hx
      cases parts y <;> nofun
  | false =>
      change ¬ decide (((parts y).compare (parts x) == some .lt) = true) = true ↔ _
      rw [compare_rank hy hx, le_iff_rank_le hx hy, ← not_lt, ← compare_lt_iff_lt]
      simp

/-! ## The least of some numbers -/

/-- A number is the least of a list. A NaN is so only if there is nothing else. -/
def Least (l : List Float32) (x : Float32) : Prop :=
  x ∈ l ∧ ∀ y ∈ l, y.isNaN = false → x ≤ y

theorem minNumber_le_left {a : Float32} (ha : a.isNaN = false) (b : Float32) :
    minNumber a b ≤ a := by
  unfold minNumber
  rw [ha, if_neg Bool.false_ne_true]
  split
  · next hle => exact hle
  · exact le_refl_number ha

theorem minNumber_le_right (a : Float32) {b : Float32} (hb : b.isNaN = false) :
    minNumber a b ≤ b := by
  unfold minNumber
  split
  · exact le_refl_number hb
  · next ha =>
    rw [Bool.not_eq_true] at ha
    split
    · exact le_refl_number hb
    · next hle =>
      rw [le_iff_rank_le hb ha] at hle
      exact (le_iff_rank_le ha hb).mpr (le_of_not_ge hle)

theorem minNumber_eq_or (a b : Float32) : minNumber a b = a ∨ minNumber a b = b := by
  unfold minNumber
  split
  · exact .inr rfl
  · split
    · exact .inr rfl
    · exact .inl rfl

/-- Below a number that is not above another one. -/
theorem le_trans_number {x y z : Float32} (hxy : x ≤ y) (hyz : y ≤ z) : x ≤ z := by
  obtain ⟨hx, hy⟩ := isNaN_of_le hxy
  obtain ⟨-, hz⟩ := isNaN_of_le hyz
  rw [le_iff_rank_le hx hy] at hxy
  rw [le_iff_rank_le hy hz] at hyz
  exact (le_iff_rank_le hx hz).mpr (hxy.trans hyz)

/-- Taking the smaller number again and again leads to the least one. -/
theorem least_foldl_minNumber (a : Float32) (l : List Float32) :
    Least (a :: l) (l.foldl minNumber a) := by
  induction l generalizing a with
  | nil =>
      refine ⟨List.mem_singleton_self a, fun y hy hnan => ?_⟩
      rw [List.mem_singleton.mp hy] at hnan ⊢
      exact le_refl_number hnan
  | cons b l ih =>
      obtain ⟨hmem, hle⟩ := ih (minNumber a b)
      rw [List.foldl_cons]
      have hbelow : ∀ y, minNumber a b ≤ y → l.foldl minNumber (minNumber a b) ≤ y := by
        intro y hy
        exact le_trans_number (hle _ List.mem_cons_self (isNaN_of_le hy).1) hy
      refine ⟨?_, fun y hy hnan => ?_⟩
      · rcases List.mem_cons.mp hmem with heq | hmem
        · rw [heq]
          rcases minNumber_eq_or a b with h | h <;> rw [h] <;> simp
        · exact List.mem_cons_of_mem _ (List.mem_cons_of_mem _ hmem)
      · rcases List.mem_cons.mp hy with rfl | hy
        · exact hbelow y (minNumber_le_left hnan b)
        · rcases List.mem_cons.mp hy with rfl | hy
          · exact hbelow y (minNumber_le_right a hnan)
          · exact hle y (List.mem_cons_of_mem _ hy) hnan

/-! ## Heights

A NaN gives way to every other number, as if it stood above them all. Numbers of the same height
are told apart by nothing but the sign of a zero.
-/

/-- The place of a number in the line, with NaN on top. -/
def height (x : Float32) : WithTop ℚ :=
  if x.isNaN then ⊤ else (rank x : ℚ)

theorem height_of_isNaN {x : Float32} (hx : x.isNaN = true) : height x = ⊤ :=
  if_pos hx

theorem height_of_not_isNaN {x : Float32} (hx : x.isNaN = false) : height x = (rank x : ℚ) := by
  unfold height
  rw [hx, if_neg Bool.false_ne_true]

theorem height_minNumber (a b : Float32) : height (minNumber a b) = min (height a) (height b) := by
  unfold minNumber
  split
  · next ha => rw [height_of_isNaN ha, min_eq_right le_top]
  · next ha =>
    rw [Bool.not_eq_true] at ha
    cases hb : b.isNaN with
    | true => rw [if_neg (not_le_of_isNaN (.inl hb)), height_of_isNaN hb, min_eq_left le_top]
    | false =>
        rw [height_of_not_isNaN ha, height_of_not_isNaN hb]
        have hiff : ((rank b : ℚ) : WithTop ℚ) ≤ (rank a : ℚ) ↔ b ≤ a := by
          rw [WithTop.coe_le_coe, le_iff_rank_le hb ha]
        split
        · next hle => rw [height_of_not_isNaN hb, min_eq_right (hiff.mpr hle)]
        · next hlt => rw [height_of_not_isNaN ha, min_eq_left (le_of_not_ge (mt hiff.mp hlt))]

theorem height_foldl_minNumber (a : Float32) (l : List Float32) :
    height (l.foldl minNumber a) = (l.map height).foldl min (height a) := by
  induction l generalizing a with
  | nil => rfl
  | cons b l ih => rw [List.foldl_cons, ih, height_minNumber, List.map_cons, List.foldl_cons]

/-- The same number, be it with another sign if it is zero. -/
def SameNumber (x y : Float32) : Prop :=
  x = y ∨ (x == y) = true

/-- A NaN is not equal to anything. -/
theorem not_beq_of_isNaN {x y : Float32} (h : x.isNaN = true ∨ y.isNaN = true) :
    ¬ (x == y) = true := by
  change (parts x).isNaN = true ∨ (parts y).isNaN = true at h
  change ¬ ((parts x).compare (parts y) == some .eq) = true
  rcases h with h | h
  · cases hpx : parts x <;> rw [hpx] at h <;> cases h
    nofun
  · cases hpy : parts y <;> rw [hpy] at h <;> cases h
    cases parts x <;> nofun

/-- There is only one NaN. -/
theorem eq_of_isNaN {x y : Float32} (hx : x.isNaN = true) (hy : y.isNaN = true) : x = y := by
  change (parts x).isNaN = true at hx
  change (parts y).isNaN = true at hy
  apply parts_injective
  cases hpx : parts x <;> rw [hpx] at hx <;> cases hx
  cases hpy : parts y <;> rw [hpy] at hy <;> cases hy

theorem sameNumber_iff {x y : Float32} : SameNumber x y ↔ height x = height y := by
  cases hx : x.isNaN <;> cases hy : y.isNaN
  · rw [height_of_not_isNaN hx, height_of_not_isNaN hy, WithTop.coe_inj, ← beq_iff_rank_eq hx hy]
    refine ⟨fun h => h.elim (fun heq => ?_) id, .inr⟩
    rw [beq_iff_rank_eq hx hy, heq]
  · rw [height_of_not_isNaN hx, height_of_isNaN hy]
    refine iff_of_false (fun h => h.elim (fun heq => ?_) (not_beq_of_isNaN (.inr hy))) nofun
    rw [heq, hy] at hx
    cases hx
  · rw [height_of_isNaN hx, height_of_not_isNaN hy]
    refine iff_of_false (fun h => h.elim (fun heq => ?_) (not_beq_of_isNaN (.inl hx))) nofun
    rw [heq, hy] at hx
    cases hx
  · rw [height_of_isNaN hx, height_of_isNaN hy]
    exact iff_of_true (.inl (eq_of_isNaN hx hy)) rfl

end Storyboard
