/-! # Ranges of code points

A property of characters is given by the ranges of code points that have it. The ranges
are in ascending order, so a search can end at the first that begins behind the code point.
-/

namespace Storyboard

/-- Whether every range is given by its first and last element, and ends before the next
begins. `low` is the least element that the first range may have. -/
def ascendingFrom (low : Nat) : List (Nat × Nat) → Bool
  | [] => true
  | (first, last) :: rest => low ≤ first && first ≤ last && ascendingFrom (last + 1) rest

/-- Ranges of code points in ascending order. -/
structure CodeRanges where
  /-- First and last element of each range. -/
  ranges : List (Nat × Nat)
  ascending : ascendingFrom 0 ranges = true

namespace CodeRanges

/-- Whether a code point lies in one of the ranges, which are in ascending order. -/
def search (code : Nat) : List (Nat × Nat) → Bool
  | [] => false
  | (first, last) :: rest => first ≤ code && (code ≤ last || search code rest)

/-- Whether a code point lies in one of the ranges. -/
def contains (s : CodeRanges) (code : Nat) : Bool :=
  search code s.ranges

theorem le_of_ascendingFrom {low : Nat} {ranges : List (Nat × Nat)}
    (h : ascendingFrom low ranges = true) {r : Nat × Nat} (hr : r ∈ ranges) : low ≤ r.1 := by
  induction ranges generalizing low with
  | nil => cases hr
  | cons range rest ih =>
      simp only [ascendingFrom, Bool.and_eq_true, decide_eq_true_eq] at h
      rcases List.mem_cons.mp hr with rfl | hr
      · exact h.1.1
      · have := ih h.2 hr
        omega

theorem search_iff {low code : Nat} {ranges : List (Nat × Nat)}
    (h : ascendingFrom low ranges = true) :
    search code ranges = true ↔ ∃ r ∈ ranges, r.1 ≤ code ∧ code ≤ r.2 := by
  induction ranges generalizing low with
  | nil => simp [search]
  | cons range rest ih =>
      simp only [ascendingFrom, Bool.and_eq_true, decide_eq_true_eq] at h
      simp only [search, Bool.and_eq_true, Bool.or_eq_true, decide_eq_true_eq, ih h.2]
      constructor
      · rintro ⟨hfirst, hlast | ⟨r, hr, hcode⟩⟩
        · exact ⟨range, List.mem_cons_self, hfirst, hlast⟩
        · exact ⟨r, List.mem_cons_of_mem _ hr, hcode⟩
      · rintro ⟨r, hr, hcode⟩
        rcases List.mem_cons.mp hr with rfl | hr
        · exact ⟨hcode.1, .inl hcode.2⟩
        · have hbegin := le_of_ascendingFrom h.2 hr
          exact ⟨by omega, .inr ⟨r, hr, hcode⟩⟩

/-- The search finds exactly the elements of the ranges. -/
theorem contains_iff (s : CodeRanges) (code : Nat) :
    s.contains code = true ↔ ∃ r ∈ s.ranges, r.1 ≤ code ∧ code ≤ r.2 :=
  search_iff s.ascending

end CodeRanges

end Storyboard
