import Storyboard.Text.Combining
import Storyboard.Text.Unassigned

/-! # Characters that stand alone

A character stands alone if a reader can see it and tell it from its neighbours. What is
invisible, what joins the character before it, and what is no character does not.
-/

namespace Storyboard

/-- The characters without a shape of their own: controls, format characters, separators
other than the space, fillers, and characters for private use. -/
def CodeRanges.invisible : CodeRanges where
  ranges :=
    [(0x0, 0x1f), (0x7f, 0xa0), (0xad, 0xad), (0x600, 0x605), (0x61c, 0x61c), (0x6dd, 0x6dd),
     (0x70f, 0x70f), (0x890, 0x891), (0x8e2, 0x8e2), (0x115f, 0x1160), (0x1680, 0x1680),
     (0x180e, 0x180e), (0x2000, 0x200f), (0x2028, 0x202f), (0x205f, 0x2064), (0x2066, 0x206f),
     (0x3000, 0x3000), (0x3164, 0x3164), (0xe000, 0xf8ff), (0xfeff, 0xfeff), (0xffa0, 0xffa0),
     (0xfff9, 0xfffb), (0x110bd, 0x110bd), (0x110cd, 0x110cd), (0x13430, 0x1343f),
     (0x1bca0, 0x1bca3), (0x1d173, 0x1d17a), (0xe0001, 0xe0001), (0xe0020, 0xe007f),
     (0xf0000, 0xffffd), (0x100000, 0x10fffd)]
  ascending := by decide +kernel

/-- Whether a character can be told from its neighbours when it is shown. -/
def standsAlone (c : Char) : Bool :=
  !(CodeRanges.invisible.contains c.toNat || CodeRanges.combining.contains c.toNat ||
    CodeRanges.unassigned.contains c.toNat)

/-- Of the blanks, only the space stands alone. -/
theorem eq_space_of_isWhitespace {c : Char} (h : c.isWhitespace) (hc : standsAlone c) :
    c = ' ' := by
  simp only [Char.isWhitespace, Bool.or_eq_true, decide_eq_true_eq] at h
  rcases h with ((rfl | rfl) | rfl) | rfl
  · rfl
  all_goals exact absurd hc (by decide)

end Storyboard
