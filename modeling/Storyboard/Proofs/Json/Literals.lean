import Mathlib.Algebra.Ring.Nat
import Mathlib.Data.List.Basic
import Mathlib.Data.List.Induction
import Storyboard.Json.Reader

/-! # Literals of numbers

A literal consists of digits and a few marks between them. This module spells literals out,
shows that they are taken apart again where they were put together, and computes the number
that digits denote.
-/

namespace Storyboard

/-! ## Digits -/

/-- Digits, and at least one. -/
structure IsDigits (text : List Char) : Prop where
  ne_nil : text ≠ []
  isDigit : ∀ c ∈ text, c.isDigit

theorem isDigits_toDigits (n : ℕ) : IsDigits (Nat.toDigits 10 n) :=
  ⟨Nat.toDigits_ne_nil, fun _ => Nat.isDigit_of_mem_toDigits (by decide) (by decide)⟩

theorem digitValue_digitChar {d : ℕ} (h : d < 10) : digitValue (Nat.digitChar d) = d := by
  revert d
  decide

@[simp] theorem ofDigits_nil : ofDigits [] = 0 := rfl

theorem ofDigits_append_singleton (digits : List Char) (c : Char) :
    ofDigits (digits ++ [c]) = 10 * ofDigits digits + digitValue c := by
  simp [ofDigits]

theorem ofDigits_le_append (front back : List Char) :
    ofDigits front ≤ ofDigits (front ++ back) := by
  induction back using List.reverseRecOn with
  | nil => simp
  | append_singleton back c ih =>
      rw [← List.append_assoc, ofDigits_append_singleton]
      omega

@[simp] theorem ofDigits_toDigits (n : ℕ) : ofDigits (Nat.toDigits 10 n) = n := by
  induction n using Nat.strongRecOn with
  | _ n ih =>
      rw [Nat.toDigits_eq_if (by decide)]
      split
      · next h => simp [ofDigits, digitValue_digitChar h]
      · rw [ofDigits_append_singleton, ih (n / 10) (by omega),
          digitValue_digitChar (Nat.mod_lt _ (by decide))]
        omega

/-- The digits of a number begin with a zero only if the number is zero. -/
theorem head?_toDigits {n : ℕ} (h : 0 < n) : (Nat.toDigits 10 n).head? ≠ some '0' := by
  induction n using Nat.strongRecOn with
  | _ n ih =>
      rw [Nat.toDigits_eq_if (by decide)]
      split
      · next hlt =>
        have hdigit : ∀ d : Fin 10, 0 < d.val → Nat.digitChar d ≠ '0' := by decide
        simpa using hdigit ⟨n, hlt⟩ h
      · rw [List.head?_append_of_ne_nil _ Nat.toDigits_ne_nil]
        exact ih (n / 10) (by omega) (by omega)

namespace Json.Literal

/-! ## Spelling -/

/-- A fraction as it is spelled. -/
def spellFraction : Option (List Char) → List Char
  | none => []
  | some digits => '.' :: digits

/-- An exponent as it is spelled, with a sign in any case. -/
def spellExponent : Option (Bool × List Char) → List Char
  | none => []
  | some (negative, digits) => 'e' :: (if negative then '-' else '+') :: digits

/-- The text of a literal without its sign. -/
def spellUnsigned (l : Literal) : List Char :=
  l.whole ++ (spellFraction l.fraction ++ spellExponent l.exponent)

/-- The text of a literal. -/
def spell (l : Literal) : List Char :=
  if l.negative then '-' :: l.spellUnsigned else l.spellUnsigned

/-- The parts of a literal are digits, and zeros in front of others are not written. -/
structure WellFormed (l : Literal) : Prop where
  whole : IsDigits l.whole
  lead : l.whole.head? = some '0' → l.whole.length = 1
  fraction : ∀ digits, l.fraction = some digits → IsDigits digits
  exponent : ∀ negative digits, l.exponent = some (negative, digits) → IsDigits digits

theorem digits?_append {digits rest : List Char} (h : IsDigits digits)
    (hrest : ∀ c ∈ rest.head?, ¬ c.isDigit) : digits? (digits ++ rest) = some (digits, rest) := by
  have htake : (digits ++ rest).takeWhile Char.isDigit = digits := by
    rw [List.takeWhile_append_of_pos h.isDigit]
    cases rest with
    | nil => simp
    | cons c rest => simp [hrest c rfl]
  have hdrop : (digits ++ rest).dropWhile Char.isDigit = rest := by
    rw [List.dropWhile_append_of_pos h.isDigit]
    cases rest with
    | nil => simp
    | cons c rest => simp [hrest c rfl]
  simp [digits?, htake, hdrop, h.ne_nil]

theorem exponent?_spell (negative : Bool) {digits : List Char} (h : IsDigits digits) :
    exponent? ((if negative then '-' else '+') :: digits) = some (negative, digits) := by
  have hnone : ∀ c ∈ ([] : List Char).head?, ¬ c.isDigit := nofun
  have hdigits := digits?_append h hnone
  rw [List.append_nil] at hdigits
  cases negative <;> simp [exponent?, exponent?.unsigned, hdigits]

theorem afterFraction?_spell {l : Literal} (h : l.WellFormed) :
    afterFraction? l.negative l.whole l.fraction (spellExponent l.exponent) = some l := by
  obtain ⟨negative, whole, fraction, exponent⟩ := l
  cases exponent with
  | none => rfl
  | some e =>
      obtain ⟨down, digits⟩ := e
      have hexponent := exponent?_spell down (h.exponent down digits rfl)
      simp [spellExponent, afterFraction?, hexponent]

theorem head?_spellExponent {exponent : Option (Bool × List Char)} :
    ∀ c ∈ (spellExponent exponent).head?, ¬ c.isDigit := by
  cases exponent with
  | none => exact nofun
  | some e =>
      rintro c ⟨⟩
      decide

theorem unsigned?_spellUnsigned {l : Literal} (h : l.WellFormed) :
    unsigned? l.negative l.spellUnsigned = some l := by
  have hlead : ¬ (l.whole.head? = some '0' ∧ l.whole.length ≠ 1) := fun hlead =>
    hlead.2 (h.lead hlead.1)
  have hafter := afterFraction?_spell h
  unfold unsigned? spellUnsigned
  cases hfraction : l.fraction with
  | none =>
      rw [hfraction] at hafter
      rw [spellFraction, List.nil_append, digits?_append h.whole head?_spellExponent]
      simp only [Option.bind_eq_bind, Option.bind_some, if_neg hlead]
      cases hexponent : l.exponent with
      | none =>
          rw [hexponent] at hafter
          exact hafter
      | some e =>
          rw [hexponent] at hafter
          exact hafter
  | some digits =>
      rw [hfraction] at hafter
      rw [digits?_append h.whole]
      · simp only [Option.bind_eq_bind, Option.bind_some, if_neg hlead, spellFraction,
          List.cons_append]
        rw [digits?_append (h.fraction digits hfraction) head?_spellExponent]
        exact hafter
      · rintro c ⟨⟩
        decide

theorem exists_cons_spellUnsigned {l : Literal} (h : l.WellFormed) :
    ∃ c rest, l.spellUnsigned = c :: rest ∧ c.isDigit := by
  obtain ⟨c, rest, hwhole⟩ := List.exists_cons_of_ne_nil h.whole.ne_nil
  have hdigit := h.whole.isDigit c (by simp [hwhole])
  refine ⟨c, rest ++ (spellFraction l.fraction ++ spellExponent l.exponent), ?_, hdigit⟩
  rw [spellUnsigned, hwhole, List.cons_append]

/-- A literal is read as it is spelled. -/
theorem ofText?_spell {l : Literal} (h : l.WellFormed) : ofText? l.spell = some l := by
  have hunsigned := unsigned?_spellUnsigned h
  unfold spell
  cases hnegative : l.negative with
  | true =>
      rw [hnegative] at hunsigned
      exact hunsigned
  | false =>
      rw [hnegative] at hunsigned
      -- the text begins with a digit, and not with a minus
      obtain ⟨c, rest, htext, hdigit⟩ := exists_cons_spellUnsigned h
      rw [htext] at hunsigned
      rw [if_neg Bool.false_ne_true, htext]
      unfold ofText?
      split
      · next heq =>
        cases heq
        exact absurd hdigit (by decide)
      · exact hunsigned

/-! ## The number of a literal -/

/-- Digits are gathered up to the end if all of them fit. -/
theorem gather_eq (before digits : List Char) (h : ofDigits (before ++ digits) < 2 ^ 64) :
    gather (ofDigits before) digits = (ofDigits (before ++ digits), []) := by
  induction digits generalizing before with
  | nil => simp [gather]
  | cons c rest ih =>
      have hsplit : before ++ c :: rest = (before ++ [c]) ++ rest := by simp
      rw [hsplit] at h ⊢
      have hlt : 10 * ofDigits before + digitValue c < Nat.pow 2 64 := by
        rw [← ofDigits_append_singleton]
        exact Nat.lt_of_le_of_lt (ofDigits_le_append _ rest) h
      rw [gather, if_pos hlt, ← ofDigits_append_singleton, ih _ h]

end Json.Literal

namespace Json

open Literal

/-- The word of a literal is none of the names of JSON. -/
theorem ofWord?_spell {l : Literal} (h : l.WellFormed) :
    ofWord? l.spell = some ((l.value?.map .number).getD .meaningless) := by
  obtain ⟨c, rest, hword, hname⟩ : ∃ c rest, l.spell = c :: rest ∧ (c.isDigit ∨ c = '-') := by
    unfold spell
    cases l.negative with
    | true => exact ⟨_, _, rfl, .inr rfl⟩
    | false =>
        obtain ⟨c, rest, htext, hdigit⟩ := exists_cons_spellUnsigned h
        exact ⟨c, rest, htext, .inl hdigit⟩
  have hne : ∀ d word, ¬ (d.isDigit ∨ d = '-') → l.spell ≠ d :: word := by
    rintro d word hd heq
    rw [hword] at heq
    cases heq
    exact hd hname
  unfold ofWord?
  rw [if_neg (hne _ _ (by decide)), if_neg (hne _ _ (by decide)), if_neg (hne _ _ (by decide)),
    ofText?_spell h, Option.map_some]

theorem wellFormed_toDigits (n : ℕ) : WellFormed ⟨false, Nat.toDigits 10 n, none, none⟩ := by
  refine ⟨isDigits_toDigits n, fun hhead => ?_, nofun, nofun⟩
  rcases Nat.eq_zero_or_pos n with rfl | hpos
  · rfl
  · exact absurd hhead (head?_toDigits hpos)

/-- A whole number of 64 bits is read as it is written. -/
theorem ofWord?_repr {n : ℕ} (h : n < 2 ^ 64) :
    ofWord? n.repr.toList = some (.number (.integer n)) := by
  have hspell : n.repr.toList = spell ⟨false, Nat.toDigits 10 n, none, none⟩ := by
    simp [spell, spellUnsigned, spellFraction, spellExponent]
  have hgather : gather 0 (Nat.toDigits 10 n) = (n, []) := by
    have hall := gather_eq [] (Nat.toDigits 10 n) (by simpa using h)
    simpa using hall
  rw [hspell, ofWord?_spell (wellFormed_toDigits n)]
  simp [value?, hgather]

end Json

end Storyboard
