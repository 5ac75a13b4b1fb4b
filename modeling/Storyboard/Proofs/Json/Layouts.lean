import Mathlib.Data.List.TakeWhile
import Storyboard.Json.Printer
import Storyboard.Proofs.Json.Decimals

/-! # Numbers as they are written

The text of a number is a literal: its digits, with a point among them or zeros around them, and
perhaps an exponent. Wherever the point stands, the literal denotes the same decimal.
-/

namespace Storyboard

/-! ## Digits -/

theorem ofDigits_append (front back : List Char) :
    ofDigits (front ++ back) = ofDigits front * 10 ^ back.length + ofDigits back := by
  induction back using List.reverseRecOn with
  | nil => simp
  | append_singleton back c ih =>
      rw [← List.append_assoc, ofDigits_append_singleton, ofDigits_append_singleton, ih,
        List.length_append, List.length_singleton, pow_succ]
      ring

@[simp] theorem ofDigits_replicate_zero (k : ℕ) : ofDigits (List.replicate k '0') = 0 := by
  induction k with
  | zero => rfl
  | succ k ih =>
      rw [List.replicate_succ', ofDigits_append_singleton, ih]
      rfl

@[simp] theorem ofDigits_zeros (count : ℤ) : ofDigits (Layout.zeros count) = 0 :=
  ofDigits_replicate_zero _

theorem digitValue_lt {c : Char} (h : c.isDigit) : digitValue c < 10 := by
  have hbounds : 48 ≤ c.toNat ∧ c.toNat ≤ 57 := by
    simpa [Char.isDigit, UInt32.le_iff_toNat_le] using h
  have hzero : '0'.toNat = 48 := rfl
  unfold digitValue
  omega

theorem ofDigits_lt {text : List Char} (h : ∀ c ∈ text, c.isDigit) :
    ofDigits text < 10 ^ text.length := by
  induction text using List.reverseRecOn with
  | nil => simp
  | append_singleton text c ih =>
      have hrest := ih fun d hd => h d (List.mem_append_left _ hd)
      have hlast := digitValue_lt (h c (by simp))
      rw [ofDigits_append_singleton, List.length_append, List.length_singleton, pow_succ]
      omega

/-- The digits of a number without the zeros at their end. -/
def keptDigits (n : ℕ) : List Char :=
  ((Nat.toDigits 10 n).reverse.dropWhile (· == '0')).reverse

theorem exists_toDigits_eq (n : ℕ) :
    ∃ k, Nat.toDigits 10 n = keptDigits n ++ List.replicate k '0' := by
  obtain ⟨back, hback⟩ : ∃ back, (Nat.toDigits 10 n).reverse.takeWhile (· == '0') = back := ⟨_, rfl⟩
  have hzeros : back = List.replicate back.length '0' := by
    rw [List.eq_replicate_iff]
    refine ⟨rfl, fun c hc => ?_⟩
    rw [← hback] at hc
    simpa using List.mem_takeWhile_imp hc
  have hsplit : (Nat.toDigits 10 n).reverse = back ++ (keptDigits n).reverse := by
    rw [← hback, keptDigits, List.reverse_reverse, List.takeWhile_append_dropWhile]
  refine ⟨back.length, ?_⟩
  have hreverse := congrArg List.reverse hsplit
  rw [List.reverse_reverse, List.reverse_append, List.reverse_reverse, hzeros,
    List.reverse_replicate] at hreverse
  exact hreverse

/-- Digits with which a positive number can be written: no zero stands in front. -/
structure LeadingDigits (digits : List Char) : Prop extends IsDigits digits where
  head : digits.head? ≠ some '0'

theorem leadingDigits_keptDigits {n : ℕ} (hn : 0 < n) : LeadingDigits (keptDigits n) := by
  obtain ⟨k, hk⟩ := exists_toDigits_eq n
  have hne : keptDigits n ≠ [] := by
    intro hnil
    have hzero := congrArg ofDigits hk
    rw [hnil, List.nil_append, ofDigits_toDigits, ofDigits_replicate_zero] at hzero
    omega
  refine ⟨⟨hne, fun c hc => (isDigits_toDigits n).isDigit c ?_⟩, fun hhead => head?_toDigits hn ?_⟩
  · rw [hk]
    exact List.mem_append_left _ hc
  · rw [hk, List.head?_append_of_ne_nil _ hne, hhead]

/-! ## The literal of a number -/

namespace Json

open Literal

/-- The literal that is written for digits, the first of which has the weight `10 ^ exponent`. -/
def placed (negative : Bool) (digits : List Char) (exponent : ℤ) : Literal :=
  if -6 ≤ exponent ∧ exponent ≤ 12 then
    if exponent < 0 then
      ⟨negative, ['0'], some (Layout.zeros (-exponent - 1) ++ digits), none⟩
    else
      let whole := digits.take (exponent + 1).toNat
      let rest := digits.drop (exponent + 1).toNat
      ⟨negative, whole ++ Layout.zeros (exponent + 1 - whole.length),
        some (if rest.isEmpty then ['0'] else rest), none⟩
  else
    ⟨negative, digits.take 1, if digits.length ≤ 1 then none else some (digits.drop 1),
      some (exponent < 0, Nat.toDigits 10 exponent.natAbs)⟩

theorem spellUnsigned_placed (negative : Bool) (digits : List Char) (exponent : ℤ) :
    (placed negative digits exponent).spellUnsigned = layout.place digits exponent := by
  have hpositional : layout.positional exponent = decide (-6 ≤ exponent ∧ exponent ≤ 12) := by
    simp [layout]
  unfold placed Layout.place
  rw [hpositional]
  simp only [decide_eq_true_eq]
  split
  · split
    · simp [spellUnsigned, spellFraction, spellExponent]
    · split <;> simp_all [spellUnsigned, spellFraction, spellExponent, layout]
  · split <;> split <;> simp_all [spellUnsigned, spellFraction, spellExponent, layout]

section Placed

variable {negative : Bool} {digits : List Char} {exponent : ℤ}

@[simp] theorem negative_placed : (placed negative digits exponent).negative = negative := by
  unfold placed
  split_ifs <;> rfl

theorem significand_placed (negative : Bool) :
    (placed negative digits exponent).significand = (placed false digits exponent).significand := by
  unfold placed
  split_ifs <;> rfl

theorem power_placed (negative : Bool) :
    (placed negative digits exponent).power = (placed false digits exponent).power := by
  unfold placed
  split_ifs <;> rfl

theorem isDigits_zeros_append {text : List Char} (h : IsDigits text) (count : ℤ) :
    IsDigits (Layout.zeros count ++ text) := by
  refine ⟨List.append_ne_nil_of_right_ne_nil _ h.ne_nil, fun c hc => ?_⟩
  rcases List.mem_append.mp hc with hc | hc
  · rw [(List.mem_replicate.mp hc).2]
    decide
  · exact h.isDigit c hc

theorem isDigits_append_zeros {text : List Char} (h : IsDigits text) (count : ℤ) :
    IsDigits (text ++ Layout.zeros count) := by
  refine ⟨List.append_ne_nil_of_left_ne_nil h.ne_nil _, fun c hc => ?_⟩
  rcases List.mem_append.mp hc with hc | hc
  · exact h.isDigit c hc
  · rw [(List.mem_replicate.mp hc).2]
    decide

theorem isDigits_zero : IsDigits ['0'] := by
  constructor <;> simp

theorem leadingDigits_take (h : LeadingDigits digits) {k : ℕ} (hk : 0 < k) :
    LeadingDigits (digits.take k) := by
  obtain ⟨c, rest, rfl⟩ := List.exists_cons_of_ne_nil h.ne_nil
  obtain ⟨k, rfl⟩ := Nat.exists_eq_succ_of_ne_zero hk.ne'
  exact ⟨⟨List.cons_ne_nil _ _, fun d hd => h.isDigit d (List.mem_of_mem_take hd)⟩, h.head⟩

theorem isDigits_drop (h : IsDigits digits) {k : ℕ} (hne : digits.drop k ≠ []) :
    IsDigits (digits.drop k) :=
  ⟨hne, fun c hc => h.isDigit c (List.mem_of_mem_drop hc)⟩

theorem wellFormed_placed (h : LeadingDigits digits) :
    (placed negative digits exponent).WellFormed := by
  unfold placed
  split
  · split
    · refine ⟨isDigits_zero, fun _ => rfl, ?_, nofun⟩
      rintro _ ⟨⟩
      exact isDigits_zeros_append h.toIsDigits _
    · have htake := leadingDigits_take h (k := (exponent + 1).toNat) (by omega)
      refine ⟨isDigits_append_zeros htake.toIsDigits _, fun hhead => absurd hhead ?_, ?_, nofun⟩
      · rw [List.head?_append_of_ne_nil _ htake.ne_nil]
        exact htake.head
      · rintro _ ⟨⟩
        split
        · exact isDigits_zero
        · next hrest => exact isDigits_drop h.toIsDigits (by simpa using hrest)
  · have htake := leadingDigits_take h Nat.one_pos
    refine ⟨htake.toIsDigits, fun hhead => absurd hhead htake.head, ?_, ?_⟩
    · intro rest hrest
      simp only at hrest
      split at hrest
      · cases hrest
      · next hlong =>
        cases hrest
        exact isDigits_drop h.toIsDigits fun hnil => hlong (List.drop_eq_nil_iff.mp hnil)
    · rintro _ _ ⟨⟩
      exact isDigits_toDigits _

theorem fraction_or_exponent_placed :
    (placed negative digits exponent).fraction ≠ none ∨
      (placed negative digits exponent).exponent ≠ none := by
  unfold placed
  split_ifs <;> simp

/-- Wherever the point stands, the decimal is the same. Only a number that is written as a whole
one has zeros behind its digits. -/
theorem exists_significand_placed (negative : Bool) (exponent : ℤ) (hne : digits ≠ []) :
    ∃ zeros : ℕ, (placed negative digits exponent).significand = ofDigits digits * 10 ^ zeros ∧
      (placed negative digits exponent).power = exponent + 1 - digits.length - zeros ∧
      (zeros = 0 ∨ (digits.length + zeros ≤ 14 ∧
        (placed negative digits exponent).power = -1)) := by
  have hpos := List.length_pos_of_ne_nil hne
  have hzero : ofDigits ['0'] = 0 := rfl
  unfold placed
  split
  · split
    · refine ⟨0, ?_, ?_, .inl rfl⟩
      · simp only [significand, Option.getD_some, ofDigits_append ['0'], hzero,
          ofDigits_append (Layout.zeros _),
          ofDigits_zeros, zero_mul, zero_add, pow_zero, mul_one]
      · simp only [power, writtenExponent, Option.getD_some, List.length_append, Layout.zeros,
          List.length_replicate]
        omega
    · next hrange hneg =>
      obtain ⟨k, hk⟩ : ∃ k : ℕ, exponent + 1 = k := ⟨(exponent + 1).toNat, by omega⟩
      simp only [hk, Int.toNat_natCast]
      split
      · next hrest =>
        have hlength : digits.length ≤ k := by simpa using hrest
        refine ⟨k - digits.length + 1, ?_, ?_, .inr ⟨by omega, rfl⟩⟩
        · simp [significand, List.take_of_length_le hlength, ofDigits_append, hzero, Layout.zeros]
        · simp only [power, writtenExponent, Option.getD_some, List.length_singleton]
          omega
      · next hrest =>
        have hlength : k < digits.length := by simpa using hrest
        refine ⟨0, ?_, ?_, .inl rfl⟩
        · simp [significand, Layout.zeros, hlength.le]
        · simp only [power, writtenExponent, Option.getD_some, List.length_drop]
          omega
  · refine ⟨0, ?_, ?_, .inl rfl⟩
    · simp only [significand, pow_zero, mul_one]
      split
      · next hshort => rw [Option.getD_none, List.append_nil, List.take_of_length_le hshort]
      · rw [Option.getD_some, List.take_append_drop]
    · have hwritten : (if exponent < 0 then -(ofDigits (Nat.toDigits 10 exponent.natAbs) : ℤ)
          else ofDigits (Nat.toDigits 10 exponent.natAbs)) = exponent := by
        rw [ofDigits_toDigits]
        split <;> omega
      simp only [power, writtenExponent, decide_eq_true_eq, hwritten]
      split
      · rw [Option.getD_none, List.length_nil]
        omega
      · rw [Option.getD_some, List.length_drop]
        omega

theorem natAbs_writtenExponent_placed (negative : Bool) (digits : List Char) (exponent : ℤ) :
    (placed negative digits exponent).writtenExponent.natAbs ≤ exponent.natAbs := by
  unfold placed
  split
  · split <;> exact Nat.zero_le _
  · simp only [writtenExponent, ofDigits_toDigits]
    split <;> omega

/-- Digits with a point are read as a binary64 number near to the decimal that they are. -/
theorem ofWord?_placed (exponent : ℤ) (h : LeadingDigits digits) (hpos : 0 < ofDigits digits)
    (hlength : digits.length ≤ 15) {g : ℤ} (hg : g = exponent + 1 - digits.length)
    (hrange : g.natAbs ≤ 60) :
    ∃ y v, (∀ negative, ofWord? (placed negative digits exponent).spell =
        some (.number (.double (if negative then -y else y)))) ∧
      HasValue y .positive v ∧ Scales g v (ofDigits digits * 10 ^ g) := by
  obtain ⟨zeros, hsignificand, hpower, hzeros⟩ :=
    exists_significand_placed false exponent h.ne_nil
  have hlt : (placed false digits exponent).significand < 2 ^ 53 := by
    have hdigits := ofDigits_lt h.isDigit
    have hmost : (placed false digits exponent).significand < 10 ^ (digits.length + zeros) := by
      rw [hsignificand, pow_add]
      exact Nat.mul_lt_mul_of_pos_right hdigits (Nat.pow_pos (by norm_num))
    refine hmost.trans_le ((Nat.pow_le_pow_right (by norm_num) ?_).trans
      (by norm_num : 10 ^ 15 ≤ 2 ^ 53))
    omega
  have hnatAbs : (placed false digits exponent).power.natAbs ≤ 60 := by
    rcases hzeros with rfl | ⟨-, hone⟩
    · rw [hpower, ← hg]
      simpa using hrange
    · rw [hone]
      decide
  have hsig : 0 < (placed false digits exponent).significand := by
    rw [hsignificand]
    positivity
  obtain ⟨y, v, hscale, hvalue, hscales⟩ := exists_scale? hsig hlt hnatAbs
  have hdecimal : ((placed false digits exponent).significand : ℚ) *
      10 ^ (placed false digits exponent).power = ofDigits digits * 10 ^ g := by
    rw [hsignificand, hpower, ← hg, zpow_sub₀ (by norm_num), zpow_natCast]
    push_cast
    field_simp
  rw [hdecimal] at hscales
  refine ⟨y, v, fun negative => ?_, hvalue, hscales.near, fun hsmall => hscales.exact ?_⟩
  · have hwritten := natAbs_writtenExponent_placed negative digits exponent
    rw [← significand_placed negative] at hlt hscale
    rw [← power_placed negative] at hscale
    have hread := value?_eq_scale? (l := placed negative digits exponent)
      fraction_or_exponent_placed (hlt.trans (by norm_num)) (by omega)
    rw [hscale, negative_placed] at hread
    rw [ofWord?_spell (wellFormed_placed h), hread]
    rfl
  · rcases hzeros with rfl | ⟨-, hone⟩
    · rw [hpower, ← hg]
      simpa using hsmall
    · rw [hone]
      decide

end Placed

/-! ## Decimals with few bits -/

theorem five_pow_dvd {a b n i k : ℕ} (h : a * 5 ^ n * 2 ^ i = b * 2 ^ k) : 5 ^ n ∣ b := by
  have hcoprime : Nat.Coprime (5 ^ n) (2 ^ k) := Nat.Coprime.pow n k (by decide)
  refine hcoprime.dvd_of_dvd_mul_right ⟨a * 2 ^ i, ?_⟩
  rw [← h]
  ring

/-- A number of few bits has few digits only if its last digit is near to the point. -/
theorem natAbs_le_of_dyadic {a b : ℕ} {g j : ℤ} (ha : 0 < a) (ha' : a < 10 ^ 15) (hb : b < 2 ^ 25)
    (h : (a : ℚ) * 10 ^ g = b * 2 ^ j) : g.natAbs ≤ 22 := by
  have hpow : (0 : ℚ) < 2 ^ (-j).toNat := by positivity
  have hclear : (a : ℚ) * 10 ^ g * 2 ^ (-j).toNat = b * 2 ^ j.toNat := by
    rw [h, mul_assoc, zpow_mul_pow_toNat (by norm_num)]
  by_contra hfar
  have hbpos : 0 < b := by
    refine Nat.pos_of_ne_zero ?_
    rintro rfl
    have hzero : (a : ℚ) * 10 ^ g = 0 := by rw [h, Nat.cast_zero, zero_mul]
    exact absurd hzero (by positivity)
  have hdivisor : ∀ {n c : ℕ}, 23 ≤ n → 0 < c → c < 10 ^ 15 → ¬ 5 ^ n ∣ c := by
    intro n c hn hc hc' hdvd
    have hle := Nat.le_of_dvd hc hdvd
    have hpow : 5 ^ 23 ≤ 5 ^ n := Nat.pow_le_pow_right (by norm_num) hn
    have hmost : (10 : ℕ) ^ 15 ≤ 5 ^ 23 := by norm_num
    omega
  cases g with
  | ofNat n =>
      have hn : 23 ≤ n := by
        simp only [Int.ofNat_eq_natCast, Int.natAbs_natCast] at hfar
        omega
      have hnat : a * 5 ^ n * 2 ^ (n + (-j).toNat) = b * 2 ^ j.toNat := by
        rw [Int.ofNat_eq_natCast, zpow_natCast] at hclear
        have hcast : a * 10 ^ n * 2 ^ (-j).toNat = b * 2 ^ j.toNat := by exact_mod_cast hclear
        rw [← hcast, show (10 : ℕ) = 5 * 2 from rfl, mul_pow, pow_add]
        ring
      exact hdivisor hn hbpos (hb.trans (by norm_num)) (five_pow_dvd hnat)
  | negSucc n =>
      have hn : 23 ≤ n + 1 := by
        rw [Int.natAbs_negSucc] at hfar
        omega
      have hnat : b * 5 ^ (n + 1) * 2 ^ (n + 1 + j.toNat) = a * 2 ^ (-j).toNat := by
        have hten : (0 : ℚ) < 10 ^ (n + 1) := by positivity
        rw [zpow_negSucc, ← div_eq_mul_inv, div_mul_eq_mul_div, div_eq_iff hten.ne'] at hclear
        have hcast : a * 2 ^ (-j).toNat = b * 2 ^ j.toNat * 10 ^ (n + 1) := by
          exact_mod_cast hclear
        rw [hcast, show (10 : ℕ) = 5 * 2 from rfl, mul_pow, pow_add 2 (n + 1) j.toNat]
        ring
      exact hdivisor hn ha ha' (five_pow_dvd hnat)

/-- The text of a decimal is read as a binary64 number near to it. -/
theorem ofWord?_decimal {d : Decimal} (hd : 0 < d.digits) (hlt : d.digits < 10 ^ 15)
    (hlow : -60 ≤ d.exponent) (hhigh : d.exponent ≤ 45) :
    ∃ y v, (∀ negative : Bool,
        ofWord? (if negative then '-' :: layout.decimal d else layout.decimal d) =
          some (.number (.double (if negative then -y else y)))) ∧
      HasValue y .positive v ∧
      |v - d.digits * 10 ^ d.exponent| ≤ d.digits * 10 ^ d.exponent * scalingError ∧
      ∀ (b : ℕ) (j : ℤ), b < 2 ^ 25 → d.digits * (10 : ℚ) ^ d.exponent = b * 2 ^ j →
        v = d.digits * 10 ^ d.exponent := by
  obtain ⟨zeros, htoDigits⟩ := exists_toDigits_eq d.digits
  have hleading := leadingDigits_keptDigits hd
  have hlength : (Nat.toDigits 10 d.digits).length ≤ 15 :=
    (Nat.length_toDigits_le_iff (by norm_num) (by norm_num)).mpr hlt
  have hsum := congrArg List.length htoDigits
  rw [List.length_append, List.length_replicate] at hsum
  have hdigits : d.digits = ofDigits (keptDigits d.digits) * 10 ^ zeros := by
    have hvalue := congrArg ofDigits htoDigits
    rwa [ofDigits_toDigits, ofDigits_append, ofDigits_replicate_zero, List.length_replicate,
      add_zero] at hvalue
  have hkept : 0 < ofDigits (keptDigits d.digits) := by
    refine Nat.pos_of_ne_zero fun hzero => ?_
    rw [hzero, zero_mul] at hdigits
    omega
  have hdecimal : (ofDigits (keptDigits d.digits) : ℚ) * 10 ^ (d.exponent + zeros) =
      d.digits * 10 ^ d.exponent := by
    have hcast : (d.digits : ℚ) = ofDigits (keptDigits d.digits) * 10 ^ zeros := by
      exact_mod_cast hdigits
    rw [hcast, zpow_add₀ (by norm_num), zpow_natCast]
    ring
  obtain ⟨y, v, hread, hvalue, hscales⟩ := ofWord?_placed
    (d.exponent + (Nat.toDigits 10 d.digits).length - 1) (g := d.exponent + zeros) hleading hkept
    (by omega) (by omega) (by omega)
  rw [hdecimal] at hscales
  refine ⟨y, v, fun negative => ?_, hvalue, hscales.near, fun b j hb heq => ?_⟩
  · have hspelled := hread negative
    rw [spell, negative_placed, spellUnsigned_placed] at hspelled
    exact hspelled
  · refine hscales.exact ?_ b j (hb.trans (by norm_num)) heq
    rw [← hdecimal] at heq
    refine natAbs_le_of_dyadic hkept ?_ hb heq
    exact (Nat.le_mul_of_pos_right _ (Nat.pow_pos (by norm_num))).trans_lt (hdigits ▸ hlt)

end Json

end Storyboard
