import Mathlib.Algebra.Group.Nat.Defs
import Mathlib.Data.Int.Notation
import Storyboard.Numeric.Binary

/-! # The encoding of binary32 numbers

A number is kept as a sign, an exponent and a mantissa in 32 bits. Arithmetic takes a number
apart, works on the parts and encodes the result again. The parts that come out of a number
are always in one canonical form, parts in that form survive encoding, and a number is
determined by its parts.
-/

namespace Storyboard

open Float.Model Float.Model.UnpackedFloat

/-- The sign, mantissa and exponent of a number, or what else it is. -/
abbrev parts (x : Float32) : UnpackedFloat :=
  x.toModel.unpack

/-- A mantissa and an exponent in canonical form: at most 24 bits, and all of them in use
unless the exponent is the least one. The exponent is not bounded above. -/
structure Fits (mantissa : ℕ) (exponent : ℤ) : Prop where
  pos : 0 < mantissa
  lt : mantissa < 2 ^ 24
  least : -149 ≤ exponent
  full : exponent = -149 ∨ 2 ^ 23 ≤ mantissa

/-- The 32 bits of a number. -/
abbrev Word : Type := BitVec Format.binary32.numBits

/-! ## The fields of a word -/

theorem ofBitVec_toBitVec (s : Sign) : Sign.ofBitVec s.toBitVec = s := by
  cases s <;> rfl

theorem toBitVec_ofBitVec (b : BitVec 1) : (Sign.ofBitVec b).toBitVec = b := by
  revert b; decide

/-- The leading bit of a full mantissa is not stored. -/
theorem toNat_implicit {n : ℕ} (v : BitVec n) : (1#1 ++ v).toNat = 2 ^ n + v.toNat := by
  rw [BitVec.toNat_append, ← Nat.shiftLeft_add_eq_or_of_lt v.isLt]
  simp [Nat.shiftLeft_eq]

theorem unpackSign_packComponents {spec : Format} (s : Sign) (e : BitVec spec.exponentBits)
    (m : BitVec spec.mantissaBitsWithoutImplicit) :
    unpackSign (packComponents spec s e m) = s.toBitVec := by
  delta unpackSign packComponents BitVec.extractLsb
  ext i hi
  simp only [BitVec.getElem_cast, BitVec.getElem_extractLsb', BitVec.getLsbD_append]
  rw [if_neg (by omega), if_neg (by omega), Nat.add_assoc, Nat.add_sub_cancel_left,
    Nat.add_sub_cancel_left, BitVec.getLsbD_eq_getElem]

theorem packComponents_unpack (b : Word) :
    packComponents .binary32 (.ofBitVec (unpackSign b)) (unpackExponent b) (unpackMantissa b) =
      b := by
  unfold packComponents
  rw [toBitVec_ofBitVec]
  delta unpackSign unpackExponent unpackMantissa BitVec.extractLsb
  ext i hi
  have hi : i < 32 := hi
  simp only [BitVec.getElem_append, BitVec.getElem_cast, BitVec.getElem_extractLsb']
  -- the fields of the word from the last to the first
  split
  · rw [Nat.zero_add, BitVec.getLsbD_eq_getElem]
  · split
    · rw [show 23 + (i - 23) = i by omega, BitVec.getLsbD_eq_getElem]
    · rw [show 23 + 8 + (i - 23 - 8) = i by omega, BitVec.getLsbD_eq_getElem]

/-- Every word consists of three fields. -/
theorem exists_packComponents (b : Word) :
    ∃ (s : Sign) (x : BitVec 8) (v : BitVec 23), b = packComponents .binary32 s x v :=
  ⟨_, _, _, (packComponents_unpack b).symm⟩

/-- The exponent fields of normal numbers. -/
theorem bounds_of_normal {x : BitVec 8} (hinf : x ≠ -1#8) (hzero : x ≠ 0#8) :
    0 < x.toNat ∧ x.toNat < 255 := by
  have hlt : x.toNat < 256 := x.isLt
  have hne : x.toNat ≠ 0 := fun heq => hzero (BitVec.eq_of_toNat_eq heq)
  have htop : x.toNat ≠ 255 := fun heq => hinf (BitVec.eq_of_toNat_eq heq)
  omega

/-! ## Normal numbers

The mantissa of a normal number uses all its bits. Such numbers are encoded alike in every
format.
-/

section Normal

variable {spec : Format}

theorem pack_full (s : Sign) {m : ℕ} {e : ℤ} (h : 0 < m)
    (hlog : m.log2 = spec.mantissaBitsWithoutImplicit)
    (he : (e + spec.exponentBias + spec.mantissaBitsWithoutImplicit).toNat + 1 <
      2 ^ spec.exponentBits) :
    UnpackedFloat.pack spec (.finite s m e h) =
      packComponents spec s
        (.ofNat _ (e + spec.exponentBias + spec.mantissaBitsWithoutImplicit).toNat)
        (.ofNat _ m) := by
  have hfull : m.log2 + 1 = spec.mantissaBits := by
    rw [hlog, Nat.add_comm]
    rfl
  unfold UnpackedFloat.pack
  dsimp only
  rw [if_neg (Nat.not_le_of_lt he), if_pos hfull]

/-- The parts of a word whose exponent field is neither the least nor the greatest one. -/
theorem unpack_full (s : Sign) {x : BitVec spec.exponentBits}
    (v : BitVec spec.mantissaBitsWithoutImplicit) (hinf : x ≠ -1#_) (hzero : x ≠ 0#_) :
    UnpackedFloat.unpack spec (packComponents spec s x v) =
      .finite s (1#1 ++ v).toNat (x.toNat - (spec.exponentBias + spec.mantissaBitsWithoutImplicit))
        (by rw [toNat_implicit]; exact Nat.add_pos_left (Nat.two_pow_pos _) _) := by
  have hexponent : unpackExponent (packComponents spec s x v) = x :=
    unpackExponent_packComponents
  rw [← hexponent] at hinf hzero
  unfold UnpackedFloat.unpack
  dsimp only
  rw [if_neg hinf, if_neg hzero, UnpackedFloat.finite.injEq,
    unpackMantissa_packComponents, hexponent, unpackSign_packComponents, ofBitVec_toBitVec]
  exact ⟨rfl, rfl, rfl⟩

/-- A full mantissa with an exponent in range survives encoding. -/
theorem unpack_pack_full (s : Sign) {m : ℕ} {e : ℤ} (h : 0 < m)
    (hlo : 2 ^ spec.mantissaBitsWithoutImplicit ≤ m)
    (hhi : m < 2 ^ (spec.mantissaBitsWithoutImplicit + 1))
    (hpos : 0 < e + spec.exponentBias + spec.mantissaBitsWithoutImplicit)
    (he : (e + spec.exponentBias + spec.mantissaBitsWithoutImplicit).toNat + 1 <
      2 ^ spec.exponentBits) :
    UnpackedFloat.unpack spec (UnpackedFloat.pack spec (.finite s m e h)) = .finite s m e h := by
  rw [pack_full s h ((Nat.log2_eq_iff (by omega)).mpr ⟨hlo, hhi⟩) he]
  obtain ⟨b, hb⟩ : ∃ b : ℕ, (e + spec.exponentBias +
      spec.mantissaBitsWithoutImplicit).toNat = b := ⟨_, rfl⟩
  rw [hb] at he ⊢
  have hfield : (BitVec.ofNat spec.exponentBits b).toNat = b := by
    rw [BitVec.toNat_ofNat, Nat.mod_eq_of_lt (by omega)]
  have hzero : BitVec.ofNat spec.exponentBits b ≠ 0#_ := by
    intro heq
    rw [heq, BitVec.toNat_ofNat, Nat.zero_mod] at hfield
    omega
  have hinf : BitVec.ofNat spec.exponentBits b ≠ -1#_ := by
    intro heq
    rw [heq, BitVec.neg_one_eq_allOnes, BitVec.toNat_allOnes] at hfield
    omega
  have hmant : (1#1 ++ BitVec.ofNat spec.mantissaBitsWithoutImplicit m).toNat = m := by
    rw [Nat.pow_succ] at hhi
    rw [toNat_implicit, BitVec.toNat_ofNat, Nat.mod_eq_sub_mod hlo, Nat.mod_eq_of_lt (by omega)]
    omega
  rw [unpack_full s _ hinf hzero, UnpackedFloat.finite.injEq, hfield]
  exact ⟨rfl, hmant, by omega⟩

end Normal

/-! ## Encoding parts -/

theorem pack_normal (s : Sign) {m : ℕ} {e : ℤ} (h : 0 < m) (hlo : 2 ^ 23 ≤ m) (hhi : m < 2 ^ 24)
    (he : e ≤ 104) :
    UnpackedFloat.pack .binary32 (.finite s m e h) =
      packComponents .binary32 s (.ofNat 8 (e + 150).toNat) (.ofNat 23 m) := by
  have hlog : m.log2 = 23 := (Nat.log2_eq_iff (by omega)).mpr ⟨hlo, hhi⟩
  have hbias : (e + Format.binary32.exponentBias +
      Format.binary32.mantissaBitsWithoutImplicit).toNat = (e + 150).toNat := by
    change (e + 127 + 23).toNat = _
    omega
  rw [← hbias]
  refine pack_full s h hlog ?_
  change _ < 256
  omega

theorem pack_subnormal (s : Sign) {m : ℕ} (h : 0 < m) (hhi : m < 2 ^ 23) :
    UnpackedFloat.pack .binary32 (.finite s m (-149) h) =
      packComponents .binary32 s 0#8 (.ofNat 23 m) := by
  have hlog : m.log2 < 23 := (Nat.log2_lt (by omega)).mpr hhi
  unfold UnpackedFloat.pack
  dsimp only
  rw [if_neg (by decide), if_neg]
  change ¬ _ = 24
  omega

theorem pack_overflow (s : Sign) {m : ℕ} {e : ℤ} (h : 0 < m) (he : 105 ≤ e) :
    UnpackedFloat.pack .binary32 (.finite s m e h) = packedInfinity .binary32 s := by
  unfold UnpackedFloat.pack
  dsimp only
  rw [if_pos]
  change 256 ≤ (e + 127 + 23).toNat + 1
  omega

theorem unpack_normal (s : Sign) {x : BitVec 8} (v : BitVec 23) (hinf : x ≠ -1#8)
    (hzero : x ≠ 0#8) :
    UnpackedFloat.unpack .binary32 (packComponents .binary32 s x v) =
      .finite s (1#1 ++ v).toNat (x.toNat - 150) (by rw [toNat_implicit]; omega) := by
  have hbias : (Format.binary32.exponentBias : ℤ) +
      Format.binary32.mantissaBitsWithoutImplicit = 150 := rfl
  refine (@unpack_full .binary32 s x v hinf hzero).trans ?_
  rw [UnpackedFloat.finite.injEq, hbias]
  exact ⟨rfl, rfl, rfl⟩

/-- The greatest exponent field is kept for what is not finite. -/
theorem unpack_special (s : Sign) (v : BitVec 23) :
    UnpackedFloat.unpack .binary32 (packComponents .binary32 s (-1#8) v) =
      if v = 0#23 then .infinity s else .notANumber := by
  have hexponent : unpackExponent (packComponents .binary32 s (-1#8) v) = -1#8 :=
    unpackExponent_packComponents
  unfold UnpackedFloat.unpack
  dsimp only
  rw [if_pos hexponent, unpackMantissa_packComponents, unpackSign_packComponents,
    ofBitVec_toBitVec]

/-- The parts of a word whose exponent field is the least one. -/
theorem unpack_subnormal (s : Sign) {v : BitVec 23} (hv : 0 < v.toNat) :
    UnpackedFloat.unpack .binary32 (packComponents .binary32 s 0#8 v) =
      .finite s v.toNat (-149) hv := by
  have hexponent : unpackExponent (packComponents .binary32 s 0#8 v) = 0#8 :=
    unpackExponent_packComponents
  have hinf : unpackExponent (packComponents .binary32 s 0#8 v) ≠ -1#8 := by
    rw [hexponent]
    decide
  have hmantissa : @unpackMantissa .binary32 (packComponents .binary32 s 0#8 v) ≠ 0#23 := by
    rw [unpackMantissa_packComponents]
    exact fun h => (Nat.ne_of_gt hv) (congrArg BitVec.toNat h)
  unfold UnpackedFloat.unpack
  dsimp only
  rw [if_neg hinf, if_pos hexponent, dif_neg hmantissa,
    UnpackedFloat.finite.injEq, unpackMantissa_packComponents, hexponent,
    unpackSign_packComponents, ofBitVec_toBitVec]
  exact ⟨rfl, rfl, rfl⟩

theorem unpack_pack_of_fits (s : Sign) {m : ℕ} {e : ℤ} (h : 0 < m) (hfits : Fits m e)
    (he : e ≤ 104) : (Float32.Model.pack (.finite s m e h)).unpack = .finite s m e h := by
  change UnpackedFloat.unpack .binary32 (UnpackedFloat.pack .binary32 _) = _
  obtain ⟨_, hlt, hleast, hfull⟩ := hfits
  by_cases hnormal : 2 ^ 23 ≤ m
  · refine unpack_pack_full s h hnormal hlt ?_ ?_
    · change 0 < e + 127 + 23
      omega
    · change (e + 127 + 23).toNat + 1 < 256
      omega
  · obtain rfl : e = -149 := hfull.resolve_right hnormal
    have hmant : (BitVec.ofNat 23 m).toNat = m := by
      rw [BitVec.toNat_ofNat]
      omega
    rw [pack_subnormal s h (Nat.lt_of_not_le hnormal), unpack_subnormal s (hmant.symm ▸ h),
      UnpackedFloat.finite.injEq]
    exact ⟨rfl, hmant, rfl⟩

/-- An exponent that is too large makes the encoded number infinite. -/
theorem unpack_pack_of_overflow (s : Sign) {m : ℕ} {e : ℤ} (h : 0 < m) (he : 105 ≤ e) :
    (Float32.Model.pack (.finite s m e h)).unpack = .infinity s := by
  change UnpackedFloat.unpack .binary32 (UnpackedFloat.pack .binary32 _) = _
  rw [pack_overflow s h he]
  cases s <;> rfl

theorem unpack_pack_zero (s : Sign) : (Float32.Model.pack (.zero s)).unpack = .zero s := by
  cases s <;> rfl

/-! ## Decoding numbers -/

/-- The parts of a number are in canonical form, with an exponent that does not overflow. -/
theorem fits_of_parts {x : Float32} {s : Sign} {m : ℕ} {e : ℤ} {h : 0 < m}
    (hx : parts x = .finite s m e h) : Fits m e ∧ e ≤ 104 := by
  change UnpackedFloat.unpack .binary32 x.toModel.toBits.toBitVec = _ at hx
  obtain ⟨sign, field, v, hword⟩ := exists_packComponents x.toModel.toBits.toBitVec
  rw [hword] at hx
  have hv : v.toNat < 2 ^ 23 := v.isLt
  by_cases hinf : field = -1#8
  · rw [hinf, unpack_special] at hx
    by_cases hv : v = 0#23
    · rw [if_pos hv] at hx
      cases hx
    · rw [if_neg hv] at hx
      cases hx
  by_cases hzero : field = 0#8
  · subst hzero
    rcases Nat.eq_zero_or_pos v.toNat with hnil | hpos
    · obtain rfl : v = 0#23 := BitVec.eq_of_toNat_eq hnil
      cases sign <;> cases hx
    · rw [unpack_subnormal sign hpos, UnpackedFloat.finite.injEq] at hx
      obtain ⟨-, rfl, rfl⟩ := hx
      exact ⟨⟨h, by omega, by decide, .inl rfl⟩, by decide⟩
  · obtain ⟨hpos, htop⟩ := bounds_of_normal hinf hzero
    rw [unpack_normal sign v hinf hzero, UnpackedFloat.finite.injEq, toNat_implicit] at hx
    obtain ⟨-, rfl, rfl⟩ := hx
    change Fits (2 ^ 23 + v.toNat) _ ∧ _
    refine ⟨⟨?_, ?_, ?_, Or.inr ?_⟩, ?_⟩ <;> omega

/-- Encoding the parts of a number gives the number back. -/
theorem pack_unpack (x : Float32.Model) : Float32.Model.pack x.unpack = x := by
  obtain ⟨bits, valid⟩ := x
  suffices h : UnpackedFloat.pack .binary32 (UnpackedFloat.unpack .binary32 bits.toBitVec) =
      bits.toBitVec by
    unfold Float32.Model.pack Float32.Model.unpack
    rw [Float32.Model.mk.injEq]
    exact congrArg UInt32.ofBitVec h
  generalize bits.toBitVec = b at valid ⊢
  obtain ⟨sign, field, v, rfl⟩ := exists_packComponents b
  have hv : v.toNat < 2 ^ 23 := v.isLt
  by_cases hinf : field = -1#8
  · subst hinf
    rw [unpack_special]
    by_cases hzero : v = 0#23
    · rw [if_pos hzero, hzero]
      rfl
    · rw [if_neg hzero]
      have hmantissa : unpackMantissa (packComponents .binary32 sign (-1#8) v) ≠ 0#23 := by
        rwa [unpackMantissa_packComponents]
      exact (valid.eq_packedNaN unpackExponent_packComponents hmantissa).symm
  by_cases hzero : field = 0#8
  · subst hzero
    rcases Nat.eq_zero_or_pos v.toNat with hnil | hpos
    · obtain rfl : v = 0#23 := BitVec.eq_of_toNat_eq hnil
      cases sign <;> rfl
    · rw [unpack_subnormal sign hpos, pack_subnormal sign hpos hv, BitVec.ofNat_toNat,
        BitVec.setWidth_eq]
  · obtain ⟨hpos, htop⟩ := bounds_of_normal hinf hzero
    have hmantissa : (1#1 ++ v).toNat = 2 ^ 23 + v.toNat := toNat_implicit v
    rw [unpack_normal sign v hinf hzero, pack_normal sign _ (by omega) (by omega) (by omega)]
    congr 1
    · apply BitVec.eq_of_toNat_eq
      rw [BitVec.toNat_ofNat]
      omega
    · apply BitVec.eq_of_toNat_eq
      rw [BitVec.toNat_ofNat, hmantissa]
      omega

/-- Numbers with the same parts are the same. -/
theorem parts_injective {x y : Float32} (h : parts x = parts y) : x = y := by
  obtain ⟨x⟩ := x
  obtain ⟨y⟩ := y
  rw [Float32.ofModel.injEq, ← pack_unpack x, ← pack_unpack y]
  exact congrArg _ h

end Storyboard
