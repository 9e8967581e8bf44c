import InfixArith.Binary64.Text
import InfixArith.Proofs.Binary64.Magnitude
import Mathlib

/-!
# Words

A word is the 64 bits of a binary64 value.  Values are packed from a sign, an
exponent and a mantissa, and unpacked to them.  This module relates that to
the sign bit and the pattern.

`pattern_ofPattern` and `ofPattern_pattern` say that patterns and values
without a sign are the same thing.  `isFinite_iff` tells the finite ones, and
`pattern_neg` and `signBit_neg` say what negation does.
-/

namespace InfixArith.Binary64

open Float.Model (Format)
open Float.Model.UnpackedFloat

/-! ## Fields -/

section Fields

variable (word : UInt64)

theorem toNat_unpackExponent :
    (@unpackExponent Format.binary64 word.toBitVec).toNat =
      exponentField (word.toNat % signWeight) := by
  rw [unpackExponent_def, BitVec.extractLsb'_toNat, Nat.shiftRight_eq_div_pow]
  show word.toNat / 2 ^ 52 % 2 ^ 11 = _
  unfold exponentField signWeight
  omega

theorem toNat_unpackMantissa :
    (@unpackMantissa Format.binary64 word.toBitVec).toNat =
      fractionField (word.toNat % signWeight) := by
  rw [unpackMantissa_def, BitVec.extractLsb'_toNat, Nat.shiftRight_eq_div_pow]
  show word.toNat / 2 ^ 0 % 2 ^ 52 = _
  unfold fractionField signWeight
  omega

theorem toNat_unpackSign :
    (@unpackSign Format.binary64 word.toBitVec).toNat = word.toNat / signWeight := by
  have hword : word.toNat < 2 ^ 64 := word.toNat_lt
  rw [unpackSign_def, BitVec.extractLsb'_toNat, Nat.shiftRight_eq_div_pow]
  show word.toNat / 2 ^ 63 % 2 ^ 1 = _
  unfold signWeight
  omega

/-- The exponent is all ones from infinity on. -/
theorem unpackExponent_eq_iff :
    @unpackExponent Format.binary64 word.toBitVec = -1#(Format.binary64.exponentBits) ↔
      infinity ≤ word.toNat % signWeight := by
  have hones : (-1#(Format.binary64.exponentBits) : BitVec _).toNat = 2047 := rfl
  rw [← BitVec.toNat_inj, toNat_unpackExponent, hones]
  unfold exponentField infinity signWeight
  omega

theorem unpackMantissa_eq_iff :
    @unpackMantissa Format.binary64 word.toBitVec =
        0#(Format.binary64.mantissaBitsWithoutImplicit) ↔
      fractionField (word.toNat % signWeight) = 0 := by
  rw [← BitVec.toNat_inj, toNat_unpackMantissa]
  rfl

/-- The words above infinity stand for no number. -/
theorem isNaNBits_iff :
    @isNaNBits Format.binary64 word.toBitVec = true ↔
      infinity < word.toNat % signWeight := by
  rw [isNaNBits, decide_eq_true_iff, ne_eq, unpackExponent_eq_iff, unpackMantissa_eq_iff]
  unfold fractionField infinity signWeight
  omega

end Fields

/-! ## Patterns and values -/

/-- A value keeps the word that it was made of, unless that word stands for no
number. -/
theorem toBits_ofBits {word : UInt64} (h : word.toNat % signWeight ≤ infinity) :
    (Float.ofBits word).toBits = word := by
  have hpack : (Float.ofBits word).toBits.toBitVec =
      pack Format.binary64 (unpack Format.binary64 word.toBitVec) := rfl
  rw [pack_unpack, if_neg (mt (isNaNBits_iff word).1 (by omega))] at hpack
  exact UInt64.toBitVec_inj.1 hpack

section OfPattern

variable {p : Nat} (hp : p ≤ infinity)
include hp

theorem toNat_toBits_ofPattern : (ofPattern p).toBits.toNat = p := by
  have hword : (UInt64.ofNat p).toNat = p := by
    rw [UInt64.toNat_ofNat']
    unfold infinity at hp
    omega
  have hmod : p % signWeight = p := by
    unfold infinity signWeight at *
    omega
  rw [ofPattern, toBits_ofBits (by rw [hword, hmod]; exact hp), hword]

theorem pattern_ofPattern : pattern (ofPattern p) = p := by
  rw [pattern, toNat_toBits_ofPattern hp]
  unfold infinity signWeight at *
  omega

theorem signBit_ofPattern : signBit (ofPattern p) = false := by
  rw [signBit, toNat_toBits_ofPattern hp]
  unfold infinity signWeight at *
  exact decide_eq_false (by omega)

end OfPattern

/-- A value without a sign is the one of its pattern. -/
theorem ofPattern_pattern {x : Float} (h : signBit x = false) : ofPattern (pattern x) = x := by
  rw [signBit, decide_eq_false_iff_not, not_le] at h
  rw [ofPattern, pattern, Nat.mod_eq_of_lt h, UInt64.ofNat_toNat, Float.ofBits_toBits]

theorem isFinite_unpack_iff (bits : BitVec Format.binary64.numBits) :
    isFinite (unpack Format.binary64 bits) = true ↔
      unpackExponent bits ≠ -1#(Format.binary64.exponentBits) := by
  fun_cases unpack <;> simp_all +zetaDelta [isFinite]

/-- The finite values are those with a pattern below infinity. -/
theorem isFinite_iff (x : Float) : x.isFinite = true ↔ pattern x < infinity := by
  have hunpack : x.isFinite = isFinite (unpack Format.binary64 x.toBits.toBitVec) := rfl
  rw [hunpack, isFinite_unpack_iff, pattern, ← not_le, ← unpackExponent_eq_iff]

/-! ## Negation -/

/-- Negation changes the sign and keeps the other two fields. -/
theorem neg_unpack (bits : BitVec Format.binary64.numBits) :
    neg (unpack Format.binary64 bits) =
      unpack Format.binary64
        (packComponents Format.binary64 (-(Sign.ofBitVec (unpackSign bits)))
          (unpackExponent bits) (unpackMantissa bits)) := by
  unfold unpack
  simp only [unpackSign_packComponents, unpackExponent_packComponents,
    unpackMantissa_packComponents, Sign.ofBitVec_toBitVec]
  split_ifs <;> rfl

theorem toNat_toBitVec_neg (bit : BitVec 1) :
    (-(Sign.ofBitVec bit)).toBitVec.toNat = 1 - bit.toNat := by
  revert bit
  decide

section Neg

variable {x : Float} (h : pattern x ≤ infinity)
include h

theorem toBits_neg :
    (-x).toBits.toBitVec =
      packComponents Format.binary64
        (-(Sign.ofBitVec (@unpackSign Format.binary64 x.toBits.toBitVec)))
        (@unpackExponent Format.binary64 x.toBits.toBitVec)
        (@unpackMantissa Format.binary64 x.toBits.toBitVec) := by
  have hpack : (-x).toBits.toBitVec =
      pack Format.binary64 (neg (unpack Format.binary64 x.toBits.toBitVec)) := rfl
  have hnan := mt (isNaNBits_iff x.toBits).1 (not_lt.2 h)
  rw [neg_unpack, pack_unpack, if_neg] at hpack
  · exact hpack
  · rw [isNaNBits] at hnan ⊢
    rw [unpackExponent_packComponents, unpackMantissa_packComponents]
    exact hnan

theorem pattern_neg : pattern (-x) = pattern x := by
  have hexponent := toNat_unpackExponent (-x).toBits
  have hmantissa := toNat_unpackMantissa (-x).toBits
  rw [toBits_neg h, unpackExponent_packComponents, toNat_unpackExponent] at hexponent
  rw [toBits_neg h, unpackMantissa_packComponents, toNat_unpackMantissa] at hmantissa
  unfold exponentField at hexponent
  unfold fractionField at hmantissa
  unfold pattern
  omega

theorem signBit_neg : signBit (-x) = !signBit x := by
  have hsign := toNat_unpackSign (-x).toBits
  rw [toBits_neg h, unpackSign_packComponents, toNat_toBitVec_neg, toNat_unpackSign] at hsign
  have hword : x.toBits.toNat < 2 ^ 64 := x.toBits.toNat_lt
  have hword' : (-x).toBits.toNat < 2 ^ 64 := (-x).toBits.toNat_lt
  rw [signBit, signBit, ← decide_not, decide_eq_decide]
  unfold signWeight at *
  omega

end Neg

end InfixArith.Binary64
