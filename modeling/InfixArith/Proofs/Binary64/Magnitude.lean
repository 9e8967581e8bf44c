import InfixArith.Binary64.Rounding
import Mathlib

/-!
# Magnitudes

`magnitude` is the rational number that a pattern stands for, read off its
two fields.  It does not look at `units`, which counts the same number in
natural numbers, and `magnitude_eq` relates the two.

`halfway` is the number in the middle between a pattern and the next one.
Both grow with the pattern, and the last number before overflow is
`halfway_last`.
-/

namespace InfixArith.Binary64

/-! ## Fields -/

/-- The exponent field of a pattern. -/
def exponentField (pattern : Nat) : Nat :=
  pattern / 2 ^ 52

/-- The fraction field of a pattern, its lower 52 bits. -/
def fractionField (pattern : Nat) : Nat :=
  pattern % 2 ^ 52

/-- The number that a pattern stands for.  The exponent field zero marks zero
and the subnormal numbers.  All others have a one in front of the fraction. -/
def magnitude (pattern : Nat) : ℚ :=
  if exponentField pattern = 0 then
    fractionField pattern * 2 ^ (-1074 : ℤ)
  else
    (2 ^ 52 + fractionField pattern) * 2 ^ ((exponentField pattern : ℤ) - 1075)

/-- The significand is the fraction, with the hidden bit where there is one. -/
theorem significand_eq (pattern : Nat) :
    significand pattern =
      if exponentField pattern = 0 then fractionField pattern
      else 2 ^ 52 + fractionField pattern := by
  unfold significand exponentField fractionField hiddenBit
  split <;> split <;> omega

/-- A pattern is as even as its significand. -/
theorem significand_mod_two (pattern : Nat) : significand pattern % 2 = pattern % 2 := by
  unfold significand hiddenBit
  split <;> omega

/-! ## Counting in units -/

/-- Quotients of natural numbers are compared by products. -/
theorem natCast_div_le_iff {a b c d : Nat} (hb : 0 < b) (hd : 0 < d) :
    (a : ℚ) / b ≤ (c : ℚ) / d ↔ a * d ≤ c * b := by
  rw [div_le_div_iff₀ (Nat.cast_pos.2 hb) (Nat.cast_pos.2 hd), ← Nat.cast_mul, ← Nat.cast_mul,
    Nat.cast_le]

theorem cast_unitsPerOne : (unitsPerOne : ℚ) = 2 ^ 1074 := by
  have hshift : ∀ n : Nat, ((1 <<< n : Nat) : ℚ) = 2 ^ n := by
    intro n
    rw [Nat.one_shiftLeft, Nat.cast_pow, Nat.cast_ofNat]
  exact hshift 1074

theorem cast_unitsPerOne_pos : 0 < (unitsPerOne : ℚ) := by
  rw [cast_unitsPerOne]
  exact pow_pos two_pos 1074

theorem unitsPerOne_pos : 0 < unitsPerOne :=
  Nat.cast_pos.1 cast_unitsPerOne_pos

/-- The magnitude is counted by the units. -/
theorem magnitude_eq (pattern : Nat) : magnitude pattern = units pattern / unitsPerOne := by
  have hexponent : exponent pattern = exponentField pattern - 1 := rfl
  rw [magnitude, units, significand_eq, Nat.shiftLeft_eq, hexponent, cast_unitsPerOne]
  by_cases hfield : exponentField pattern = 0
  · have hleast : (-1074 : ℤ) = -(1074 : ℕ) := rfl
    rw [if_pos hfield, if_pos hfield, hfield, hleast, zpow_neg, zpow_natCast, ← div_eq_mul_inv]
    simp
  · have hshift : (exponentField pattern : ℤ) - 1075 =
        (exponentField pattern - 1 : ℕ) - (1074 : ℕ) := by
      omega
    rw [if_neg hfield, if_neg hfield, hshift, zpow_sub₀ two_ne_zero, zpow_natCast, zpow_natCast,
      ← mul_div_assoc]
    simp only [Nat.cast_mul, Nat.cast_add, Nat.cast_pow, Nat.cast_ofNat]

theorem strictMono_magnitude : StrictMono magnitude := by
  intro p q hpq
  have hunits : (units p : ℚ) < units q := Nat.cast_lt.2 (units_lt_units hpq)
  rw [magnitude_eq, magnitude_eq]
  exact div_lt_div_of_pos_right hunits cast_unitsPerOne_pos

/-! ## Halfway points -/

/-- The number halfway between a pattern and the next one. -/
def halfway (pattern : Nat) : ℚ :=
  (magnitude pattern + magnitude (pattern + 1)) / 2

theorem strictMono_halfway : StrictMono halfway := by
  intro p q hpq
  have hlow : magnitude p < magnitude q := strictMono_magnitude hpq
  have hhigh : magnitude (p + 1) < magnitude (q + 1) :=
    strictMono_magnitude (Nat.add_lt_add_right hpq 1)
  unfold halfway
  linarith

theorem halfway_eq (pattern : Nat) :
    halfway pattern =
      ((units pattern + units (pattern + 1) : ℕ) : ℚ) / ((2 * unitsPerOne : ℕ) : ℚ) := by
  rw [halfway, magnitude_eq, magnitude_eq, ← add_div, div_div, Nat.cast_add, Nat.cast_mul,
    Nat.cast_two, mul_comm (2 : ℚ)]

section Compare

variable {num den pattern : Nat} (hden : 0 < den)
include hden

/-- A halfway point is compared with a quotient in units. -/
theorem halfway_le_div_iff :
    halfway pattern ≤ (num : ℚ) / den ↔
      (units pattern + units (pattern + 1)) * den ≤ 2 * (num * unitsPerOne) := by
  rw [halfway_eq, natCast_div_le_iff (Nat.mul_pos two_pos unitsPerOne_pos) hden,
    Nat.mul_left_comm num]

theorem div_le_halfway_iff :
    (num : ℚ) / den ≤ halfway pattern ↔
      2 * (num * unitsPerOne) ≤ (units pattern + units (pattern + 1)) * den := by
  rw [halfway_eq, natCast_div_le_iff hden (Nat.mul_pos two_pos unitsPerOne_pos),
    Nat.mul_left_comm num]

end Compare

/-! ## The end of the range -/

/-- The greatest finite magnitude. -/
theorem magnitude_last : magnitude (infinity - 1) = (2 ^ 53 - 1) * 2 ^ 971 := by
  have hexponent : exponentField (infinity - 1) = 2046 := rfl
  have hfraction : fractionField (infinity - 1) = 2 ^ 52 - 1 := rfl
  rw [magnitude, hexponent, hfraction]
  norm_num

/-- The pattern of infinity goes on counting after the last finite one. -/
theorem magnitude_infinity : magnitude infinity = 2 ^ 1024 := by
  have hexponent : exponentField infinity = 2047 := rfl
  have hfraction : fractionField infinity = 0 := rfl
  have hwide : (2 : ℚ) ^ 1024 = 2 ^ 52 * 2 ^ 972 := by rw [← pow_add]
  rw [magnitude, hexponent, hfraction, hwide]
  norm_num

/-- The point halfway from the last finite pattern to infinity. -/
theorem halfway_last : halfway (infinity - 1) = 2 ^ 1024 - 2 ^ 970 := by
  have hnext : infinity - 1 + 1 = infinity := rfl
  have hwide : (2 : ℚ) ^ 1024 = 2 ^ 54 * 2 ^ 970 := by rw [← pow_add]
  have hunit : (2 : ℚ) ^ 971 = 2 * 2 ^ 970 := pow_succ' 2 970
  rw [halfway, hnext, magnitude_last, magnitude_infinity, hwide, hunit]
  generalize (2 : ℚ) ^ 970 = unit
  ring

end InfixArith.Binary64
