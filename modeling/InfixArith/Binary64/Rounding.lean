import InfixArith.Binary64.Pattern
import InfixArith.Decimal

/-!
# Rounding to binary64

`nearest num den` is the pattern of the magnitude that is nearest to
`num / den`.  Of two that are equally near, it is the one with the even
pattern, and so the one with the even significand.  All of it is done in
natural numbers, so no length of a numerator or denominator is too much.

The work is one division.  `nearest` finds the step that the patterns have
around the quotient, and counts the steps in the quotient with
`roundHalfEven`.  A count that reaches the next power of two needs no care:
the first pattern of the next step has the same magnitude, and the pattern
that the sum gives is that one.
-/

namespace InfixArith.Binary64

/-- The natural number nearest to `num / den`, and the even one of two that
are equally near. -/
def roundHalfEven (num den : Nat) : Nat :=
  let quotient := num / den
  let remainder := num % den
  if 2 * remainder < den then quotient
  else if den < 2 * remainder then quotient + 1
  else quotient + quotient % 2

/-- The pattern of the magnitude nearest to `num / den`. -/
def nearest (num den : Nat) : Nat :=
  let scaled := num * unitsPerOne
  let shift := (scaled / den).log2 - 52
  min infinity (shift * hiddenBit + roundHalfEven scaled (den <<< shift))

/-- The pattern of the magnitude nearest to a decimal. -/
def ofDecimal (d : Decimal) : Nat :=
  nearest d.coefficient (powerOfTen d.places)

/-- No rounding goes beyond infinity. -/
theorem nearest_le_infinity (num den : Nat) : nearest num den ≤ infinity :=
  Nat.min_le_left _ _

/-- The rounded quotient is at most half a step away from the quotient. -/
theorem roundHalfEven_near (num : Nat) {den : Nat} (h : 0 < den) :
    2 * num ≤ (2 * roundHalfEven num den + 1) * den ∧
      2 * (roundHalfEven num den * den) ≤ 2 * num + den := by
  have hdiv : den * (num / den) + num % den = num := Nat.div_add_mod num den
  have hmod : num % den < den := Nat.mod_lt num h
  have hstep : ∀ q : Nat, (2 * q + 1) * den = 2 * (den * q) + den := by
    intro q
    rw [Nat.add_mul, Nat.one_mul, Nat.mul_assoc, Nat.mul_comm q den]
  have hnext : den * (num / den + 1) = den * (num / den) + den := Nat.mul_succ _ _
  unfold roundHalfEven
  simp only
  split
  · rw [hstep, Nat.mul_comm (num / den) den]
    omega
  · split
    · rw [hstep, Nat.mul_comm (num / den + 1) den, hnext]
      omega
    · have hcases : num / den + num / den % 2 = num / den ∨
          num / den + num / den % 2 = num / den + 1 := by
        omega
      rcases hcases with hq | hq
      · rw [hq, hstep, Nat.mul_comm (num / den) den]
        omega
      · rw [hq, hstep, Nat.mul_comm (num / den + 1) den, hnext]
        omega

end InfixArith.Binary64
