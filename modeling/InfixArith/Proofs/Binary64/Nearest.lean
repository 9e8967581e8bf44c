import InfixArith.Proofs.Binary64.Cells
import InfixArith.Proofs.PlainDecimal
import Mathlib

/-!
# `nearest` rounds to nearest

`nearest` counts the steps in a quotient of units.  `stepExponent_spec` says
which step it takes, `units_of_step` which magnitude the counted pattern has,
and `inCell_stepPattern` puts the quotient into the cell of that pattern.

The results are `roundsTo_iff_eq_nearest` for one quotient, and `nearest_mono`
for two.  Nothing in them asks for a bound on the numerator or the
denominator.  `roundsTo_iff_eq_ofDecimal` and `ofDecimal_mono` are the same for
decimals.
-/

namespace InfixArith.Binary64

/-! ## Rounding a quotient to a natural number -/

/-- A quotient halfway between two natural numbers is rounded to the even
one. -/
theorem roundHalfEven_even_of_tie (num : Nat) {den : Nat} (hden : 0 < den)
    (h : 2 * num = 2 * (roundHalfEven num den * den) + den ∨
      2 * (roundHalfEven num den * den) = 2 * num + den) :
    roundHalfEven num den % 2 = 0 := by
  have hdiv : num / den * den + num % den = num := Nat.div_add_mod' num den
  have hmod : num % den < den := Nat.mod_lt num hden
  have hnext : (num / den + 1) * den = num / den * den + den := Nat.succ_mul _ _
  unfold roundHalfEven at h ⊢
  simp only at h ⊢
  by_cases hlow : 2 * (num % den) < den
  · rw [if_pos hlow] at h
    omega
  · by_cases hhigh : den < 2 * (num % den)
    · rw [if_neg hlow, if_pos hhigh, hnext] at h
      omega
    · rw [if_neg hlow, if_neg hhigh]
      omega

/-- A natural number that is not above a quotient is not above the rounded
quotient. -/
theorem le_roundHalfEven {n num den : Nat} (hden : 0 < den) (h : n * den ≤ num) :
    n ≤ roundHalfEven num den := by
  have hle : n ≤ num / den := (Nat.le_div_iff_mul_le hden).2 h
  unfold roundHalfEven
  simp only
  split
  · exact hle
  · split <;> omega

theorem roundHalfEven_le {n num den : Nat} (hden : 0 < den) (h : num ≤ n * den) :
    roundHalfEven num den ≤ n := by
  have hnear := (roundHalfEven_near num hden).2
  by_contra hlt
  have hnext : (n + 1) * den ≤ roundHalfEven num den * den := Nat.mul_le_mul_right den (by omega)
  rw [Nat.succ_mul] at hnext
  omega

/-! ## Steps -/

section Step

variable {e m : Nat}

/-- The pattern of `m` steps with the exponent `e` has that magnitude.  At
`m = 2 ^ 53` it is the first pattern of the next binade. -/
theorem units_of_step (hhigh : m ≤ 2 ^ 53) (hlow : e = 0 ∨ 2 ^ 52 ≤ m) :
    units (e * hiddenBit + m) = m * 2 ^ e := by
  by_cases hfull : m = 2 ^ 53
  · have hsignificand : significand (e * hiddenBit + m) = 2 ^ 52 := by
      unfold significand hiddenBit
      split <;> omega
    have hexponent : exponent (e * hiddenBit + m) = e + 1 := by
      unfold exponent hiddenBit
      omega
    rw [units, hsignificand, hexponent, hfull, Nat.shiftLeft_eq, pow_succ]
    omega
  · have hsignificand : significand (e * hiddenBit + m) = m := by
      unfold significand hiddenBit
      split <;> omega
    have hexponent : exponent (e * hiddenBit + m) = e := by
      unfold exponent hiddenBit
      omega
    rw [units, hsignificand, hexponent, Nat.shiftLeft_eq]

/-- The next pattern is a step further, or more. -/
theorem add_step_le_units_succ (hlow : e = 0 ∨ 2 ^ 52 ≤ m) :
    units (e * hiddenBit + m) + 2 ^ e ≤ units (e * hiddenBit + m + 1) := by
  have he : e ≤ exponent (e * hiddenBit + m) := by
    unfold exponent hiddenBit
    omega
  rw [units_succ, Nat.one_shiftLeft]
  exact Nat.add_le_add_left (Nat.pow_le_pow_right two_pos he) _

/-- The pattern before is a step back, or more, except at the start of a
binade. -/
theorem units_add_step_le {before : Nat} (hlow : e = 0 ∨ 2 ^ 52 ≤ m)
    (h : e * hiddenBit + m = before + 1) :
    units before + 2 ^ e ≤ units (before + 1) ∨ (e ≠ 0 ∧ m = 2 ^ 52) := by
  by_cases he : e ≤ exponent before
  · rw [units_succ, Nat.one_shiftLeft]
    exact .inl (Nat.add_le_add_left (Nat.pow_le_pow_right two_pos he) _)
  · unfold exponent hiddenBit at *
    exact .inr (by omega)

end Step

/-! ## The steps in a quotient -/

/-- The exponent of the step that the patterns have around a quotient. -/
def stepExponent (num den : Nat) : Nat :=
  (num * unitsPerOne / den).log2 - 52

/-- The number of steps in a quotient, rounded. -/
def stepCount (num den : Nat) : Nat :=
  roundHalfEven (num * unitsPerOne) (den <<< stepExponent num den)

/-- The pattern that has the counted steps, with no regard to the range. -/
def stepPattern (num den : Nat) : Nat :=
  stepExponent num den * hiddenBit + stepCount num den

theorem nearest_eq_min (num den : Nat) :
    nearest num den = min infinity (stepPattern num den) :=
  rfl

theorem stepPattern_mod_two (num den : Nat) :
    stepPattern num den % 2 = stepCount num den % 2 := by
  unfold stepPattern hiddenBit
  omega

section Quotient

variable (num : Nat) {den : Nat} (hden : 0 < den)
include hden

/-- There are fewer than `2 ^ 53` steps, and at least `2 ^ 52` unless the step
is the least one. -/
theorem stepExponent_spec :
    num * unitsPerOne < 2 ^ 53 * (den <<< stepExponent num den) ∧
      (stepExponent num den = 0 ∨
        2 ^ 52 * (den <<< stepExponent num den) ≤ num * unitsPerOne) := by
  unfold stepExponent
  generalize num * unitsPerOne = scaled
  have hlt : scaled / den < 2 ^ ((scaled / den).log2 + 1) := Nat.lt_log2_self
  have hle : scaled / den ≠ 0 → 2 ^ (scaled / den).log2 ≤ scaled / den := Nat.log2_self_le
  generalize hlog : (scaled / den).log2 = log at *
  have hsteps : ∀ k, 2 ^ k * (den <<< (log - 52)) = 2 ^ (k + (log - 52)) * den := by
    intro k
    rw [Nat.shiftLeft_eq, pow_add, mul_left_comm, mul_comm]
  rw [hsteps, hsteps]
  constructor
  · have hwide : 2 ^ (log + 1) ≤ 2 ^ (53 + (log - 52)) :=
      Nat.pow_le_pow_right two_pos (by omega)
    exact (Nat.div_lt_iff_lt_mul hden).1 (Nat.lt_of_lt_of_le hlt hwide)
  · by_cases hsmall : log ≤ 52
    · exact .inl (by omega)
    · have hne : scaled / den ≠ 0 := by
        intro hzero
        rw [hzero, Nat.log2_zero] at hlog
        omega
      have hexact : 52 + (log - 52) = log := by omega
      rw [hexact]
      exact .inr ((Nat.le_div_iff_mul_le hden).1 (hle hne))

theorem step_pos : 0 < den <<< stepExponent num den := by
  rw [Nat.shiftLeft_eq]
  exact Nat.mul_pos hden (Nat.two_pow_pos _)

theorem stepCount_le : stepCount num den ≤ 2 ^ 53 :=
  roundHalfEven_le (step_pos num hden) (stepExponent_spec num hden).1.le

theorem le_stepCount : stepExponent num den = 0 ∨ 2 ^ 52 ≤ stepCount num den :=
  (stepExponent_spec num hden).2.imp_right (le_roundHalfEven (step_pos num hden))

/-- The pattern has the magnitude that was counted. -/
theorem units_stepPattern_mul :
    units (stepPattern num den) * den = stepCount num den * (den <<< stepExponent num den) := by
  rw [stepPattern, units_of_step (stepCount_le num hden) (le_stepCount num hden),
    Nat.shiftLeft_eq, Nat.mul_assoc, Nat.mul_comm (2 ^ _)]

/-- The quotient is not above the point halfway to the next pattern. -/
theorem scaled_le_units_stepPattern :
    2 * (num * unitsPerOne) ≤
        (units (stepPattern num den) + units (stepPattern num den + 1)) * den ∧
      (2 * (num * unitsPerOne) =
          (units (stepPattern num den) + units (stepPattern num den + 1)) * den →
        stepPattern num den % 2 = 0) := by
  have hnear := (roundHalfEven_near (num * unitsPerOne) (step_pos num hden)).1
  have htie := roundHalfEven_even_of_tie (num * unitsPerOne) (step_pos num hden)
  have hstep := Nat.mul_le_mul_right den (add_step_le_units_succ (le_stepCount num hden))
  rw [← stepCount] at hnear htie
  rw [← stepPattern] at hstep
  rw [Nat.add_mul, Nat.mul_comm (2 ^ _), ← Nat.shiftLeft_eq] at hstep
  rw [Nat.add_mul, Nat.mul_assoc, Nat.one_mul] at hnear
  rw [Nat.add_mul, stepPattern_mod_two]
  have hcount := units_stepPattern_mul num hden
  refine ⟨by omega, ?_⟩
  intro hend
  exact htie (.inl (by omega))

/-- The quotient is not below the point halfway to the pattern before.  At the
start of a binade that point is near, but there the quotient is not even below
the pattern. -/
theorem units_stepPattern_le_scaled {before : Nat} (hbefore : stepPattern num den = before + 1) :
    (units before + units (before + 1)) * den ≤ 2 * (num * unitsPerOne) ∧
      ((units before + units (before + 1)) * den = 2 * (num * unitsPerOne) →
        stepPattern num den % 2 = 0) := by
  have hnear := (roundHalfEven_near (num * unitsPerOne) (step_pos num hden)).2
  have htie := roundHalfEven_even_of_tie (num * unitsPerOne) (step_pos num hden)
  have hcount := units_stepPattern_mul num hden
  rw [← stepCount] at hnear htie
  rw [hbefore] at hcount
  rw [Nat.add_mul, stepPattern_mod_two]
  rcases units_add_step_le (le_stepCount num hden) hbefore with hstep | ⟨he, hm⟩
  · have hstepDen := Nat.mul_le_mul_right den hstep
    rw [Nat.add_mul, Nat.mul_comm (2 ^ _), ← Nat.shiftLeft_eq] at hstepDen
    refine ⟨by omega, ?_⟩
    intro hend
    exact htie (.inr (by omega))
  · have hmany := (stepExponent_spec num hden).2.resolve_left he
    rw [← hm, ← hcount] at hmany
    have hlt : units before * den < units (before + 1) * den :=
      Nat.mul_lt_mul_of_pos_right (units_lt_units (Nat.lt_succ_self before)) hden
    exact ⟨by omega, by omega⟩

/-- The quotient is in the cell of the pattern. -/
theorem inCell_stepPattern : InCell ((num : ℚ) / den) (stepPattern num den) := by
  obtain ⟨hle, heven⟩ := scaled_le_units_stepPattern num hden
  refine ⟨(div_le_halfway_iff hden).2 hle, ?_, ?_, ?_⟩
  · intro hend
    exact heven (Nat.le_antisymm hle ((halfway_le_div_iff hden).1 hend.ge))
  · intro before hbefore
    exact (halfway_le_div_iff hden).2 (units_stepPattern_le_scaled num hden hbefore).1
  · intro before hbefore hend
    obtain ⟨hge, heven'⟩ := units_stepPattern_le_scaled num hden hbefore
    exact heven' (Nat.le_antisymm hge ((div_le_halfway_iff hden).1 hend.ge))

/-! ## Results -/

/-- The result of `nearest` is the one that rounding asks for, and the only
one. -/
theorem roundsTo_iff_eq_nearest {pattern : Nat} :
    RoundsTo ((num : ℚ) / den) pattern ↔ pattern = nearest num den := by
  rw [nearest_eq_min]
  exact (inCell_stepPattern num hden).roundsTo_iff

/-- All numbers in the cell of a pattern are rounded to it. -/
theorem nearest_eq_of_inCell {pattern : Nat} (h : InCell ((num : ℚ) / den) pattern)
    (hpattern : pattern ≤ infinity) : nearest num den = pattern := by
  rw [nearest_eq_min, (inCell_stepPattern num hden).eq h, Nat.min_eq_right hpattern]

/-- A larger quotient is never rounded to a smaller pattern. -/
theorem nearest_mono {num' den' : Nat} (hden' : 0 < den')
    (h : (num : ℚ) / den ≤ (num' : ℚ) / den') : nearest num den ≤ nearest num' den' := by
  rw [nearest_eq_min, nearest_eq_min]
  exact min_le_min_left infinity
    ((inCell_stepPattern num hden).le_of_le (inCell_stepPattern num' hden') h)

end Quotient

/-! ## Decimals -/

theorem toRat_eq_div (d : Decimal) : d.toRat = (d.coefficient : ℚ) / powerOfTen d.places := by
  rw [Decimal.toRat, powerOfTen, Nat.pow_eq, Nat.cast_pow, Nat.cast_ofNat]

/-- A decimal is converted to the pattern that it rounds to. -/
theorem roundsTo_iff_eq_ofDecimal {d : Decimal} {pattern : Nat} :
    RoundsTo d.toRat pattern ↔ pattern = ofDecimal d := by
  rw [toRat_eq_div]
  exact roundsTo_iff_eq_nearest d.coefficient (powerOfTen_pos d.places)

theorem ofDecimal_le_infinity (d : Decimal) : ofDecimal d ≤ infinity :=
  nearest_le_infinity _ _

theorem ofDecimal_mono {d e : Decimal} (h : d.toRat ≤ e.toRat) : ofDecimal d ≤ ofDecimal e := by
  rw [toRat_eq_div, toRat_eq_div] at h
  exact nearest_mono d.coefficient (powerOfTen_pos d.places) (powerOfTen_pos e.places) h

theorem ofDecimal_congr {d e : Decimal} (h : d.toRat = e.toRat) : ofDecimal d = ofDecimal e :=
  le_antisymm (ofDecimal_mono h.le) (ofDecimal_mono h.ge)

section Cell

variable {d : Decimal} {pattern : Nat} (hpattern : pattern ≤ infinity)
include hpattern

theorem ofDecimal_eq_of_inCell (h : InCell d.toRat pattern) : ofDecimal d = pattern := by
  rw [toRat_eq_div] at h
  exact nearest_eq_of_inCell d.coefficient (powerOfTen_pos d.places) h hpattern

/-- A magnitude is rounded to its own pattern. -/
theorem nearest_units : nearest (units pattern) unitsPerOne = pattern := by
  have hcell := inCell_magnitude pattern
  rw [magnitude_eq] at hcell
  exact nearest_eq_of_inCell (units pattern) unitsPerOne_pos hcell hpattern

theorem ofDecimal_le (h : d.toRat ≤ magnitude pattern) : ofDecimal d ≤ pattern := by
  rw [toRat_eq_div, magnitude_eq] at h
  have hmono := nearest_mono d.coefficient (powerOfTen_pos d.places) unitsPerOne_pos h
  exact hmono.trans_eq (nearest_units hpattern)

theorem le_ofDecimal (h : magnitude pattern ≤ d.toRat) : pattern ≤ ofDecimal d := by
  rw [toRat_eq_div, magnitude_eq] at h
  have hmono := nearest_mono (units pattern) unitsPerOne_pos (powerOfTen_pos d.places) h
  exact (nearest_units hpattern).ge.trans hmono

end Cell

end InfixArith.Binary64
