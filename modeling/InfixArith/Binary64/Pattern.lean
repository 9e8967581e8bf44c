/-!
# Binary64 patterns

The sign of a binary64 value is one bit, and the 63 bits below it are its
magnitude.  A *pattern* is those 63 bits read as a number.  The order of the
patterns is the order of the magnitudes, and the pattern after the finite
ones is infinity.

All magnitudes are whole multiples of `2 ^ -1074`, the least positive one.
`units` counts that unit, so everything about magnitudes can be said in
natural numbers.  `units_succ` gives the distance to the next pattern.

`units` goes on above the finite patterns as if the range of exponents had
no end.  It gives infinity the magnitude `2 ^ 1024`, which is the number
that decides where rounding overflows.
-/

namespace InfixArith.Binary64

/-- The weight of the sign bit, one more than the greatest pattern. -/
def signWeight : Nat :=
  0x8000000000000000

/-- The weight of the hidden bit of a significand, `2 ^ 52`. -/
def hiddenBit : Nat :=
  0x10000000000000

/-- The pattern of infinity. -/
def infinity : Nat :=
  0x7ff0000000000000

/-- The number of units in the number one. -/
def unitsPerOne : Nat :=
  1 <<< 1074

/-- The significand of a pattern.  The patterns below `hiddenBit` are zero
and the subnormal numbers, and they lack that bit. -/
def significand (pattern : Nat) : Nat :=
  if pattern < hiddenBit then pattern else hiddenBit + pattern % hiddenBit

/-- The number of places that the significand is shifted by.  The subnormal
numbers share theirs with the least normal ones. -/
def exponent (pattern : Nat) : Nat :=
  pattern / hiddenBit - 1

/-- The magnitude of a pattern in units. -/
def units (pattern : Nat) : Nat :=
  significand pattern <<< exponent pattern

/-- One more in front of a shift is one step of the shift more. -/
theorem add_one_shiftLeft (m e : Nat) : (m + 1) <<< e = m <<< e + 1 <<< e := by
  rw [Nat.shiftLeft_eq, Nat.shiftLeft_eq, Nat.shiftLeft_eq, Nat.add_mul]

/-- Inside a binade the significand counts on, and the exponent stays. -/
theorem succ_inside {pattern : Nat}
    (h : (pattern + 1) % hiddenBit ≠ 0 ∨ pattern < hiddenBit) :
    significand (pattern + 1) = significand pattern + 1 ∧
      exponent (pattern + 1) = exponent pattern := by
  unfold significand exponent hiddenBit at *
  refine ⟨?_, by omega⟩
  split <;> split <;> omega

/-- At the end of a binade the significand starts over, and the exponent
counts on. -/
theorem succ_across {pattern : Nat}
    (h : (pattern + 1) % hiddenBit = 0) (hle : hiddenBit ≤ pattern) :
    2 * significand (pattern + 1) = significand pattern + 1 ∧
      exponent (pattern + 1) = exponent pattern + 1 := by
  unfold significand exponent hiddenBit at *
  refine ⟨?_, by omega⟩
  split <;> split <;> omega

/-- The next pattern is one step of the significand further. -/
theorem units_succ (pattern : Nat) :
    units (pattern + 1) = units pattern + 1 <<< exponent pattern := by
  unfold units
  rw [← add_one_shiftLeft]
  by_cases h : (pattern + 1) % hiddenBit = 0 ∧ hiddenBit ≤ pattern
  · obtain ⟨hs, he⟩ := succ_across h.1 h.2
    rw [he, ← hs, Nat.shiftLeft_succ, Nat.shiftLeft_eq, Nat.shiftLeft_eq, Nat.mul_assoc]
  · obtain ⟨hs, he⟩ := succ_inside
      (show (pattern + 1) % hiddenBit ≠ 0 ∨ pattern < hiddenBit by omega)
    rw [hs, he]

/-- Patterns are ordered as their magnitudes. -/
theorem units_lt_units {p q : Nat} (h : p < q) : units p < units q := by
  induction q with
  | zero => omega
  | succ q ih =>
    have hstep : 0 < 1 <<< exponent q := by
      rw [Nat.shiftLeft_eq, Nat.one_mul]
      exact Nat.two_pow_pos _
    rw [units_succ]
    rcases Nat.lt_or_eq_of_le (Nat.lt_succ_iff.1 h) with hlt | rfl
    · have := ih hlt
      omega
    · omega

end InfixArith.Binary64
