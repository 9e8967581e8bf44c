import InfixArith.Binary64.Rounding

/-!
# Shortest decimals

`shortest pattern` is the decimal with the fewest digits that rounds to a
finite pattern, and of those the one nearest to the magnitude.  An exact tie
goes to the larger one.

The search looks at grids.  Grid `t` holds the multiples of
`10 ^ t * 10 ^ -324`, so a coarser grid writes fewer digits.  If any point
of a grid rounds to the pattern, one of the two points around the magnitude
does, and those are the two that `pointOn?` tries.  The search starts at the
grid that has the whole magnitude between its first two points and goes
down.  It ends on grid zero at the latest, because that grid is finer than
the patterns are.
-/

namespace InfixArith.Binary64

/-- The number of places on the finest grid. -/
def finestPlaces : Nat :=
  324

/-- The decimal of point `j` of grid `t`. -/
def gridPoint (j t : Nat) : Decimal :=
  ⟨j * powerOfTen (t - finestPlaces), finestPlaces - t⟩

/-- Whether a decimal rounds to the pattern. -/
def readsAs (d : Decimal) (pattern : Nat) : Bool :=
  ofDecimal d == pattern

/-- The magnitude of a pattern in points of grid zero, times
`unitsPerOne`. -/
def scaledMagnitude (pattern : Nat) : Nat :=
  units pattern * powerOfTen finestPlaces

/-- The point of grid `t` that stands for the pattern, if one does.  The
candidates are the points below and above the magnitude.  Where both round
to the pattern, the nearer one is taken, and the upper one if they are
equally near. -/
def pointOn? (pattern t : Nat) : Option Decimal :=
  let step := unitsPerOne * powerOfTen t
  let below := gridPoint (scaledMagnitude pattern / step) t
  let above := gridPoint (scaledMagnitude pattern / step + 1) t
  if readsAs below pattern &&
      (2 * (scaledMagnitude pattern % step) < step || !readsAs above pattern) then
    some below
  else if readsAs above pattern then
    some above
  else
    none

/-- The point of the coarsest grid from `t` down that stands for the
pattern. -/
def shortestFrom (pattern : Nat) : (t : Nat) → Decimal
  | 0 => (pointOn? pattern 0).getD (gridPoint (scaledMagnitude pattern / unitsPerOne) 0)
  | t + 1 => (pointOn? pattern (t + 1)).getD (shortestFrom pattern t)

/-- The number of digits of a natural number. -/
def digitCount (n : Nat) : Nat :=
  (Nat.toDigits 10 n).length

/-- The shortest decimal that rounds to a finite pattern. -/
def shortest (pattern : Nat) : Decimal :=
  if pattern = 0 then
    ⟨0, 0⟩
  else
    shortestFrom pattern (digitCount (scaledMagnitude pattern / unitsPerOne))

/-- A point that was found rounds to the pattern. -/
theorem ofDecimal_of_pointOn? {pattern t : Nat} {d : Decimal}
    (h : pointOn? pattern t = some d) : ofDecimal d = pattern := by
  unfold pointOn? at h
  simp only at h
  split at h
  · rename_i hb
    rw [Bool.and_eq_true] at hb
    exact Option.some.inj h ▸ beq_iff_eq.1 hb.1
  · split at h
    · rename_i ha
      exact Option.some.inj h ▸ beq_iff_eq.1 ha
    · cases h

end InfixArith.Binary64
