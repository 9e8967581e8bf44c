import InfixArith.Binary64.Shortest
import InfixArith.Proofs.Binary64.Nearest
import Mathlib

/-!
# Grids

The search for the shortest decimal of a pattern goes down from a coarse grid
to a fine one.  It tries two points of each grid, the two around the magnitude.
`exists_pointOn?` says that it misses no grid by that: if any point rounds to the
pattern, then one of the two does, because rounding keeps the order.  And
`pointOn?_nearest` says that no other point of the grid would have been nearer.

The search cannot fail on the finest grid.  Two points of that grid are closer to
each other than the ends of any cell (`inCell_finest`), so one of them is in the
cell of the pattern.  `shortestFrom_spec` is what the search finds from a grid
down, and `shortest_spec` adds that no grid above its start has a point to find.
-/

namespace InfixArith.Binary64

/-! ## Points of a grid -/

/-- The point `j` of grid `t` is the number `j * 10 ^ t / 10 ^ 324`. -/
theorem toRat_gridPoint (j t : Nat) :
    (gridPoint j t).toRat = ((j * powerOfTen t : ℕ) : ℚ) / powerOfTen finestPlaces := by
  rw [toRat_eq_div, gridPoint]
  generalize finestPlaces = finest
  have hplaces : powerOfTen (t - finest) * powerOfTen finest =
      powerOfTen t * powerOfTen (finest - t) := by
    simp only [powerOfTen, Nat.pow_eq, ← Nat.pow_add]
    congr 1
    omega
  have hne : ∀ n, ((powerOfTen n : ℕ) : ℚ) ≠ 0 := fun n =>
    Nat.cast_ne_zero.2 (powerOfTen_pos n).ne'
  rw [div_eq_div_iff (hne _) (hne _), ← Nat.cast_mul, ← Nat.cast_mul, Nat.mul_assoc, hplaces,
    Nat.mul_assoc]

/-- The points of a grid are ordered. -/
theorem strictMono_toRat_gridPoint (t : Nat) : StrictMono fun j => (gridPoint j t).toRat := by
  intro i j hij
  have hcoefficient : i * powerOfTen t < j * powerOfTen t :=
    Nat.mul_lt_mul_of_pos_right hij (powerOfTen_pos t)
  simp only [toRat_gridPoint]
  exact div_lt_div_of_pos_right (Nat.cast_lt.2 hcoefficient) (Nat.cast_pos.2 (powerOfTen_pos _))

theorem toRat_gridPoint_le_iff {j t p : Nat} :
    (gridPoint j t).toRat ≤ magnitude p ↔
      j * (unitsPerOne * powerOfTen t) ≤ scaledMagnitude p := by
  rw [toRat_gridPoint, magnitude_eq, natCast_div_le_iff (powerOfTen_pos _) unitsPerOne_pos,
    Nat.mul_assoc, Nat.mul_comm (powerOfTen t), scaledMagnitude]

theorem magnitude_le_toRat_gridPoint_iff {j t p : Nat} :
    magnitude p ≤ (gridPoint j t).toRat ↔
      scaledMagnitude p ≤ j * (unitsPerOne * powerOfTen t) := by
  rw [toRat_gridPoint, magnitude_eq, natCast_div_le_iff unitsPerOne_pos (powerOfTen_pos _),
    Nat.mul_assoc, Nat.mul_comm (powerOfTen t), scaledMagnitude]

/-! ## The two candidates -/

/-- The last point of a grid that is not above a magnitude. -/
def pointBelow (p t : Nat) : Nat :=
  scaledMagnitude p / (unitsPerOne * powerOfTen t)

theorem toRat_below_le (p t : Nat) : (gridPoint (pointBelow p t) t).toRat ≤ magnitude p :=
  toRat_gridPoint_le_iff.2 (Nat.div_mul_le_self _ _)

theorem le_toRat_above (p t : Nat) : magnitude p ≤ (gridPoint (pointBelow p t + 1) t).toRat := by
  have hstep : 0 < unitsPerOne * powerOfTen t := Nat.mul_pos unitsPerOne_pos (powerOfTen_pos t)
  rw [magnitude_le_toRat_gridPoint_iff, Nat.succ_mul]
  exact (Nat.lt_div_mul_add hstep).le

/-- The remainder tells on which side of the middle a magnitude is. -/
theorem middle_le_magnitude_iff (p t : Nat) :
    ((gridPoint (pointBelow p t) t).toRat + (gridPoint (pointBelow p t + 1) t).toRat) / 2 ≤
        magnitude p ↔
      unitsPerOne * powerOfTen t ≤ 2 * (scaledMagnitude p % (unitsPerOne * powerOfTen t)) := by
  have htwo : (2 : ℚ) = (2 : ℕ) := rfl
  have hdiv := Nat.div_add_mod' (scaledMagnitude p) (unitsPerOne * powerOfTen t)
  rw [← pointBelow] at hdiv
  rw [toRat_gridPoint, toRat_gridPoint, magnitude_eq, ← add_div, div_div, ← Nat.cast_add, htwo,
    ← Nat.cast_mul, natCast_div_le_iff (Nat.mul_pos (powerOfTen_pos _) two_pos) unitsPerOne_pos,
    ← Nat.mul_assoc, ← scaledMagnitude, ← Nat.add_mul, Nat.mul_assoc,
    Nat.mul_comm (powerOfTen t), Nat.add_mul, Nat.succ_mul]
  omega

section Candidate

variable {p t j : Nat} (hp : p ≤ infinity) (hj : ofDecimal (gridPoint j t) = p)
include hp hj

/-- What is between a point that rounds to a pattern and the magnitude of that
pattern does so, too. -/
theorem ofDecimal_below (hle : j ≤ pointBelow p t) :
    ofDecimal (gridPoint (pointBelow p t) t) = p := by
  refine le_antisymm (ofDecimal_le hp (toRat_below_le p t)) ?_
  exact hj.ge.trans (ofDecimal_mono ((strictMono_toRat_gridPoint t).monotone hle))

theorem ofDecimal_above (hlt : pointBelow p t < j) :
    ofDecimal (gridPoint (pointBelow p t + 1) t) = p := by
  refine le_antisymm ?_ (le_ofDecimal hp (le_toRat_above p t))
  exact (ofDecimal_mono ((strictMono_toRat_gridPoint t).monotone hlt)).trans hj.le

end Candidate

/-- The lower candidate is taken where it rounds to the pattern, unless the upper
one does so too and is at least as near. -/
theorem pointOn?_eq (p t : Nat) :
    pointOn? p t =
      if ofDecimal (gridPoint (pointBelow p t) t) = p ∧
          (2 * (scaledMagnitude p % (unitsPerOne * powerOfTen t)) < unitsPerOne * powerOfTen t ∨
            ofDecimal (gridPoint (pointBelow p t + 1) t) ≠ p) then
        some (gridPoint (pointBelow p t) t)
      else if ofDecimal (gridPoint (pointBelow p t + 1) t) = p then
        some (gridPoint (pointBelow p t + 1) t)
      else
        none := by
  unfold pointOn? readsAs pointBelow
  simp

section Found

variable {p t j : Nat} (hp : p ≤ infinity) (hj : ofDecimal (gridPoint j t) = p)
include hp hj

/-- One of the two candidates of a grid rounds to a pattern if any point of the
grid does. -/
theorem exists_pointOn? : ∃ d, pointOn? p t = some d := by
  rw [pointOn?_eq]
  by_cases habove : ofDecimal (gridPoint (pointBelow p t + 1) t) = p
  · rw [if_pos habove]
    split <;> exact ⟨_, rfl⟩
  · have hle : j ≤ pointBelow p t := not_lt.1 (mt (ofDecimal_above hp hj) habove)
    rw [if_pos ⟨ofDecimal_below hp hj hle, .inr habove⟩]
    exact ⟨_, rfl⟩

/-- No point of the grid that rounds to the pattern is nearer to its magnitude
than the one that is found. -/
theorem pointOn?_nearest {d : Decimal} (h : pointOn? p t = some d) :
    |d.toRat - magnitude p| ≤ |(gridPoint j t).toRat - magnitude p| := by
  have hordered := strictMono_toRat_gridPoint t
  have hstep := hordered (Nat.lt_succ_self (pointBelow p t))
  have hlower : j ≤ pointBelow p t → |(gridPoint (pointBelow p t) t).toRat - magnitude p| ≤
      |(gridPoint j t).toRat - magnitude p| := fun hle =>
    abs_le_abs_of_nonpos (sub_nonpos.2 (toRat_below_le p t))
      (sub_le_sub_right (hordered.monotone hle) _)
  have hupper : pointBelow p t < j → |(gridPoint (pointBelow p t + 1) t).toRat - magnitude p| ≤
      |(gridPoint j t).toRat - magnitude p| := fun hlt =>
    abs_le_abs_of_nonneg (sub_nonneg.2 (le_toRat_above p t))
      (sub_le_sub_right (hordered.monotone hlt) _)
  rw [pointOn?_eq] at h
  split at h
  · rename_i hfound
    rw [← Option.some.inj h]
    rcases Nat.lt_or_ge (pointBelow p t) j with hlt | hge
    · have hnear := hfound.2.resolve_right (not_not.2 (ofDecimal_above hp hj hlt))
      have hmiddle := lt_of_not_ge (mt (middle_le_magnitude_iff p t).1 (not_le.2 hnear))
      exact ((abs_sub_le_iff_le_middle hstep).2 hmiddle.le).trans (hupper hlt)
    · exact hlower hge
  · rename_i hpassed
    split at h
    · rw [← Option.some.inj h]
      rcases Nat.lt_or_ge (pointBelow p t) j with hlt | hge
      · exact hupper hlt
      · have hfar := not_lt.1 fun hnear => hpassed ⟨ofDecimal_below hp hj hge, .inl hnear⟩
        have hmiddle := (middle_le_magnitude_iff p t).2 hfar
        exact ((abs_sub_le_iff_middle_le hstep).2 hmiddle).trans (hlower hge)
    · cases h

end Found

theorem exists_gridPoint_of_pointOn? {p t : Nat} {d : Decimal} (h : pointOn? p t = some d) :
    ∃ j, d = gridPoint j t := by
  rw [pointOn?_eq] at h
  split at h
  · exact ⟨_, (Option.some.inj h).symm⟩
  · split at h
    · exact ⟨_, (Option.some.inj h).symm⟩
    · cases h

/-! ## The finest grid -/

/-- Two units are no more than one step of the finest grid. -/
theorem two_mul_unitsPerOne_le : 2 * unitsPerOne ≤ powerOfTen finestPlaces := by
  decide +kernel

/-- The point of the finest grid below a magnitude is in the cell of its
pattern, and at neither end. -/
theorem inCell_finest (p : Nat) :
    InCell (gridPoint (scaledMagnitude p / unitsPerOne) 0).toRat p := by
  have hfine : 2 * unitsPerOne ≤ powerOfTen finestPlaces := two_mul_unitsPerOne_le
  have hden : 0 < powerOfTen finestPlaces := powerOfTen_pos finestPlaces
  have hbelow := Nat.div_mul_le_self (scaledMagnitude p) unitsPerOne
  have habove := Nat.lt_div_mul_add (a := scaledMagnitude p) unitsPerOne_pos
  rw [toRat_gridPoint, powerOfTen_zero, Nat.mul_one]
  unfold scaledMagnitude at *
  generalize units p * powerOfTen finestPlaces / unitsPerOne = point at *
  refine inCell_of_lt (lt_of_not_ge (mt (halfway_le_div_iff hden).1 ?_)) ?_
  · have hstep : units p < units (p + 1) := units_lt_units (Nat.lt_succ_self p)
    have hstepDen := Nat.mul_lt_mul_of_pos_right hstep hden
    rw [Nat.add_mul]
    omega
  · -- The magnitude before is a unit below, or more.  The grid loses less than half of that.
    rintro before rfl
    refine lt_of_not_ge (mt (div_le_halfway_iff hden).1 ?_)
    have hstep : units before + 1 ≤ units (before + 1) := units_lt_units (Nat.lt_succ_self before)
    have hstepDen := Nat.mul_le_mul_right (powerOfTen finestPlaces) hstep
    rw [Nat.add_mul, Nat.one_mul] at hstepDen
    rw [Nat.add_mul]
    omega

/-! ## The search -/

/-- The search ends on the coarsest grid that has a point for the pattern. -/
theorem shortestFrom_spec {p : Nat} (hp : p ≤ infinity) (coarsest : Nat) :
    ∃ t ≤ coarsest, pointOn? p t = some (shortestFrom p coarsest) ∧
      ∀ s ≤ coarsest, t < s → ∀ j, ofDecimal (gridPoint j s) ≠ p := by
  induction coarsest with
  | zero =>
    obtain ⟨d, hd⟩ := exists_pointOn? hp (ofDecimal_eq_of_inCell hp (inCell_finest p))
    refine ⟨0, Nat.le_refl 0, ?_, ?_⟩
    · rw [shortestFrom, hd]
      rfl
    · intro s hs hlt
      omega
  | succ t ih =>
    cases hpoint : pointOn? p (t + 1) with
    | some d =>
      refine ⟨t + 1, Nat.le_refl _, ?_, ?_⟩
      · rw [shortestFrom, hpoint]
        rfl
      · intro s hs hlt
        omega
    | none =>
      obtain ⟨u, hu, hfound, hcoarser⟩ := ih
      refine ⟨u, Nat.le_succ_of_le hu, ?_, ?_⟩
      · rw [shortestFrom, hpoint]
        exact hfound
      · intro s hs hlt j hread
        rcases Nat.le_succ_iff.1 hs with hle | rfl
        · exact hcoarser s hle hlt j hread
        · obtain ⟨d, hd⟩ := exists_pointOn? hp hread
          rw [hpoint] at hd
          cases hd

/-- The next magnitude is at most twice as large, except after zero. -/
theorem units_succ_le {p : Nat} (hp : p ≠ 0) : units (p + 1) ≤ 2 * units p := by
  have hsignificand : 1 ≤ significand p := by
    unfold significand hiddenBit
    split <;> omega
  have hstep : 1 <<< exponent p ≤ units p := by
    rw [units, Nat.shiftLeft_eq, Nat.shiftLeft_eq]
    exact Nat.mul_le_mul_right _ hsignificand
  rw [units_succ]
  omega

/-- The search starts high enough.  On a coarser grid the first point after zero
is more than twice the magnitude. -/
theorem ofDecimal_coarse_ne {p t : Nat} (hp : p < infinity) (hne : p ≠ 0)
    (ht : digitCount (scaledMagnitude p / unitsPerOne) < t) (j : Nat) :
    ofDecimal (gridPoint j t) ≠ p := by
  have hdigits : scaledMagnitude p / unitsPerOne <
      powerOfTen (digitCount (scaledMagnitude p / unitsPerOne)) :=
    (Nat.length_toDigits_le_iff (by decide) Nat.length_toDigits_pos).1 (Nat.le_refl _)
  generalize digitCount (scaledMagnitude p / unitsPerOne) = coarsest at *
  have hcoarse : powerOfTen coarsest * 10 ≤ powerOfTen t := by
    rw [← powerOfTen_succ]
    exact Nat.pow_le_pow_right (by decide : 0 < 10) ht
  have hfirst : 2 * scaledMagnitude p ≤ unitsPerOne * powerOfTen t := by
    have hlt := (Nat.div_lt_iff_lt_mul unitsPerOne_pos).1 hdigits
    have hmul := Nat.mul_le_mul_left unitsPerOne hcoarse
    rw [← Nat.mul_assoc, Nat.mul_comm unitsPerOne (powerOfTen coarsest)] at hmul
    omega
  intro hread
  cases j with
  | zero =>
    have hzero : (gridPoint 0 t).toRat ≤ magnitude 0 := by
      rw [toRat_gridPoint_le_iff, Nat.zero_mul]
      exact Nat.zero_le _
    have hle := ofDecimal_le (Nat.zero_le infinity) hzero
    omega
  | succ j =>
    have hnext : magnitude (p + 1) ≤ (gridPoint (j + 1) t).toRat := by
      have hdouble : scaledMagnitude (p + 1) ≤ 2 * scaledMagnitude p := by
        rw [scaledMagnitude, scaledMagnitude, ← Nat.mul_assoc]
        exact Nat.mul_le_mul_right _ (units_succ_le hne)
      rw [magnitude_le_toRat_gridPoint_iff, Nat.succ_mul]
      exact (hdouble.trans hfirst).trans (Nat.le_add_left _ _)
    have hle := le_ofDecimal hp hnext
    omega

/-- The shortest decimal of a finite pattern rounds to it.  It is a point of a
grid, and no point of a coarser grid rounds to the pattern.  Of the points of its
own grid that do, none is nearer to the magnitude. -/
theorem shortest_spec {p : Nat} (hp : p < infinity) :
    ofDecimal (shortest p) = p ∧
      (p ≠ 0 → ∃ t, (∃ j, shortest p = gridPoint j t) ∧
        (∀ s, t < s → ∀ j, ofDecimal (gridPoint j s) ≠ p) ∧
        ∀ j, ofDecimal (gridPoint j t) = p →
          |(shortest p).toRat - magnitude p| ≤ |(gridPoint j t).toRat - magnitude p|) := by
  unfold shortest
  split
  · rename_i hzero
    rw [hzero]
    exact ⟨by decide +kernel, fun hne => absurd rfl hne⟩
  · rename_i hne
    obtain ⟨t, -, hfound, hcoarser⟩ :=
      shortestFrom_spec hp.le (digitCount (scaledMagnitude p / unitsPerOne))
    refine ⟨ofDecimal_of_pointOn? hfound, fun _ => ⟨t, exists_gridPoint_of_pointOn? hfound, ?_,
      fun j hj => pointOn?_nearest hp.le hj hfound⟩⟩
    intro s hs j
    rcases Nat.lt_or_ge (digitCount (scaledMagnitude p / unitsPerOne)) s with hlt | hle
    · exact ofDecimal_coarse_ne hp hne hlt j
    · exact hcoarser s hle hs j

end InfixArith.Binary64
