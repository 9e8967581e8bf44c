import InfixArith.Proofs.Binary64.Magnitude
import Mathlib

/-!
# Rounding to nearest

`RoundsTo v pattern` is what rounding should do, said with distances alone:
no finite pattern is nearer to `v`, a tie goes to the even significand, and
numbers from `2 ^ 1024 - 2 ^ 970` up are out of range.

The distances to all other patterns are too many to compare.  `InCell` looks
at the two halfway points around a pattern only, and
`InCell.roundsTo_iff` shows that this is enough: a number rounds to the
pattern whose cell it is in, and to nothing else.  `InCell.le_of_le` is the
order of the cells, from which rounding is monotone.
-/

namespace InfixArith.Binary64

/-- A finite pattern is nearest to `v` if no finite pattern is nearer, and if
its significand is even where another one is as near. -/
structure IsNearest (v : ℚ) (pattern : Nat) : Prop where
  finite : pattern < infinity
  nearest : ∀ other < infinity, |magnitude pattern - v| ≤ |magnitude other - v|
  even_of_tie : ∀ other < infinity, other ≠ pattern →
    |magnitude other - v| = |magnitude pattern - v| → significand pattern % 2 = 0

/-- What rounding makes of `v`: infinity where `v` is out of range, and the
finite pattern nearest to it elsewhere. -/
def RoundsTo (v : ℚ) (pattern : Nat) : Prop :=
  (2 ^ 1024 - 2 ^ 970 ≤ v ∧ pattern = infinity) ∨
    (v < 2 ^ 1024 - 2 ^ 970 ∧ IsNearest v pattern)

/-! ## Cells -/

/-- The numbers between the points halfway to the patterns around a pattern.
An end point belongs to an even pattern only.  The cell of zero has no lower
end. -/
structure InCell (v : ℚ) (pattern : Nat) : Prop where
  le_halfway : v ≤ halfway pattern
  even_of_eq_halfway : v = halfway pattern → pattern % 2 = 0
  halfway_le : ∀ before, pattern = before + 1 → halfway before ≤ v
  even_of_halfway_eq : ∀ before, pattern = before + 1 → halfway before = v → pattern % 2 = 0

/-- All between the two halfway points is in the cell. -/
theorem inCell_of_lt {v : ℚ} {pattern : Nat} (hlt : v < halfway pattern)
    (hgt : ∀ before, pattern = before + 1 → halfway before < v) : InCell v pattern :=
  ⟨hlt.le, fun h => absurd h hlt.ne, fun before h => (hgt before h).le,
    fun before h heq => absurd heq (hgt before h).ne⟩

theorem inCell_magnitude (pattern : Nat) : InCell (magnitude pattern) pattern := by
  have hstep : ∀ p, magnitude p < magnitude (p + 1) := fun p =>
    strictMono_magnitude (Nat.lt_succ_self p)
  refine inCell_of_lt ?_ ?_
  · have := hstep pattern
    unfold halfway
    linarith
  · rintro before rfl
    have := hstep before
    unfold halfway
    linarith

/-- The cells are ordered as their patterns. -/
theorem InCell.le_of_le {v w : ℚ} {p q : Nat} (hv : InCell v p) (hw : InCell w q)
    (hvw : v ≤ w) : p ≤ q := by
  by_contra hqp
  obtain ⟨before, rfl⟩ : ∃ before, p = before + 1 := ⟨p - 1, by omega⟩
  have hlow : halfway before ≤ v := hv.halfway_le before rfl
  have hhigh : w ≤ halfway q := hw.le_halfway
  -- The two cells can only meet in an end that both have.  They are neighbours
  -- then, and one of two neighbours is odd.
  have hle : halfway q ≤ halfway before := strictMono_halfway.monotone (by omega)
  have hsame : q = before :=
    strictMono_halfway.injective (le_antisymm hle (hlow.trans (hvw.trans hhigh)))
  subst hsame
  have heven := hw.even_of_eq_halfway (le_antisymm hhigh (hlow.trans hvw))
  have heven' := hv.even_of_halfway_eq q rfl (le_antisymm hlow (hvw.trans hhigh))
  omega

/-- A number is in one cell at most. -/
theorem InCell.eq {v : ℚ} {p q : Nat} (hp : InCell v p) (hq : InCell v q) : p = q :=
  le_antisymm (hp.le_of_le hq le_rfl) (hq.le_of_le hp le_rfl)

/-- The cells of the finite patterns end where the range ends.  That end is
halfway from an odd pattern, and so it is out of range itself. -/
theorem InCell.infinity_le_iff {v : ℚ} {p : Nat} (h : InCell v p) :
    infinity ≤ p ↔ 2 ^ 1024 - 2 ^ 970 ≤ v := by
  rw [← halfway_last]
  constructor
  · intro hp
    obtain ⟨before, rfl⟩ : ∃ before, p = before + 1 :=
      ⟨p - 1, by unfold infinity at hp; omega⟩
    have hbefore : infinity - 1 ≤ before := by omega
    exact (strictMono_halfway.monotone hbefore).trans (h.halfway_le before rfl)
  · intro hv
    by_contra hp
    have hle : halfway p ≤ halfway (infinity - 1) := strictMono_halfway.monotone (by omega)
    have hlast : p = infinity - 1 :=
      strictMono_halfway.injective (le_antisymm hle (hv.trans h.le_halfway))
    have heven := h.even_of_eq_halfway (le_antisymm h.le_halfway (hle.trans hv))
    unfold infinity at hlast
    omega

/-! ## Distances -/

/-- Of two numbers the lower one is as near as the upper one to all that is
not above their middle. -/
theorem abs_sub_le_iff_le_middle {a b v : ℚ} (hab : a < b) :
    |a - v| ≤ |b - v| ↔ v ≤ (a + b) / 2 := by
  have hfactors : (b - v) ^ 2 - (a - v) ^ 2 = 2 * (b - a) * ((a + b) / 2 - v) := by ring
  have hpos : 0 < 2 * (b - a) := by linarith
  rw [← sq_le_sq, ← sub_nonneg, hfactors, mul_nonneg_iff_of_pos_left hpos, sub_nonneg]

/-- The upper one is as near to all that is not below their middle. -/
theorem abs_sub_le_iff_middle_le {a b v : ℚ} (hab : a < b) :
    |b - v| ≤ |a - v| ↔ (a + b) / 2 ≤ v := by
  have hfactors : (a - v) ^ 2 - (b - v) ^ 2 = 2 * (b - a) * (v - (a + b) / 2) := by ring
  have hpos : 0 < 2 * (b - a) := by linarith
  rw [← sq_le_sq, ← sub_nonneg, hfactors, mul_nonneg_iff_of_pos_left hpos, sub_nonneg]

/-- No pattern is nearer to a number than the one whose cell it is in. -/
theorem InCell.nearer {v : ℚ} {p other : Nat} (h : InCell v p) (hother : other ≠ p) :
    |magnitude p - v| ≤ |magnitude other - v| ∧
      (|magnitude other - v| = |magnitude p - v| → p % 2 = 0) := by
  rcases Nat.lt_or_gt_of_ne hother with hbelow | habove
  · obtain ⟨before, rfl⟩ : ∃ before, p = before + 1 := ⟨p - 1, by omega⟩
    have hend : halfway before ≤ v := h.halfway_le before rfl
    have hmiddle : (magnitude other + magnitude (before + 1)) / 2 ≤ halfway before := by
      have hle : magnitude other ≤ magnitude before := strictMono_magnitude.monotone (by omega)
      unfold halfway
      linarith
    have hlt : magnitude other < magnitude (before + 1) := strictMono_magnitude hbelow
    refine ⟨(abs_sub_le_iff_middle_le hlt).2 (hmiddle.trans hend), ?_⟩
    intro htie
    have hv := (abs_sub_le_iff_le_middle hlt).1 htie.le
    exact h.even_of_halfway_eq before rfl (le_antisymm hend (hv.trans hmiddle))
  · have hend : v ≤ halfway p := h.le_halfway
    have hmiddle : halfway p ≤ (magnitude p + magnitude other) / 2 := by
      have hle : magnitude (p + 1) ≤ magnitude other := strictMono_magnitude.monotone (by omega)
      unfold halfway
      linarith
    have hlt : magnitude p < magnitude other := strictMono_magnitude habove
    refine ⟨(abs_sub_le_iff_le_middle hlt).2 (hend.trans hmiddle), ?_⟩
    intro htie
    have hv := (abs_sub_le_iff_middle_le hlt).1 htie.le
    exact h.even_of_eq_halfway (le_antisymm hend (hmiddle.trans hv))

/-- The pattern whose cell a number is in is nearest to it. -/
theorem InCell.isNearest {v : ℚ} {p : Nat} (h : InCell v p) (hp : p < infinity) :
    IsNearest v p := by
  refine ⟨hp, ?_, ?_⟩
  · intro other _
    by_cases hother : other = p
    · rw [hother]
    · exact (h.nearer hother).1
  · intro other _ hother htie
    rw [significand_mod_two]
    exact (h.nearer hother).2 htie

/-- A number in range is in the cell of the pattern nearest to it.  The
distances to the two patterns around that one say so. -/
theorem IsNearest.inCell {v : ℚ} {p : Nat} (h : IsNearest v p)
    (hv : v < 2 ^ 1024 - 2 ^ 970) : InCell v p := by
  have hstep : ∀ q, magnitude q < magnitude (q + 1) := fun q =>
    strictMono_magnitude (Nat.lt_succ_self q)
  have hbefore : ∀ before, p = before + 1 →
      halfway before ≤ v ∧ (halfway before = v → p % 2 = 0) := by
    rintro before rfl
    have hfinite : before < infinity := Nat.lt_of_succ_lt h.finite
    have hnearest := h.nearest before hfinite
    refine ⟨(abs_sub_le_iff_middle_le (hstep before)).1 hnearest, ?_⟩
    intro hend
    rw [← significand_mod_two]
    refine h.even_of_tie before hfinite (by omega) (le_antisymm ?_ hnearest)
    exact (abs_sub_le_iff_le_middle (hstep before)).2 hend.ge
  have hafter : v ≤ halfway p ∧ (v = halfway p → p % 2 = 0) := by
    by_cases hlast : p = infinity - 1
    · rw [← halfway_last, ← hlast] at hv
      exact ⟨hv.le, fun hend => absurd hend hv.ne⟩
    · have hfinite : p + 1 < infinity := by
        have := h.finite
        omega
      have hnearest := h.nearest (p + 1) hfinite
      refine ⟨(abs_sub_le_iff_le_middle (hstep p)).1 hnearest, ?_⟩
      intro hend
      rw [← significand_mod_two]
      refine h.even_of_tie (p + 1) hfinite (by omega) (le_antisymm ?_ hnearest)
      exact (abs_sub_le_iff_middle_le (hstep p)).2 hend.ge
  exact ⟨hafter.1, hafter.2, fun before hp => (hbefore before hp).1,
    fun before hp => (hbefore before hp).2⟩

/-- A number rounds to the pattern whose cell it is in, or to infinity if that
pattern is beyond it. -/
theorem InCell.roundsTo_iff {v : ℚ} {p q : Nat} (h : InCell v p) :
    RoundsTo v q ↔ q = min infinity p := by
  have hrange := h.infinity_le_iff
  constructor
  · rintro (⟨hv, rfl⟩ | ⟨hv, hq⟩)
    · rw [Nat.min_eq_left (hrange.2 hv)]
    · have hsame : q = p := (hq.inCell hv).eq h
      subst hsame
      rw [Nat.min_eq_right (Nat.le_of_lt hq.finite)]
  · rintro rfl
    rcases Nat.lt_or_ge p infinity with hp | hp
    · rw [Nat.min_eq_right (Nat.le_of_lt hp)]
      exact .inr ⟨not_le.1 fun hv => absurd (hrange.2 hv) (by omega), h.isNearest hp⟩
    · rw [Nat.min_eq_left hp]
      exact .inl ⟨hrange.1 hp, rfl⟩

end InfixArith.Binary64
