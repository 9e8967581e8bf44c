import InfixArith.Decimal
import Mathlib

/-!
# Plain decimals and their values

`PlainDecimal` lists the four ways to write a plain decimal, and its `value`
is the number that the text writes, digit by digit.  The reader does not
count digits by their places.  `PlainDecimal.toRat_decimal` says that what it
reads is that number, and `PlainDecimal.isText_iff` that it reads these texts
and no others.

`Respells` adds zeros in front, zeros at the end of a fraction, or a point
that nothing follows.  `Respells.exists_ofChars?` says that the number stays.
-/

namespace InfixArith

/-- A row of one or more digits. -/
structure DigitRow where
  chars : List Char
  ne_nil : chars ≠ []
  isDigit : ∀ c ∈ chars, c.isDigit = true

/-- The ways to write a plain decimal. -/
inductive PlainDecimal where
  /-- As in `12`. -/
  | whole (a : DigitRow)
  /-- As in `12.`. -/
  | wholePoint (a : DigitRow)
  /-- As in `.5`. -/
  | pointFraction (b : DigitRow)
  /-- As in `12.5`. -/
  | wholePointFraction (a b : DigitRow)

/-- The number that a row of digits writes if its first digit stands at the
given place.  The place of ones is zero, and the place of tenths is minus
one. -/
def placeValue (place : ℤ) : List Char → ℚ
  | [] => 0
  | c :: cs => (c.toNat - '0'.toNat : ℕ) * 10 ^ place + placeValue (place - 1) cs

/-- The number `coefficient / 10 ^ places`. -/
def Decimal.toRat (d : Decimal) : ℚ :=
  d.coefficient / 10 ^ d.places

namespace PlainDecimal

/-- The characters of a plain decimal. -/
def chars : PlainDecimal → List Char
  | whole a => a.chars
  | wholePoint a => a.chars ++ ['.']
  | pointFraction b => '.' :: b.chars
  | wholePointFraction a b => a.chars ++ '.' :: b.chars

/-- The text of a plain decimal. -/
def text (d : PlainDecimal) : String :=
  String.ofList d.chars

/-- The digits before the point. -/
def wholeDigits : PlainDecimal → List Char
  | whole a | wholePoint a | wholePointFraction a _ => a.chars
  | pointFraction _ => []

/-- The digits after the point. -/
def fractionDigits : PlainDecimal → List Char
  | whole _ | wholePoint _ => []
  | pointFraction b | wholePointFraction _ b => b.chars

/-- The number that a plain decimal writes. -/
def value (d : PlainDecimal) : ℚ :=
  placeValue (d.wholeDigits.length - 1) d.wholeDigits + placeValue (-1) d.fractionDigits

/-- What a plain decimal is read as. -/
def decimal (d : PlainDecimal) : Decimal :=
  ⟨Nat.ofDigitChars 10 (d.wholeDigits ++ d.fractionDigits) 0, d.fractionDigits.length⟩

end PlainDecimal

/-! ## Values of digits -/

theorem placeValue_append (place : ℤ) (cs ds : List Char) :
    placeValue place (cs ++ ds) = placeValue place cs + placeValue (place - cs.length) ds := by
  induction cs generalizing place with
  | nil => simp [placeValue]
  | cons c cs ih =>
    have hplace : place - 1 - cs.length = place - (c :: cs).length := by
      rw [List.length_cons]
      omega
    rw [List.cons_append, placeValue, placeValue, ih, hplace, add_assoc]

/-- The digits count as a whole number, moved to the place of the last one. -/
theorem placeValue_eq (place : ℤ) (cs : List Char) :
    placeValue place cs = Nat.ofDigitChars 10 cs 0 * 10 ^ (place + 1 - cs.length) := by
  induction cs generalizing place with
  | nil => simp [placeValue]
  | cons c cs ih =>
    have hfirst : (10 : ℚ) ^ place = 10 ^ cs.length * 10 ^ (place + 1 - (c :: cs).length) := by
      rw [← zpow_natCast, ← zpow_add₀ (by norm_num), List.length_cons]
      congr 1
      omega
    have hplace : place - 1 + 1 - cs.length = place + 1 - (c :: cs).length := by
      rw [List.length_cons]
      omega
    have hdigits : Nat.ofDigitChars 10 (c :: cs) 0 =
        10 ^ cs.length * (c.toNat - '0'.toNat) + Nat.ofDigitChars 10 cs 0 := by
      rw [Nat.ofDigitChars_cons, Nat.mul_zero, Nat.zero_add]
      exact Nat.ofDigitChars_eq_ofDigitChars_zero
    rw [placeValue, ih, hplace, hfirst, hdigits, Nat.cast_add, Nat.cast_mul, Nat.cast_pow,
      Nat.cast_ofNat]
    ring

namespace PlainDecimal

/-- The reader takes a plain decimal as the number that it writes. -/
theorem toRat_decimal (d : PlainDecimal) : d.decimal.toRat = d.value := by
  have hpoint : (d.wholeDigits.length - 1 : ℤ) - d.wholeDigits.length = -1 := by omega
  have hlast : (d.wholeDigits.length - 1 : ℤ) + 1 - (d.wholeDigits ++ d.fractionDigits).length =
      -(d.fractionDigits.length : ℤ) := by
    rw [List.length_append]
    omega
  rw [value, ← hpoint, ← placeValue_append, placeValue_eq, hlast, zpow_neg, zpow_natCast,
    ← div_eq_mul_inv]
  rfl

/-! ## Texts -/

/-- A plain decimal is read. -/
theorem ofChars?_chars (d : PlainDecimal) : Decimal.ofChars? d.chars = some d.decimal := by
  cases d with
  | whole a =>
    rw [decimal, wholeDigits, fractionDigits, List.append_nil]
    exact Decimal.ofChars?_of_digits a.ne_nil a.isDigit
  | wholePoint a =>
    have hne : a.chars ++ [] ≠ [] := by
      rw [List.append_nil]
      exact a.ne_nil
    have hdigits : ∀ c ∈ a.chars ++ [], c.isDigit = true := by
      rw [List.append_nil]
      exact a.isDigit
    exact Decimal.ofChars?_of_point hne hdigits
  | pointFraction b =>
    have hne : [] ++ b.chars ≠ [] := b.ne_nil
    exact Decimal.ofChars?_of_point hne b.isDigit
  | wholePointFraction a b =>
    refine Decimal.ofChars?_of_point (List.append_ne_nil_of_left_ne_nil a.ne_nil _) ?_
    intro c hc
    exact (List.mem_append.1 hc).elim (a.isDigit c) (b.isDigit c)

end PlainDecimal

namespace Decimal

/-- Digits in front of a text belong to its whole part. -/
theorem parts_append_left {ds : List Char} (cs : List Char) (hd : ∀ c ∈ ds, c.isDigit = true) :
    wholePart (ds ++ cs) = ds ++ wholePart cs ∧ fractionPart (ds ++ cs) = fractionPart cs := by
  have hp : ∀ c ∈ ds, (c != '.') = true := fun c hc => ne_point_of_isDigit (hd c hc)
  refine ⟨?_, ?_⟩
  · rw [wholePart, List.takeWhile_append_of_pos hp, wholePart]
  · rw [fractionPart, List.dropWhile_append_of_pos hp, fractionPart]

end Decimal

/-- The texts that are read are the plain decimals. -/
theorem PlainDecimal.isText_iff {cs : List Char} :
    Decimal.isText cs = true ↔ ∃ d : PlainDecimal, d.chars = cs := by
  constructor
  · intro h
    obtain ⟨n, hn⟩ := Option.isSome_iff_exists.1 h
    obtain ⟨⟨hne, hdigits⟩, -⟩ := Decimal.ofChars?_eq_some_iff.1 hn
    have hwhole : ∀ c ∈ Decimal.wholePart cs, c.isDigit = true := fun c hc =>
      hdigits c (List.mem_append_left _ hc)
    have hfraction : ∀ c ∈ Decimal.fractionPart cs, c.isDigit = true := fun c hc =>
      hdigits c (List.mem_append_right _ hc)
    rcases Decimal.eq_parts cs with ⟨-, hw, hf⟩ | hparts
    · rw [hw, hf, List.append_nil] at hne
      exact ⟨.whole ⟨cs, hne, hw ▸ hwhole⟩, rfl⟩
    · rw [hparts]
      generalize Decimal.wholePart cs = ws at *
      generalize Decimal.fractionPart cs = fs at *
      by_cases hf : fs = []
      · subst hf
        rw [List.append_nil] at hne
        exact ⟨.wholePoint ⟨ws, hne, hwhole⟩, rfl⟩
      · by_cases hw : ws = []
        · subst hw
          exact ⟨.pointFraction ⟨fs, hf, hfraction⟩, rfl⟩
        · exact ⟨.wholePointFraction ⟨ws, hw, hwhole⟩ ⟨fs, hf, hfraction⟩, rfl⟩
  · rintro ⟨d, rfl⟩
    rw [Decimal.isText, d.ofChars?_chars]
    rfl

/-! ## Other texts for one number -/

/-- Zeros or a point are added to a text where they do not count. -/
inductive Respells : List Char → List Char → Prop where
  | leadingZeros (n : Nat) (cs : List Char) : Respells cs (List.replicate n '0' ++ cs)
  | trailingZeros (n : Nat) {cs : List Char} (h : '.' ∈ cs) :
      Respells cs (cs ++ List.replicate n '0')
  | point {cs : List Char} (h : '.' ∉ cs) : Respells cs (cs ++ ['.'])

theorem isDigit_of_mem_zeros (n : Nat) : ∀ c ∈ List.replicate n '0', c.isDigit = true := by
  intro c hc
  rw [List.eq_of_mem_replicate hc]
  rfl

/-- Ten times the coefficient with one place more is the same number. -/
theorem Decimal.toRat_scale (coefficient places n : Nat) :
    (⟨10 ^ n * coefficient, places + n⟩ : Decimal).toRat =
      (⟨coefficient, places⟩ : Decimal).toRat := by
  rw [Decimal.toRat, Decimal.toRat, pow_add, mul_comm (10 ^ places), Nat.cast_mul, Nat.cast_pow,
    Nat.cast_ofNat]
  exact mul_div_mul_left _ _ (by positivity)

/-- A text that is respelled is still read, and as the same number. -/
theorem Respells.exists_ofChars? {cs ds : List Char} {d : Decimal} (h : Respells cs ds)
    (hd : Decimal.ofChars? cs = some d) :
    ∃ e, Decimal.ofChars? ds = some e ∧ e.toRat = d.toRat := by
  obtain ⟨⟨hne, hdigits⟩, rfl⟩ := Decimal.ofChars?_eq_some_iff.1 hd
  cases h with
  | leadingZeros n =>
    obtain ⟨hw, hf⟩ := Decimal.parts_append_left cs (isDigit_of_mem_zeros n)
    refine ⟨_, Decimal.ofChars?_eq_some_iff.2 ⟨⟨?_, ?_⟩, rfl⟩, ?_⟩
    · rw [hw, hf, List.append_assoc]
      exact List.append_ne_nil_of_right_ne_nil _ hne
    · rw [hw, hf, List.append_assoc]
      intro c hc
      exact (List.mem_append.1 hc).elim (isDigit_of_mem_zeros n c) (hdigits c)
    · rw [hw, hf, List.append_assoc, Nat.ofDigitChars_append, Nat.ofDigitChars_replicate_zero,
        Nat.mul_zero]
  | trailingZeros n hpoint =>
    have hparts := (Decimal.eq_parts cs).resolve_left fun hnone => hnone.1 hpoint
    generalize Decimal.wholePart cs = ws at *
    generalize Decimal.fractionPart cs = fs at *
    have hlong : cs ++ List.replicate n '0' = ws ++ '.' :: (fs ++ List.replicate n '0') := by
      rw [hparts, List.append_assoc, List.cons_append]
    rw [hlong]
    refine ⟨_, Decimal.ofChars?_of_point ?_ ?_, ?_⟩
    · rw [← List.append_assoc]
      exact List.append_ne_nil_of_left_ne_nil hne _
    · rw [← List.append_assoc]
      intro c hc
      exact (List.mem_append.1 hc).elim (hdigits c) (isDigit_of_mem_zeros n c)
    · rw [← List.append_assoc, Nat.ofDigitChars_append, Nat.ofDigitChars_replicate_zero,
        List.length_append, List.length_replicate, Decimal.toRat_scale]
  | point hpoint =>
    obtain ⟨-, hw, hf⟩ := (Decimal.eq_parts cs).resolve_right fun hparts =>
      hpoint (hparts ▸ List.mem_append_right _ List.mem_cons_self)
    rw [hw, hf] at hne hdigits ⊢
    exact ⟨_, Decimal.ofChars?_of_point hne hdigits, rfl⟩

end InfixArith
