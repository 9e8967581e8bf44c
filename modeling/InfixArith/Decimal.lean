/-!
# Decimals

A plain decimal is a row of digits with at most one point in it.  It has no
sign, no exponent and no blanks, and one digit is enough.  `Decimal` is the
number that such a text writes, together with the digits after its point.

`Decimal.ofChars?` reads a text and `Decimal.toChars` writes one.  What is
written reads back as the same decimal (`ofChars?_toChars`).  The converse
fails on purpose, since `1`, `01` and `1.` are different texts.
-/

namespace InfixArith

/-- The number `coefficient / 10 ^ places`. -/
structure Decimal where
  coefficient : Nat
  places : Nat
  deriving DecidableEq

/-- A power of ten. -/
def powerOfTen (n : Nat) : Nat :=
  Nat.pow 10 n

@[simp]
theorem powerOfTen_zero : powerOfTen 0 = 1 :=
  rfl

theorem powerOfTen_succ (n : Nat) : powerOfTen (n + 1) = powerOfTen n * 10 :=
  rfl

theorem powerOfTen_pos (n : Nat) : 0 < powerOfTen n :=
  Nat.pow_pos (by decide)

namespace Decimal

/-! ## Reading -/

/-- The digits before the first point of a text. -/
def wholePart (cs : List Char) : List Char :=
  cs.takeWhile (· != '.')

/-- All that follows the first point of a text. -/
def fractionPart (cs : List Char) : List Char :=
  (cs.dropWhile (· != '.')).drop 1

/-- Reads a plain decimal.  The two parts may not hold anything but digits,
and they may not both be empty. -/
def ofChars? (cs : List Char) : Option Decimal :=
  let digits := wholePart cs ++ fractionPart cs
  if digits ≠ [] ∧ digits.all Char.isDigit then
    some ⟨Nat.ofDigitChars 10 digits 0, (fractionPart cs).length⟩
  else
    none

/-- Whether a text is a plain decimal. -/
def isText (cs : List Char) : Bool :=
  (ofChars? cs).isSome

/-- What is read, in terms of the two parts of a text. -/
theorem ofChars?_eq_some_iff {cs : List Char} {d : Decimal} :
    ofChars? cs = some d ↔
      (wholePart cs ++ fractionPart cs ≠ [] ∧
        ∀ c ∈ wholePart cs ++ fractionPart cs, c.isDigit = true) ∧
      d = ⟨Nat.ofDigitChars 10 (wholePart cs ++ fractionPart cs) 0, (fractionPart cs).length⟩ := by
  unfold ofChars?
  simp only [List.all_eq_true]
  generalize wholePart cs ++ fractionPart cs = digits
  split
  · rename_i h
    constructor
    · intro heq
      exact ⟨h, (Option.some.inj heq).symm⟩
    · rintro ⟨-, rfl⟩
      rfl
  · rename_i h
    constructor
    · intro heq
      cases heq
    · rintro ⟨h', -⟩
      exact absurd h' h

/-- A text is parted at its first point, if it has one. -/
theorem eq_parts (cs : List Char) :
    ('.' ∉ cs ∧ wholePart cs = cs ∧ fractionPart cs = []) ∨
      cs = wholePart cs ++ '.' :: fractionPart cs := by
  have happend : wholePart cs ++ cs.dropWhile (· != '.') = cs :=
    List.takeWhile_append_dropWhile
  cases hdrop : cs.dropWhile (· != '.') with
  | nil =>
    rw [hdrop, List.append_nil] at happend
    refine .inl ⟨?_, happend, ?_⟩
    · intro hmem
      rw [← happend] at hmem
      exact absurd (List.all_eq_true.1 List.all_takeWhile '.' hmem) (by decide)
    · rw [fractionPart, hdrop, List.drop_nil]
  | cons x xs =>
    have hx := List.head_dropWhile_not (p := (· != '.')) (l := cs) (by simp [hdrop])
    have hpoint : x = '.' := by simpa [hdrop] using hx
    rw [hdrop, hpoint] at happend
    refine .inr ?_
    rw [fractionPart, hdrop]
    exact happend.symm

/-- A plain decimal is not empty, and its characters are digits and points. -/
theorem chars_of_ofChars? {cs : List Char} {d : Decimal} (h : ofChars? cs = some d) :
    cs ≠ [] ∧ ∀ c ∈ cs, c.isDigit = true ∨ c = '.' := by
  obtain ⟨⟨hne, hdigits⟩, -⟩ := ofChars?_eq_some_iff.1 h
  rcases eq_parts cs with ⟨-, hw, hf⟩ | hparts
  · rw [hw, hf, List.append_nil] at hne hdigits
    exact ⟨hne, fun c hc => .inl (hdigits c hc)⟩
  · rw [hparts]
    refine ⟨List.append_ne_nil_of_right_ne_nil _ (List.cons_ne_nil _ _), ?_⟩
    intro c hc
    rcases List.mem_append.1 hc with hc | hc
    · exact .inl (hdigits c (List.mem_append_left _ hc))
    · rcases List.mem_cons.1 hc with rfl | hc
      · exact .inr rfl
      · exact .inl (hdigits c (List.mem_append_right _ hc))

/-! ## Writing -/

/-- Writes a decimal with all of its places, and with one digit at least
before the point.  A decimal without places has no point. -/
def toChars (d : Decimal) : List Char :=
  let digits := Nat.toDigits 10 d.coefficient
  if d.places = 0 then
    digits
  else
    let padded := List.replicate (d.places + 1 - digits.length) '0' ++ digits
    padded.take (padded.length - d.places) ++
      '.' :: padded.drop (padded.length - d.places)

/-! ## Reading what was written -/

/-- A digit is not the point. -/
theorem ne_point_of_isDigit {c : Char} (h : c.isDigit = true) : (c != '.') = true := by
  rw [bne_iff_ne]
  rintro rfl
  exact absurd h (by decide)

/-- A text without a point is all whole part. -/
theorem parts_of_digits {cs : List Char} (hd : ∀ c ∈ cs, c.isDigit = true) :
    wholePart cs = cs ∧ fractionPart cs = [] := by
  have hp : ∀ c ∈ cs, (c != '.') = true := fun c hc => ne_point_of_isDigit (hd c hc)
  have hw : (cs ++ []).takeWhile (· != '.') = cs ++ [] := by
    rw [List.takeWhile_append_of_pos hp, List.takeWhile_nil]
  have hf : (cs ++ []).dropWhile (· != '.') = [] := by
    rw [List.dropWhile_append_of_pos hp, List.dropWhile_nil]
  rw [List.append_nil] at hw hf
  exact ⟨hw, by rw [fractionPart, hf, List.drop_nil]⟩

/-- A point after digits parts a text there. -/
theorem parts_of_point {ws : List Char} (fs : List Char) (hd : ∀ c ∈ ws, c.isDigit = true) :
    wholePart (ws ++ '.' :: fs) = ws ∧ fractionPart (ws ++ '.' :: fs) = fs := by
  have hp : ∀ c ∈ ws, (c != '.') = true := fun c hc => ne_point_of_isDigit (hd c hc)
  refine ⟨?_, ?_⟩
  · rw [wholePart, List.takeWhile_append_of_pos hp]
    simp
  · rw [fractionPart, List.dropWhile_append_of_pos hp]
    simp

theorem ofChars?_of_digits {cs : List Char} (hne : cs ≠ [])
    (hd : ∀ c ∈ cs, c.isDigit = true) :
    ofChars? cs = some ⟨Nat.ofDigitChars 10 cs 0, 0⟩ := by
  obtain ⟨hw, hf⟩ := parts_of_digits hd
  rw [ofChars?, hw, hf, List.append_nil]
  exact if_pos ⟨hne, List.all_eq_true.2 hd⟩

theorem ofChars?_of_point {ws fs : List Char} (hne : ws ++ fs ≠ [])
    (hd : ∀ c ∈ ws ++ fs, c.isDigit = true) :
    ofChars? (ws ++ '.' :: fs) = some ⟨Nat.ofDigitChars 10 (ws ++ fs) 0, fs.length⟩ := by
  obtain ⟨hw, hf⟩ := parts_of_point fs (fun c hc => hd c (List.mem_append_left fs hc))
  rw [ofChars?, hw, hf]
  exact if_pos ⟨hne, List.all_eq_true.2 hd⟩

/-- What is written reads back as the same decimal. -/
theorem ofChars?_toChars (d : Decimal) : ofChars? d.toChars = some d := by
  have hdig : ∀ c ∈ Nat.toDigits 10 d.coefficient, c.isDigit = true := fun c hc =>
    Nat.isDigit_of_mem_toDigits (by decide) (by decide) hc
  unfold toChars
  simp only
  split
  · rename_i h
    rw [ofChars?_of_digits Nat.toDigits_ne_nil hdig, Nat.ofDigitChars_ten_toDigits, ← h]
  · rename_i h
    have hall : ∀ c ∈ List.replicate (d.places + 1 - (Nat.toDigits 10 d.coefficient).length) '0'
        ++ Nat.toDigits 10 d.coefficient, c.isDigit = true := by
      intro c hc
      rcases List.mem_append.1 hc with hc | hc
      · rw [(List.mem_replicate.1 hc).2]
        decide
      · exact hdig c hc
    rw [ofChars?_of_point (by simp [List.take_append_drop, Nat.toDigits_ne_nil])
      (by rw [List.take_append_drop]; exact hall), List.take_append_drop,
      Nat.ofDigitChars_append, Nat.ofDigitChars_replicate_zero, Nat.mul_zero,
      Nat.ofDigitChars_ten_toDigits, List.length_drop]
    have hlen : d.places ≤ (List.replicate (d.places + 1 - (Nat.toDigits 10 d.coefficient).length)
        '0' ++ Nat.toDigits 10 d.coefficient).length := by
      rw [List.length_append, List.length_replicate]
      omega
    rw [Nat.sub_sub_self hlen]

end Decimal

end InfixArith
