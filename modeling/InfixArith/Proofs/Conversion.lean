import InfixArith.Proofs.Binary64.Nearest
import InfixArith.Proofs.Binary64.Words
import InfixArith.Proofs.LiteralCheck
import Mathlib

/-!
# The conversion of literals

A literal that is a plain decimal is converted to the binary64 value nearest to
the number that its text writes, and any other text is a fault.

`PlainDecimal.ConvertsTo` is all that is said of one text: the value, its
rounding, and the other texts that have the same value.
`PlainDecimal.pattern_mono` compares two texts.  Both put the rounding of a
decimal together with what is read of a text.
-/

namespace InfixArith

open Binary64 (RoundsTo readDecimal)

/-- A text passes the check if it is one of the four ways to write a plain
decimal. -/
theorem Literal.isDecimal_iff_exists_text {text : String} :
    Literal.isDecimal text = true ↔ ∃ d : PlainDecimal, d.text = text := by
  rw [Literal.isDecimal_eq, PlainDecimal.isText_iff]
  refine exists_congr fun d => ?_
  rw [PlainDecimal.text, ← String.toList_inj, String.toList_ofList]

/-- A plain decimal is read as its text is. -/
theorem PlainDecimal.decimal_eq {d : PlainDecimal} {text : String} {n : Decimal}
    (h : d.text = text) (hn : Decimal.ofChars? text.toList = some n) : d.decimal = n := by
  rw [← h, PlainDecimal.text, String.toList_ofList, d.ofChars?_chars] at hn
  exact Option.some.inj hn

/-- What a plain decimal is converted to, wherever it stands. -/
structure PlainDecimal.ConvertsTo (d : PlainDecimal) (x : Float) : Prop where
  parsed : ∀ position, Literal.parse d.text position = .ok x
  unsigned : Binary64.signBit x = false
  rounded : ∀ pattern, RoundsTo d.value pattern ↔ pattern = Binary64.pattern x
  respelled : ∀ text position, Respells d.chars text.toList →
    Literal.parse text position = .ok x

theorem PlainDecimal.convertsTo_readDecimal (d : PlainDecimal) :
    d.ConvertsTo (readDecimal d.decimal) := by
  have hle := Binary64.ofDecimal_le_infinity d.decimal
  refine ⟨?_, Binary64.signBit_ofPattern hle, ?_, ?_⟩
  · intro position
    refine Literal.parse_of_ofChars? ?_ position
    rw [text, String.toList_ofList, d.ofChars?_chars]
  · intro pattern
    rw [readDecimal, Binary64.pattern_ofPattern hle, ← d.toRat_decimal]
    exact Binary64.roundsTo_iff_eq_ofDecimal
  · intro text position h
    obtain ⟨e, he, hvalue⟩ := h.exists_ofChars? d.ofChars?_chars
    rw [Literal.parse_of_ofChars? he, readDecimal, Binary64.ofDecimal_congr hvalue, readDecimal]

/-- The order of the numbers is kept. -/
theorem PlainDecimal.pattern_mono {d e : PlainDecimal} {x y : Float} {i j : Nat}
    (hx : Literal.parse d.text i = .ok x) (hy : Literal.parse e.text j = .ok y)
    (h : d.value ≤ e.value) : Binary64.pattern x ≤ Binary64.pattern y := by
  have hx' : readDecimal d.decimal = x :=
    Except.ok.inj ((d.convertsTo_readDecimal.parsed i).symm.trans hx)
  have hy' : readDecimal e.decimal = y :=
    Except.ok.inj ((e.convertsTo_readDecimal.parsed j).symm.trans hy)
  rw [← d.toRat_decimal, ← e.toRat_decimal] at h
  rw [← hx', ← hy', readDecimal, readDecimal,
    Binary64.pattern_ofPattern (Binary64.ofDecimal_le_infinity _),
    Binary64.pattern_ofPattern (Binary64.ofDecimal_le_infinity _)]
  exact Binary64.ofDecimal_mono h

/-- The texts that pass the check are the plain decimals, and any other text is
the fault that it names.  A plain decimal is always converted, without a sign, to
the pattern that its number rounds to.  Zeros and points that do not count change
nothing, and a larger number is never converted to a smaller pattern. -/
theorem parse_plainDecimal :
    (∀ text, Literal.isDecimal text = true ↔ ∃ d : PlainDecimal, d.text = text) ∧
      (∀ text position, Literal.isDecimal text = false →
        Literal.parse text position = .error (.malformedLiteral text position)) ∧
      (∀ d : PlainDecimal, ∃ x, d.ConvertsTo x) ∧
      ∀ (d e : PlainDecimal) (x y : Float) (i j : Nat), Literal.parse d.text i = .ok x →
        Literal.parse e.text j = .ok y → d.value ≤ e.value →
        Binary64.pattern x ≤ Binary64.pattern y := by
  refine ⟨fun text => Literal.isDecimal_iff_exists_text, ?_, ?_, ?_⟩
  · intro text position h
    exact Literal.parse_of_not_isDecimal h position
  · intro d
    exact ⟨_, d.convertsTo_readDecimal⟩
  · intro d e x y i j hx hy h
    exact PlainDecimal.pattern_mono hx hy h

/-- An exponent is not read.  `9007199254740993` is halfway between two values,
and the lower one is even.  Zeros in front of it change nothing, and neither does
a point behind it, but a digit after the point takes it to the upper value. -/
theorem parse_plainDecimal_tie :
    Literal.parse "1e5" 3 = .error (.malformedLiteral "1e5" 3) ∧
      ∃ x y, Literal.parse "9007199254740993" 0 = .ok x ∧
        Binary64.pattern x = 0x4340000000000000 ∧
        Literal.parse "009007199254740993" 2 = .ok x ∧
        Literal.parse "9007199254740993." 0 = .ok x ∧
        Literal.parse "9007199254740993.1" 0 = .ok y ∧
        Binary64.pattern y = 0x4340000000000001 ∧
        Binary64.pattern x ≤ Binary64.pattern y := by
  obtain ⟨hdecimal, hmalformed, hconverts, hmono⟩ := parse_plainDecimal
  obtain ⟨d, hd⟩ := (hdecimal "9007199254740993").1 rfl
  obtain ⟨e, he⟩ := (hdecimal "9007199254740993.1").1 rfl
  obtain ⟨x, hx⟩ := hconverts d
  obtain ⟨y, hy⟩ := hconverts e
  have hle : d.value ≤ e.value := by
    have hlow : d.decimal = ⟨9007199254740993, 0⟩ := PlainDecimal.decimal_eq hd rfl
    have hhigh : e.decimal = ⟨90071992547409931, 1⟩ := PlainDecimal.decimal_eq he rfl
    rw [← d.toRat_decimal, ← e.toRat_decimal, hlow, hhigh, Decimal.toRat, Decimal.toRat]
    norm_num
  have hchars : d.chars = "9007199254740993".toList := by
    rw [← hd, PlainDecimal.text, String.toList_ofList]
  have hx' : Literal.parse "9007199254740993" 0 = .ok x := hd ▸ hx.parsed 0
  have hy' : Literal.parse "9007199254740993.1" 0 = .ok y := he ▸ hy.parsed 0
  have hlower : readDecimal ⟨9007199254740993, 0⟩ = x := Except.ok.inj hx'
  have hupper : readDecimal ⟨90071992547409931, 1⟩ = y := Except.ok.inj hy'
  refine ⟨hmalformed "1e5" 3 rfl, x, y, hx', ?_, ?_, ?_, hy', ?_, ?_⟩
  · rw [← hlower]
    decide +kernel
  · refine hx.respelled _ 2 ?_
    rw [hchars]
    exact .leadingZeros 2 _
  · refine hx.respelled _ 0 ?_
    rw [hchars]
    exact .point (by decide)
  · rw [← hupper]
    decide +kernel
  · exact hmono d e x y 0 0 (hx.parsed 0) (hy.parsed 0) hle

end InfixArith
