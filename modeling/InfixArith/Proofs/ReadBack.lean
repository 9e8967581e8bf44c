import InfixArith.Proofs.Binary64.Grids
import InfixArith.Proofs.Binary64.Words
import InfixArith.Proofs.Grammar
import InfixArith.Proofs.LiteralCheck
import InfixArith.Proofs.Log
import Mathlib

/-!
# Numbers that read back

A log tells its values by their texts.  The text of a finite value without a
sign is a literal, and what it is converted to is that value, bit for bit.  So a
value can be taken from a log and evaluated again.

The text is written from the shortest decimal of the pattern, which
`ofChars?_numeral` reads again and `readDecimal_shortest` converts.
`evaluate_of_ofChars?` is the evaluation of a text that is one literal.
-/

namespace InfixArith

open Binary64 (shortest pattern signBit readDecimal)

/-! ## Texts of values -/

/-- The values that an event tells of, in the order of its message. -/
def Event.values {α ρ : Type} : Event α ρ → List α
  | .reduced left _ right value => [left, right, value]
  | .matched .. => []
  | .evaluated _ value => [value]

namespace Event

/-- A message holds the text of each of its values. -/
theorem exists_message_eq {event : Event Float Nat} {x : Float} (h : x ∈ event.values) :
    ∃ front back, event.message = front ++ numeral x ++ back := by
  cases event with
  | reduced left op right value =>
    simp only [values, List.mem_cons, List.not_mem_nil, or_false] at h
    rcases h with h | h | h
    · refine ⟨"reduced ", " " ++ op.toChar.toString ++ " " ++ numeral right ++ " to " ++
        numeral value, ?_⟩
      unfold message
      simp only [h, String.append_assoc]
    · refine ⟨"reduced " ++ numeral left ++ " " ++ op.toChar.toString ++ " ",
        " to " ++ numeral value, ?_⟩
      unfold message
      simp only [h, String.append_assoc]
    · refine ⟨"reduced " ++ numeral left ++ " " ++ op.toChar.toString ++ " " ++ numeral right ++
        " to ", "", ?_⟩
      unfold message
      simp only [h, String.append_assoc, String.append_empty]
  | matched opened closed => cases h
  | evaluated expression value =>
    refine ⟨"evaluated \"" ++ expression ++ "\" to ", "", ?_⟩
    rw [List.mem_singleton.1 h, String.append_empty]
    rfl

section Finite

variable {x : Float} (hfinite : x.isFinite = true)
include hfinite

/-- A value without a sign is written as its shortest decimal. -/
theorem numeral_eq (hsign : signBit x = false) :
    numeral x = String.ofList (shortest (pattern x)).toChars := by
  have hp : pattern x < Binary64.infinity := (Binary64.isFinite_iff x).1 hfinite
  rw [numeral, Binary64.text, if_neg hp.le.not_gt, if_neg (by rw [hsign]; decide),
    Binary64.magnitudeText, if_neg hp.ne]

/-- A value with a sign is written as its negation with a minus in front. -/
theorem numeral_neg (hsign : signBit x = true) : numeral x = "-" ++ numeral (-x) := by
  have hp : pattern x < Binary64.infinity := (Binary64.isFinite_iff x).1 hfinite
  have hpattern : pattern (-x) = pattern x := Binary64.pattern_neg hp.le
  have hsign' : signBit (-x) = false := by
    rw [Binary64.signBit_neg hp.le, hsign]
    rfl
  have hfinite' : (-x).isFinite = true := (Binary64.isFinite_iff (-x)).2 (hpattern ▸ hp)
  rw [numeral_eq hfinite' hsign', hpattern, numeral, Binary64.text, if_neg hp.le.not_gt,
    if_pos hsign, Binary64.magnitudeText, if_neg hp.ne, String.ofList_cons]
  rfl

end Finite

end Event

/-! ## Reading a text back -/

section Unsigned

variable {x : Float} (hfinite : x.isFinite = true) (hsign : signBit x = false)
include hfinite hsign

/-- The text of a value is read as the shortest decimal that it was written
from. -/
theorem ofChars?_numeral :
    Decimal.ofChars? (Event.numeral x).toList = some (shortest (pattern x)) := by
  rw [Event.numeral_eq hfinite hsign, String.toList_ofList]
  exact Decimal.ofChars?_toChars _

/-- That decimal is converted to the value. -/
theorem readDecimal_shortest : readDecimal (shortest (pattern x)) = x := by
  have hp : pattern x < Binary64.infinity := (Binary64.isFinite_iff x).1 hfinite
  rw [readDecimal, (Binary64.shortest_spec hp).1, Binary64.ofPattern_pattern hsign]

end Unsigned

/-- An expression that is one literal has the value of that literal. -/
theorem evaluate_of_ofChars? {text : String} {d : Decimal}
    (h : Decimal.ofChars? text.toList = some d) : evaluate text = .ok (readDecimal d) := by
  have hlex : Token.lex text.toList = [.literal text.toList] :=
    Token.lex_literal (Decimal.chars_of_ofChars? h).1 (Grammar.Numeral.mk _ d h).ofChar?_eq_none
  have hread : Literal.read text.toList = .ok (readDecimal d) := Literal.read_of_ofChars? h
  have htokens : readTokens text = [⟨.literal (.ok (readDecimal d)), 0⟩] := by
    rw [readTokens, tokens, Token.lexPlaced, hlex, ← hread]
    rfl
  rw [evaluate_eq_outcome_run, htokens]
  rfl

/-- A finite value without a sign is written as a plain decimal, and that is
converted to the same value.  With a sign it is written as its negation is, with
a minus in front.  Messages hold these texts, the trace of a reduction one for each
of its operands and one for its value, and the value that the last record of an
evaluation tells can be evaluated again. -/
theorem numerals_read_back :
    (∀ x : Float, x.isFinite = true →
      (signBit x = false → Literal.isDecimal (Event.numeral x) = true ∧
        ∀ position, Literal.parse (Event.numeral x) position = .ok x) ∧
      (signBit x = true → Event.numeral x = "-" ++ Event.numeral (-x))) ∧
    (∀ (event : Event Float Nat), ∀ x ∈ event.values,
      ∃ front back, event.message = front ++ Event.numeral x ++ back) ∧
    (∀ (left : Float) (op : BinaryOp) (right value : Float),
      (Event.reduced left op right value : Event Float Nat).level = .trace ∧
      (Event.reduced left op right value : Event Float Nat).message =
        "reduced " ++ Event.numeral left ++ " " ++ op.toChar.toString ++ " " ++
          Event.numeral right ++ " to " ++ Event.numeral value) ∧
    ∀ (expression : String) (x : Float), evaluate expression = .ok x → x.isFinite = true →
      signBit x = false → ∃ steps record,
        (evaluateOn .empty expression).log = steps ++ [record] ∧
        (∀ event ∈ steps, event.level = .trace) ∧ record.level = .debug ∧
        record.message = "evaluated \"" ++ expression ++ "\" to " ++ Event.numeral x ∧
        evaluate (Event.numeral x) = .ok x := by
  refine ⟨?_, fun event x => Event.exists_message_eq, ?_, ?_⟩
  · intro x hfinite
    refine ⟨?_, Event.numeral_neg hfinite⟩
    intro hsign
    have hread := ofChars?_numeral hfinite hsign
    refine ⟨?_, ?_⟩
    · rw [Literal.isDecimal_eq, Decimal.isText, hread]
      rfl
    · intro position
      rw [Literal.parse_of_ofChars? hread, readDecimal_shortest hfinite hsign]
  · intro left op right value
    exact ⟨rfl, congrArg Prod.snd (Event.line_reduced left op right value)⟩
  · intro expression x hvalue hfinite hsign
    obtain ⟨steps, hlog, hsteps⟩ := (concludes_of_evaluate hvalue).evaluated_last
    refine ⟨steps, _, hlog, hsteps, rfl, rfl, ?_⟩
    rw [evaluate_of_ofChars? (ofChars?_numeral hfinite hsign), readDecimal_shortest hfinite hsign]

/-- The least positive value reads back, and so does the greatest finite one.  A
sign goes in front.  A half is written with a zero before the point. -/
theorem numerals_read_back_ends :
    Literal.parse (Event.numeral (Binary64.ofPattern 1)) 0 = .ok (Binary64.ofPattern 1) ∧
      Literal.parse (Event.numeral (Binary64.ofPattern 0x7fefffffffffffff)) 0 =
        .ok (Binary64.ofPattern 0x7fefffffffffffff) ∧
      Event.numeral (-Binary64.ofPattern 1) = "-" ++ Event.numeral (- -Binary64.ofPattern 1) ∧
      ∃ x, evaluate "1/2" = .ok x ∧ evaluate "0.5" = .ok x ∧ ∃ steps record,
        (evaluateOn .empty "1/2").log = steps ++ [record] ∧
        record.message = "evaluated \"1/2\" to 0.5" := by
  obtain ⟨hnumeral, -, -, hevaluated⟩ := numerals_read_back
  have hhalf : evaluate "1/2" = .ok (Arithmetic.apply .div (readDecimal ⟨1, 0⟩)
    (readDecimal ⟨2, 0⟩)) := rfl
  have htext : Event.numeral (Arithmetic.apply .div (readDecimal ⟨1, 0⟩) (readDecimal ⟨2, 0⟩)) =
    "0.5" := by decide +kernel
  obtain ⟨steps, record, hlog, -, -, hmessage, hagain⟩ :=
    hevaluated _ _ hhalf (by decide +kernel) (by decide +kernel)
  rw [htext] at hmessage hagain
  refine ⟨?_, ?_, ?_, _, hhalf, hagain, steps, record, hlog, hmessage⟩
  · exact ((hnumeral _ (by decide +kernel)).1 (by decide +kernel)).2 0
  · exact ((hnumeral _ (by decide +kernel)).1 (by decide +kernel)).2 0
  · exact (hnumeral _ (by decide +kernel)).2 (by decide +kernel)

end InfixArith
