import InfixArith.Proofs.Places
import InfixArith.Proofs.Postfix.Refinement

/-!
# Juxtaposed operands

Two operands that meet leave one operand too many, and that is a fault at the
end of a run.  A vacant place takes one operand away, wherever it is.  So
juxtaposed operands go unnoticed if exactly as many places are vacant, and if
each operator still finds two operands when it is applied.

`exists_value_iff` says exactly which expressions have a value, and
`juxtaposed_rejected_iff` what follows for juxtaposed operands.
-/

namespace InfixArith

/-! ## The operands that the postfix order leaves -/

/-- The postfix order leaves one operand, and one more for each junction, and
one less for each vacant place. -/
theorem length_add_vacant {expression : String} {operands : List Float}
    (hbalanced : Token.Balanced (Token.lex expression.toList))
    (hdecimal : Token.AllDecimal (Token.lex expression.toList))
    (h : evaluatePostfix [] (postfixOrder (readTokens expression)) = .ok operands) :
    operands.length + Token.vacantCount (Token.lex expression.toList) =
      Token.junctionCount (Token.lex expression.toList) + 1 := by
  have hcode := outcome_execute_schedule (readTokens expression)
    (balanced_readTokens_iff.2 hbalanced) (allRead_readTokens_iff.2 hdecimal)
  rw [h] at hcode
  have hlength := length_of_schedule hcode
  obtain ⟨hliteral, hbinary⟩ := Token.countP_map Literal.read (Token.lex expression.toList)
  rw [map_item_readTokens, hliteral, hbinary, Token.signCount_map] at hlength
  refine Token.add_vacantCount ?_
  simpa [binaryCount] using hlength

/-- What it takes for an expression to have a value. -/
theorem exists_value_iff {expression : String} :
    (∃ value, evaluate expression = .ok value) ↔
      Token.Balanced (Token.lex expression.toList) ∧
        Token.AllDecimal (Token.lex expression.toList) ∧
        Token.vacantCount (Token.lex expression.toList) =
          Token.junctionCount (Token.lex expression.toList) ∧
        ∃ operands, evaluatePostfix [] (postfixOrder (readTokens expression)) =
          .ok operands := by
  constructor
  · rintro ⟨value, hvalue⟩
    have hleft : leftOver (evaluate expression) = some 1 := by
      rw [hvalue]
      rfl
    have hplaces := leftOver_add_vacant hleft
    obtain ⟨hbalanced, hdecimal, -⟩ := accounts_of_leftOver_evaluate hleft
    refine ⟨hbalanced, hdecimal, by omega, ?_⟩
    rw [evaluate_of_balanced hbalanced hdecimal] at hvalue
    cases hoperands : evaluatePostfix [] (postfixOrder (readTokens expression)) with
    | ok operands => exact ⟨operands, rfl⟩
    | error position =>
      rw [hoperands] at hvalue
      cases hvalue
  · rintro ⟨hbalanced, hdecimal, hvacant, operands, hoperands⟩
    have hlength := length_add_vacant hbalanced hdecimal hoperands
    obtain ⟨value, rfl⟩ : ∃ value, operands = [value] :=
      List.length_eq_one_iff.1 (by omega)
    exact ⟨value, by rw [evaluate_of_balanced hbalanced hdecimal, hoperands]; rfl⟩

/-! ## Rejection -/

/-- As many places are vacant as operands meet, and nothing else is wrong. -/
structure Compensated (expression : String) : Prop where
  balanced : Token.Balanced (Token.lex expression.toList)
  decimal : Token.AllDecimal (Token.lex expression.toList)
  vacant_pos : 0 < Token.vacantCount (Token.lex expression.toList)
  vacant_eq : Token.vacantCount (Token.lex expression.toList) =
    Token.junctionCount (Token.lex expression.toList)
  reduces : ∃ operands, evaluatePostfix [] (postfixOrder (readTokens expression)) =
    .ok operands

theorem isValid_eq_false_iff {expression : String} :
    isValid expression = false ↔ ∃ fault, evaluate expression = .error fault := by
  rw [isValid]
  cases evaluate expression <;> simp [Except.isOk, Except.toBool]

/-- Juxtaposed operands are rejected, unless vacant places make up for all of
them. -/
theorem juxtaposed_rejected_iff (expression : String)
    (hjuxtaposed : Token.Juxtaposed (Token.lex expression.toList)) :
    ((∃ fault, evaluate expression = .error fault) ∧ isValid expression = false) ↔
      ¬Compensated expression := by
  have hvalue : Compensated expression ↔ ∃ value, evaluate expression = .ok value := by
    have hjunction : 0 < Token.junctionCount (Token.lex expression.toList) :=
      (Token.juxtaposed_iff (Token.separated_lex expression.toList)).1 hjuxtaposed
    rw [exists_value_iff]
    constructor
    · intro h
      exact ⟨h.balanced, h.decimal, h.vacant_eq, h.reduces⟩
    · rintro ⟨hbalanced, hdecimal, hvacant, hreduces⟩
      exact ⟨hbalanced, hdecimal, hvacant ▸ hjunction, hvacant, hreduces⟩
  rw [isValid_eq_false_iff, and_self, hvalue]
  cases evaluate expression <;> simp

/-- The operator in the parentheses takes the operand in front of them, so
that no operand is left over. -/
theorem juxtaposed_compensated :
    Token.Juxtaposed (Token.lex "2(*3)".toList) ∧ isValid "2(*3)" = true := by
  constructor <;> decide +kernel

/-- Without a vacant place nothing makes up for a junction. -/
theorem juxtaposed_rejected_group :
    Token.Juxtaposed (Token.lex "2(3)".toList) ∧
      (∃ fault, evaluate "2(3)" = .error fault) ∧ isValid "2(3)" = false := by
  have hjuxtaposed : Token.Juxtaposed (Token.lex "2(3)".toList) := by decide +kernel
  have hvacant : Token.vacantCount (Token.lex "2(3)".toList) = 0 := by decide +kernel
  refine ⟨hjuxtaposed, (juxtaposed_rejected_iff "2(3)" hjuxtaposed).2 ?_⟩
  intro h
  have hpos := h.vacant_pos
  omega

end InfixArith
