/-!
# Faults

A fault is the reason why an expression has no value.  Three of the four
faults have a position, which tells where in the expression the reason is.
The type of positions is a parameter.  `Fault.message` is the text of a
fault whose position is a byte offset.
-/

namespace InfixArith

/-- Why an expression has no value. -/
inductive Fault (ρ : Type) where
  /-- The literal at this position is not a plain decimal. -/
  | malformedLiteral (text : String) (position : ρ)
  /-- The operator at this position lacks an operand, or the expression ends
  at this position without any value. -/
  | missingOperand (position : ρ)
  /-- The parenthesis at this position has no partner. -/
  | unbalancedParenthesis (position : ρ)
  /-- So many values are left, and no operator combines them. -/
  | danglingOperands (count : Nat)
  deriving DecidableEq

namespace Fault

/-- Changes the position. -/
def map {ρ σ : Type} (f : ρ → σ) : Fault ρ → Fault σ
  | .malformedLiteral text position => .malformedLiteral text (f position)
  | .missingOperand position => .missingOperand (f position)
  | .unbalancedParenthesis position => .unbalancedParenthesis (f position)
  | .danglingOperands count => .danglingOperands count

/-- The text that reports a fault. -/
def message : Fault Nat → String
  | .malformedLiteral text position =>
    "Error at " ++ position.repr ++ ": Malformed number literal '" ++ text ++ "'."
  | .missingOperand position =>
    "Error at " ++ position.repr ++ ": Missing operand."
  | .unbalancedParenthesis position =>
    "Error at " ++ position.repr ++ ": Unbalanced parenthesis."
  | .danglingOperands count =>
    "Error: Expression left " ++ count.repr ++
      " operands without an operator between them."

end Fault

end InfixArith
