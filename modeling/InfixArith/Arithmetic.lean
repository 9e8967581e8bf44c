import InfixArith.Symbol

/-!
# Arithmetic

`Arithmetic α` says what the operators do on operands of type `α`, and which
operand a sign takes from.  No law is asked of it.  The evaluator works for
every such type, and binary64 values are one of them.
-/

namespace InfixArith

/-- Operands that the five operators work on. -/
class Arithmetic (α : Type) where
  /-- The operand to the left of a sign. -/
  zero : α
  /-- The value of an operator at its left and its right operand. -/
  apply : BinaryOp → α → α → α

/-- The arithmetic of binary64 values.  A division by zero is an infinity or
no number, as the standard for these values has it, and so every operator
has a value. -/
instance : Arithmetic Float where
  zero := 0.0
  apply
    | .add, left, right => left + right
    | .sub, left, right => left - right
    | .mul, left, right => left * right
    | .div, left, right => left / right
    | .pow, left, right => Float.pow left right

end InfixArith
