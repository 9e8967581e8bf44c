import InfixArith.Literal
import InfixArith.Scan
import InfixArith.Token.Lexer

/-!
# Expressions

The entry points of the library.  An expression is a string, its positions
are byte offsets, and its operands are binary64 values.

`evaluateOn` starts on stacks that may hold operands and symbols already,
and keeps the log of the run.  `evaluate` starts on empty stacks and keeps
the outcome only, and `isValid` tells whether that outcome is a value.
-/

namespace InfixArith

/-- The tokens of an expression, each with its byte offset. -/
def tokens (expression : String) : List (Located Nat (Token (List Char))) :=
  Token.lexPlaced expression.toList

/-- The tokens of an expression, with their literals read. -/
def readTokens (expression : String) : List (Located Nat (Token (Reading Float))) :=
  (tokens expression).map (Located.mapItem (Token.map Literal.read))

/-- Evaluates an expression from the given stacks.  An event for the value
comes last, and only if there is a value. -/
def evaluateOn (state : Stacks Float Nat) (expression : String) : Run Float Nat Float := do
  let value ← state.run (readTokens expression) (byteLength expression.toList)
  .record (.evaluated expression value)
  return value

/-- The value of an expression, or the fault that it has none for. -/
def evaluate (expression : String) : Except (Fault Nat) Float :=
  (evaluateOn .empty expression).outcome

/-- Whether an expression has a value. -/
def isValid (expression : String) : Bool :=
  (evaluate expression).isOk

end InfixArith
