import InfixArith.Symbol

/-!
# Precedence

`Symbol.precedence` compares the symbol on top of the operator stack with
the symbol that comes in.  It is a relation with three answers and not an
order: it also holds which operators group to the right, and it signals a
matched pair of parentheses.
-/

namespace InfixArith

/-- How a stacked symbol stands to an incoming one. -/
inductive Precedence where
  /-- The stacked symbol is reduced first. -/
  | higher
  /-- The two are a matched pair of parentheses. -/
  | equal
  /-- The incoming symbol goes on top of the stacked one. -/
  | lower
  deriving DecidableEq

/-- The word for an answer. -/
def Precedence.toString : Precedence → String
  | .higher => "higher"
  | .equal => "equal"
  | .lower => "lower"

namespace BinaryOp

/-- How tightly an operator binds. -/
def level : BinaryOp → Nat
  | .add | .sub => 1
  | .mul | .div => 2
  | .pow => 3

/-- A chain of powers groups to the right.  All other chains group to the
left. -/
def groupsRight : BinaryOp → Bool
  | .pow => true
  | _ => false

/-- Operators of one level group alike. -/
theorem groupsRight_of_level_eq {a b : BinaryOp} (h : a.level = b.level) :
    a.groupsRight = b.groupsRight := by
  cases a <;> cases b <;> first | rfl | cases h

/-- Whether `top`, which stands to the left of `next`, is applied before
`next` is.  The tighter operator goes first, and between two of one level
the direction of grouping decides. -/
def goesBefore (top next : BinaryOp) : Bool :=
  next.level < top.level || (next.level == top.level && !next.groupsRight)

end BinaryOp

namespace Symbol

/-- Compares a stacked symbol with an incoming one.  An opening parenthesis
leaves the stack only for its partner, and a stray closing parenthesis on
the stack is higher than everything. -/
def precedence : (top incoming : Symbol) → Precedence
  | .paren .left, .paren .right => .equal
  | .paren .left, _ => .lower
  | .paren .right, _ => .higher
  | .binary _, .paren .left => .lower
  | .binary _, .paren .right => .higher
  | .binary top, .binary next => if top.goesBefore next then .higher else .lower

/-- Only a matched pair of parentheses is equal. -/
theorem precedence_eq_equal_iff {top incoming : Symbol} :
    top.precedence incoming = .equal ↔
      top = .paren .left ∧ incoming = .paren .right := by
  rcases top with op | side <;> rcases incoming with next | other
  · cases op <;> cases next <;> decide
  · cases op <;> cases other <;> decide
  · cases side <;> cases next <;> decide
  · cases side <;> cases other <;> decide

/-- An operator is lower than an incoming operator that binds more tightly,
and than one of its own level that groups to the right. -/
theorem precedence_binary_eq_lower_iff {top next : BinaryOp} :
    (Symbol.binary top).precedence (.binary next) = .lower ↔
      top.level < next.level ∨ top.level = next.level ∧ next.groupsRight = true := by
  cases top <;> cases next <;> decide

/-- An operator is higher than a looser incoming operator, and than one of
its own level that groups to the left. -/
theorem precedence_binary_eq_higher_iff_level {top next : BinaryOp} :
    (Symbol.binary top).precedence (.binary next) = .higher ↔
      next.level < top.level ∨ next.level = top.level ∧ next.groupsRight = false := by
  cases top <;> cases next <;> decide

end Symbol

end InfixArith
