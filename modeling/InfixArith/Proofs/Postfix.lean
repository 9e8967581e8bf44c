import InfixArith.Expression
import InfixArith.Proofs.Nesting

/-!
# Postfix order

The postfix order of a list of tokens says where each operator is applied,
in terms of the tokens alone.

An operator waits for the first token after it, in its own group, that is a
closing parenthesis or an operator that it goes before.  `closingPoint` finds
that token.  Tokens of inner groups are skipped: a token is in the group of
the operator exactly when the tokens between the two are balanced.  An
operator that nothing closes waits for the end.

`postfixOrder` puts every operand where it is scanned, a zero before every
sign, and every operator at its closing point.  Of two operators that are
closed at one point, the later one comes first.  `evaluatePostfix` evaluates
such a sequence on one stack of operands.
-/

namespace InfixArith

variable {α ρ τ : Type}

/-- An item of a postfix sequence. -/
inductive PostfixItem (α ρ : Type) where
  | operand (value : α)
  | operator (op : BinaryOp) (position : ρ)

/-! ## Closing points -/

/-- Whether an operator goes when this token of its group arrives. -/
def BinaryOp.closedBy (op : BinaryOp) : Token τ → Bool
  | .symbol (.binary next) => (Symbol.binary op).precedence (.binary next) == .higher
  | .symbol (.paren .right) => true
  | .symbol (.paren .left) | .literal _ => false

/-- The index of the token that closes an operator, in the tokens after the
operator. -/
def closingPoint (op : BinaryOp) (rest : List (Token τ)) : Nat :=
  ((List.range rest.length).find? fun k =>
    Token.Balanced (rest.take k) && rest[k]?.any op.closedBy).getD rest.length

/-! ## The order -/

/-- The operator at index `i`, if it is closed at index `k`. -/
def closedOperator (tokens : List (Located ρ (Token τ))) (k i : Nat) :
    Option (PostfixItem α ρ) :=
  match tokens[i]? with
  | some ⟨.symbol (.binary op), position⟩ =>
    if i + 1 + closingPoint op ((tokens.drop (i + 1)).map Located.item) = k then
      some (.operator op position)
    else
      none
  | _ => none

/-- The operators that are closed at index `k`, the last one first. -/
def closedAt (tokens : List (Located ρ (Token τ))) (k : Nat) : List (PostfixItem α ρ) :=
  (List.range k).reverse.filterMap (closedOperator tokens k)

/-- Whether a group starts at index `k`.  The first token starts one if
`atStart` says so, and any other token if it follows an opening parenthesis. -/
def startsGroup (atStart : Bool) (tokens : List (Located ρ (Token τ))) : (k : Nat) → Bool
  | 0 => atStart
  | k + 1 => tokens[k]?.any fun token => token.item.opensGroup

variable [Arithmetic α]

/-- The operand that a token is scanned to, or the zero of a sign.  A plus or
a minus is a sign where a group starts. -/
def operandsOf (groupStart : Bool) (token : Located ρ (Token (Reading α))) :
    List (PostfixItem α ρ) :=
  match token.item with
  | .literal (.ok value) => [.operand value]
  | .literal (.error _) => []
  | .symbol s => if groupStart && s.isSign then [.operand Arithmetic.zero] else []

/-- The operands that are scanned at index `k`. -/
def operandsAt (atStart : Bool) (tokens : List (Located ρ (Token (Reading α)))) (k : Nat) :
    List (PostfixItem α ρ) :=
  match tokens[k]? with
  | some token => operandsOf (startsGroup atStart tokens k) token
  | none => []

/-- The postfix order of a list of tokens. -/
def postfixOrder (tokens : List (Located ρ (Token (Reading α)))) : List (PostfixItem α ρ) :=
  (List.range (tokens.length + 1)).flatMap fun k =>
    operandsAt true tokens k ++ closedAt tokens k

/-! ## Evaluation -/

/-- Evaluates a postfix sequence.  It ends at the first operator that finds
fewer than two operands, with the position of that operator. -/
def evaluatePostfix : List α → List (PostfixItem α ρ) → Except ρ (List α)
  | operands, [] => .ok operands
  | operands, .operand value :: items => evaluatePostfix (value :: operands) items
  | right :: left :: operands, .operator op _ :: items =>
    evaluatePostfix (Arithmetic.apply op left right :: operands) items
  | _, .operator _ position :: _ => .error position

/-- The answer that a postfix evaluation gives for tokens that end at
`stop`. -/
def postfixAnswer (stop : ρ) : Except ρ (List α) → Except (Fault ρ) α
  | .error position => .error (.missingOperand position)
  | .ok [] => .error (.missingOperand stop)
  | .ok [value] => .ok value
  | .ok operands => .error (.danglingOperands operands.length)

end InfixArith
