import InfixArith.Binary64.Text
import InfixArith.Symbol

/-!
# Events

An evaluation records three kinds of events: an operator was applied, a pair
of parentheses was matched, and the whole expression has a value.  The types
of operands and positions are parameters.  `Event.level` and `Event.message`
are the two columns of a written log.
-/

namespace InfixArith

/-- What a run records. -/
inductive Event (α ρ : Type) where
  /-- The operator was applied to two operands. -/
  | reduced (left : α) (op : BinaryOp) (right value : α)
  /-- The parentheses at these positions are partners. -/
  | matched (opened closed : ρ)
  /-- The expression has this value. -/
  | evaluated (expression : String) (value : α)

/-- How much detail an event is. -/
inductive Level where
  | trace
  | debug
  deriving DecidableEq

/-- The word for a level. -/
def Level.toString : Level → String
  | .trace => "TRACE"
  | .debug => "DEBUG"

namespace Event

variable {α β ρ σ : Type}

/-- Changes the operands and the positions. -/
def map (f : α → β) (g : ρ → σ) : Event α ρ → Event β σ
  | .reduced left op right value => .reduced (f left) op (f right) (f value)
  | .matched opened closed => .matched (g opened) (g closed)
  | .evaluated expression value => .evaluated expression (f value)

/-- The steps of a run are traced, and its value is a debug message. -/
def level : Event α ρ → Level
  | .reduced .. | .matched .. => .trace
  | .evaluated .. => .debug

/-- The text of a value. -/
def numeral (x : Float) : String :=
  String.ofList (Binary64.text x)

/-- The text of an event.  An expression that has a value holds digits,
points and symbols only, so it needs no escapes between its quotes. -/
def message : Event Float Nat → String
  | .reduced left op right value =>
    "reduced " ++ numeral left ++ " " ++ op.toChar.toString ++ " " ++ numeral right ++
      " to " ++ numeral value
  | .matched opened closed =>
    "matched parentheses at " ++ opened.repr ++ " and " ++ closed.repr
  | .evaluated expression value =>
    "evaluated \"" ++ expression ++ "\" to " ++ numeral value

end Event

end InfixArith
