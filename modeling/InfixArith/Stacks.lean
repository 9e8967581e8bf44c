import InfixArith.Arithmetic
import InfixArith.Event
import InfixArith.Fault
import InfixArith.Precedence
import InfixArith.Recorded
import InfixArith.Token

/-!
# The two stacks

An evaluation keeps operands that wait for an operator, and symbols that
wait for their right operand or their partner.  Both are stacks, and both
are lists here whose head is the top.

* `reduce` takes one symbol off: it applies an operator to the two topmost
  operands.  A parenthesis cannot be applied, and it is a fault to try.
* `receive` brings one symbol in.  Symbols that are higher are reduced first.
  Then the incoming symbol meets its partner, or it is stacked.
* `drain` reduces all that is left, and `finish` asks for exactly one value
  after that.
-/

namespace InfixArith

/-- Waiting operands and waiting symbols, each with the topmost first. -/
structure Stacks (α ρ : Type) where
  operands : List α
  operators : List (Located ρ Symbol)

/-- A run over operands of type `α` and positions of type `ρ`. -/
abbrev Run (α ρ : Type) : Type → Type :=
  Recorded (Event α ρ) (Fault ρ)

namespace Stacks

variable {α ρ : Type}

/-- The stacks at the start of an evaluation. -/
def empty : Stacks α ρ :=
  ⟨[], []⟩

variable [Arithmetic α]

/-- Applies a symbol to the two topmost operands.  The topmost one is the
right operand. -/
def reduce (top : Located ρ Symbol) (operands : List α) : Run α ρ (List α) :=
  match top.item, operands with
  | .paren _, _ => .fail (.unbalancedParenthesis top.position)
  | .binary op, right :: left :: rest => do
    let value := Arithmetic.apply op left right
    .record (.reduced left op right value)
    return value :: rest
  | .binary _, _ => .fail (.missingOperand top.position)

/-- Brings an incoming symbol to the stacks. -/
def receive (incoming : Located ρ Symbol) :
    (operators : List (Located ρ Symbol)) → (operands : List α) → Run α ρ (Stacks α ρ)
  | [], operands => return ⟨operands, [incoming]⟩
  | top :: rest, operands =>
    match top.item.precedence incoming.item with
    | .higher => do
      let operands ← reduce top operands
      receive incoming rest operands
    | .equal => do
      .record (.matched top.position incoming.position)
      return ⟨operands, rest⟩
    | .lower => return ⟨operands, incoming :: top :: rest⟩

/-- Reduces every waiting symbol, the topmost first. -/
def drain (state : Stacks α ρ) : Run α ρ (List α) :=
  state.operators.foldlM (fun operands top => reduce top operands) state.operands

/-- The only value among the operands.  An expression without any value
misses an operand at its end. -/
def onlyValue (stop : ρ) : (operands : List α) → Run α ρ α
  | [] => .fail (.missingOperand stop)
  | [value] => return value
  | operands => .fail (.danglingOperands operands.length)

/-- Ends an evaluation at the position `stop`. -/
def finish (stop : ρ) (state : Stacks α ρ) : Run α ρ α := do
  let operands ← state.drain
  onlyValue stop operands

end Stacks

end InfixArith
