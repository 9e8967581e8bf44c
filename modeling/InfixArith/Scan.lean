import InfixArith.Stacks

/-!
# The scan

A scan goes over the tokens once, from left to right.  Besides the stacks it
keeps one flag, which tells whether an operand may start at the next token:
at the very start, and right after an opening parenthesis.  A plus or a
minus there is a sign, and a zero goes to the operands before it.

The tokens that a scan consumes have been read already.  A literal holds the
operand that it stands for, or its text if it stands for none, and such a
literal is a fault as soon as the scan arrives at it.
-/

namespace InfixArith

/-- What a literal was read as: an operand, or the text that is none. -/
abbrev Reading (α : Type) : Type :=
  Except String α

/-- The stacks, and whether an operand may start at the next token. -/
structure Scan (α ρ : Type) extends Stacks α ρ where
  operandStart : Bool

namespace Scan

variable {α ρ : Type}

/-- A scan that starts on the given stacks. -/
def start (state : Stacks α ρ) : Scan α ρ :=
  ⟨state, true⟩

variable [Arithmetic α]

/-- The operands that an incoming symbol finds.  A sign finds a zero on top
of the others. -/
def operandsFor (scan : Scan α ρ) (s : Symbol) : List α :=
  if scan.operandStart && s.isSign then
    Arithmetic.zero :: scan.operands
  else
    scan.operands

/-- Scans one token. -/
def step (scan : Scan α ρ) (token : Located ρ (Token (Reading α))) : Run α ρ (Scan α ρ) :=
  match token.item with
  | .literal (.ok value) => return ⟨⟨value :: scan.operands, scan.operators⟩, false⟩
  | .literal (.error text) => .fail (.malformedLiteral text token.position)
  | .symbol s => do
    let state ← Stacks.receive ⟨s, token.position⟩ scan.operators (scan.operandsFor s)
    return ⟨state, s == .paren .left⟩

/-- Scans all tokens, the first one first. -/
def steps (scan : Scan α ρ) (tokens : List (Located ρ (Token (Reading α)))) :
    Run α ρ (Scan α ρ) :=
  tokens.foldlM step scan

theorem steps_cons (scan : Scan α ρ) (token : Located ρ (Token (Reading α)))
    (tokens : List (Located ρ (Token (Reading α)))) :
    scan.steps (token :: tokens) = scan.step token >>= fun scan => scan.steps tokens :=
  List.foldlM_cons

/-- A scan may pause anywhere and go on. -/
theorem steps_append (scan : Scan α ρ) (tokens later : List (Located ρ (Token (Reading α)))) :
    scan.steps (tokens ++ later) = scan.steps tokens >>= fun scan => scan.steps later :=
  List.foldlM_append

end Scan

namespace Stacks

variable {α ρ : Type} [Arithmetic α]

/-- The value of the tokens that end at `stop`, when evaluation starts on the
given stacks. -/
def run (state : Stacks α ρ) (tokens : List (Located ρ (Token (Reading α)))) (stop : ρ) :
    Run α ρ α := do
  let scan ← (Scan.start state).steps tokens
  scan.finish stop

end Stacks

end InfixArith
