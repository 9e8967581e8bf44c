import InfixArith.Binary64.Text
import InfixArith.Fault

/-!
# Literals

A literal is any text between two symbols.  It stands for a number when it
is a plain decimal, and then it stands for the binary64 value nearest to
that decimal.

`isDecimal` checks a text byte by byte, and `readAs` reads it when it has
passed the check.  Which value a decimal has is a parameter of `readAs`.
`read` and `parse` take the binary64 value.
-/

namespace InfixArith.Literal

/-! ## The check -/

/-- What a check of a text has counted so far. -/
structure Tally where
  digits : Nat
  points : Nat

/-- Counts one byte.  The check ends at a byte that is neither a digit nor a
point. -/
def Tally.count? (t : Tally) (byte : UInt8) : Option Tally :=
  if 0x30 ≤ byte ∧ byte ≤ 0x39 then some { t with digits := t.digits + 1 }
  else if byte = 0x2e then some { t with points := t.points + 1 }
  else none

/-- Whether a text is a literal with a value.  The check counts the bytes of
the text, and it asks for one digit at least and one point at most. -/
def isDecimal (text : String) : Bool :=
  match text.toUTF8.data.toList.foldlM Tally.count? ⟨0, 0⟩ with
  | some t => 0 < t.digits ∧ t.points ≤ 1
  | none => false

/-! ## Reading -/

/-- The value of a literal, or its text if it has no value.  It is checked
before it is read. -/
def readAs {α : Type} (value : Decimal → α) (cs : List Char) : Except String α :=
  if isDecimal (String.ofList cs) then
    match Decimal.ofChars? cs with
    | some d => .ok (value d)
    | none => .error (String.ofList cs)
  else
    .error (String.ofList cs)

/-- The binary64 value of a literal, or its text if it has no value. -/
def read (cs : List Char) : Except String Float :=
  readAs Binary64.readDecimal cs

/-- The value of a literal that starts at the given byte offset. -/
def parse (text : String) (position : Nat) : Except (Fault Nat) Float :=
  (read text.toList).mapError (.malformedLiteral · position)

end InfixArith.Literal
