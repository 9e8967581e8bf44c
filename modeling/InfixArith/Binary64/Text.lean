import InfixArith.Binary64.Shortest

/-!
# Text of binary64 values

`ofPattern` and `pattern` move between patterns and values.  `readDecimal`
is the value that a plain decimal stands for, and `text` writes a value.

A finite value is written positionally, whatever its size, with the digits
of its shortest decimal and a minus sign if its sign bit is set.  There is
never an exponent, and no point without a digit after it.
-/

namespace InfixArith.Binary64

/-- The non-negative value of a pattern. -/
def ofPattern (pattern : Nat) : Float :=
  Float.ofBits (UInt64.ofNat pattern)

/-- The pattern of the magnitude of a value. -/
def pattern (x : Float) : Nat :=
  x.toBits.toNat % signWeight

/-- Whether the sign bit of a value is set. -/
def signBit (x : Float) : Bool :=
  signWeight ≤ x.toBits.toNat

/-- The value nearest to a decimal. -/
def readDecimal (d : Decimal) : Float :=
  ofPattern (ofDecimal d)

/-- The text of a pattern that is not above infinity. -/
def magnitudeText (pattern : Nat) : List Char :=
  if pattern = infinity then ['i', 'n', 'f'] else (shortest pattern).toChars

/-- The text of a value.  Infinity is written as a word, with its sign.  A
pattern above infinity stands for no number, and its sign is not shown. -/
def text (x : Float) : List Char :=
  if infinity < pattern x then ['N', 'a', 'N']
  else if signBit x then '-' :: magnitudeText (pattern x)
  else magnitudeText (pattern x)

end InfixArith.Binary64
