/-!
# The symbols of an expression

An expression is written with seven symbols: five binary operators and two
parentheses.  Every other character belongs to a literal.

`Symbol.ofChar?` and `Symbol.toChar` are inverse to each other, so a symbol
and its character carry the same information.
-/

namespace InfixArith

/-- The arithmetic operators.  Each one takes two operands. -/
inductive BinaryOp where
  | add
  | sub
  | mul
  | div
  | pow
  deriving DecidableEq

/-- The two sides of a pair of parentheses. -/
inductive Paren where
  | left
  | right
  deriving DecidableEq

/-- A character that never belongs to a literal. -/
inductive Symbol where
  | binary (op : BinaryOp)
  | paren (side : Paren)
  deriving DecidableEq

instance : Coe BinaryOp Symbol := ⟨Symbol.binary⟩

instance : Coe Paren Symbol := ⟨Symbol.paren⟩

/-! ## Characters -/

/-- The character that writes an operator. -/
def BinaryOp.toChar : BinaryOp → Char
  | .add => '+'
  | .sub => '-'
  | .mul => '*'
  | .div => '/'
  | .pow => '^'

/-- The character that writes a parenthesis. -/
def Paren.toChar : Paren → Char
  | .left => '('
  | .right => ')'

namespace Symbol

/-- The character that writes a symbol. -/
def toChar : Symbol → Char
  | .binary op => op.toChar
  | .paren side => side.toChar

/-- The symbol that a character writes, if it writes one. -/
def ofChar? (c : Char) : Option Symbol :=
  if c = '+' then some (.binary .add)
  else if c = '-' then some (.binary .sub)
  else if c = '*' then some (.binary .mul)
  else if c = '/' then some (.binary .div)
  else if c = '^' then some (.binary .pow)
  else if c = '(' then some (.paren .left)
  else if c = ')' then some (.paren .right)
  else none

@[simp]
theorem ofChar?_toChar (s : Symbol) : ofChar? s.toChar = some s := by
  rcases s with op | side
  · cases op <;> rfl
  · cases side <;> rfl

theorem toChar_of_ofChar? {c : Char} {s : Symbol} (h : ofChar? c = some s) :
    s.toChar = c := by
  unfold ofChar? at h
  split at h
  · cases h; simp_all [toChar, BinaryOp.toChar]
  repeat (split at h; · cases h; simp_all [toChar, BinaryOp.toChar, Paren.toChar])
  cases h

/-- A character writes `s` exactly when it is the character of `s`. -/
theorem ofChar?_eq_some_iff {c : Char} {s : Symbol} :
    ofChar? c = some s ↔ s.toChar = c :=
  ⟨toChar_of_ofChar?, fun h => h ▸ ofChar?_toChar s⟩

/-! ## Listing and naming -/

/-- The seven symbols, operators first. -/
def all : List Symbol :=
  [.binary .add, .binary .sub, .binary .mul, .binary .div, .binary .pow,
    .paren .left, .paren .right]

theorem mem_all (s : Symbol) : s ∈ all := by
  rcases s with op | side
  · cases op <;> decide
  · cases side <;> decide

/-- The name of a symbol, with its kind. -/
def name : Symbol → String
  | .binary .add => "Binary(Add)"
  | .binary .sub => "Binary(Sub)"
  | .binary .mul => "Binary(Mul)"
  | .binary .div => "Binary(Div)"
  | .binary .pow => "Binary(Pow)"
  | .paren .left => "Paren(Left)"
  | .paren .right => "Paren(Right)"

/-! ## Signs -/

/-- A plus or a minus is a sign when it stands where an operand may start. -/
def isSign : Symbol → Bool
  | .binary .add | .binary .sub => true
  | _ => false

end Symbol

end InfixArith
