import InfixArith.Arithmetic
import InfixArith.Decimal
import InfixArith.Proofs.Tiling

/-!
# The grammar of expressions

    expr  := ['+' | '-'] term (('+' | '-') term)*
    term  := power (('*' | '/') power)*
    power := base ['^' power]
    base  := decimal | '(' expr ')'

A derivation is a tree, with one type for each nonterminal and one for each
of the two repetitions.  `Expr.text` is the text that a derivation derives,
and `Expr.value` is the value that it gives to that text: signs take from
zero, chains fold from the left, and an exponent is evaluated as a whole.

`lex_text` states that the lexer cuts the text of a derivation into the
tokens of the derivation.  Nothing here mentions a stack.
-/

namespace InfixArith.Grammar

/-- The text of a plain decimal, and the decimal that it writes. -/
structure Numeral where
  chars : List Char
  decimal : Decimal
  reads : Decimal.ofChars? chars = some decimal

/-- The text of a numeral. -/
def Numeral.text (n : Numeral) : String :=
  String.ofList n.chars

/-- Plus or minus. -/
abbrev AddOp : Type :=
  { op : BinaryOp // op = .add ∨ op = .sub }

/-- Times or divided by. -/
abbrev MulOp : Type :=
  { op : BinaryOp // op = .mul ∨ op = .div }

mutual

/-- A chain of terms, with a sign in front of the first one or without. -/
inductive Expr where
  | mk (sign : Option AddOp) (first : Term) (rest : Terms)

/-- What follows the first term of a chain. -/
inductive Terms where
  | nil
  | cons (op : AddOp) (term : Term) (rest : Terms)

/-- A chain of powers. -/
inductive Term where
  | mk (first : Power) (rest : Powers)

/-- What follows the first power of a chain. -/
inductive Powers where
  | nil
  | cons (op : MulOp) (power : Power) (rest : Powers)

/-- A base, raised to a power or not. -/
inductive Power where
  | base (base : Base)
  | pow (base : Base) (exponent : Power)

/-- A decimal, or an expression in parentheses. -/
inductive Base where
  | literal (numeral : Numeral)
  | group (inner : Expr)

end

/-! ## Texts -/

/-- The token of a sign, if there is one. -/
def signTokens : Option AddOp → List (Token (List Char))
  | none => []
  | some op => [.symbol op.1]

mutual

def Expr.tokens : Expr → List (Token (List Char))
  | .mk sign first rest => signTokens sign ++ first.tokens ++ rest.tokens

def Terms.tokens : Terms → List (Token (List Char))
  | .nil => []
  | .cons op term rest => .symbol op.1 :: term.tokens ++ rest.tokens

def Term.tokens : Term → List (Token (List Char))
  | .mk first rest => first.tokens ++ rest.tokens

def Powers.tokens : Powers → List (Token (List Char))
  | .nil => []
  | .cons op power rest => .symbol op.1 :: power.tokens ++ rest.tokens

def Power.tokens : Power → List (Token (List Char))
  | .base base => base.tokens
  | .pow base exponent => base.tokens ++ .symbol BinaryOp.pow :: exponent.tokens

def Base.tokens : Base → List (Token (List Char))
  | .literal numeral => [.literal numeral.chars]
  | .group inner => .symbol Paren.left :: inner.tokens ++ [.symbol Paren.right]

end

/-- The text that a derivation derives. -/
def Expr.text (e : Expr) : String :=
  String.ofList (e.tokens.flatMap Token.chars)

/-! ## The lexer on the text of a derivation -/

theorem ofChar?_eq_none_of_isDigit {c : Char} (h : c.isDigit = true) :
    Symbol.ofChar? c = none := by
  cases hs : Symbol.ofChar? c with
  | none => rfl
  | some s =>
    have hc := Symbol.toChar_of_ofChar? hs
    subst hc
    rcases s with op | side
    · cases op <;> cases h
    · cases side <;> cases h

/-- No character of a decimal writes a symbol. -/
theorem Numeral.ofChar?_eq_none (n : Numeral) : ∀ c ∈ n.chars, Symbol.ofChar? c = none := by
  intro c hc
  rcases (Decimal.chars_of_ofChars? n.reads).2 c hc with hdigit | rfl
  · exact ofChar?_eq_none_of_isDigit hdigit
  · rfl

mutual

theorem Expr.separated_tokens : ∀ e : Expr, Token.Separated e.tokens
  | .mk none first rest => by
    have h := Terms.separated_append_tokens rest first.separated_tokens
    simpa [Expr.tokens, signTokens] using h
  | .mk (some op) first rest => by
    have h := Terms.separated_append_tokens rest first.separated_tokens
    simpa [Expr.tokens, signTokens] using Token.separated_symbol_cons op.1 h

theorem Terms.separated_append_tokens : ∀ (rest : Terms) {ts : List (Token (List Char))},
    Token.Separated ts → Token.Separated (ts ++ rest.tokens)
  | .nil, ts, hts => by simpa [Terms.tokens] using hts
  | .cons op term rest, ts, hts => by
    have h := Terms.separated_append_tokens rest
      (Token.separated_append_symbol op.1 hts term.separated_tokens)
    simpa [Terms.tokens] using h

theorem Term.separated_tokens : ∀ t : Term, Token.Separated t.tokens
  | .mk first rest => by
    simpa [Term.tokens] using Powers.separated_append_tokens rest first.separated_tokens

theorem Powers.separated_append_tokens : ∀ (rest : Powers) {ts : List (Token (List Char))},
    Token.Separated ts → Token.Separated (ts ++ rest.tokens)
  | .nil, ts, hts => by simpa [Powers.tokens] using hts
  | .cons op power rest, ts, hts => by
    have h := Powers.separated_append_tokens rest
      (Token.separated_append_symbol op.1 hts power.separated_tokens)
    simpa [Powers.tokens] using h

theorem Power.separated_tokens : ∀ p : Power, Token.Separated p.tokens
  | .base base => base.separated_tokens
  | .pow base exponent =>
    Token.separated_append_symbol _ base.separated_tokens exponent.separated_tokens

theorem Base.separated_tokens : ∀ b : Base, Token.Separated b.tokens
  | .literal numeral =>
    Token.separated_literal (Decimal.chars_of_ofChars? numeral.reads).1
      numeral.ofChar?_eq_none
  | .group inner =>
    Token.separated_append_symbol _
      (Token.separated_symbol_cons _ inner.separated_tokens) Token.separated_nil

end

/-- The lexer cuts the text of a derivation into the tokens of the
derivation. -/
theorem lex_text (e : Expr) : Token.lex e.text.toList = e.tokens := by
  rw [Expr.text, String.toList_ofList, Token.lex_flatMap_chars e.separated_tokens]

/-! ## Values -/

section Value

variable {α : Type} [Arithmetic α] (read : Decimal → α)

mutual

/-- The value of an expression.  A sign takes the first term from zero. -/
def Expr.value : Expr → α
  | .mk none first rest => rest.value first.value
  | .mk (some op) first rest =>
    rest.value (Arithmetic.apply op.1 Arithmetic.zero first.value)

/-- The value of a chain of terms whose first ones have the value `left`. -/
def Terms.value (left : α) : Terms → α
  | .nil => left
  | .cons op term rest => rest.value (Arithmetic.apply op.1 left term.value)

def Term.value : Term → α
  | .mk first rest => rest.value first.value

/-- The value of a chain of powers whose first ones have the value `left`. -/
def Powers.value (left : α) : Powers → α
  | .nil => left
  | .cons op power rest => rest.value (Arithmetic.apply op.1 left power.value)

def Power.value : Power → α
  | .base base => base.value
  | .pow base exponent => Arithmetic.apply .pow base.value exponent.value

def Base.value : Base → α
  | .literal numeral => read numeral.decimal
  | .group inner => inner.value

end

end Value

end InfixArith.Grammar
