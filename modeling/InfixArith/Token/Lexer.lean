import InfixArith.Token

/-!
# The lexer

Every symbol is a token of its own, and every maximal run of other
characters is one literal.  Blanks, signs of exponents and letters are not
special: they belong to the literal that they stand in.  The lexer therefore
accepts every text.

`lex` builds the tokens from the right.  A character that is no symbol joins
the literal that starts right after it, or starts a literal of its own, and
so no two literals ever touch.  `flatMap_chars_lex` states that the tokens
hold the whole text.
-/

namespace InfixArith.Token

/-- Puts one character in front of the tokens of the text after it. -/
def prepend (c : Char) (ts : List (Token (List Char))) : List (Token (List Char)) :=
  match Symbol.ofChar? c with
  | some s => .symbol s :: ts
  | none =>
    match ts with
    | .literal cs :: ts => .literal (c :: cs) :: ts
    | ts => .literal [c] :: ts

/-- Cuts a text into tokens. -/
def lex (cs : List Char) : List (Token (List Char)) :=
  cs.foldr prepend []

@[simp]
theorem lex_nil : lex [] = [] :=
  rfl

@[simp]
theorem lex_cons (c : Char) (cs : List Char) : lex (c :: cs) = prepend c (lex cs) :=
  rfl

theorem lex_append (cs ds : List Char) : lex (cs ++ ds) = cs.foldr prepend (lex ds) := by
  simp [lex]

/-- The character of a symbol becomes that symbol. -/
@[simp]
theorem prepend_toChar (s : Symbol) (ts : List (Token (List Char))) :
    prepend s.toChar ts = .symbol s :: ts := by
  simp [prepend]

/-- One character more in front is one character more in the tokens. -/
theorem flatMap_chars_prepend (c : Char) (ts : List (Token (List Char))) :
    (prepend c ts).flatMap chars = c :: ts.flatMap chars := by
  unfold prepend
  split
  · rename_i s hs
    simp [Symbol.toChar_of_ofChar? hs]
  · split <;> simp

/-- The tokens of a text hold its characters, in order and all of them. -/
theorem flatMap_chars_lex (cs : List Char) : (lex cs).flatMap chars = cs := by
  induction cs with
  | nil => rfl
  | cons c cs ih => rw [lex_cons, flatMap_chars_prepend, ih]

/-- The tokens of a text, each with the byte offset that it starts at. -/
def lexPlaced (cs : List Char) : List (Located Nat (Token (List Char))) :=
  place 0 (lex cs)

end InfixArith.Token
