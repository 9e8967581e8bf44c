import InfixArith.Symbol

/-!
# Tokens

A token is a symbol or a literal.  What a literal token holds is a
parameter: the lexer produces literals that hold their characters, and the
evaluator consumes literals that hold what those characters were read as.

`Located` pairs any item with a position.  The type of positions is a
parameter as well, because nothing in the evaluator computes with one.
-/

namespace InfixArith

/-- A symbol, or a literal with its content. -/
inductive Token (τ : Type) where
  | literal (content : τ)
  | symbol (s : Symbol)
  deriving DecidableEq

/-- An item and the position that it stands at. -/
structure Located (ρ τ : Type) where
  item : τ
  position : ρ
  deriving DecidableEq

/-! ## Changing the content -/

section Map

variable {τ υ : Type}

/-- Changes the content of a literal. -/
def Token.map (f : τ → υ) : Token τ → Token υ
  | .literal content => .literal (f content)
  | .symbol s => .symbol s

@[simp]
theorem Token.map_literal (f : τ → υ) (content : τ) :
    (Token.literal content).map f = .literal (f content) :=
  rfl

@[simp]
theorem Token.map_symbol (f : τ → υ) (s : Symbol) :
    (Token.symbol s : Token τ).map f = .symbol s :=
  rfl

variable {ρ σ : Type}

/-- Changes the item and keeps the position. -/
def Located.mapItem (f : τ → υ) (x : Located ρ τ) : Located ρ υ :=
  ⟨f x.item, x.position⟩

/-- Changes the position and keeps the item. -/
def Located.mapPosition (f : ρ → σ) (x : Located ρ τ) : Located σ τ :=
  ⟨x.item, f x.position⟩

@[simp]
theorem Located.item_mapItem (f : τ → υ) (x : Located ρ τ) :
    (x.mapItem f).item = f x.item :=
  rfl

@[simp]
theorem Located.position_mapItem (f : τ → υ) (x : Located ρ τ) :
    (x.mapItem f).position = x.position :=
  rfl

@[simp]
theorem Located.item_mapPosition (f : ρ → σ) (x : Located ρ τ) :
    (x.mapPosition f).item = x.item :=
  rfl

@[simp]
theorem Located.position_mapPosition (f : ρ → σ) (x : Located ρ τ) :
    (x.mapPosition f).position = f x.position :=
  rfl

end Map

/-! ## Characters and bytes -/

/-- The number of bytes that the UTF-8 encoding of a text takes. -/
def byteLength : List Char → Nat
  | [] => 0
  | c :: cs => c.utf8Size + byteLength cs

@[simp]
theorem byteLength_nil : byteLength [] = 0 :=
  rfl

@[simp]
theorem byteLength_cons (c : Char) (cs : List Char) :
    byteLength (c :: cs) = c.utf8Size + byteLength cs :=
  rfl

@[simp]
theorem byteLength_append (cs ds : List Char) :
    byteLength (cs ++ ds) = byteLength cs + byteLength ds := by
  induction cs with
  | nil => simp
  | cons c cs ih => simp [ih, Nat.add_assoc]

/-- The byte length of a text is the size of its encoding. -/
theorem byteLength_toList (s : String) : byteLength s.toList = s.utf8ByteSize := by
  have h : ∀ cs : List Char, byteLength cs = (String.ofList cs).utf8ByteSize := by
    intro cs
    induction cs with
    | nil => rfl
    | cons c cs ih =>
      rw [String.ofList_cons, String.utf8ByteSize_append, String.utf8ByteSize_singleton,
        byteLength_cons, ih]
  rw [h, String.ofList_toList]

/-- A text that is not empty takes at least one byte. -/
theorem byteLength_pos {cs : List Char} (h : cs ≠ []) : 0 < byteLength cs := by
  cases cs with
  | nil => exact absurd rfl h
  | cons c cs =>
    have hc := c.utf8Size_pos
    rw [byteLength_cons]
    omega

namespace Token

/-- The characters that a token was cut from. -/
def chars : Token (List Char) → List Char
  | .literal cs => cs
  | .symbol s => [s.toChar]

@[simp]
theorem chars_literal (cs : List Char) : (Token.literal cs).chars = cs :=
  rfl

@[simp]
theorem chars_symbol (s : Symbol) : (Token.symbol s).chars = [s.toChar] :=
  rfl

/-- Gives each token the byte offset of its first character, when the first
token of the list starts at `start`. -/
def place (start : Nat) : List (Token (List Char)) → List (Located Nat (Token (List Char)))
  | [] => []
  | t :: ts => ⟨t, start⟩ :: place (start + byteLength t.chars) ts

@[simp]
theorem place_nil (start : Nat) : place start [] = [] :=
  rfl

@[simp]
theorem place_cons (start : Nat) (t : Token (List Char)) (ts : List (Token (List Char))) :
    place start (t :: ts) = ⟨t, start⟩ :: place (start + byteLength t.chars) ts :=
  rfl

/-- Placing a list in two parts starts the second part where the first one
ends. -/
theorem place_append (start : Nat) (ts us : List (Token (List Char))) :
    place start (ts ++ us) =
      place start ts ++ place (start + byteLength (ts.flatMap chars)) us := by
  induction ts generalizing start with
  | nil => simp
  | cons t ts ih => simp [ih, Nat.add_assoc]

/-- Placing tokens keeps them. -/
theorem map_item_place (start : Nat) (ts : List (Token (List Char))) :
    (place start ts).map Located.item = ts := by
  induction ts generalizing start with
  | nil => rfl
  | cons t ts ih => simp [ih]

end Token

/-- The byte offset just after a placed token. -/
def Located.stop (t : Located Nat (Token (List Char))) : Nat :=
  t.position + byteLength t.item.chars

end InfixArith
