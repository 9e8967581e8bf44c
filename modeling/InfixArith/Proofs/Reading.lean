import InfixArith.Expression
import InfixArith.Proofs.LiteralCheck
import InfixArith.Proofs.Nesting
import InfixArith.Proofs.Tiling

/-!
# Reading the tokens of an expression

The evaluator works on tokens that have been placed and read.  This module
leads from an expression to such tokens and back: what they are, when every
literal has been read, and that an evaluation ends as their run does.

`Scan.step_literal` says that a scan takes a literal as `Literal.parse` takes its
text.  `evaluateAs` evaluates an expression in any arithmetic, with any values for
its decimals.  An evaluation is the case of binary64 values
(`evaluate_eq_evaluateAs`).
-/

namespace InfixArith

variable {α ρ : Type}

/-! ## Placed tokens -/

namespace Token

/-- Tokens that start at `start`, with their literals read. -/
def placed (read : List Char → Reading α) (start : Nat) (ts : List (Token (List Char))) :
    List (Located Nat (Token (Reading α))) :=
  (place start ts).map (Located.mapItem (Token.map read))

variable (read : List Char → Reading α) (start : Nat)

theorem placed_cons (t : Token (List Char)) (ts : List (Token (List Char))) :
    placed read start (t :: ts) =
      ⟨t.map read, start⟩ :: placed read (start + byteLength t.chars) ts :=
  rfl

theorem placed_symbol_cons (s : Symbol) (ts : List (Token (List Char))) :
    placed read start (.symbol s :: ts) =
      ⟨.symbol s, start⟩ :: placed read (start + byteLength [s.toChar]) ts :=
  rfl

theorem placed_literal (cs : List Char) :
    placed read start [.literal cs] = [⟨.literal (read cs), start⟩] :=
  rfl

theorem placed_append (ts us : List (Token (List Char))) :
    placed read start (ts ++ us) =
      placed read start ts ++ placed read (start + byteLength (ts.flatMap chars)) us := by
  rw [placed, place_append, List.map_append]
  rfl

/-- Tokens that start later stand later by as much. -/
theorem placed_add (offset : Nat) (ts : List (Token (List Char))) :
    placed read (offset + start) ts =
      (placed read start ts).map (Located.mapPosition (offset + ·)) := by
  induction ts generalizing start with
  | nil => rfl
  | cons t ts ih =>
    rw [placed_cons, placed_cons, List.map_cons, Nat.add_assoc, ih]
    rfl

/-- No token stands before the start. -/
theorem le_position_of_mem_placed {read : List Char → Reading α} {start : Nat}
    {ts : List (Token (List Char))} {token : Located Nat (Token (Reading α))}
    (h : token ∈ placed read start ts) : start ≤ token.position := by
  induction ts generalizing start with
  | nil => cases h
  | cons t ts ih =>
    rcases List.mem_cons.1 h with rfl | h
    · exact Nat.le_refl _
    · exact Nat.le_trans (Nat.le_add_right _ _) (ih h)

/-- No token stands at the end, or behind it. -/
theorem position_lt_of_mem_placed {read : List Char → Reading α} {start : Nat}
    {ts : List (Token (List Char))} (hts : Separated ts)
    {token : Located Nat (Token (Reading α))} (h : token ∈ placed read start ts) :
    token.position < start + byteLength (ts.flatMap chars) := by
  induction ts generalizing start with
  | nil => cases h
  | cons t ts ih =>
    have hpos : 0 < byteLength t.chars := (hts.proper t List.mem_cons_self).byteLength_chars_pos
    rw [List.flatMap_cons, byteLength_append]
    rcases List.mem_cons.1 h with rfl | h
    · show start < _
      omega
    · have hrest := ih hts.tail h
      omega

theorem map_item_placed (ts : List (Token (List Char))) :
    (placed read start ts).map Located.item = ts.map (Token.map read) := by
  induction ts generalizing start with
  | nil => rfl
  | cons t ts ih => rw [placed_cons, List.map_cons, ih, List.map_cons]

theorem balanced_placed_iff {ts : List (Token (List Char))} :
    Balanced ((placed read start ts).map Located.item) ↔ Balanced ts := by
  rw [Balanced, Balanced, map_item_placed, nesting_map]

/-- The offsets of separated tokens increase. -/
theorem pairwise_position_placed (read : List Char → Reading α) (start : Nat)
    {ts : List (Token (List Char))} (h : Separated ts) :
    ((placed read start ts).map Located.position).Pairwise (· < ·) := by
  induction ts generalizing start with
  | nil => exact .nil
  | cons t ts ih =>
    rw [placed_cons, List.map_cons, List.pairwise_cons]
    refine ⟨?_, ih _ h.tail⟩
    intro position hposition
    obtain ⟨token, htoken, rfl⟩ := List.mem_map.1 hposition
    have hle := le_position_of_mem_placed htoken
    have hpos : 0 < byteLength t.chars := (h.proper t List.mem_cons_self).byteLength_chars_pos
    show start < token.position
    omega

end Token

/-! ## Literals -/

/-- No literal failed to be read. -/
def AllRead (tokens : List (Located ρ (Token (Reading α)))) : Prop :=
  ∀ token ∈ tokens, ∀ text, token.item ≠ .literal (.error text)

namespace Token

/-- Whether a token is no literal but a decimal. -/
def isDecimal : Token (List Char) → Bool
  | .literal cs => Literal.isDecimal (String.ofList cs)
  | .symbol _ => true

/-- Every literal is a plain decimal. -/
def AllDecimal (ts : List (Token (List Char))) : Prop :=
  ∀ t ∈ ts, t.isDecimal = true

instance (ts : List (Token (List Char))) : Decidable (AllDecimal ts) :=
  inferInstanceAs (Decidable (∀ t ∈ ts, t.isDecimal = true))

/-- The literals of placed tokens are read exactly when all of them are
decimals. -/
theorem allRead_placed_iff {value : Decimal → α} {start : Nat} {ts : List (Token (List Char))} :
    AllRead (placed (Literal.readAs value) start ts) ↔ AllDecimal ts := by
  induction ts generalizing start with
  | nil => exact iff_of_true (List.forall_mem_nil _) (List.forall_mem_nil _)
  | cons t ts ih =>
    rw [AllRead, AllDecimal, placed_cons, List.forall_mem_cons, List.forall_mem_cons]
    refine and_congr ?_ ih
    rcases t with cs | s
    · simp [isDecimal, Literal.readAs_eq_error_iff]
    · simp [isDecimal]

end Token

/-- A scan takes a literal as `parse` takes its text. -/
theorem Scan.step_literal (scan : Scan Float Nat) (cs : List Char) (position : Nat) :
    (scan.step ⟨.literal (Literal.read cs), position⟩).outcome =
      (Literal.parse (String.ofList cs) position).map fun value =>
        ⟨⟨value :: scan.operands, scan.operators⟩, false⟩ := by
  rw [Literal.parse, String.toList_ofList]
  cases Literal.read cs <;> rfl

/-! ## Expressions -/

/-- The tokens of an expression are the tokens of its text, placed and read. -/
theorem readTokens_eq_placed (expression : String) :
    readTokens expression =
      Token.placed Literal.read 0 (Token.lex expression.toList) :=
  rfl

/-- The outcome of an evaluation is the outcome of its run. -/
theorem outcome_evaluateOn (state : Stacks Float Nat) (expression : String) :
    (evaluateOn state expression).outcome =
      (state.run (readTokens expression) (byteLength expression.toList)).outcome := by
  rw [evaluateOn, Recorded.outcome_bind]
  cases (state.run (readTokens expression) (byteLength expression.toList)).outcome <;> rfl

/-- The same on empty stacks. -/
theorem evaluate_eq_outcome_run (expression : String) :
    evaluate expression =
      ((Stacks.empty : Stacks Float Nat).run (readTokens expression)
        (byteLength expression.toList)).outcome :=
  outcome_evaluateOn .empty expression

/-- The offset of a token is less than the length of the expression. -/
theorem position_lt_of_mem_readTokens {expression : String}
    {token : Located Nat (Token (Reading Float))} (h : token ∈ readTokens expression) :
    token.position < byteLength expression.toList := by
  have hlt := Token.position_lt_of_mem_placed (Token.separated_lex expression.toList) h
  rwa [Token.flatMap_chars_lex, Nat.zero_add] at hlt

/-- The offsets of the tokens increase. -/
theorem pairwise_position_readTokens (expression : String) :
    ((readTokens expression).map Located.position).Pairwise (· < ·) :=
  Token.pairwise_position_placed Literal.read 0 (Token.separated_lex expression.toList)

theorem map_item_readTokens (expression : String) :
    (readTokens expression).map Located.item =
      (Token.lex expression.toList).map (Token.map Literal.read) :=
  Token.map_item_placed Literal.read 0 _

theorem balanced_readTokens_iff {expression : String} :
    Token.Balanced ((readTokens expression).map Located.item) ↔
      Token.Balanced (Token.lex expression.toList) :=
  Token.balanced_placed_iff Literal.read 0

theorem allRead_readTokens_iff {expression : String} :
    AllRead (readTokens expression) ↔ Token.AllDecimal (Token.lex expression.toList) :=
  Token.allRead_placed_iff

/-! ## Any arithmetic -/

/-- The tokens of an expression, with their literals read as the given values. -/
def tokensAs (value : Decimal → α) (expression : String) :
    List (Located Nat (Token (Reading α))) :=
  Token.placed (Literal.readAs value) 0 (Token.lex expression.toList)

/-- The value of an expression in any arithmetic, when its decimals have the
given values, or the fault that it has none for. -/
def evaluateAs [Arithmetic α] (value : Decimal → α) (expression : String) :
    Except (Fault Nat) α :=
  ((Stacks.empty : Stacks α Nat).run (tokensAs value expression)
    (byteLength expression.toList)).outcome

theorem evaluate_eq_evaluateAs (expression : String) :
    evaluate expression = evaluateAs Binary64.readDecimal expression :=
  evaluate_eq_outcome_run expression

end InfixArith
