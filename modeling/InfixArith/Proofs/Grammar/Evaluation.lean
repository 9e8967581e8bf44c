import InfixArith.Proofs.Control
import InfixArith.Proofs.Grammar
import InfixArith.Proofs.Reading

/-!
# Evaluation of derivations

`evaluate_text` states that a text which the grammar derives evaluates to the
value of its derivation.

The work is done by one statement for each nonterminal: where the waiting
symbols admit it and the next token ends it, the tokens of a phrase do
nothing but push the value of the phrase.  All of it holds for any operands,
any arithmetic and any reading of the literals.
-/

namespace InfixArith

open Control

variable {α ρ τ : Type}

/-! ## What the levels of the grammar admit -/

namespace Control

theorem admits_nil (s : Symbol) : Admits ([] : List (Located ρ Symbol)) s := by
  intro top htop
  cases htop

theorem admits_cons {top : Located ρ Symbol} {operators : List (Located ρ Symbol)}
    {s : Symbol} (h : top.item.precedence s = .lower) : Admits (top :: operators) s := by
  intro x hx
  cases hx
  exact h

/-- What admits an operator admits all that are as tight. -/
theorem Admits.of_level_le {operators : List (Located ρ Symbol)} {a b : BinaryOp}
    (h : Admits operators (.binary a)) (hle : a.level ≤ b.level) :
    Admits operators (.binary b) := by
  rintro ⟨op | side, position⟩ htop
  · refine Symbol.precedence_binary_eq_lower_iff.2 ?_
    rcases Symbol.precedence_binary_eq_lower_iff.1 (h _ htop) with hlt | ⟨heq, hright⟩
    · exact .inl (Nat.lt_of_lt_of_le hlt hle)
    · rcases Nat.lt_or_eq_of_le hle with hlt | hlevel
      · exact .inl (by omega)
      · exact .inr ⟨heq.trans hlevel, BinaryOp.groupsRight_of_level_eq hlevel ▸ hright⟩
  · cases side with
    | left => rfl
    | right => exact nomatch h _ htop

/-- What admits an operator admits an opening parenthesis. -/
theorem Admits.opening {operators : List (Located ρ Symbol)} {a : BinaryOp}
    (h : Admits operators (.binary a)) : Admits operators (.paren .left) := by
  rintro ⟨op | side, position⟩ htop
  · rfl
  · cases side with
    | left => rfl
    | right => exact nomatch h _ htop

theorem flushes_nil (op : BinaryOp) : Flushes op ([] : List (Located ρ (Token τ))) := by
  intro token htoken
  cases htoken

theorem flushes_symbol_cons {op : BinaryOp} {s : Symbol}
    (h : (Symbol.binary op).precedence s = .higher) (position : ρ)
    (tokens : List (Located ρ (Token τ))) :
    Flushes op (⟨.symbol s, position⟩ :: tokens) := by
  intro token htoken
  cases htoken
  exact ⟨s, rfl, h⟩

/-- What makes an operator go makes all go that are as tight. -/
theorem Flushes.of_level_le {a b : BinaryOp} {tokens : List (Located ρ (Token τ))}
    (h : Flushes a tokens) (hle : a.level ≤ b.level) : Flushes b tokens := by
  intro token htoken
  obtain ⟨s, hs, hhigher⟩ := h token htoken
  refine ⟨s, hs, ?_⟩
  rcases s with next | side
  · refine Symbol.precedence_binary_eq_higher_iff_level.2 ?_
    rcases Symbol.precedence_binary_eq_higher_iff_level.1 hhigher with hlt | ⟨heq, hleft⟩
    · exact .inl (Nat.lt_of_lt_of_le hlt hle)
    · rcases Nat.lt_or_eq_of_le hle with hlt | hlevel
      · exact .inl (by omega)
      · exact .inr ⟨heq.trans hlevel, hleft⟩
  · cases side with
    | left => cases hhigher
    | right => rfl

end Control

/-! ## Phrases -/

section Phrases

variable [Arithmetic α]

/-- In front of `rest`, the tokens do nothing but push `value`. -/
def Pushes (operators : List (Located ρ Symbol)) (operandStart : Bool)
    (tokens rest : List (Located ρ (Token (Reading α)))) (value : α) : Prop :=
  ∀ stop operands,
    answer stop operands
        ((⟨operators, operandStart⟩ : Control ρ).schedule (tokens ++ rest)) =
      answer stop (value :: operands) ((⟨operators, false⟩ : Control ρ).schedule rest)

/-- In front of `rest`, the tokens do nothing but apply `f` to the topmost
operand. -/
def Combines (operators : List (Located ρ Symbol))
    (tokens rest : List (Located ρ (Token (Reading α)))) (f : α → α) : Prop :=
  ∀ stop left operands,
    answer stop (left :: operands)
        ((⟨operators, false⟩ : Control ρ).schedule (tokens ++ rest)) =
      answer stop (f left :: operands) ((⟨operators, false⟩ : Control ρ).schedule rest)

variable {operators : List (Located ρ Symbol)} {position : ρ} {op : BinaryOp}
  {phrase others rest : List (Located ρ (Token (Reading α)))} {value : α} {f : α → α}

theorem combines_nil : Combines operators [] rest fun left => left := by
  intro stop left operands
  rfl

theorem Pushes.append {operandStart : Bool}
    (hphrase : Pushes operators operandStart phrase (others ++ rest) value)
    (hothers : Combines operators others rest f) :
    Pushes operators operandStart (phrase ++ others) rest (f value) := by
  intro stop operands
  rw [List.append_assoc, hphrase, hothers]

/-- An operator with its right operand combines with what is on the left. -/
theorem Combines.cons (hadmits : Admits operators (.binary op))
    (hphrase : Pushes (⟨.binary op, position⟩ :: operators) false phrase
      (others ++ rest) value)
    (hflush : Flushes op (others ++ rest)) (hothers : Combines operators others rest f) :
    Combines operators (⟨.symbol (.binary op), position⟩ :: phrase ++ others) rest
      fun left => f (Arithmetic.apply op left value) := by
  intro stop left operands
  rw [List.append_assoc, List.cons_append, schedule_admitted hadmits]
  calc answer stop (left :: operands)
        ((⟨⟨.binary op, position⟩ :: operators, false⟩ : Control ρ).schedule
          (phrase ++ (others ++ rest)))
    _ = answer stop (value :: left :: operands)
        ((⟨⟨.binary op, position⟩ :: operators, false⟩ : Control ρ).schedule
          (others ++ rest)) := hphrase stop (left :: operands)
    _ = answer stop (Arithmetic.apply op left value :: operands)
        ((⟨operators, false⟩ : Control ρ).schedule (others ++ rest)) := by
      rw [schedule_flush hflush, answer_reduce]
    _ = _ := hothers stop _ operands

theorem Combines.single (hadmits : Admits operators (.binary op))
    (hphrase : Pushes (⟨.binary op, position⟩ :: operators) false phrase rest value)
    (hflush : Flushes op rest) :
    Combines operators (⟨.symbol (.binary op), position⟩ :: phrase) rest
      fun left => Arithmetic.apply op left value := by
  have h : Combines operators (⟨.symbol (.binary op), position⟩ :: phrase ++ []) rest
      fun left => Arithmetic.apply op left value := by
    refine Combines.cons (f := fun left => left) hadmits ?_ ?_ combines_nil
    · exact hphrase
    · exact hflush
  rwa [List.append_nil] at h

/-- Where an operand may start, a sign combines with zero. -/
theorem Combines.sign (hadmits : Admits operators (.binary op))
    (hsign : (Symbol.binary op).isSign = true)
    (h : Combines operators (⟨.symbol (.binary op), position⟩ :: phrase) rest f) :
    Pushes operators true (⟨.symbol (.binary op), position⟩ :: phrase) rest
      (f Arithmetic.zero) := by
  intro stop operands
  have hzero := h stop Arithmetic.zero operands
  rw [List.cons_append, schedule_admitted hadmits] at hzero ⊢
  simpa [signCode, hsign] using hzero

/-- Parentheses keep their content apart from the symbols below. -/
theorem Pushes.group {opened closed : ρ} {operandStart : Bool}
    (hadmits : Admits operators (.paren .left))
    (h : Pushes (⟨.paren .left, opened⟩ :: operators) true phrase
      (⟨.symbol (.paren .right), closed⟩ :: rest) value) :
    Pushes operators operandStart
      (⟨.symbol (.paren .left), opened⟩ :: phrase ++ [⟨.symbol (.paren .right), closed⟩])
      rest value := by
  intro stop operands
  have hinner := h stop operands
  rw [schedule_close, answer_pair] at hinner
  rw [List.append_assoc, List.cons_append, schedule_admitted hadmits]
  simpa [signCode, Symbol.isSign] using hinner

end Phrases

/-! ## Derivations -/

namespace Grammar

open Token

/-- Plus and minus are the loosest operators, and they group to the left. -/
theorem AddOp.level_eq (op : AddOp) : op.1.level = 1 ∧ op.1.groupsRight = false := by
  obtain ⟨op, rfl | rfl⟩ := op <;> exact ⟨rfl, rfl⟩

theorem AddOp.isSign (op : AddOp) : (Symbol.binary op.1).isSign = true := by
  obtain ⟨op, rfl | rfl⟩ := op <;> rfl

theorem MulOp.level_eq (op : MulOp) : op.1.level = 2 ∧ op.1.groupsRight = false := by
  obtain ⟨op, rfl | rfl⟩ := op <;> exact ⟨rfl, rfl⟩

/-- What admits plus admits every operator of a chain of terms. -/
theorem AddOp.admitted {operators : List (Located ρ Symbol)} (op : AddOp)
    (h : Admits operators (.binary .add)) : Admits operators (.binary op.1) :=
  h.of_level_le (Nat.le_of_eq op.level_eq.1.symm)

theorem MulOp.admitted {operators : List (Located ρ Symbol)} (op : MulOp)
    (h : Admits operators (.binary .mul)) : Admits operators (.binary op.1) :=
  h.of_level_le (Nat.le_of_eq op.level_eq.1.symm)

section Flushes

variable {reading : List Char → Reading α} {rest : List (Located Nat (Token (Reading α)))}

/-- Each operator of a chain of terms makes the one before it go. -/
theorem Terms.flushes (terms : Terms) (start : Nat) (h : Flushes .add rest) :
    Flushes .add (placed reading start terms.tokens ++ rest) := by
  cases terms with
  | nil => exact h
  | cons op term terms =>
    exact flushes_symbol_cons
      (Symbol.precedence_binary_eq_higher_iff_level.2 (.inr op.level_eq)) _ _

theorem Powers.flushes (powers : Powers) (start : Nat) (h : Flushes .mul rest) :
    Flushes .mul (placed reading start powers.tokens ++ rest) := by
  cases powers with
  | nil => exact h
  | cons op power powers =>
    exact flushes_symbol_cons
      (Symbol.precedence_binary_eq_higher_iff_level.2 (.inr op.level_eq)) _ _

end Flushes

section Derivations

/-- A reading of texts that gives decimals the values of `read`. -/
def Reads (reading : List Char → Reading α) (read : Decimal → α) : Prop :=
  ∀ n : Numeral, reading n.chars = .ok (read n.decimal)

variable [Arithmetic α] {read : Decimal → α} {reading : List Char → Reading α}

-- One statement for each nonterminal, by induction on the derivation.  What is
-- below a phrase may be anything that admits its loosest operator, and what is
-- after it anything that makes that operator go.
mutual

theorem Expr.pushes (hread : Reads reading read) :
    ∀ (e : Expr) (start : Nat) {operators : List (Located Nat Symbol)}
    {rest : List (Located Nat (Token (Reading α)))},
    Admits operators (.binary .add) → Flushes .add rest →
    Pushes operators true (placed reading start e.tokens) rest (e.value read)
  | .mk none first terms, start, operators, rest, hadmits, hflush => by
    rw [Expr.tokens, signTokens, List.nil_append, placed_append]
    exact (first.pushes hread start true (hadmits.of_level_le (by decide))
        ((terms.flushes _ hflush).of_level_le (by decide))).append
      (terms.combines hread _ hadmits hflush)
  | .mk (some op) first terms, start, operators, rest, hadmits, hflush => by
    have hchain := (Terms.cons op first terms).combines hread start hadmits hflush
    rw [Terms.tokens, List.cons_append, placed_symbol_cons] at hchain
    exact hchain.sign (op.admitted hadmits) op.isSign

theorem Terms.combines (hread : Reads reading read) :
    ∀ (terms : Terms) (start : Nat)
    {operators : List (Located Nat Symbol)} {rest : List (Located Nat (Token (Reading α)))},
    Admits operators (.binary .add) → Flushes .add rest →
    Combines operators (placed reading start terms.tokens) rest fun left =>
      terms.value read left
  | .nil, start, operators, rest, _, _ => combines_nil
  | .cons op term terms, start, operators, rest, hadmits, hflush => by
    rw [Terms.tokens, List.cons_append, placed_symbol_cons, placed_append]
    refine Combines.cons (op.admitted hadmits) (term.pushes hread _ false (admits_cons ?_) ?_)
      ?_ (terms.combines hread _ hadmits hflush)
    · exact Symbol.precedence_binary_eq_lower_iff.2 (.inl (by rw [op.level_eq.1]; decide))
    · exact (terms.flushes _ hflush).of_level_le (by decide)
    · exact (terms.flushes _ hflush).of_level_le (Nat.le_of_eq op.level_eq.1.symm)

theorem Term.pushes (hread : Reads reading read) :
    ∀ (term : Term) (start : Nat) (operandStart : Bool)
    {operators : List (Located Nat Symbol)} {rest : List (Located Nat (Token (Reading α)))},
    Admits operators (.binary .mul) → Flushes .mul rest →
    Pushes operators operandStart (placed reading start term.tokens) rest (term.value read)
  | .mk first powers, start, operandStart, operators, rest, hadmits, hflush => by
    rw [Term.tokens, placed_append]
    exact (first.pushes hread start operandStart (hadmits.of_level_le (by decide))
        ((powers.flushes _ hflush).of_level_le (by decide))).append
      (powers.combines hread _ hadmits hflush)

theorem Powers.combines (hread : Reads reading read) :
    ∀ (powers : Powers) (start : Nat)
    {operators : List (Located Nat Symbol)} {rest : List (Located Nat (Token (Reading α)))},
    Admits operators (.binary .mul) → Flushes .mul rest →
    Combines operators (placed reading start powers.tokens) rest fun left =>
      powers.value read left
  | .nil, start, operators, rest, _, _ => combines_nil
  | .cons op power powers, start, operators, rest, hadmits, hflush => by
    rw [Powers.tokens, List.cons_append, placed_symbol_cons, placed_append]
    refine Combines.cons (op.admitted hadmits) (power.pushes hread _ false (admits_cons ?_) ?_)
      ?_ (powers.combines hread _ hadmits hflush)
    · exact Symbol.precedence_binary_eq_lower_iff.2 (.inl (by rw [op.level_eq.1]; decide))
    · exact (powers.flushes _ hflush).of_level_le (by decide)
    · exact (powers.flushes _ hflush).of_level_le (Nat.le_of_eq op.level_eq.1.symm)

theorem Power.pushes (hread : Reads reading read) :
    ∀ (power : Power) (start : Nat) (operandStart : Bool)
    {operators : List (Located Nat Symbol)} {rest : List (Located Nat (Token (Reading α)))},
    Admits operators (.binary .pow) → Flushes .pow rest →
    Pushes operators operandStart (placed reading start power.tokens) rest (power.value read)
  | .base base, start, operandStart, operators, rest, hadmits, _ =>
    base.pushes hread start operandStart hadmits.opening
  | .pow base exponent, start, operandStart, operators, rest, hadmits, hflush => by
    rw [Power.tokens, placed_append, placed_symbol_cons]
    exact (base.pushes hread start operandStart hadmits.opening).append
      (Combines.single hadmits
        (exponent.pushes hread _ false (admits_cons (by rfl)) hflush) hflush)

theorem Base.pushes (hread : Reads reading read) :
    ∀ (base : Base) (start : Nat) (operandStart : Bool)
    {operators : List (Located Nat Symbol)} {rest : List (Located Nat (Token (Reading α)))},
    Admits operators (.paren .left) →
    Pushes operators operandStart (placed reading start base.tokens) rest (base.value read)
  | .literal numeral, start, operandStart, operators, rest, _ => by
    intro stop operands
    rw [Base.tokens, placed_literal, hread, List.singleton_append, schedule_literal,
      answer_push]
    rfl
  | .group inner, start, operandStart, operators, rest, hadmits => by
    rw [Base.tokens, List.cons_append, placed_symbol_cons, placed_append]
    exact (inner.pushes hread _ (admits_cons rfl) (flushes_symbol_cons rfl _ _)).group hadmits

end

/-- A run over the tokens of a derivation ends with its value. -/
theorem Expr.outcome_run (hread : Reads reading read) (e : Expr) (stop : Nat) :
    ((Stacks.empty : Stacks α Nat).run (placed reading 0 e.tokens) stop).outcome =
      .ok (e.value read) := by
  have hpush : Pushes [] true (placed reading 0 e.tokens) [] (e.value read) :=
    e.pushes hread 0 (admits_nil _) (flushes_nil _)
  calc ((Stacks.empty : Stacks α Nat).run (placed reading 0 e.tokens) stop).outcome
    _ = answer stop [] ((⟨[], true⟩ : Control Nat).schedule
          (placed reading 0 e.tokens ++ [])) := by
      rw [InfixArith.outcome_run, List.append_nil]
      rfl
    _ = answer stop [e.value read] ((⟨[], false⟩ : Control Nat).schedule []) := hpush stop []
    _ = .ok (e.value read) := rfl

end Derivations

end Grammar

/-! ## Expressions -/

theorem Literal.reads_decimals {α : Type} (value : Decimal → α) :
    Grammar.Reads (Literal.readAs value) value := fun n =>
  Literal.readAs_of_ofChars? n.reads

/-- The texts that pass the check of a literal are the numerals. -/
theorem Literal.isDecimal_iff_exists_numeral {text : String} :
    Literal.isDecimal text = true ↔ ∃ n : Grammar.Numeral, n.text = text := by
  constructor
  · intro h
    rw [← text.ofList_toList] at h
    obtain ⟨d, hd⟩ := Literal.isDecimal_ofList_iff.1 h
    exact ⟨⟨text.toList, d, hd⟩, text.ofList_toList⟩
  · rintro ⟨n, rfl⟩
    exact Literal.isDecimal_ofList_iff.2 ⟨n.decimal, n.reads⟩

/-- A text that the grammar derives has the value of its derivation.  No law is
asked of the arithmetic, and the decimals may have any values.  The numerals of
the grammar are the texts that pass the check of a literal. -/
theorem evaluate_text :
    (∀ text, Literal.isDecimal text = true ↔ ∃ n : Grammar.Numeral, n.text = text) ∧
      (∀ (n : Grammar.Numeral) (position : Nat),
        Literal.parse n.text position = .ok (Binary64.readDecimal n.decimal)) ∧
      ∀ e : Grammar.Expr,
        (∀ (α : Type) [Arithmetic α] (value : Decimal → α),
          evaluateAs value e.text = .ok (e.value value)) ∧
        evaluate e.text = .ok (e.value Binary64.readDecimal) := by
  have hgeneral : ∀ (e : Grammar.Expr) (α : Type) [Arithmetic α] (value : Decimal → α),
      evaluateAs value e.text = .ok (e.value value) := by
    intro e α _ value
    rw [evaluateAs, tokensAs, Grammar.lex_text]
    exact e.outcome_run (Literal.reads_decimals value) _
  refine ⟨fun text => Literal.isDecimal_iff_exists_numeral, ?_, fun e => ⟨hgeneral e, ?_⟩⟩
  · intro n position
    refine Literal.parse_of_ofChars? ?_ position
    rw [Grammar.Numeral.text, String.toList_ofList]
    exact n.reads
  · rw [evaluate_eq_evaluateAs]
    exact hgeneral e Float Binary64.readDecimal

end InfixArith
