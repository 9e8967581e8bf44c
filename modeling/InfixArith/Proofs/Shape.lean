import InfixArith.Proofs.Formula

/-!
# Shapes

The shape of an expression is what is left of its tokens when the decimals are
taken out.  A literal that is no decimal keeps its text.

The shape alone decides what an evaluation does.  `symbolicRun` runs over a
shape: its operands are formulas, and its positions are the numbers of tokens.
`run_eq_rename_symbolic` says that the run of an expression is the run of its
shape, with the formulas worked out and the numbers replaced by offsets.
`evaluate_of_shape_eq` is what follows for two expressions of one shape.
-/

namespace InfixArith

/-! ## The shape of an expression -/

/-- A token with its decimal taken out. -/
def Token.shape : Token (List Char) → Token (Option (List Char)) :=
  Token.map fun cs => if Literal.isDecimal (String.ofList cs) then none else some cs

/-- The tokens of an expression with their decimals taken out. -/
def shapeOf (expression : String) : List (Token (Option (List Char))) :=
  (Token.lex expression.toList).map Token.shape

/-- The tokens of a shape, with the number of each token as its position.  The
decimals are numbered too, and stand for the literals of a formula. -/
def numbered (position index : Nat) :
    List (Token (Option (List Char))) → List (Located Nat (Token (Reading Formula)))
  | [] => []
  | .literal none :: ts =>
    ⟨.literal (.ok (.literal index)), position⟩ :: numbered (position + 1) (index + 1) ts
  | .literal (some cs) :: ts =>
    ⟨.literal (.error (String.ofList cs)), position⟩ :: numbered (position + 1) index ts
  | .symbol s :: ts => ⟨.symbol s, position⟩ :: numbered (position + 1) index ts

/-- The run of a shape. -/
def symbolicRun (shape : List (Token (Option (List Char)))) : Run Formula Nat Formula :=
  (Stacks.empty : Stacks Formula Nat).run (numbered 0 0 shape) shape.length

/-! ## The expressions of a shape -/

/-- The value of a token, if it is a decimal. -/
def Token.decimalValue? : Token (List Char) → Option Float
  | .literal cs => (Literal.read cs).toOption
  | .symbol _ => none

/-- The values of the decimals of an expression, in their order. -/
def literalValues (expression : String) : List Float :=
  (Token.lex expression.toList).filterMap Token.decimalValue?

/-- The offset of a token, by its number.  After the last token comes the end of
the expression. -/
def offsetOf (expression : String) (number : Nat) : Nat :=
  ((tokens expression)[number]?.map Located.position).getD (byteLength expression.toList)

/-- A token is a decimal with a value, a literal that keeps its text, or a symbol. -/
theorem Token.shape_cases (t : Token (List Char)) :
    (∃ value, t.shape = .literal none ∧ t.decimalValue? = some value ∧
        t.map Literal.read = .literal (.ok value)) ∨
      (∃ cs, t.shape = .literal (some cs) ∧ t.decimalValue? = none ∧
        t.map Literal.read = .literal (.error (String.ofList cs))) ∨
      ∃ s, t.shape = .symbol s ∧ t.decimalValue? = none ∧ t.map Literal.read = .symbol s := by
  rcases t with cs | s
  · rw [shape, Token.map_literal, Token.map_literal, decimalValue?, Literal.read,
      Literal.readAs_eq, Literal.isDecimal_ofList, Decimal.isText]
    cases Decimal.ofChars? cs with
    | some d => exact .inl ⟨_, rfl, rfl, rfl⟩
    | none => exact .inr (.inl ⟨cs, rfl, rfl, rfl⟩)
  · exact .inr (.inr ⟨s, rfl, rfl, rfl⟩)

/-- The tokens of a text are those of its shape, with the values and the offsets
put in. -/
theorem map_rename_numbered {values : List Float} {offset : Nat → Nat}
    {position index start : Nat} {ts : List (Token (List Char))}
    (hoffset : ∀ n token, (Token.place start ts)[n]? = some token →
      offset (position + n) = token.position)
    (hvalues : ∀ n value, (ts.filterMap Token.decimalValue?)[n]? = some value →
      values[index + n]? = some value) :
    (numbered position index (ts.map Token.shape)).map
        (Located.rename (Formula.value values) offset) =
      Token.placed Literal.read start ts := by
  induction ts generalizing position index start with
  | nil => rfl
  | cons t ts ih =>
    have hposition : offset position = start := hoffset 0 _ rfl
    have hlater : ∀ n token, (Token.place (start + byteLength t.chars) ts)[n]? = some token →
        offset (position + 1 + n) = token.position := by
      intro n token htoken
      rw [Nat.add_assoc, Nat.add_comm 1 n]
      exact hoffset (n + 1) token htoken
    rw [List.map_cons, Token.placed_cons]
    rcases t.shape_cases with ⟨value, hshape, hvalue, hread⟩ | ⟨cs, hshape, hnone, hread⟩ |
      ⟨s, hshape, hnone, hread⟩
    · rw [List.filterMap_cons_some hvalue] at hvalues
      have hothers : ∀ n other, (ts.filterMap Token.decimalValue?)[n]? = some other →
          values[index + 1 + n]? = some other := by
        intro n other hother
        rw [Nat.add_assoc, Nat.add_comm 1 n]
        exact hvalues (n + 1) other hother
      have hleaf : Formula.value values (.literal index) = value := by
        rw [Formula.value, List.getD_eq_getElem?_getD, ← Nat.add_zero index, hvalues 0 value rfl]
        rfl
      rw [hshape, numbered, List.map_cons, ih hlater hothers, hread, ← hleaf, ← hposition]
      rfl
    · rw [List.filterMap_cons_none hnone] at hvalues
      rw [hshape, numbered, List.map_cons, ih hlater hvalues, hread, ← hposition]
      rfl
    · rw [List.filterMap_cons_none hnone] at hvalues
      rw [hshape, numbered, List.map_cons, ih hlater hvalues, hread, ← hposition]
      rfl

/-- The run of an expression is the run of its shape, with the formulas worked out
and the numbers of tokens replaced by their offsets. -/
theorem run_eq_rename_symbolic (expression : String) :
    (Stacks.empty : Stacks Float Nat).run (readTokens expression)
        (byteLength expression.toList) =
      Run.rename (Formula.value (literalValues expression)) (offsetOf expression)
        (Formula.value (literalValues expression)) (symbolicRun (shapeOf expression)) := by
  have htokens : (numbered 0 0 (shapeOf expression)).map
      (Located.rename (Formula.value (literalValues expression)) (offsetOf expression)) =
        readTokens expression := by
    refine map_rename_numbered ?_ ?_
    · intro n token htoken
      have hplaced : (tokens expression)[n]? = some token := htoken
      rw [Nat.zero_add, offsetOf, hplaced]
      rfl
    · intro n value hvalue
      rw [Nat.zero_add]
      exact hvalue
  have hend : offsetOf expression (shapeOf expression).length =
      byteLength expression.toList := by
    have hlength : (tokens expression).length = (shapeOf expression).length := by
      have hitems := congrArg List.length (Token.map_item_place 0 (Token.lex expression.toList))
      rw [List.length_map] at hitems
      rw [shapeOf, List.length_map]
      exact hitems
    rw [offsetOf, List.getElem?_eq_none (Nat.le_of_eq hlength)]
    rfl
  have hrun := run_rename (offsetOf expression)
    (Formula.carries_value (literalValues expression)) (Stacks.empty : Stacks Formula Nat)
    (numbered 0 0 (shapeOf expression)) (shapeOf expression).length
  rw [htokens, hend] at hrun
  exact hrun

/-! ## What a symbolic run refers to -/

/-- The number of a token is less than the number of all tokens. -/
theorem position_lt_of_mem_numbered {position index : Nat}
    {ts : List (Token (Option (List Char)))} {token : Located Nat (Token (Reading Formula))}
    (h : token ∈ numbered position index ts) : token.position < position + ts.length := by
  induction ts generalizing position index with
  | nil => cases h
  | cons t ts ih =>
    rw [List.length_cons]
    rcases t with (_ | cs) | s
    all_goals
      rcases List.mem_cons.1 h with rfl | h
      · show position < _
        omega
      · have hrest := ih h
        omega

/-- What the tokens of a shape supply are literals and zeros. -/
theorem flatMap_leaves_supply (groupStart : Bool) (position index : Nat)
    (ts : List (Token (Option (List Char)))) :
    (Token.supply groupStart ((numbered position index ts).map Located.item)).flatMap
        Formula.leaves =
      Token.supply groupStart ((numbered position index ts).map Located.item) := by
  induction ts generalizing groupStart position index with
  | nil => rfl
  | cons t ts ih =>
    rcases t with (_ | cs) | s
    · exact congrArg (Formula.literal index :: ·) (ih _ _ _)
    · exact ih _ _ _
    · rw [numbered, List.map_cons, Token.supply, List.flatMap_append, ih, Token.supplied]
      split <;> rfl

/-! ## Evaluations of one shape -/

/-- An evaluation ends as a symbolic run does, and applies the same operators to
the same formulas, in the same order.  The formulas are worked out with the
literals of the expression, and a fault stands at the offset of the token that
it was found at. -/
structure Instantiates (expression : String) (x : Run Formula Nat Formula) : Prop where
  outcome : evaluate expression =
    (x.outcome.mapError (Fault.map (offsetOf expression))).map
      (Formula.value (literalValues expression))
  reductions : reductions (evaluateOn .empty expression).log =
    (reductions x.log).map fun (op, left, right, value) =>
      (op, left.value (literalValues expression), right.value (literalValues expression),
        value.value (literalValues expression))

theorem instantiates_symbolicRun (expression : String) :
    Instantiates expression (symbolicRun (shapeOf expression)) := by
  constructor
  · rw [evaluate_eq_outcome_run, run_eq_rename_symbolic]
    rfl
  · rw [reductions_evaluateOn, ← reductions_rename _ (offsetOf expression)
      (Formula.value (literalValues expression)), ← run_eq_rename_symbolic]

/-- Expressions of one shape are evaluated alike, whatever the values of their
decimals are.  Both evaluations are the symbolic run of that shape.  Its fault
names a token or the end, and the leaves of its formula are the literals, in
their order, with a zero in front of each sign. -/
theorem evaluate_of_shape_eq {first second : String} (h : shapeOf first = shapeOf second) :
    Instantiates first (symbolicRun (shapeOf first)) ∧
      Instantiates second (symbolicRun (shapeOf first)) ∧
      (∀ fault, (symbolicRun (shapeOf first)).outcome = .error fault →
        ∀ number ∈ fault.position?, number ≤ (shapeOf first).length) ∧
      ∀ formula, (symbolicRun (shapeOf first)).outcome = .ok formula →
        formula.leaves =
          Token.supply true ((numbered 0 0 (shapeOf first)).map Located.item) := by
  refine ⟨instantiates_symbolicRun first, h ▸ instantiates_symbolicRun second, ?_, ?_⟩
  · intro fault hfault
    refine position_of_outcome_run (p := (· ≤ (shapeOf first).length)) ?_ ?_ ?_ hfault
    · intro top htop
      cases htop
    · intro token htoken
      have hlt := position_lt_of_mem_numbered htoken
      omega
    · exact Nat.le_refl _
  · intro formula hformula
    rw [leaves_of_run hformula, flatMap_leaves_supply]

/-- A division by a power of zero is written down like any other.  The product in
the second pair takes the operand of the minus, which is the same token at
another offset. -/
theorem evaluate_of_shape_eq_drifting :
    shapeOf "-1/0^(2)" = shapeOf "-25.5/.0^(7.125)" ∧
      (∃ formula : Formula,
        formula = .apply .sub .zero
          (.apply .div (.literal 0) (.apply .pow (.literal 1) (.literal 2))) ∧
        evaluate "-1/0^(2)" = .ok (formula.value (literalValues "-1/0^(2)")) ∧
        evaluate "-25.5/.0^(7.125)" =
          .ok (formula.value (literalValues "-25.5/.0^(7.125)"))) ∧
      shapeOf "(1+2)-(*3)" = shapeOf "(10+.25)-(*3)" ∧
      evaluate "(1+2)-(*3)" = .error (.missingOperand 5) ∧
      evaluate "(10+.25)-(*3)" = .error (.missingOperand 8) := by
  have hvalues : shapeOf "-1/0^(2)" = shapeOf "-25.5/.0^(7.125)" := by decide +kernel
  have hfaults : shapeOf "(1+2)-(*3)" = shapeOf "(10+.25)-(*3)" := by decide +kernel
  obtain ⟨hfirst, hsecond, -⟩ := evaluate_of_shape_eq hvalues
  obtain ⟨hthird, hfourth, -⟩ := evaluate_of_shape_eq hfaults
  have hformula : (symbolicRun (shapeOf "-1/0^(2)")).outcome =
      .ok (.apply .sub .zero
        (.apply .div (.literal 0) (.apply .pow (.literal 1) (.literal 2)))) := rfl
  have hfault : (symbolicRun (shapeOf "(1+2)-(*3)")).outcome =
      .error (.missingOperand 5) := rfl
  refine ⟨hvalues, ⟨_, rfl, ?_, ?_⟩, hfaults, ?_, ?_⟩
  · rw [hfirst.outcome, hformula]
    rfl
  · rw [hsecond.outcome, hformula]
    rfl
  · rw [hthird.outcome, hfault]
    rfl
  · rw [hfourth.outcome, hfault]
    rfl

end InfixArith
