import InfixArith.Proofs.Conservation

/-!
# Formulas

A formula is an operand that has not been worked out.  It is a literal, which is
known by its number only, or the zero of a sign, or an operator between two
formulas.  A run over formulas is a run like any other: it applies an operator
by writing it down.

`Formula.value` works a formula out, and `carries_value` says that it may be
worked out after each step or at the end.  `leaves_of_run` says which leaves the
formula of a run has: all the operands that were supplied, in their order, and
no others.
-/

namespace InfixArith

/-- An operand that has not been worked out. -/
inductive Formula where
  /-- The literal with this number. -/
  | literal (index : Nat)
  /-- The operand to the left of a sign. -/
  | zero
  /-- An operator between its left and its right operand. -/
  | apply (op : BinaryOp) (left right : Formula)
  deriving DecidableEq

instance : Arithmetic Formula where
  zero := .zero
  apply := .apply

namespace Formula

/-- What a formula comes to, if these are the values of the literals. -/
def value {α : Type} [Arithmetic α] (literals : List α) : Formula → α
  | .literal index => literals.getD index Arithmetic.zero
  | .zero => Arithmetic.zero
  | .apply op left right => Arithmetic.apply op (left.value literals) (right.value literals)

/-- It makes no difference when a formula is worked out. -/
theorem carries_value {α : Type} [Arithmetic α] (literals : List α) :
    Carries (value literals) :=
  ⟨rfl, fun _ _ _ => rfl⟩

/-- The operands that a formula is built from, from left to right. -/
def leaves : Formula → List Formula
  | .literal index => [.literal index]
  | .zero => [.zero]
  | .apply _ left right => left.leaves ++ right.leaves

end Formula

variable {ρ : Type}

/-- The leaves of a stack of formulas, from the bottom to the top. -/
def stackLeaves (operands : List Formula) : List Formula :=
  operands.reverse.flatMap Formula.leaves

theorem stackLeaves_cons (formula : Formula) (operands : List Formula) :
    stackLeaves (formula :: operands) = stackLeaves operands ++ formula.leaves := by
  simp [stackLeaves]

/-- An operator joins the two formulas on top, and their leaves stay in order. -/
theorem Completes.leaves {operands result : List Formula}
    {code : List (Instruction Formula ρ)} {log : List (Event Formula ρ)}
    (h : Completes operands code log result) :
    stackLeaves result = stackLeaves operands ++
      (code.filterMap Instruction.pushed?).flatMap Formula.leaves := by
  induction h with
  | nil operands => exact (List.append_nil _).symm
  | push formula h ih =>
    rw [ih, stackLeaves_cons, List.append_assoc]
    rfl
  | pair opened closed h ih => exact ih
  | apply op position left right h ih =>
    rw [ih, stackLeaves_cons, stackLeaves_cons, stackLeaves_cons, List.append_assoc _ left.leaves]
    rfl

/-- The formula of a run is built from the operands that its tokens supply, each
once and in their order. -/
theorem leaves_of_run {tokens : List (Located ρ (Token (Reading Formula)))} {stop : ρ}
    {formula : Formula}
    (h : ((Stacks.empty : Stacks Formula ρ).run tokens stop).outcome = .ok formula) :
    formula.leaves =
      (Token.supply true (tokens.map Located.item)).flatMap Formula.leaves := by
  rw [outcome_run] at h
  have hleaves := (completes_of_execute (execute_of_answer_eq_ok h)).leaves
  rw [Control.pushed_schedule, stackLeaves_cons] at hleaves
  exact hleaves

end InfixArith
