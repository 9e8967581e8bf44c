import InfixArith.Proofs.Control

/-!
# How an execution ends

A list of instructions is carried out to its end, or one of them is a fault.

* `Completes` is an execution that gets to its end, with the operands before
  and after it and the log that it writes.  It has one rule for each
  instruction that can be carried out, so that an induction on it meets no
  fault.
* `Instruction.FailsWith` is the fault of an instruction that cannot be carried
  out.
* `perform_cases` says that there is nothing else.  From it follow
  `completes_of_execute`, and `exists_of_execute_eq_error`, which cuts an
  execution at the instruction that it ends with.
-/

namespace InfixArith

variable {α ρ : Type} [Arithmetic α]

/-- From these operands, the instructions write this log and leave those
operands. -/
inductive Completes :
    List α → List (Instruction α ρ) → List (Event α ρ) → List α → Prop where
  | nil (operands : List α) : Completes operands [] [] operands
  | push {operands result : List α} {code : List (Instruction α ρ)} {log : List (Event α ρ)}
      (value : α) (h : Completes (value :: operands) code log result) :
      Completes operands (.push value :: code) log result
  | pair {operands result : List α} {code : List (Instruction α ρ)} {log : List (Event α ρ)}
      (opened closed : ρ) (h : Completes operands code log result) :
      Completes operands (.pair opened closed :: code) (.matched opened closed :: log) result
  | apply {operands result : List α} {code : List (Instruction α ρ)} {log : List (Event α ρ)}
      (op : BinaryOp) (position : ρ) (left right : α)
      (h : Completes (Arithmetic.apply op left right :: operands) code log result) :
      Completes (right :: left :: operands) (.reduce ⟨.binary op, position⟩ :: code)
        (.reduced left op right (Arithmetic.apply op left right) :: log) result

/-- The fault of an instruction that cannot be carried out on these operands. -/
inductive Instruction.FailsWith (operands : List α) : Instruction α ρ → Fault ρ → Prop where
  | malformed (text : String) (position : ρ) :
      FailsWith operands (.refuse text position) (.malformedLiteral text position)
  | missing (op : BinaryOp) (position : ρ) (h : operands.length < 2) :
      FailsWith operands (.reduce ⟨.binary op, position⟩) (.missingOperand position)
  | unbalanced (side : Paren) (position : ρ) :
      FailsWith operands (.reduce ⟨.paren side, position⟩) (.unbalancedParenthesis position)

/-- An instruction fails, or it can come first in an execution that completes. -/
theorem perform_cases (operands : List α) (i : Instruction α ρ) :
    (∃ fault, perform operands i = .fail fault ∧ i.FailsWith operands fault) ∨
      ∃ log next, perform operands i = ⟨log, .ok next⟩ ∧
        ∀ {code rest result}, Completes next code rest result →
          Completes operands (i :: code) (log ++ rest) result := by
  cases i with
  | push value => exact .inr ⟨[], value :: operands, rfl, .push value⟩
  | pair opened closed =>
    exact .inr ⟨[.matched opened closed], operands, rfl, .pair opened closed⟩
  | refuse text position => exact .inl ⟨_, rfl, .malformed text position⟩
  | reduce top =>
    rcases top with ⟨op | side, position⟩
    · rcases operands with _ | ⟨right, _ | ⟨left, rest⟩⟩
      · exact .inl ⟨_, rfl, .missing op position (Nat.zero_lt_two)⟩
      · exact .inl ⟨_, rfl, .missing op position (Nat.one_lt_two)⟩
      · exact .inr ⟨[.reduced left op right (Arithmetic.apply op left right)],
          Arithmetic.apply op left right :: rest, rfl, .apply op position left right⟩
    · exact .inl ⟨_, rfl, .unbalanced side position⟩

/-! ## Executions that get to their end -/

theorem completes_of_execute {operands result : List α} {code : List (Instruction α ρ)}
    (h : (execute operands code).outcome = .ok result) :
    Completes operands code (execute operands code).log result := by
  induction code generalizing operands with
  | nil =>
    cases h
    exact .nil _
  | cons i code ih =>
    rw [execute_cons] at h ⊢
    rcases perform_cases operands i with ⟨fault, hfail, -⟩ | ⟨log, next, hperform, hcons⟩
    · rw [hfail] at h
      cases h
    · rw [hperform] at h ⊢
      exact hcons (ih h)

theorem Completes.execute_eq {operands result : List α} {code : List (Instruction α ρ)}
    {log : List (Event α ρ)} (h : Completes operands code log result) :
    execute operands code = ⟨log, .ok result⟩ := by
  induction h with
  | nil operands => rfl
  | push value h ih => exact ih
  | pair opened closed h ih =>
    show (⟨_ :: (execute _ _).log, (execute _ _).outcome⟩ : Run α ρ (List α)) = _
    rw [ih]
  | apply op position left right h ih =>
    show (⟨_ :: (execute _ _).log, (execute _ _).outcome⟩ : Run α ρ (List α)) = _
    rw [ih]

/-- What has been carried out is plain. -/
theorem Completes.plain {operands result : List α} {code : List (Instruction α ρ)}
    {log : List (Event α ρ)} (h : Completes operands code log result) :
    ∀ i ∈ code, i.Plain := by
  induction h with
  | nil operands => exact List.forall_mem_nil _
  | push value h ih => exact List.forall_mem_cons.2 ⟨trivial, ih⟩
  | pair opened closed h ih => exact List.forall_mem_cons.2 ⟨trivial, ih⟩
  | apply op position left right h ih => exact List.forall_mem_cons.2 ⟨⟨op, rfl⟩, ih⟩

/-! ## Executions that end with a fault -/

/-- An execution that ends with a fault has carried out all that comes before
the instruction at fault. -/
theorem exists_of_execute_eq_error {operands : List α} {code : List (Instruction α ρ)}
    {fault : Fault ρ} (h : (execute operands code).outcome = .error fault) :
    ∃ front i back result, code = front ++ i :: back ∧
      Completes operands front (execute operands code).log result ∧
      i.FailsWith result fault := by
  induction code generalizing operands with
  | nil => cases h
  | cons i code ih =>
    rw [execute_cons] at h ⊢
    rcases perform_cases operands i with ⟨found, hfail, hi⟩ | ⟨log, next, hperform, hcons⟩
    · rw [hfail] at h ⊢
      cases h
      exact ⟨[], i, code, operands, rfl, .nil operands, hi⟩
    · rw [hperform] at h ⊢
      obtain ⟨front, j, back, result, rfl, hfront, hj⟩ := ih h
      exact ⟨i :: front, j, back, result, rfl, hcons hfront, hj⟩

end InfixArith
