import InfixArith.Proofs.Blame
import InfixArith.Proofs.Conservation
import InfixArith.Proofs.Postfix.Refinement

/-!
# Expressions without any value

A missing operand is reported for two reasons.  An operator found fewer than two
operands, or none was left at the end.  The position tells them apart: an
operator stands before the end.

The second reason is rare.  A reduction takes two operands and leaves one, so
operands that are there do not run out (`Completes.eq_nil_of_result`).  None is
left only if none was pushed, and then nothing was applied either.
`execute_eq_nil_iff` reads that off the tokens: they are parentheses which
balance.  `evaluate_missingOperand` says it of an expression.
-/

namespace InfixArith

variable {α ρ τ : Type}

/-! ## Operands that do not run out -/

/-- If no operand is left, there was none and none was pushed. -/
theorem Completes.eq_nil_of_result [Arithmetic α] {operands result : List α}
    {code : List (Instruction α ρ)} {log : List (Event α ρ)}
    (h : Completes operands code log result) (hresult : result = []) :
    operands = [] ∧ code.countP Instruction.isPush = 0 := by
  induction h with
  | nil operands => exact ⟨hresult, rfl⟩
  | push value h ih => cases (ih hresult).1
  | pair opened closed h ih => exact ih hresult
  | apply op position left right h ih => cases (ih hresult).1

/-! ## Tokens that push nothing -/

namespace Token

/-- A sign is an operator. -/
theorem signCount_le_countP_isBinary (groupStart : Bool) (ts : List (Token τ)) :
    signCount groupStart ts ≤ ts.countP isBinary := by
  induction ts generalizing groupStart with
  | nil => exact Nat.le_refl 0
  | cons t ts ih =>
    have hrest := ih t.opensGroup
    have hhead : (groupStart && t.isSign).toNat ≤ t.isBinary.toNat := by
      rcases t with content | op | side
      · simp [isSign]
      · simp [isBinary, Symbol.isBinary, Bool.toNat_le]
      · simp [isSign, Symbol.isSign]
    rw [signCount, countP_cons_toNat]
    omega

/-- Tokens without literals and operators are parentheses. -/
theorem countP_eq_zero_iff {ts : List (Token τ)} :
    ts.countP isLiteral = 0 ∧ ts.countP isBinary = 0 ↔ ∀ t ∈ ts, t.isParen = true := by
  have htoken : ∀ t : Token τ, ¬t.isLiteral = true ∧ ¬t.isBinary = true ↔ t.isParen = true := by
    intro t
    rcases t with content | op | side <;>
      simp [isLiteral, isBinary, isParen, Symbol.isBinary]
  rw [List.countP_eq_zero, List.countP_eq_zero, ← forall₂_and]
  exact forall₂_congr fun t _ => htoken t

/-- A text has no tokens but parentheses if it has no characters but those. -/
theorem forall_isParen_lex_iff {text : List Char} :
    (∀ t ∈ lex text, t.isParen = true) ↔ ∀ c ∈ text, c = '(' ∨ c = ')' := by
  constructor
  · intro h c hc
    rw [← flatMap_chars_lex text] at hc
    obtain ⟨t, ht, hct⟩ := List.mem_flatMap.1 hc
    have hparen := h t ht
    rcases t with content | op | _ | _
    · cases hparen
    · cases hparen
    · exact .inl (List.mem_singleton.1 hct)
    · exact .inr (List.mem_singleton.1 hct)
  · intro h
    induction text with
    | nil => exact List.forall_mem_nil _
    | cons c text ih =>
      obtain ⟨hc, htext⟩ := List.forall_mem_cons.1 h
      have hrest := ih htext
      rw [lex_cons]
      rcases hc with rfl | rfl
      · exact List.forall_mem_cons.2 ⟨rfl, hrest⟩
      · exact List.forall_mem_cons.2 ⟨rfl, hrest⟩

end Token

/-! ## Runs that leave nothing -/

section Execution

variable [Arithmetic α] {tokens : List (Located ρ (Token (Reading α)))}

/-- Plain instructions that apply no operator are carried out. -/
theorem exists_execute_of_plain {operands : List α} {code : List (Instruction α ρ)}
    (hplain : ∀ i ∈ code, i.Plain) (hnone : code.countP Instruction.isApply = 0) :
    ∃ result, (execute operands code).outcome = .ok result := by
  cases hexecute : (execute operands code).outcome with
  | ok result => exact ⟨result, rfl⟩
  | error fault =>
    obtain ⟨front, i, back, result, rfl, -, hfails⟩ := exists_of_execute_eq_error hexecute
    have hmem : i ∈ front ++ i :: back := List.mem_append_right _ List.mem_cons_self
    cases hfails with
    | malformed text position => exact (hplain _ hmem).elim
    | missing op position _ => exact absurd rfl (List.countP_eq_zero.1 hnone _ hmem)
    | unbalanced side position =>
      obtain ⟨op, hop⟩ := hplain _ hmem
      cases hop

/-- If all has been carried out and no operand is left, there are no literals and
no operators, and the parentheses balance. -/
theorem parens_of_execute_eq_nil
    (h : (execute [] ((⟨[], true⟩ : Control ρ).schedule tokens)).outcome = .ok []) :
    ((tokens.map Located.item).countP Token.isLiteral = 0 ∧
        (tokens.map Located.item).countP Token.isBinary = 0) ∧
      Token.Balanced (tokens.map Located.item) := by
  have hcompletes := completes_of_execute h
  obtain ⟨-, hnest, -⟩ := Control.wellFormed_of_plain _ tokens hcompletes.plain
  obtain ⟨-, hpush⟩ := hcompletes.eq_nil_of_result rfl
  obtain ⟨hpushes, -⟩ := Control.countP_schedule _ tokens hcompletes.plain
  have hlength := length_of_schedule h
  rw [List.length_nil] at hlength
  refine ⟨⟨?_, ?_⟩, hnest⟩
  · omega
  · omega

/-- Parentheses that balance are carried out, and no operand is left. -/
theorem execute_eq_nil_of_parens
    (hliteral : (tokens.map Located.item).countP Token.isLiteral = 0)
    (hbinary : (tokens.map Located.item).countP Token.isBinary = 0)
    (hbalanced : Token.Balanced (tokens.map Located.item)) :
    (execute [] ((⟨[], true⟩ : Control ρ).schedule tokens)).outcome = .ok [] := by
  have hread : AllRead tokens := by
    intro token htoken text hitem
    have hno := List.countP_eq_zero.1 hliteral _ (List.mem_map_of_mem htoken)
    rw [hitem] at hno
    exact hno rfl
  obtain ⟨-, hplain⟩ := schedule_items (⟨[], true⟩ : Control ρ) tokens .nil
    (List.forall_mem_nil _) hbalanced hread
  have hwaiting : binaryCount (⟨[], true⟩ : Control ρ).operators = 0 := rfl
  obtain ⟨-, happlies⟩ := Control.countP_schedule _ tokens hplain
  obtain ⟨result, hresult⟩ : ∃ result : List α,
      (execute [] ((⟨[], true⟩ : Control ρ).schedule tokens)).outcome = .ok result :=
    exists_execute_of_plain hplain (by omega)
  have hsigns := Token.signCount_le_countP_isBinary (⟨[], true⟩ : Control ρ).operandStart
    (tokens.map Located.item)
  have hlength := length_of_schedule hresult
  rw [List.length_nil] at hlength
  obtain rfl : result = [] := List.eq_nil_of_length_eq_zero (by omega)
  exact hresult

/-- All has been carried out and no operand is left exactly if the tokens are
parentheses which balance. -/
theorem execute_eq_nil_iff :
    (execute [] ((⟨[], true⟩ : Control ρ).schedule tokens)).outcome = .ok [] ↔
      (∀ t ∈ tokens.map Located.item, t.isParen = true) ∧
        Token.Balanced (tokens.map Located.item) := by
  rw [← Token.countP_eq_zero_iff]
  constructor
  · exact parens_of_execute_eq_nil
  · rintro ⟨⟨hliteral, hbinary⟩, hbalanced⟩
    exact execute_eq_nil_of_parens hliteral hbinary hbalanced

end Execution

/-! ## Expressions -/

/-- The tokens of an expression, in the two ways that they are asked about. -/
theorem forall_isParen_readTokens_iff {expression : String} :
    (∀ t ∈ (readTokens expression).map Located.item, t.isParen = true) ↔
      ∀ c ∈ expression.toList, c = '(' ∨ c = ')' := by
  have hmap : ∀ t : Token (List Char), (t.map Literal.read).isParen = t.isParen := by
    intro t
    rcases t with content | op | side <;> rfl
  rw [map_item_readTokens, List.forall_mem_map, ← Token.forall_isParen_lex_iff]
  exact forall₂_congr fun t _ => by rw [hmap]

/-- An operand is missing at the end exactly if the expression is made of
parentheses which balance.  Any other missing operand is missing at an operator,
which stands before the end. -/
theorem evaluate_missingOperand (expression : String) :
    (evaluate expression = .error (.missingOperand (byteLength expression.toList)) ↔
        (∀ c ∈ expression.toList, c = '(' ∨ c = ')') ∧
          Token.Balanced (Token.lex expression.toList)) ∧
      ∀ position, evaluate expression = .error (.missingOperand position) →
        position ≠ byteLength expression.toList →
          position < byteLength expression.toList ∧
            ∃ op, StandsAt expression ⟨.binary op, position⟩ := by
  have hcases : ∀ position, evaluate expression = .error (.missingOperand position) →
      (position < byteLength expression.toList ∧
          ∃ op, StandsAt expression ⟨.binary op, position⟩) ∨
        position = byteLength expression.toList ∧
          (execute [] ((⟨[], true⟩ : Control Nat).schedule (readTokens expression))).outcome =
            .ok [] := by
    intro position h
    rw [evaluate_eq_outcome_run] at h
    rcases blames_of_run h with hblames | ⟨hmissing, hnil⟩ | ⟨count, hdangling⟩
    · cases hblames with
      | operator op position h =>
        exact .inl ⟨position_lt_of_mem_readTokens h, op, standsAt_of_mem h⟩
    · cases hmissing
      exact .inr ⟨rfl, hnil⟩
    · cases hdangling
  refine ⟨?_, ?_⟩
  · rw [← forall_isParen_readTokens_iff, ← balanced_readTokens_iff, ← execute_eq_nil_iff]
    constructor
    · intro h
      rcases hcases _ h with ⟨hlt, -⟩ | ⟨-, hnil⟩
      · exact absurd hlt (Nat.lt_irrefl _)
      · exact hnil
    · intro hnil
      rw [evaluate_eq_outcome_run, outcome_run, answer, Recorded.outcome_bind]
      show (execute [] ((⟨[], true⟩ : Control Nat).schedule _)).outcome.bind _ = _
      rw [hnil]
      rfl
  · intro position h hne
    rcases hcases position h with hoperator | ⟨hend, -⟩
    · exact hoperator
    · exact absurd hend hne

/-- Groups in groups hold no value.  In a group that holds a product only, the
product lacks an operand. -/
theorem evaluate_missingOperand_groups :
    evaluate "(()())" = .error (.missingOperand 6) ∧
      evaluate "(()*())" = .error (.missingOperand 3) ∧
      ∃ op, StandsAt "(()*())" ⟨.binary op, 3⟩ := by
  have hparens : ∀ c ∈ "(()())".toList, c = '(' ∨ c = ')' := by simp
  have hbalanced : Token.Balanced (Token.lex "(()())".toList) := by decide +kernel
  have hproduct : evaluate "(()*())" = .error (.missingOperand 3) := rfl
  refine ⟨?_, hproduct, ?_⟩
  · exact (evaluate_missingOperand "(()())").1.2 ⟨hparens, hbalanced⟩
  · exact ((evaluate_missingOperand "(()*())").2 3 hproduct (by decide +kernel)).2

end InfixArith
