import InfixArith.Proofs.Representation

/-!
# Which token a fault blames

An instruction that can fail has a token: the literal that could not be read,
or the symbol that is to be reduced.  That symbol has waited since its own token
was scanned.  So a run from empty stacks blames one of the tokens that it has
scanned, and the fault has the position of that token.

`Control.mem_of_mem_schedule` follows the waiting symbols along the tokens, and
`blames_of_execute` says what it means for a fault.
-/

namespace InfixArith

variable {α ρ τ : Type}

/-- The token that an instruction may fail for. -/
def Instruction.token? : Instruction α ρ → Option (Located ρ (Token (Reading α)))
  | .reduce top => some (top.mapItem .symbol)
  | .refuse text position => some ⟨.literal (.error text), position⟩
  | .push _ | .pair .. => none

/-- A fault has the position of a token in this list that can cause it. -/
inductive Fault.Blames (tokens : List (Located ρ (Token (Reading α)))) : Fault ρ → Prop where
  | literal (text : String) (position : ρ) (h : ⟨.literal (.error text), position⟩ ∈ tokens) :
      Blames tokens (.malformedLiteral text position)
  | operator (op : BinaryOp) (position : ρ) (h : ⟨.symbol (.binary op), position⟩ ∈ tokens) :
      Blames tokens (.missingOperand position)
  | parenthesis (side : Paren) (position : ρ) (h : ⟨.symbol (.paren side), position⟩ ∈ tokens) :
      Blames tokens (.unbalancedParenthesis position)

/-! ## Tokens of instructions -/

/-- An incoming symbol reduces symbols that wait. -/
theorem Stacks.mem_of_mem_receiveCode {incoming : Located ρ Symbol}
    {operators : List (Located ρ Symbol)} {i : Instruction α ρ}
    (hi : i ∈ receiveCode incoming operators) :
    ∀ token ∈ i.token?, token ∈ waitingTokens operators := by
  induction operators with
  | nil => cases hi
  | cons top rest ih =>
    rw [waitingTokens, List.reverse_cons, List.map_append]
    rw [receiveCode] at hi
    split at hi
    · rcases List.mem_cons.1 hi with rfl | hi
      · intro token htoken
        cases htoken
        exact List.mem_append_right _ List.mem_cons_self
      · exact fun token htoken => List.mem_append_left _ (ih hi token htoken)
    · intro token htoken
      rw [List.mem_singleton.1 hi] at htoken
      cases htoken
    · cases hi

namespace Control

variable [Arithmetic α]

/-- A token makes control do nothing that fails for a token which neither waits
nor is this one. -/
theorem mem_of_mem_code {c : Control ρ} {token : Located ρ (Token (Reading α))}
    {i : Instruction α ρ} (hi : i ∈ c.code token) :
    ∀ blamed ∈ i.token?, blamed ∈ waitingTokens c.operators ++ [token] := by
  intro blamed hblamed
  rcases token with ⟨(text | value) | s, position⟩
  · rw [List.mem_singleton.1 hi] at hblamed
    cases hblamed
    exact List.mem_append_right _ List.mem_cons_self
  · rw [List.mem_singleton.1 hi] at hblamed
    cases hblamed
  · rcases List.mem_append.1 hi with hsign | hreceive
    · rw [signCode] at hsign
      split at hsign
      · rw [List.mem_singleton.1 hsign] at hblamed
        cases hblamed
      · cases hsign
    · exact List.mem_append_left _ (Stacks.mem_of_mem_receiveCode hreceive blamed hblamed)

/-- What is done up to the end of the tokens fails for a token that waits or is
among them. -/
theorem mem_of_mem_schedule {c : Control ρ} {tokens : List (Located ρ (Token (Reading α)))}
    {i : Instruction α ρ} (hi : i ∈ c.schedule tokens) :
    ∀ blamed ∈ i.token?, blamed ∈ waitingTokens c.operators ++ tokens := by
  intro blamed hblamed
  induction tokens generalizing c with
  | nil =>
    obtain ⟨top, htop, rfl⟩ := List.mem_map.1 hi
    cases hblamed
    exact List.mem_append_left _ (List.mem_map_of_mem (List.mem_reverse.2 htop))
  | cons token tokens ih =>
    rw [← List.singleton_append, ← List.append_assoc]
    rcases List.mem_append.1 hi with hcode | hrest
    · exact List.mem_append_left _ (mem_of_mem_code hcode blamed hblamed)
    · have hwaiting := waitingTokens_next token (List.Sublist.refl (waitingTokens c.operators))
      rcases List.mem_append.1 (ih hrest) with hmem | hmem
      · exact List.mem_append_left _ (hwaiting.subset hmem)
      · exact List.mem_append_right _ hmem

end Control

/-! ## Faults -/

theorem Instruction.FailsWith.blames {operands : List α} {i : Instruction α ρ}
    {fault : Fault ρ} (h : i.FailsWith operands fault)
    {tokens : List (Located ρ (Token (Reading α)))} (hi : ∀ token ∈ i.token?, token ∈ tokens) :
    fault.Blames tokens := by
  cases h with
  | malformed text position => exact .literal text position (hi _ rfl)
  | missing op position _ => exact .operator op position (hi _ rfl)
  | unbalanced side position => exact .parenthesis side position (hi _ rfl)

/-- If no symbol waits at first, what is done up to the end of the tokens blames
one of them. -/
theorem blames_of_execute [Arithmetic α] {operandStart : Bool} {operands : List α}
    {tokens : List (Located ρ (Token (Reading α)))} {code : List (Instruction α ρ)}
    {fault : Fault ρ}
    (hcode : ∀ i ∈ code, i ∈ (⟨[], operandStart⟩ : Control ρ).schedule tokens)
    (h : (execute operands code).outcome = .error fault) : fault.Blames tokens := by
  obtain ⟨front, i, back, result, rfl, -, hi⟩ := exists_of_execute_eq_error h
  have hmem : i ∈ front ++ i :: back := List.mem_append_right _ List.mem_cons_self
  exact hi.blames (Control.mem_of_mem_schedule (hcode i hmem))

/-- The same for tokens that are scanned with more of them to come. -/
theorem blames_of_steps [Arithmetic α] {tokens : List (Located ρ (Token (Reading α)))}
    {fault : Fault ρ}
    (h : ((Scan.start (Stacks.empty : Stacks α ρ)).steps tokens).outcome = .error fault) :
    fault.Blames tokens := by
  have hcodes : ∀ i ∈ (⟨[], true⟩ : Control ρ).codes tokens,
      i ∈ (⟨[], true⟩ : Control ρ).schedule tokens := by
    intro i hi
    rw [Control.schedule_eq_codes]
    exact List.mem_append_left _ hi
  rw [steps_eq_execute, Recorded.outcome_bind] at h
  cases hexecute : (execute (Scan.start (Stacks.empty : Stacks α ρ)).operands
      ((Control.ofScan (Scan.start (Stacks.empty : Stacks α ρ))).codes tokens)).outcome with
  | error found =>
    rw [hexecute] at h
    cases h
    exact blames_of_execute hcodes hexecute
  | ok result =>
    rw [hexecute] at h
    cases h

/-- A fault of a run blames a token, or all has been carried out and the fault
says how many operands are left: none, or too many. -/
theorem blames_of_run [Arithmetic α] {tokens : List (Located ρ (Token (Reading α)))} {stop : ρ}
    {fault : Fault ρ}
    (h : ((Stacks.empty : Stacks α ρ).run tokens stop).outcome = .error fault) :
    fault.Blames tokens ∨
      (fault = .missingOperand stop ∧
        (execute [] ((⟨[], true⟩ : Control ρ).schedule tokens)).outcome = .ok ([] : List α)) ∨
      ∃ count, fault = .danglingOperands count := by
  have hanswer : answer stop [] ((⟨[], true⟩ : Control ρ).schedule tokens) = .error fault :=
    (outcome_run _ tokens stop).symm.trans h
  rw [answer, Recorded.outcome_bind] at hanswer
  cases hexecute : (execute [] ((⟨[], true⟩ : Control ρ).schedule tokens)).outcome with
  | error found =>
    rw [hexecute] at hanswer
    cases hanswer
    exact .inl (blames_of_execute (fun i hi => hi) hexecute)
  | ok left =>
    rw [hexecute] at hanswer
    rcases left with _ | ⟨value, _ | ⟨next, rest⟩⟩
    · cases hanswer
      exact .inr (.inl ⟨rfl, rfl⟩)
    · cases hanswer
    · cases hanswer
      exact .inr (.inr ⟨_, rfl⟩)

end InfixArith
