import InfixArith.Proofs.Accounting
import InfixArith.Proofs.Openings
import InfixArith.Proofs.Origin

/-!
# Conservation

A run that gets to its end has used up what it was given.  Each operator has
been applied once: those that waited before, and those of the tokens.  Each
operand is in one place: a reduction took it, or it is left at the end.  The
operands are those that were there before, those that the tokens supply, and
the values of the reductions themselves.

`Completes.ledger` follows the log along the instructions.
`Control.applied_schedule` and `Control.pushed_schedule` lead from the
instructions to the tokens.  `evaluateOn_accounted` states what holds after an
evaluation that starts on any stacks, and ends with a value or with operands
that dangle.
-/

namespace InfixArith

variable {α ρ τ : Type}

/-! ## The ledger of a log -/

/-- The operators that a log applies. -/
def applied (log : List (Event α ρ)) : List BinaryOp :=
  (reductions log).map fun (op, _, _, _) => op

/-- The operands that the reductions of a log take. -/
def taken (log : List (Event α ρ)) : List α :=
  (reductions log).flatMap fun (_, left, right, _) => [left, right]

/-- The values that the reductions of a log make. -/
def made (log : List (Event α ρ)) : List α :=
  (reductions log).map fun (_, _, _, value) => value

/-- A symbol as an operator. -/
def Symbol.binary? : Symbol → Option BinaryOp
  | .binary op => some op
  | .paren _ => none

namespace Instruction

/-- The operator that an instruction applies. -/
def applied? : Instruction α ρ → Option BinaryOp
  | .reduce top => top.item.binary?
  | .push _ | .pair .. | .refuse .. => none

/-- The operand that an instruction pushes. -/
def pushed? : Instruction α ρ → Option α
  | .push value => some value
  | .reduce _ | .pair .. | .refuse .. => none

end Instruction

/-- The ledger of instructions that come to an end: their operators have been
applied in their order, and the operands that were there, pushed or made are
those that were taken or are left. -/
theorem Completes.ledger [Arithmetic α] {operands result : List α}
    {code : List (Instruction α ρ)} {log : List (Event α ρ)}
    (h : Completes operands code log result) :
    applied log = code.filterMap Instruction.applied? ∧
      (operands ++ (code.filterMap Instruction.pushed? ++ made log)).Perm
        (taken log ++ result) := by
  induction h with
  | nil operands =>
    refine ⟨rfl, ?_⟩
    show (operands ++ []).Perm operands
    rw [List.append_nil]
  | push value h ih => exact ⟨ih.1, List.perm_middle.trans ih.2⟩
  | pair opened closed h ih => exact ih
  | @apply operands result code log op position left right h ih =>
    obtain ⟨happlied, hoperands⟩ := ih
    refine ⟨congrArg (op :: ·) happlied, ?_⟩
    have hmade : (operands ++ (code.filterMap Instruction.pushed? ++
        Arithmetic.apply op left right :: made log)).Perm (taken log ++ result) := by
      rw [← List.append_assoc]
      refine List.perm_middle.trans ?_
      rw [List.append_assoc]
      exact hoperands
    exact (List.Perm.swap left right _).trans ((hmade.cons right).cons left)

/-! ## From instructions to tokens -/

/-- A filtered list as a sum of its head and its tail. -/
theorem filterMap_cons_toList {β γ : Type} (f : β → Option γ) (x : β) (xs : List β) :
    (x :: xs).filterMap f = (f x).toList ++ xs.filterMap f := by
  rw [List.filterMap_cons]
  cases f x <;> rfl

/-- The operators that wait, without their positions. -/
def waitingOps (operators : List (Located ρ Symbol)) : List BinaryOp :=
  operators.filterMap fun top => top.item.binary?

theorem waitingOps_cons (top : Located ρ Symbol) (operators : List (Located ρ Symbol)) :
    waitingOps (top :: operators) = top.item.binary?.toList ++ waitingOps operators :=
  filterMap_cons_toList _ top operators

namespace Token

/-- A token as an operator. -/
def binary? : Token τ → Option BinaryOp
  | .symbol s => s.binary?
  | .literal _ => none

variable [Arithmetic α]

/-- The operands that a token supplies: the value of a literal, or the zero of
a sign.  `groupStart` tells whether a sign may stand here. -/
def supplied (groupStart : Bool) : Token (Reading α) → List α
  | .literal (.ok value) => [value]
  | .literal (.error _) => []
  | .symbol s => if groupStart && s.isSign then [Arithmetic.zero] else []

/-- The operands that some tokens supply, in their order. -/
def supply (groupStart : Bool) : List (Token (Reading α)) → List α
  | [] => []
  | t :: ts => t.supplied groupStart ++ supply t.opensGroup ts

end Token

namespace Stacks

/-- To receive a symbol is not to push an operand. -/
theorem pushed_receive (incoming : Located ρ Symbol) (operators : List (Located ρ Symbol)) :
    (receiveCode incoming operators : List (Instruction α ρ)).filterMap
      Instruction.pushed? = [] := by
  induction operators with
  | nil => rfl
  | cons top rest ih =>
    rw [receiveCode]
    split
    · exact ih
    · rfl
    · rfl

/-- An incoming operator waits, or has been applied. -/
theorem applied_receive (incoming : Located ρ Symbol)
    (operators : List (Located ρ Symbol)) :
    ((receiveCode incoming operators : List (Instruction α ρ)).filterMap
        Instruction.applied? ++ waitingOps (receiveOperators incoming operators)).Perm
      (incoming.item.binary?.toList ++ waitingOps operators) := by
  induction operators with
  | nil =>
    show (waitingOps [incoming]).Perm _
    rw [waitingOps_cons]
  | cons top rest ih =>
    rw [receiveCode, receiveOperators, waitingOps_cons]
    split
    · rw [filterMap_cons_toList, List.append_assoc]
      exact (ih.append_left _).trans (List.perm_append_comm_assoc _ _ _)
    · rename_i hequal
      obtain ⟨htop, hincoming⟩ := Symbol.precedence_eq_equal_iff.1 hequal
      rw [htop, hincoming]
      exact List.Perm.refl _
    · rw [waitingOps_cons incoming, waitingOps_cons top]
      exact List.Perm.refl _

end Stacks

namespace Control

variable [Arithmetic α]

/-- One token applies operators that waited, or its own operator waits. -/
theorem applied_code (c : Control ρ) (token : Located ρ (Token (Reading α))) :
    ((c.code token).filterMap Instruction.applied? ++
        waitingOps (c.next token).operators).Perm
      (token.item.binary?.toList ++ waitingOps c.operators) := by
  rcases token with ⟨(text | value) | s, position⟩
  · exact List.Perm.refl _
  · exact List.Perm.refl _
  · have hsign : (c.signCode s : List (Instruction α ρ)).filterMap
        Instruction.applied? = [] := by
      unfold signCode
      split <;> rfl
    rw [code, List.filterMap_append, hsign]
    exact Stacks.applied_receive ⟨s, position⟩ c.operators

/-- All operators get applied, those that wait and those of the tokens. -/
theorem applied_schedule (c : Control ρ) (tokens : List (Located ρ (Token (Reading α)))) :
    ((c.schedule tokens).filterMap Instruction.applied?).Perm
      (waitingOps c.operators ++ (tokens.map Located.item).filterMap Token.binary?) := by
  induction tokens generalizing c with
  | nil =>
    rw [schedule, List.filterMap_map, List.map_nil, List.filterMap_nil, List.append_nil]
    exact List.Perm.refl _
  | cons token tokens ih =>
    rw [schedule, List.filterMap_append, List.map_cons, filterMap_cons_toList]
    refine ((ih (c.next token)).append_left _).trans ?_
    rw [← List.append_assoc]
    refine ((c.applied_code token).append_right _).trans ?_
    rw [List.append_assoc]
    exact List.perm_append_comm_assoc _ _ _

/-- One token pushes the operands that it supplies. -/
theorem pushed_code (c : Control ρ) (token : Located ρ (Token (Reading α))) :
    (c.code token).filterMap Instruction.pushed? = token.item.supplied c.operandStart := by
  rcases token with ⟨(text | value) | s, position⟩
  · rfl
  · rfl
  · have hsign : (c.signCode s : List (Instruction α ρ)).filterMap Instruction.pushed? =
        (Token.symbol s).supplied c.operandStart := by
      rw [signCode, Token.supplied]
      split <;> rfl
    rw [code, List.filterMap_append, hsign, Stacks.pushed_receive]
    exact List.append_nil _

/-- All operands that get pushed are those that the tokens supply. -/
theorem pushed_schedule (c : Control ρ) (tokens : List (Located ρ (Token (Reading α)))) :
    (c.schedule tokens).filterMap Instruction.pushed? =
      Token.supply c.operandStart (tokens.map Located.item) := by
  induction tokens generalizing c with
  | nil =>
    rw [schedule, List.filterMap_map]
    exact List.filterMap_eq_nil_iff.2 fun top _ => rfl
  | cons token tokens ih =>
    rw [schedule, List.filterMap_append, pushed_code, ih, operandStart_next]
    rfl

end Control

/-! ## Parentheses -/

namespace Token

/-- Whether a token is a parenthesis. -/
def isParen : Token τ → Bool
  | .symbol (.paren _) => true
  | .symbol (.binary _) | .literal _ => false

/-- Nothing but parentheses nests. -/
theorem nesting_filter_isParen (depth : Nat) (ts : List (Token τ)) :
    nesting depth (ts.filter isParen) = nesting depth ts := by
  induction ts generalizing depth with
  | nil => rfl
  | cons t ts ih =>
    rcases t with content | op | side
    · rw [List.filter_cons_of_neg (by simp [isParen]), nesting_cons]
      exact ih depth
    · rw [List.filter_cons_of_neg (by simp [isParen]), nesting_cons]
      exact ih depth
    · rw [List.filter_cons_of_pos rfl, nesting_cons, nesting_cons]
      exact congrArg _ (funext ih)

/-- Opening parentheses go deeper by one each. -/
theorem nesting_of_forall_opensGroup (depth : Nat) {ts : List (Token τ)}
    (h : ∀ t ∈ ts, t.opensGroup = true) : nesting depth ts = some (depth + ts.length) := by
  induction ts generalizing depth with
  | nil => rfl
  | cons t ts ih =>
    rcases t with content | op | _ | _
    · cases h _ List.mem_cons_self
    · cases h _ List.mem_cons_self
    · rw [nesting_cons, List.length_cons, Nat.add_comm ts.length, ← Nat.add_assoc]
      exact ih (depth + 1) fun t ht => h t (List.mem_cons_of_mem _ ht)
    · cases h _ List.mem_cons_self

end Token

/-- The parentheses that a run has to match: the opening ones that wait, the
lowest first, and then those of the tokens. -/
def parenWord (operators : List (Located ρ Symbol)) (ts : List (Token τ)) : List (Token τ) :=
  (operators.reverse.map fun top => Token.symbol top.item).filter Token.opensGroup ++
    ts.filter Token.isParen

theorem balanced_parenWord_iff {operators : List (Located ρ Symbol)} {ts : List (Token τ)} :
    Token.Balanced (parenWord operators ts) ↔
      Token.nesting (openCount operators) ts = some 0 := by
  have hlength : ((operators.reverse.map fun top => (Token.symbol top.item : Token τ)).filter
      Token.opensGroup).length = openCount operators := by
    rw [← List.countP_eq_length_filter, List.countP_map, List.countP_reverse, openCount]
    refine List.countP_congr fun top _ => ?_
    rcases top with ⟨op | _ | _, position⟩ <;> simp [Token.opensGroup]
  rw [Token.Balanced, parenWord, Token.nesting_append,
    Token.nesting_of_forall_opensGroup 0 fun t ht => (List.mem_filter.1 ht).2, hlength,
    Nat.zero_add]
  show Token.nesting _ (ts.filter Token.isParen) = some 0 ↔ _
  rw [Token.nesting_filter_isParen]

/-! ## Evaluations that get to their end -/

/-- The operands that there are to be at the end, by what the stacks hold and
what the tokens of the expression are. -/
def surplus (state : Stacks Float Nat) (expression : String) : Int :=
  state.operands.length + (Token.lex expression.toList).countP Token.isLiteral +
      Token.signCount true (Token.lex expression.toList) -
    (Token.lex expression.toList).countP Token.isBinary - binaryCount state.operators

/-- The stacks and the expression go together: no closing parenthesis waits,
every other one that waits or comes has its partner, and every literal is a
decimal. -/
structure Fits (state : Stacks Float Nat) (expression : String) : Prop where
  noStray : ∀ top ∈ state.operators, top.item ≠ .paren .right
  balanced : Token.Balanced (parenWord state.operators (Token.lex expression.toList))
  decimal : Token.AllDecimal (Token.lex expression.toList)

/-- An evaluation has used up what it was given, but for the operands that are
left: it has applied each operator once, and each operand was taken once or is
left. -/
structure Conserves (state : Stacks Float Nat) (expression : String) (left : List Float) :
    Prop where
  operators : (applied (evaluateOn state expression).log).Perm
    (waitingOps state.operators ++ (Token.lex expression.toList).filterMap Token.binary?)
  operands :
    (state.operands ++
        (Token.supply true ((readTokens expression).map Located.item) ++
          made (evaluateOn state expression).log)).Perm
      (taken (evaluateOn state expression).log ++ left)

/-- The end of a run records nothing. -/
theorem log_run [Arithmetic α] (state : Stacks α ρ)
    (tokens : List (Located ρ (Token (Reading α)))) (stop : ρ) :
    (state.run tokens stop).log =
      (execute state.operands
        ((⟨state.operators, true⟩ : Control ρ).schedule tokens)).log := by
  rw [run_eq_execute, Recorded.log_bind]
  split
  · rfl
  · rename_i left hleft
    have hlog : (Stacks.onlyValue stop left : Run α ρ α).log = [] := by
      rcases left with _ | ⟨value, _ | ⟨next, rest⟩⟩ <;> rfl
    rw [hlog, List.append_nil]

/-- What fits, and how many operands are left, by the tokens of the
expression. -/
theorem fits_of_leftOver {state : Stacks Float Nat} {expression : String} {count : Nat}
    (h : leftOver (evaluateOn state expression).outcome = some count) :
    Fits state expression ∧ surplus state expression = count := by
  obtain ⟨hstray, hnest, hdecimal, hcount⟩ := accounts_of_leftOver_evaluateOn h
  refine ⟨⟨hstray, balanced_parenWord_iff.2 hnest, hdecimal⟩, ?_⟩
  rw [surplus]
  omega

/-- What is used up, if a run has carried out all that it had to. -/
theorem conserves_of_execute {state : Stacks Float Nat} {expression : String}
    {left : List Float}
    (h : (execute state.operands ((⟨state.operators, true⟩ : Control Nat).schedule
      (readTokens expression))).outcome = .ok left) :
    Conserves state expression left := by
  obtain ⟨happlied, hoperands⟩ := (completes_of_execute h).ledger
  have hreductions : reductions (evaluateOn state expression).log =
      reductions (execute state.operands ((⟨state.operators, true⟩ : Control Nat).schedule
        (readTokens expression))).log := by
    rw [reductions_evaluateOn, log_run]
  constructor
  · have hops : ((readTokens expression).map Located.item).filterMap Token.binary? =
        (Token.lex expression.toList).filterMap Token.binary? := by
      have hmap : Token.binary? ∘ Token.map Literal.read = Token.binary? := by
        funext t
        cases t <;> rfl
      rw [map_item_readTokens, List.filterMap_map, hmap]
    have hschedule := (⟨state.operators, true⟩ : Control Nat).applied_schedule
      (readTokens expression)
    rw [← happlied, hops] at hschedule
    rw [applied, hreductions]
    exact hschedule
  · rw [Control.pushed_schedule] at hoperands
    rw [made, taken, hreductions]
    exact hoperands

/-- An evaluation that gets to its end accounts for all that it was given,
whatever the stacks hold at its start.  A value is the only operand that is
left, and operands that dangle are at least two. -/
theorem evaluateOn_accounted (state : Stacks Float Nat) (expression : String) :
    (∀ value, (evaluateOn state expression).outcome = .ok value →
      Fits state expression ∧ surplus state expression = 1 ∧
        Conserves state expression [value]) ∧
    ∀ count, (evaluateOn state expression).outcome = .error (.danglingOperands count) →
      Fits state expression ∧ surplus state expression = count ∧ 2 ≤ count ∧
        ∃ left, left.length = count ∧ Conserves state expression left := by
  have hanswer : (evaluateOn state expression).outcome =
      answer (byteLength expression.toList) state.operands
        ((⟨state.operators, true⟩ : Control Nat).schedule (readTokens expression)) := by
    rw [outcome_evaluateOn, outcome_run]
  constructor
  · intro value hvalue
    obtain ⟨hfits, hsurplus⟩ := fits_of_leftOver (congrArg leftOver hvalue)
    rw [hanswer] at hvalue
    exact ⟨hfits, hsurplus, conserves_of_execute (execute_of_answer_eq_ok hvalue)⟩
  · intro count hcount
    obtain ⟨hfits, hsurplus⟩ := fits_of_leftOver (congrArg leftOver hcount)
    rw [hanswer] at hcount
    obtain ⟨left, hleft, hlength⟩ := exists_of_leftOver_answer (congrArg leftOver hcount)
    exact ⟨hfits, hsurplus, two_le_of_answer_eq_dangling hcount, left, hlength,
      conserves_of_execute hleft⟩

/-- With an open group and a minus waiting, a closing parenthesis makes the
minus go.  Without the product, two operands are left. -/
theorem evaluateOn_accounted_open_group :
    (∃ value, (evaluateOn ⟨[3], [⟨.binary .sub, 9⟩, ⟨.paren .left, 4⟩]⟩ "2)*4").outcome =
        .ok value ∧
      Conserves ⟨[3], [⟨.binary .sub, 9⟩, ⟨.paren .left, 4⟩]⟩ "2)*4" [value]) ∧
    (evaluateOn ⟨[3], [⟨.binary .sub, 9⟩, ⟨.paren .left, 4⟩]⟩ "2)4").outcome =
        .error (.danglingOperands 2) ∧
      surplus ⟨[3], [⟨.binary .sub, 9⟩, ⟨.paren .left, 4⟩]⟩ "2)4" = 2 := by
  obtain ⟨value, hvalue⟩ : ∃ value, (evaluateOn ⟨[3], [⟨.binary .sub, 9⟩,
      ⟨.paren .left, 4⟩]⟩ "2)*4").outcome = .ok value := ⟨_, rfl⟩
  have hdangling : (evaluateOn ⟨[3], [⟨.binary .sub, 9⟩, ⟨.paren .left, 4⟩]⟩
      "2)4").outcome = .error (.danglingOperands 2) := rfl
  obtain ⟨-, -, hconserves⟩ := (evaluateOn_accounted _ _).1 value hvalue
  obtain ⟨-, hcount, -⟩ := (evaluateOn_accounted _ _).2 2 hdangling
  exact ⟨⟨value, hvalue, hconserves⟩, hdangling, hcount⟩

end InfixArith
