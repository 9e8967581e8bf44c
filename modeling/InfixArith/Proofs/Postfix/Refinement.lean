import InfixArith.Proofs.Layers
import InfixArith.Proofs.Postfix.Waiting
import InfixArith.Proofs.Reading

/-!
# Stacks and postfix order

The stack of waiting symbols holds the waiting operators of the postfix
order, and each opening parenthesis on it is one level of their depth
(`waitingOf`).  Since the symbols are layered, the operators that an incoming
symbol finds on top are exactly those that it closes.

`schedule_items` says that a run over balanced tokens with good literals
schedules the postfix order, and `evaluate_eq_postfixAnswer` that it
therefore gives the answer of the postfix order, faults included.  It says so for
any arithmetic, where it shows which operand is on the left.
-/

namespace InfixArith

variable {α ρ τ : Type}

/-- The operators that wait, with the number of opening parentheses above
each of them. -/
def waitingOf (depth : Nat) : List (Located ρ Symbol) → List (Waiting ρ)
  | [] => []
  | ⟨.binary op, position⟩ :: rest => ⟨op, position, depth⟩ :: waitingOf depth rest
  | ⟨.paren _, _⟩ :: rest => waitingOf (depth + 1) rest

theorem le_depth_of_mem_waitingOf {depth : Nat} {operators : List (Located ρ Symbol)}
    {x : Waiting ρ} (h : x ∈ waitingOf depth operators) : depth ≤ x.depth := by
  induction operators generalizing depth with
  | nil => cases h
  | cons top rest ih =>
    rcases top with ⟨op | side, position⟩
    · rcases List.mem_cons.1 h with rfl | h
      · exact Nat.le_refl _
      · exact ih h
    · exact Nat.le_of_succ_le (ih h)

/-! ## Waiting through one token -/

/-- Below an opening parenthesis nothing is closed. -/
theorem closedBy_eq_false_of_mem_waitingOf_succ {depth : Nat}
    {operators : List (Located ρ Symbol)} (t : Token τ) {x : Waiting ρ}
    (h : x ∈ waitingOf (depth + 1) operators) : x.closedBy t = false := by
  have hdepth : x.depth ≠ 0 := by
    have := le_depth_of_mem_waitingOf h
    omega
  simp [Waiting.closedBy, hdepth]

theorem filter_closedBy_waitingOf_succ (t : Token τ) (depth : Nat)
    (operators : List (Located ρ Symbol)) :
    (waitingOf (depth + 1) operators).filter (·.closedBy t) = [] := by
  refine List.filter_eq_nil_iff.2 ?_
  intro x hx
  simp [closedBy_eq_false_of_mem_waitingOf_succ t hx]

theorem filter_not_closedBy_waitingOf_succ (t : Token τ) (depth : Nat)
    (operators : List (Located ρ Symbol)) :
    (waitingOf (depth + 1) operators).filter (fun x => !x.closedBy t) =
      waitingOf (depth + 1) operators := by
  refine List.filter_eq_self.2 ?_
  intro x hx
  simp [closedBy_eq_false_of_mem_waitingOf_succ t hx]

theorem map_after_left_waitingOf (depth : Nat) (operators : List (Located ρ Symbol)) :
    (waitingOf depth operators).map (·.after (.symbol (.paren .left) : Token τ)) =
      waitingOf (depth + 1) operators := by
  induction operators generalizing depth with
  | nil => rfl
  | cons top rest ih =>
    rcases top with ⟨op | side, position⟩
    · rw [waitingOf, waitingOf, List.map_cons, ih]
      rfl
    · rw [waitingOf, waitingOf, ih]

theorem map_after_right_waitingOf (depth : Nat) (operators : List (Located ρ Symbol)) :
    (waitingOf (depth + 1) operators).map (·.after (.symbol (.paren .right) : Token τ)) =
      waitingOf depth operators := by
  induction operators generalizing depth with
  | nil => rfl
  | cons top rest ih =>
    rcases top with ⟨op | side, position⟩
    · rw [waitingOf, waitingOf, List.map_cons, ih]
      rfl
    · rw [waitingOf, waitingOf, ih]

/-- In front of the first opening parenthesis no operator is tighter than the
topmost one. -/
theorem level_le_of_layered {op : BinaryOp} {position : ρ}
    {rest : List (Located ρ Symbol)}
    (h : Layered (⟨.binary op, position⟩ :: rest)) {x : Waiting ρ}
    (hx : x ∈ waitingOf 0 rest) (hdepth : x.depth = 0) : x.op.level ≤ op.level := by
  induction rest generalizing op position with
  | nil => cases hx
  | cons top rest ih =>
    rcases top with ⟨below | side, place⟩
    · obtain ⟨hlower, hrest⟩ := List.isChain_cons_cons.1 h
      have hle : below.level ≤ op.level := by
        rcases Symbol.precedence_binary_eq_lower_iff.1 hlower with hlt | ⟨heq, -⟩
        · exact Nat.le_of_lt hlt
        · exact Nat.le_of_eq heq
      rcases List.mem_cons.1 hx with rfl | hx
      · exact hle
      · exact Nat.le_trans (ih hrest hx) hle
    · have hopened : 0 + 1 ≤ x.depth := le_depth_of_mem_waitingOf hx
      omega

/-- An operator that stays leaves all operators below it waiting. -/
theorem closedBy_eq_false_of_layered {op next : BinaryOp} {position : ρ}
    {rest : List (Located ρ Symbol)}
    (h : Layered (⟨.binary op, position⟩ :: rest))
    (hlower : (Symbol.binary op).precedence (.binary next) = .lower) {x : Waiting ρ}
    (hx : x ∈ waitingOf 0 rest) :
    x.closedBy (.symbol (.binary next) : Token τ) = false := by
  by_cases hdepth : x.depth = 0
  · have hle := level_le_of_layered h hx hdepth
    have hnot : ¬(Symbol.binary x.op).precedence (.binary next) = .higher := by
      rw [Symbol.precedence_binary_eq_higher_iff_level]
      rcases Symbol.precedence_binary_eq_lower_iff.1 hlower with hlt | ⟨heq, hright⟩
      · omega
      · rintro (hlt | ⟨-, hleft⟩)
        · omega
        · exact absurd (hleft.symm.trans hright) (by decide)
    simp [Waiting.closedBy, BinaryOp.closedBy, hnot]
  · simp [Waiting.closedBy, hdepth]

/-! ## Receiving a symbol -/

/-- The postfix items that an instruction stands for. -/
def Instruction.items : Instruction α ρ → List (PostfixItem α ρ)
  | .push value => [.operand value]
  | .reduce ⟨.binary op, position⟩ => [.operator op position]
  | .reduce ⟨.paren _, _⟩ | .pair .. | .refuse .. => []

namespace Stacks

/-- An incoming operator meets the operators that it closes. -/
theorem receive_binary {operators : List (Located ρ Symbol)} (hlayered : Layered operators)
    (hstray : NoStray operators) (next : BinaryOp) (position : ρ) :
    (receiveCode ⟨.binary next, position⟩ operators).flatMap Instruction.items =
        ((waitingOf 0 operators).filter
          (·.closedBy (.symbol (.binary next) : Token τ))).map
          (Waiting.item : Waiting ρ → PostfixItem α ρ) ∧
      waitingOf 0 (receiveOperators ⟨.binary next, position⟩ operators) =
        ⟨next, position, 0⟩ :: (waitingOf 0 operators).filter
          fun x => !x.closedBy (.symbol (.binary next) : Token τ) := by
  induction operators with
  | nil => exact ⟨rfl, rfl⟩
  | cons top rest ih =>
    rcases top with ⟨op | side, place⟩
    · have hclosed : (⟨op, place, 0⟩ : Waiting ρ).closedBy
          (.symbol (.binary next) : Token τ) =
            ((Symbol.binary op).precedence (.binary next) == .higher) := by
        simp [Waiting.closedBy, BinaryOp.closedBy]
      rw [receiveCode, receiveOperators, waitingOf, List.filter_cons, List.filter_cons, hclosed]
      obtain ⟨hcode, hwaiting⟩ := ih hlayered.tail hstray.tail
      cases hp : (Symbol.binary op).precedence (.binary next) with
      | higher => exact ⟨congrArg _ hcode, hwaiting⟩
      | equal => cases (Symbol.precedence_eq_equal_iff.1 hp).1
      | lower =>
        -- The scan stops here, but looking ahead asks every waiting operator.
        have hbelow : ∀ x ∈ waitingOf 0 rest,
            x.closedBy (.symbol (.binary next) : Token τ) = false :=
          fun x hx => closedBy_eq_false_of_layered hlayered hp hx
        have hnone : (waitingOf 0 rest).filter
            (·.closedBy (.symbol (.binary next) : Token τ)) = [] :=
          List.filter_eq_nil_iff.2 fun x hx => by simp [hbelow x hx]
        have hall : (waitingOf 0 rest).filter
            (fun x => !x.closedBy (.symbol (.binary next) : Token τ)) = waitingOf 0 rest :=
          List.filter_eq_self.2 fun x hx => by simp [hbelow x hx]
        simp [hnone, hall, waitingOf]
    · cases side with
      | left =>
        rw [receiveCode, receiveOperators, waitingOf, filter_closedBy_waitingOf_succ,
          filter_not_closedBy_waitingOf_succ]
        exact ⟨rfl, rfl⟩
      | right => exact absurd rfl (hstray _ List.mem_cons_self)

/-- A closing parenthesis meets all operators of its group. -/
theorem receive_right {operators : List (Located ρ Symbol)} (hstray : NoStray operators)
    (hopen : 0 < openCount operators) (position : ρ) :
    (receiveCode ⟨.paren .right, position⟩ operators).flatMap Instruction.items =
        ((waitingOf 0 operators).filter
          (·.closedBy (.symbol (.paren .right) : Token τ))).map
          (Waiting.item : Waiting ρ → PostfixItem α ρ) ∧
      waitingOf 0 (receiveOperators ⟨.paren .right, position⟩ operators) =
        ((waitingOf 0 operators).filter
          fun x => !x.closedBy (.symbol (.paren .right) : Token τ)).map
          (·.after (.symbol (.paren .right) : Token τ)) := by
  induction operators with
  | nil => cases hopen
  | cons top rest ih =>
    rcases top with ⟨op | side, place⟩
    · rw [openCount_cons_of_ne (by simp)] at hopen
      obtain ⟨hcode, hwaiting⟩ := ih hstray.tail hopen
      exact ⟨congrArg _ hcode, hwaiting⟩
    · cases side with
      | left =>
        rw [waitingOf, filter_closedBy_waitingOf_succ, filter_not_closedBy_waitingOf_succ,
          map_after_right_waitingOf]
        exact ⟨rfl, rfl⟩
      | right => exact absurd rfl (hstray _ List.mem_cons_self)

/-- Any incoming symbol meets the operators that it closes, and leaves the
others waiting. -/
theorem receive_items {s : Symbol} {operators : List (Located ρ Symbol)} {depth : Nat}
    (hlayered : Layered operators) (hstray : NoStray operators)
    (hnest : (Token.symbol s : Token τ).nest (openCount operators) = some depth)
    (position : ρ) :
    (receiveCode ⟨s, position⟩ operators).flatMap Instruction.items =
        ((waitingOf 0 operators).filter (·.closedBy (.symbol s : Token τ))).map
          (Waiting.item : Waiting ρ → PostfixItem α ρ) ∧
      waitingOf 0 (receiveOperators ⟨s, position⟩ operators) =
        Waiting.advance (waitingOf 0 operators) ⟨(.symbol s : Token τ), position⟩ := by
  rcases s with next | side
  · obtain ⟨hcode, hwaiting⟩ :=
      receive_binary (α := α) (τ := τ) hlayered hstray next position
    refine ⟨hcode, hwaiting.trans ?_⟩
    exact congrArg (List.cons _) (List.map_id _).symm
  · cases side with
    | left =>
      obtain ⟨hcode, hoperators⟩ := receive_open (α := α)
        (fun top htop => hstray top (List.mem_of_mem_head? htop)) position
      have hnone : ∀ x : Waiting ρ,
          x.closedBy (.symbol (.paren .left) : Token τ) = false :=
        fun x => Bool.and_false _
      rw [hcode, hoperators, waitingOf, Waiting.advance]
      simp [hnone, map_after_left_waitingOf, Waiting.ofToken]
    | right =>
      have hopen : 0 < openCount operators := by
        rw [Token.nest] at hnest
        split at hnest
        · cases hnest
        · omega
      exact receive_right hstray hopen position

end Stacks

/-! ## Schedules -/

theorem items_map_reduce {operators : List (Located ρ Symbol)} (depth : Nat) :
    (operators.map Instruction.reduce).flatMap Instruction.items =
      (waitingOf depth operators).map (Waiting.item : Waiting ρ → PostfixItem α ρ) := by
  induction operators generalizing depth with
  | nil => rfl
  | cons top rest ih =>
    rcases top with ⟨op | side, position⟩
    · rw [List.map_cons, List.flatMap_cons, ih depth]
      rfl
    · rw [List.map_cons, List.flatMap_cons, ih (depth + 1)]
      rfl

/-- If no parenthesis waits, the end reduces operators only. -/
theorem plain_map_reduce {operators : List (Located ρ Symbol)} (hstray : NoStray operators)
    (hopen : openCount operators = 0) :
    ∀ i ∈ (operators.map Instruction.reduce : List (Instruction α ρ)), i.Plain := by
  intro i hi
  obtain ⟨⟨op | side, position⟩, hmem, rfl⟩ := List.mem_map.1 hi
  · exact ⟨op, rfl⟩
  · cases side with
    | left =>
      have hno := List.countP_eq_zero.1 hopen _ hmem
      simp at hno
    | right => exact absurd rfl (hstray _ hmem)

variable [Arithmetic α]

theorem items_signCode (c : Control ρ) (s : Symbol) (position : ρ) :
    (c.signCode s : List (Instruction α ρ)).flatMap Instruction.items =
      operandsOf c.operandStart ⟨.symbol s, position⟩ := by
  simp only [Control.signCode, operandsOf]
  split <;> rfl

/-- What one token makes control do is what it does to the waiting
operators. -/
theorem code_items (c : Control ρ) {token : Located ρ (Token (Reading α))} {depth : Nat}
    (hlayered : Layered c.operators) (hstray : NoStray c.operators)
    (hnest : token.item.nest (openCount c.operators) = some depth)
    (hread : ∀ text, token.item ≠ .literal (.error text)) :
    (c.code token).flatMap Instruction.items =
        operandsOf c.operandStart token ++
          ((waitingOf 0 c.operators).filter (·.closedBy token.item)).map Waiting.item ∧
      waitingOf 0 (c.next token).operators =
        Waiting.advance (waitingOf 0 c.operators) token := by
  rcases token with ⟨content | s, position⟩
  · rcases content with text | value
    · exact absurd rfl (hread text)
    · have hnone : ∀ x : Waiting ρ,
          x.closedBy (.literal (.ok value) : Token (Reading α)) = false :=
        fun x => Bool.and_false _
      constructor
      · simp [Control.code, Instruction.items, operandsOf, hnone]
      · simp only [Waiting.advance, hnone]
        simp [Control.next, Waiting.ofToken, Waiting.after, Token.nest]
  · obtain ⟨hcode, hwaiting⟩ :=
      Stacks.receive_items (α := α) hlayered hstray hnest position
    refine ⟨?_, hwaiting⟩
    rw [Control.code, List.flatMap_append, items_signCode c s position, hcode]

/-- Over the rest of balanced tokens, control schedules the postfix order. -/
theorem schedule_items (c : Control ρ) (tokens : List (Located ρ (Token (Reading α))))
    (hlayered : Layered c.operators) (hstray : NoStray c.operators)
    (hnest : Token.nesting (openCount c.operators) (tokens.map Located.item) = some 0)
    (hread : AllRead tokens) :
    (c.schedule tokens).flatMap Instruction.items =
        waitingOrder c.operandStart (waitingOf 0 c.operators) tokens ∧
      ∀ i ∈ c.schedule tokens, i.Plain := by
  induction tokens generalizing c with
  | nil =>
    exact ⟨items_map_reduce 0, plain_map_reduce hstray (Option.some.inj hnest)⟩
  | cons token tokens ih =>
    have htail : AllRead tokens := fun t ht => hread t (List.mem_cons_of_mem token ht)
    rw [List.map_cons, Token.nesting_cons] at hnest
    obtain ⟨depth, htoken, hrest⟩ := Option.bind_eq_some_iff.1 hnest
    have htext := hread token List.mem_cons_self
    obtain ⟨hcode, hwaiting⟩ := code_items c hlayered hstray htoken htext
    obtain ⟨hstray', hdepth⟩ := c.nest_next hstray htoken
    obtain ⟨hitems, hplains⟩ :=
      ih (c.next token) (c.layered_next token hlayered) hstray' (hdepth ▸ hrest) htail
    refine ⟨?_, List.forall_mem_append.2 ⟨c.plain_code hstray htext, hplains⟩⟩
    rw [Control.schedule, List.flatMap_append, hcode, hitems, hwaiting, waitingOrder,
      Control.operandStart_next]

/-! ## Answers -/

/-- Plain instructions are carried out as the postfix items that they stand
for. -/
theorem outcome_execute (operands : List α) (code : List (Instruction α ρ))
    (hplain : ∀ i ∈ code, i.Plain) :
    (execute operands code).outcome =
      (evaluatePostfix operands (code.flatMap Instruction.items)).mapError
        Fault.missingOperand := by
  induction code generalizing operands with
  | nil => rfl
  | cons i code ih =>
    have htail := fun operands => ih operands fun j hj => hplain j (List.mem_cons_of_mem i hj)
    have hi : i.Plain := hplain i List.mem_cons_self
    rw [execute_cons, Recorded.outcome_bind]
    cases i with
    | push value => exact htail (value :: operands)
    | pair opened closed => exact htail operands
    | refuse text position => exact hi.elim
    | reduce top =>
      obtain ⟨item, position⟩ := top
      obtain ⟨op, rfl⟩ := hi
      rcases operands with _ | ⟨right, _ | ⟨left, rest⟩⟩
      · rfl
      · rfl
      · exact htail (Arithmetic.apply op left right :: rest)

/-- Over balanced tokens with good literals, a run carries out the postfix
order. -/
theorem outcome_execute_schedule (tokens : List (Located ρ (Token (Reading α))))
    (hbalanced : Token.Balanced (tokens.map Located.item)) (hread : AllRead tokens) :
    (execute [] ((⟨[], true⟩ : Control ρ).schedule tokens)).outcome =
      (evaluatePostfix [] (postfixOrder tokens)).mapError Fault.missingOperand := by
  obtain ⟨hitems, hplain⟩ := schedule_items (⟨[], true⟩ : Control ρ) tokens .nil
    (fun top htop => nomatch htop) hbalanced hread
  rw [outcome_execute [] _ hplain, hitems, ← waitingOrder_nil]
  rfl

/-- A run over balanced tokens gives the answer of their postfix order. -/
theorem outcome_run_eq_postfixAnswer (tokens : List (Located ρ (Token (Reading α)))) (stop : ρ)
    (hbalanced : Token.Balanced (tokens.map Located.item)) (hread : AllRead tokens) :
    ((Stacks.empty : Stacks α ρ).run tokens stop).outcome =
      postfixAnswer stop (evaluatePostfix [] (postfixOrder tokens)) := by
  have hcode := outcome_execute_schedule tokens hbalanced hread
  have hrun : ((Stacks.empty : Stacks α ρ).run tokens stop).outcome =
      (execute [] ((⟨[], true⟩ : Control ρ).schedule tokens)).outcome.bind fun operands =>
        (Stacks.onlyValue stop operands).outcome := by
    rw [outcome_run, answer, Recorded.outcome_bind]
    rfl
  rw [hrun, hcode]
  rcases evaluatePostfix [] (postfixOrder tokens) with position | operands
  · rfl
  · rcases operands with _ | ⟨value, _ | ⟨next, rest⟩⟩ <;> rfl

/-! ## Expressions -/

section Expressions

variable {expression : String} (hbalanced : Token.Balanced (Token.lex expression.toList))
  (hdecimal : Token.AllDecimal (Token.lex expression.toList))
include hbalanced hdecimal

theorem evaluateAs_of_balanced (value : Decimal → α) :
    evaluateAs value expression =
      postfixAnswer expression.utf8ByteSize
        (evaluatePostfix [] (postfixOrder (tokensAs value expression))) := by
  rw [← byteLength_toList]
  exact outcome_run_eq_postfixAnswer _ _ ((Token.balanced_placed_iff _ 0).2 hbalanced)
    (Token.allRead_placed_iff.2 hdecimal)

theorem evaluate_of_balanced :
    evaluate expression =
      postfixAnswer expression.utf8ByteSize
        (evaluatePostfix [] (postfixOrder (readTokens expression))) :=
  (evaluate_eq_evaluateAs expression).trans (evaluateAs_of_balanced hbalanced hdecimal _)

end Expressions

/-- The answer of an expression whose parentheses are balanced and whose
literals are decimals is the answer of its postfix order, in any arithmetic. -/
theorem evaluate_eq_postfixAnswer (expression : String)
    (hbalanced : Token.Balanced (Token.lex expression.toList))
    (hdecimal : Token.AllDecimal (Token.lex expression.toList)) :
    (∀ (α : Type) [Arithmetic α] (value : Decimal → α),
      evaluateAs value expression =
        postfixAnswer expression.utf8ByteSize
          (evaluatePostfix [] (postfixOrder (tokensAs value expression)))) ∧
      evaluate expression =
        postfixAnswer expression.utf8ByteSize
          (evaluatePostfix [] (postfixOrder (readTokens expression))) :=
  ⟨fun _ _ value => evaluateAs_of_balanced hbalanced hdecimal value,
    evaluate_of_balanced hbalanced hdecimal⟩

/-- The minus is closed by the plus, and finds only the product.  In the second
expression it takes a quotient from the operand in front of it. -/
theorem evaluate_misplaced_minus :
    Token.Balanced (Token.lex "2(*3)-+1".toList) ∧
      Token.AllDecimal (Token.lex "2(*3)-+1".toList) ∧
      evaluate "2(*3)-+1" = .error (.missingOperand 5) ∧
      Token.Balanced (Token.lex "8-(2/4)".toList) ∧
      Token.AllDecimal (Token.lex "8-(2/4)".toList) ∧
      ∃ value, evaluate "8-(2/4)" = .ok value ∧ Event.numeral value = "7.5" := by
  have hbalanced : Token.Balanced (Token.lex "2(*3)-+1".toList) := by decide +kernel
  have hdecimal : Token.AllDecimal (Token.lex "2(*3)-+1".toList) := by decide +kernel
  have hbalanced' : Token.Balanced (Token.lex "8-(2/4)".toList) := by decide +kernel
  have hdecimal' : Token.AllDecimal (Token.lex "8-(2/4)".toList) := by decide +kernel
  refine ⟨hbalanced, hdecimal, ?_, hbalanced', hdecimal', ?_⟩
  · rw [(evaluate_eq_postfixAnswer _ hbalanced hdecimal).2, ← byteLength_toList]
    rfl
  · rw [(evaluate_eq_postfixAnswer _ hbalanced' hdecimal').2, ← byteLength_toList]
    exact ⟨_, rfl, by decide +kernel⟩

end InfixArith
