import InfixArith.Proofs.Execution
import InfixArith.Proofs.Layers
import InfixArith.Proofs.Reading
import InfixArith.Proofs.Tiling

/-!
# Accounting

No operand is lost or made on the way, and no operator is skipped.  What a
run that reaches its end has left over is therefore a matter of counting:
the literals and the zeros of signs push one operand each, and an operator
takes one away.

`Completes.length` counts along a list of instructions, and
`Control.countP_schedule` along the tokens that they were scheduled for.  A
run that gets to its end has met no stray parenthesis and no bad literal
either (`Control.wellFormed_of_plain`).  `accounts_of_leftOver` puts these
together, for a run that starts on any stacks.
-/

namespace InfixArith

variable {α ρ τ : Type}

/-- A count as a sum, in the form that `omega` adds up. -/
theorem countP_cons_toNat {β : Type} (q : β → Bool) (x : β) (xs : List β) :
    (x :: xs).countP q = xs.countP q + (q x).toNat := by
  rw [List.countP_cons]
  cases q x <;> rfl

/-! ## Counting instructions -/

namespace Instruction

/-- Whether an instruction pushes an operand. -/
def isPush : Instruction α ρ → Bool
  | .push _ => true
  | .reduce _ | .pair .. | .refuse .. => false

/-- Whether an instruction applies an operator. -/
def isApply : Instruction α ρ → Bool
  | .reduce ⟨.binary _, _⟩ => true
  | .reduce ⟨.paren _, _⟩ | .push _ | .pair .. | .refuse .. => false

end Instruction

section Execution

variable [Arithmetic α]

/-- Each instruction has changed the number of operands by what it is. -/
theorem Completes.length {operands result : List α} {code : List (Instruction α ρ)}
    {log : List (Event α ρ)} (h : Completes operands code log result) :
    result.length + code.countP Instruction.isApply =
      operands.length + code.countP Instruction.isPush := by
  induction h with
  | nil operands => rfl
  | push value h ih =>
    simp only [countP_cons_toNat, Instruction.isApply, Instruction.isPush, List.length_cons,
      Bool.toNat_true, Bool.toNat_false] at ih ⊢
    omega
  | pair opened closed h ih => exact ih
  | apply op position left right h ih =>
    simp only [countP_cons_toNat, Instruction.isApply, Instruction.isPush, List.length_cons,
      Bool.toNat_true, Bool.toNat_false] at ih ⊢
    omega

/-- Instructions that come to an end are plain, and each of them has changed
the number of operands by what it is. -/
theorem length_of_execute {operands result : List α} {code : List (Instruction α ρ)}
    (h : (execute operands code).outcome = .ok result) :
    (∀ i ∈ code, i.Plain) ∧
      result.length + code.countP Instruction.isApply =
        operands.length + code.countP Instruction.isPush :=
  have hcompletes := completes_of_execute h
  ⟨hcompletes.plain, hcompletes.length⟩

end Execution

/-! ## Counting tokens -/

/-- Whether a symbol is an operator. -/
def Symbol.isBinary : Symbol → Bool
  | .binary _ => true
  | .paren _ => false

namespace Token

/-- Whether a token is an operator. -/
def isBinary : Token τ → Bool
  | .symbol s => s.isBinary
  | .literal _ => false

/-- Whether a token is a plus or a minus. -/
def isSign : Token τ → Bool
  | .symbol s => s.isSign
  | .literal _ => false

/-- What its character says about a symbol: whether it is a plus or a minus,
and whether it is an opening parenthesis. -/
theorem symbol_chars (s : Symbol) :
    (s.toChar == '+' || s.toChar == '-') = (symbol s : Token τ).isSign ∧
      (s.toChar == '(') = (symbol s : Token τ).opensGroup := by
  rcases s with op | side
  · cases op <;> exact ⟨rfl, rfl⟩
  · cases side <;> exact ⟨rfl, rfl⟩

/-- The number of signs.  A plus or a minus is a sign where a group starts,
and `groupStart` tells whether the first token is such a place. -/
def signCount (groupStart : Bool) : List (Token τ) → Nat
  | [] => 0
  | t :: ts => (groupStart && t.isSign).toNat + signCount t.opensGroup ts

end Token

/-- The number of operators that wait. -/
def binaryCount (operators : List (Located ρ Symbol)) : Nat :=
  operators.countP fun top => top.item.isBinary

theorem binaryCount_cons (top : Located ρ Symbol) (operators : List (Located ρ Symbol)) :
    binaryCount (top :: operators) = binaryCount operators + top.item.isBinary.toNat :=
  countP_cons_toNat _ top operators

theorem Instruction.isApply_reduce (top : Located ρ Symbol) :
    (reduce top : Instruction α ρ).isApply = top.item.isBinary := by
  rcases top with ⟨op | side, position⟩ <;> rfl

/-! ## Counting what control does -/

namespace Stacks

/-- An operator that comes in waits, or has been applied. -/
theorem countP_receiveCode (incoming : Located ρ Symbol) (operators : List (Located ρ Symbol)) :
    (receiveCode incoming operators : List (Instruction α ρ)).countP Instruction.isPush = 0 ∧
      (receiveCode incoming operators : List (Instruction α ρ)).countP Instruction.isApply +
          binaryCount (receiveOperators incoming operators) =
        binaryCount operators + incoming.item.isBinary.toNat := by
  induction operators with
  | nil =>
    refine ⟨rfl, ?_⟩
    show 0 + binaryCount [incoming] = binaryCount [] + incoming.item.isBinary.toNat
    rw [binaryCount_cons, Nat.zero_add]
  | cons top rest ih =>
    rw [receiveCode, receiveOperators]
    split
    · obtain ⟨hpush, happly⟩ := ih
      refine ⟨hpush, ?_⟩
      rw [countP_cons_toNat, Instruction.isApply_reduce, binaryCount_cons]
      omega
    · rename_i hequal
      obtain ⟨htop, hincoming⟩ := Symbol.precedence_eq_equal_iff.1 hequal
      refine ⟨rfl, ?_⟩
      rw [binaryCount_cons, htop, hincoming]
      show 0 + binaryCount rest = binaryCount rest + 0 + 0
      omega
    · refine ⟨rfl, ?_⟩
      show 0 + binaryCount (incoming :: top :: rest) = _
      rw [binaryCount_cons incoming]
      omega

/-- If only operators are reduced and no closing parenthesis is left, none
was there, and the opening ones are counted as nesting counts them. -/
theorem noStray_of_receive {incoming : Located ρ Symbol}
    {operators : List (Located ρ Symbol)}
    (hplain : ∀ i ∈ (receiveCode incoming operators : List (Instruction α ρ)), i.Plain)
    (hstray : NoStray (receiveOperators incoming operators)) :
    NoStray operators ∧
      (Token.symbol incoming.item : Token τ).nest (openCount operators) =
        some (openCount (receiveOperators incoming operators)) := by
  have hpush : ∀ operators : List (Located ρ Symbol), NoStray (incoming :: operators) →
      NoStray operators ∧ (Token.symbol incoming.item : Token τ).nest (openCount operators) =
        some (openCount (incoming :: operators)) := by
    intro operators h
    refine ⟨h.tail, ?_⟩
    rcases incoming with ⟨op | _ | _, position⟩
    · rw [openCount_cons_of_ne (by simp)]
      rfl
    · rw [openCount_cons_left]
      rfl
    · exact absurd rfl (h _ List.mem_cons_self)
  induction operators with
  | nil => exact hpush [] hstray
  | cons top rest ih =>
    rw [receiveCode] at hplain
    rw [receiveOperators] at hstray ⊢
    -- A plain reduction takes an operator away, and that counts as no group.
    split at hplain
    · rename_i hhigher
      obtain ⟨op, hop⟩ : ∃ op, top.item = .binary op := hplain _ List.mem_cons_self
      simp only [hhigher] at hstray ⊢
      obtain ⟨hrest, hnest⟩ :=
        ih (fun i hi => hplain i (List.mem_cons_of_mem _ hi)) hstray
      refine ⟨noStray_cons (by simp [hop]) hrest, ?_⟩
      rw [openCount_cons_of_ne (by simp [hop])]
      exact hnest
    · rename_i hequal
      obtain ⟨htop, hincoming⟩ := Symbol.precedence_eq_equal_iff.1 hequal
      obtain ⟨item, place⟩ := top
      cases htop
      simp only [hequal] at hstray ⊢
      refine ⟨noStray_cons (by simp) hstray, ?_⟩
      rw [hincoming, openCount_cons_left]
      rfl
    · rename_i hlower
      simp only [hlower] at hstray ⊢
      exact hpush (top :: rest) hstray

end Stacks

namespace Control

variable [Arithmetic α]

theorem countP_signCode (c : Control ρ) (s : Symbol) :
    (c.signCode s : List (Instruction α ρ)).countP Instruction.isPush =
        (c.operandStart && s.isSign).toNat ∧
      (c.signCode s : List (Instruction α ρ)).countP Instruction.isApply = 0 := by
  unfold signCode
  cases c.operandStart && s.isSign <;> exact ⟨rfl, rfl⟩

/-- What one token makes control do, in numbers. -/
theorem countP_code (c : Control ρ) (token : Located ρ (Token (Reading α)))
    (hplain : ∀ i ∈ c.code token, i.Plain) :
    (c.code token).countP Instruction.isPush =
        token.item.isLiteral.toNat + (c.operandStart && token.item.isSign).toNat ∧
      (c.code token).countP Instruction.isApply + binaryCount (c.next token).operators =
        binaryCount c.operators + token.item.isBinary.toNat := by
  rcases token with ⟨content | s, position⟩
  · rcases content with text | value
    · exact (hplain _ List.mem_cons_self).elim
    · have hsign : (c.operandStart && false).toNat = 0 := by
        rw [Bool.and_false]
        rfl
      exact ⟨congrArg (1 + ·) hsign.symm, Nat.zero_add _⟩
  · obtain ⟨hpush, happly⟩ := Stacks.countP_receiveCode (α := α) ⟨s, position⟩ c.operators
    obtain ⟨hsign, hnone⟩ := countP_signCode (α := α) c s
    rw [code, List.countP_append, List.countP_append, hsign, hnone, hpush]
    refine ⟨?_, ?_⟩
    · show _ + 0 = 0 + _
      rw [Nat.add_comm]
      rfl
    · rw [Nat.zero_add]
      exact happly

/-- A token that only makes control do what is plain has been read, and its
parenthesis counts. -/
theorem noStray_of_code (c : Control ρ) (token : Located ρ (Token (Reading α)))
    (hplain : ∀ i ∈ c.code token, i.Plain) (hstray : NoStray (c.next token).operators) :
    NoStray c.operators ∧
      token.item.nest (openCount c.operators) = some (openCount (c.next token).operators) ∧
      ∀ text, token.item ≠ .literal (.error text) := by
  rcases token with ⟨content | s, position⟩
  · rcases content with text | value
    · exact (hplain _ List.mem_cons_self).elim
    · refine ⟨hstray, rfl, ?_⟩
      intro text htext
      cases htext
  · have hreceive : ∀ i ∈ (Stacks.receiveCode ⟨s, position⟩ c.operators :
        List (Instruction α ρ)), i.Plain :=
      (List.forall_mem_append.1 hplain).2
    obtain ⟨hbelow, hnest⟩ := Stacks.noStray_of_receive hreceive hstray
    refine ⟨hbelow, hnest, ?_⟩
    intro text htext
    cases htext

/-- If all that is left to do is plain, then no stray parenthesis waits, the
open parentheses and those of the tokens have their partners, and every
literal has been read. -/
theorem wellFormed_of_plain (c : Control ρ) (tokens : List (Located ρ (Token (Reading α))))
    (hplain : ∀ i ∈ c.schedule tokens, i.Plain) :
    NoStray c.operators ∧
      Token.nesting (openCount c.operators) (tokens.map Located.item) = some 0 ∧
      AllRead tokens := by
  induction tokens generalizing c with
  | nil =>
    have hbinary : ∀ top ∈ c.operators, ∃ op, top.item = .binary op :=
      fun top htop => hplain _ (List.mem_map_of_mem htop)
    refine ⟨?_, ?_, ?_⟩
    · intro top htop
      obtain ⟨op, hop⟩ := hbinary top htop
      rw [hop]
      exact nofun
    · refine congrArg some (List.countP_eq_zero.2 ?_)
      intro top htop
      obtain ⟨op, hop⟩ := hbinary top htop
      simp [hop]
    · intro token htoken
      cases htoken
  | cons token tokens ih =>
    rw [schedule] at hplain
    obtain ⟨hcode, hrest⟩ := List.forall_mem_append.1 hplain
    obtain ⟨hstray, hnest, hread⟩ := ih (c.next token) hrest
    obtain ⟨hbelow, htoken, hliteral⟩ := noStray_of_code c token hcode hstray
    refine ⟨hbelow, ?_, List.forall_mem_cons.2 ⟨hliteral, hread⟩⟩
    rw [List.map_cons, Token.nesting_cons, htoken]
    exact hnest

/-- What is left to do, in numbers: a push for each literal and each sign, and
an application for each operator, waiting or still to come. -/
theorem countP_schedule (c : Control ρ) (tokens : List (Located ρ (Token (Reading α))))
    (hplain : ∀ i ∈ c.schedule tokens, i.Plain) :
    (c.schedule tokens).countP Instruction.isPush =
        (tokens.map Located.item).countP Token.isLiteral +
          Token.signCount c.operandStart (tokens.map Located.item) ∧
      (c.schedule tokens).countP Instruction.isApply =
        binaryCount c.operators + (tokens.map Located.item).countP Token.isBinary := by
  induction tokens generalizing c with
  | nil =>
    have hall : ∀ operators : List (Located ρ Symbol),
        (operators.map Instruction.reduce : List (Instruction α ρ)).countP
            Instruction.isPush = 0 ∧
          (operators.map Instruction.reduce : List (Instruction α ρ)).countP
            Instruction.isApply = binaryCount operators := by
      intro operators
      induction operators with
      | nil => exact ⟨rfl, rfl⟩
      | cons top rest ih =>
        obtain ⟨hpush, happly⟩ := ih
        refine ⟨hpush, ?_⟩
        rw [List.map_cons, countP_cons_toNat, happly, Instruction.isApply_reduce,
          binaryCount_cons]
    exact hall c.operators
  | cons token tokens ih =>
    rw [schedule] at hplain ⊢
    obtain ⟨hcode, hlater⟩ := List.forall_mem_append.1 hplain
    obtain ⟨hpush, happly⟩ := ih (c.next token) hlater
    obtain ⟨hpushes, happlies⟩ := countP_code c token hcode
    rw [operandStart_next] at hpush
    rw [List.countP_append, List.countP_append, List.map_cons, countP_cons_toNat,
      countP_cons_toNat, Token.signCount]
    constructor <;> omega

end Control

/-! ## Whole runs -/

section Runs

variable [Arithmetic α]

/-- The number of values that a run has left over, if it got to its end. -/
def leftOver : Except (Fault ρ) α → Option Nat
  | .ok _ => some 1
  | .error (.danglingOperands count) => some count
  | .error _ => none

/-- Only the end of a run finds values left over. -/
theorem leftOver_of_execute_eq_error (operands : List α) (code : List (Instruction α ρ))
    (fault : Fault ρ) (h : (execute operands code).outcome = .error fault) :
    leftOver (.error fault : Except (Fault ρ) α) = none := by
  obtain ⟨front, i, back, result, -, -, hi⟩ := exists_of_execute_eq_error h
  cases hi <;> rfl

/-- Either a fault has ended the run on its way, or all has been carried out
and the answer is taken from the operands that are left. -/
theorem answer_cases (stop : ρ) (operands : List α) (code : List (Instruction α ρ)) :
    leftOver (answer stop operands code) = none ∨
      ∃ result : List α, (execute operands code).outcome = .ok result ∧
        answer stop operands code = (Stacks.onlyValue stop result).outcome := by
  rw [answer, Recorded.outcome_bind]
  cases hcode : (execute operands code).outcome with
  | error fault => exact .inl (leftOver_of_execute_eq_error operands code fault hcode)
  | ok result => exact .inr ⟨result, rfl, rfl⟩

/-- A run that tells how many values are left has carried out all that it
had to. -/
theorem exists_of_leftOver_answer {stop : ρ} {operands : List α}
    {code : List (Instruction α ρ)} {count : Nat}
    (h : leftOver (answer stop operands code) = some count) :
    ∃ result : List α,
      (execute operands code).outcome = .ok result ∧ result.length = count := by
  rcases answer_cases stop operands code with hnone | ⟨result, hresult, hanswer⟩
  · rw [hnone] at h
    cases h
  · rw [hanswer] at h
    refine ⟨result, hresult, ?_⟩
    rcases result with _ | ⟨value, _ | ⟨next, rest⟩⟩
    · cases h
    · exact Option.some.inj h
    · exact Option.some.inj h

/-- A value is the answer if it is all that is left. -/
theorem execute_of_answer_eq_ok {stop : ρ} {operands : List α}
    {code : List (Instruction α ρ)} {value : α} (h : answer stop operands code = .ok value) :
    (execute operands code).outcome = .ok [value] := by
  obtain ⟨left, hleft, honly⟩ := Recorded.outcome_bind_eq_ok_iff.1 h
  rw [hleft]
  rcases left with _ | ⟨last, _ | ⟨next, rest⟩⟩
  · cases honly
  · cases honly
    rfl
  · cases honly

/-- Operands that dangle are more than one. -/
theorem two_le_of_answer_eq_dangling {stop : ρ} {operands : List α}
    {code : List (Instruction α ρ)} {count : Nat}
    (h : answer stop operands code = .error (.danglingOperands count)) : 2 ≤ count := by
  rcases answer_cases stop operands code with hnone | ⟨result, -, hanswer⟩
  · rw [h] at hnone
    cases hnone
  · rw [h] at hanswer
    rcases result with _ | ⟨value, _ | ⟨next, rest⟩⟩
    · cases hanswer
    · cases hanswer
    · cases hanswer
      simp only [List.length_cons]
      omega

/-- What is left over when all has been carried out, counted in tokens. -/
theorem length_of_schedule {c : Control ρ} {operands result : List α}
    {tokens : List (Located ρ (Token (Reading α)))}
    (h : (execute operands (c.schedule tokens)).outcome = .ok result) :
    result.length +
        (binaryCount c.operators + (tokens.map Located.item).countP Token.isBinary) =
      operands.length +
        ((tokens.map Located.item).countP Token.isLiteral +
          Token.signCount c.operandStart (tokens.map Located.item)) := by
  obtain ⟨hplain, hlength⟩ := length_of_execute h
  obtain ⟨hpush, happly⟩ := c.countP_schedule tokens hplain
  rw [← hpush, ← happly]
  exact hlength

/-- A run that gets to its end has met well-formed tokens, and no operand was
lost or made on the way. -/
theorem accounts_of_leftOver {state : Stacks α ρ}
    {tokens : List (Located ρ (Token (Reading α)))} {stop : ρ} {count : Nat}
    (h : leftOver (state.run tokens stop).outcome = some count) :
    NoStray state.operators ∧
      Token.nesting (openCount state.operators) (tokens.map Located.item) = some 0 ∧
      AllRead tokens ∧
      count + (binaryCount state.operators +
          (tokens.map Located.item).countP Token.isBinary) =
        state.operands.length + ((tokens.map Located.item).countP Token.isLiteral +
          Token.signCount true (tokens.map Located.item)) := by
  rw [outcome_run] at h
  obtain ⟨result, hresult, rfl⟩ := exists_of_leftOver_answer h
  obtain ⟨hplain, -⟩ := length_of_execute hresult
  obtain ⟨hstray, hnest, hread⟩ :=
    (⟨state.operators, true⟩ : Control ρ).wellFormed_of_plain tokens hplain
  exact ⟨hstray, hnest, hread, length_of_schedule hresult⟩

end Runs

/-! ## Expressions -/

namespace Token

variable {υ : Type} (f : τ → υ)

/-- What the literals hold does not count here either. -/
theorem countP_map (ts : List (Token τ)) :
    (ts.map (Token.map f)).countP isLiteral = ts.countP isLiteral ∧
      (ts.map (Token.map f)).countP isBinary = ts.countP isBinary := by
  have hliteral : isLiteral ∘ Token.map f = isLiteral := by
    funext t
    cases t <;> rfl
  have hbinary : isBinary ∘ Token.map f = isBinary := by
    funext t
    cases t <;> rfl
  rw [List.countP_map, List.countP_map, hliteral, hbinary]
  exact ⟨rfl, rfl⟩

theorem signCount_map (groupStart : Bool) (ts : List (Token τ)) :
    signCount groupStart (ts.map (Token.map f)) = signCount groupStart ts := by
  induction ts generalizing groupStart with
  | nil => rfl
  | cons t ts ih =>
    rw [List.map_cons, signCount, signCount, ih]
    rcases t with content | op | _ | _ <;> rfl

end Token

/-- The same for an expression, by its tokens as they were written. -/
theorem accounts_of_leftOver_evaluateOn {state : Stacks Float Nat} {expression : String}
    {count : Nat} (h : leftOver (evaluateOn state expression).outcome = some count) :
    NoStray state.operators ∧
      Token.nesting (openCount state.operators) (Token.lex expression.toList) = some 0 ∧
      Token.AllDecimal (Token.lex expression.toList) ∧
      count + (binaryCount state.operators +
          (Token.lex expression.toList).countP Token.isBinary) =
        state.operands.length + ((Token.lex expression.toList).countP Token.isLiteral +
          Token.signCount true (Token.lex expression.toList)) := by
  rw [outcome_evaluateOn] at h
  obtain ⟨hstray, hnest, hread, hcount⟩ := accounts_of_leftOver h
  rw [map_item_readTokens, Token.nesting_map] at hnest
  obtain ⟨hliteral, hbinary⟩ := Token.countP_map Literal.read (Token.lex expression.toList)
  rw [map_item_readTokens, hliteral, hbinary, Token.signCount_map] at hcount
  exact ⟨hstray, hnest, allRead_readTokens_iff.1 hread, hcount⟩

/-- On empty stacks the tokens alone count. -/
theorem accounts_of_leftOver_evaluate {expression : String} {count : Nat}
    (h : leftOver (evaluate expression) = some count) :
    Token.Balanced (Token.lex expression.toList) ∧
      Token.AllDecimal (Token.lex expression.toList) ∧
      count + (Token.lex expression.toList).countP Token.isBinary =
        (Token.lex expression.toList).countP Token.isLiteral +
          Token.signCount true (Token.lex expression.toList) := by
  obtain ⟨-, hnest, hdecimal, hcount⟩ := accounts_of_leftOver_evaluateOn h
  refine ⟨hnest, hdecimal, ?_⟩
  simpa [Stacks.empty, binaryCount] using hcount

theorem two_le_of_evaluate_eq_dangling {expression : String} {count : Nat}
    (h : evaluate expression = .error (.danglingOperands count)) : 2 ≤ count := by
  rw [evaluate_eq_outcome_run, outcome_run] at h
  exact two_le_of_answer_eq_dangling h

end InfixArith
