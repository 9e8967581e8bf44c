import InfixArith.Scan

/-!
# Control apart from operands

An evaluation decides what to do next from the waiting symbols alone.  The
operands are moved and combined, but never looked at.  This module splits a
run along that line.

* `Instruction` is one thing that is done with the operands, and `execute`
  does a list of them.
* `Control` is the part of a scan that decides.  `Control.code` is what one
  token makes it do, and `Control.next` is where it stands afterwards.
* `Control.schedule` lists the instructions of a whole run.
  `run_eq_execute` states that a run is the execution of its schedule, logs
  and faults included.  `Control.codes` and `steps_eq_execute` are the same for
  a scan that stops between two tokens.
-/

namespace InfixArith

/-- One thing that a run does with its operands. -/
inductive Instruction (α ρ : Type) where
  | push (value : α)
  | reduce (top : Located ρ Symbol)
  | pair (opened closed : ρ)
  | refuse (text : String) (position : ρ)

variable {α ρ τ : Type}

/-- An instruction that does not fail for what it is. -/
def Instruction.Plain : Instruction α ρ → Prop
  | .push _ | .pair .. => True
  | .reduce top => ∃ op, top.item = .binary op
  | .refuse .. => False

/-! ## Execution -/

section Execution

variable [Arithmetic α]

/-- Carries out one instruction. -/
def perform (operands : List α) : Instruction α ρ → Run α ρ (List α)
  | .push value => return value :: operands
  | .reduce top => Stacks.reduce top operands
  | .pair opened closed => do
    .record (.matched opened closed)
    return operands
  | .refuse text position => .fail (.malformedLiteral text position)

/-- Carries out a list of instructions, the first one first. -/
def execute (operands : List α) (code : List (Instruction α ρ)) : Run α ρ (List α) :=
  code.foldlM perform operands

@[simp]
theorem execute_nil (operands : List α) :
    execute operands ([] : List (Instruction α ρ)) = pure operands :=
  rfl

@[simp]
theorem execute_cons (operands : List α) (i : Instruction α ρ)
    (code : List (Instruction α ρ)) :
    execute operands (i :: code) =
      perform operands i >>= fun operands => execute operands code :=
  List.foldlM_cons

theorem execute_append (operands : List α) (code next : List (Instruction α ρ)) :
    execute operands (code ++ next) =
      execute operands code >>= fun operands => execute operands next :=
  List.foldlM_append

/-- Draining is the reduction of every waiting symbol. -/
theorem drain_eq_execute (state : Stacks α ρ) :
    state.drain = execute state.operands (state.operators.map .reduce) := by
  rw [execute, List.foldlM_map]
  rfl

end Execution

/-! ## The symbols that an incoming symbol meets -/

namespace Stacks

/-- What an incoming symbol makes the waiting symbols do. -/
def receiveCode (incoming : Located ρ Symbol) :
    List (Located ρ Symbol) → List (Instruction α ρ)
  | [] => []
  | top :: rest =>
    match top.item.precedence incoming.item with
    | .higher => .reduce top :: receiveCode incoming rest
    | .equal => [.pair top.position incoming.position]
    | .lower => []

/-- The symbols that wait after an incoming symbol has been received. -/
def receiveOperators (incoming : Located ρ Symbol) :
    List (Located ρ Symbol) → List (Located ρ Symbol)
  | [] => [incoming]
  | top :: rest =>
    match top.item.precedence incoming.item with
    | .higher => receiveOperators incoming rest
    | .equal => rest
    | .lower => incoming :: top :: rest

/-- A symbol is received by carrying out its code. -/
theorem receive_eq_execute [Arithmetic α] (incoming : Located ρ Symbol)
    (operators : List (Located ρ Symbol)) (operands : List α) :
    receive incoming operators operands =
      execute operands (receiveCode incoming operators) >>= fun operands =>
        pure ⟨operands, receiveOperators incoming operators⟩ := by
  induction operators generalizing operands with
  | nil => simp [receive, receiveCode, receiveOperators]
  | cons top rest ih =>
    rw [receive, receiveCode, receiveOperators]
    cases top.item.precedence incoming.item with
    | higher => simp [perform, ih]
    | equal => simp [perform]
    | lower => simp

end Stacks

/-! ## Control -/

/-- The part of a scan that decides what is done. -/
structure Control (ρ : Type) where
  operators : List (Located ρ Symbol)
  operandStart : Bool

namespace Control

/-- The control of a scan. -/
def ofScan (scan : Scan α ρ) : Control ρ :=
  ⟨scan.operators, scan.operandStart⟩

/-- Where control stands after a token. -/
def next (c : Control ρ) (token : Located ρ (Token τ)) : Control ρ :=
  match token.item with
  | .literal _ => ⟨c.operators, false⟩
  | .symbol s =>
    ⟨Stacks.receiveOperators ⟨s, token.position⟩ c.operators, s == .paren .left⟩

variable [Arithmetic α]

/-- The zero that a sign takes from. -/
def signCode (c : Control ρ) (s : Symbol) : List (Instruction α ρ) :=
  if c.operandStart && s.isSign then [.push Arithmetic.zero] else []

/-- What a token makes control do. -/
def code (c : Control ρ) (token : Located ρ (Token (Reading α))) :
    List (Instruction α ρ) :=
  match token.item with
  | .literal (.ok value) => [.push value]
  | .literal (.error text) => [.refuse text token.position]
  | .symbol s =>
    c.signCode s ++ Stacks.receiveCode ⟨s, token.position⟩ c.operators

/-- All that is done from here to the end of the tokens. -/
def schedule (c : Control ρ) :
    List (Located ρ (Token (Reading α))) → List (Instruction α ρ)
  | [] => c.operators.map .reduce
  | token :: tokens => c.code token ++ (c.next token).schedule tokens

/-- Where control stands after some tokens. -/
def after (c : Control ρ) (tokens : List (Located ρ (Token τ))) : Control ρ :=
  tokens.foldl next c

/-- All that is done for some tokens, with more of them to come. -/
def codes (c : Control ρ) :
    List (Located ρ (Token (Reading α))) → List (Instruction α ρ)
  | [] => []
  | token :: tokens => c.code token ++ (c.next token).codes tokens

/-- A parenthesis is no sign. -/
theorem code_paren (c : Control ρ) (side : Paren) (position : ρ) :
    (c.code ⟨.symbol (.paren side), position⟩ : List (Instruction α ρ)) =
      Stacks.receiveCode ⟨.paren side, position⟩ c.operators := by
  simp [code, signCode, Symbol.isSign]

/-- At the end of the tokens, what waits is reduced. -/
theorem schedule_eq_codes (c : Control ρ) (tokens : List (Located ρ (Token (Reading α)))) :
    c.schedule tokens = c.codes tokens ++ (c.after tokens).operators.map .reduce := by
  induction tokens generalizing c with
  | nil => rfl
  | cons token tokens ih =>
    rw [schedule, codes, ih, List.append_assoc]
    rfl

end Control

/-! ## The next token -/

namespace Control

/-- An incoming symbol goes on top of these symbols. -/
def Admits (operators : List (Located ρ Symbol)) (s : Symbol) : Prop :=
  ∀ top ∈ operators.head?, top.item.precedence s = .lower

/-- The next token makes a waiting operator go, or there is no next token. -/
def Flushes (op : BinaryOp) (tokens : List (Located ρ (Token τ))) : Prop :=
  ∀ token ∈ tokens.head?,
    ∃ s, token.item = .symbol s ∧ (Symbol.binary op).precedence s = .higher

variable [Arithmetic α]

theorem schedule_cons (c : Control ρ) (token : Located ρ (Token (Reading α)))
    (tokens : List (Located ρ (Token (Reading α)))) :
    c.schedule (token :: tokens) = c.code token ++ (c.next token).schedule tokens :=
  rfl

theorem schedule_literal (c : Control ρ) (value : α) (position : ρ)
    (tokens : List (Located ρ (Token (Reading α)))) :
    c.schedule (⟨.literal (.ok value), position⟩ :: tokens) =
      .push value :: (⟨c.operators, false⟩ : Control ρ).schedule tokens :=
  rfl

/-- A symbol that is admitted is stacked. -/
theorem schedule_admitted {operators : List (Located ρ Symbol)} {s : Symbol}
    (h : Admits operators s) (operandStart : Bool) (position : ρ)
    (tokens : List (Located ρ (Token (Reading α)))) :
    (⟨operators, operandStart⟩ : Control ρ).schedule (⟨.symbol s, position⟩ :: tokens) =
      (⟨operators, operandStart⟩ : Control ρ).signCode s ++
        (⟨⟨s, position⟩ :: operators, s == .paren .left⟩ : Control ρ).schedule tokens := by
  cases operators with
  | nil => simp [schedule, code, next, Stacks.receiveCode, Stacks.receiveOperators]
  | cons top rest =>
    have htop : top.item.precedence s = .lower := h top rfl
    simp [schedule, code, next, Stacks.receiveCode, Stacks.receiveOperators, htop]

/-- A closing parenthesis meets its partner. -/
theorem schedule_close (operators : List (Located ρ Symbol)) (operandStart : Bool)
    (opened closed : ρ) (tokens : List (Located ρ (Token (Reading α)))) :
    (⟨⟨.paren .left, opened⟩ :: operators, operandStart⟩ : Control ρ).schedule
        (⟨.symbol (.paren .right), closed⟩ :: tokens) =
      .pair opened closed :: (⟨operators, false⟩ : Control ρ).schedule tokens := by
  simp only [schedule, code, next, signCode, Symbol.isSign, Stacks.receiveCode,
    Stacks.receiveOperators, Symbol.precedence, Bool.and_false]
  rfl

/-- A waiting operator goes as soon as the next token makes it go. -/
theorem schedule_flush {op : BinaryOp} {tokens : List (Located ρ (Token (Reading α)))}
    (h : Flushes op tokens) (operators : List (Located ρ Symbol)) (position : ρ) :
    (⟨⟨.binary op, position⟩ :: operators, false⟩ : Control ρ).schedule tokens =
      .reduce ⟨.binary op, position⟩ :: (⟨operators, false⟩ : Control ρ).schedule tokens := by
  cases tokens with
  | nil => rfl
  | cons token tokens =>
    obtain ⟨item, place⟩ := token
    obtain ⟨s, hs, hhigher⟩ := h _ rfl
    cases hs
    simp [schedule, code, next, signCode, Stacks.receiveCode, Stacks.receiveOperators,
      hhigher]

end Control

/-! ## Runs -/

variable [Arithmetic α]

/-- A sign finds its zero by carrying out its code. -/
theorem execute_signCode (scan : Scan α ρ) (s : Symbol) :
    execute scan.operands ((Control.ofScan scan).signCode s) =
      (pure (scan.operandsFor s) : Run α ρ (List α)) := by
  unfold Control.signCode Scan.operandsFor Control.ofScan
  split <;> simp [perform]

/-- A token is scanned by carrying out its code. -/
theorem step_eq_execute (scan : Scan α ρ) (token : Located ρ (Token (Reading α))) :
    scan.step token =
      execute scan.operands ((Control.ofScan scan).code token) >>= fun operands =>
        pure ⟨⟨operands, ((Control.ofScan scan).next token).operators⟩,
          ((Control.ofScan scan).next token).operandStart⟩ := by
  obtain ⟨item, position⟩ := token
  cases item with
  | literal content =>
    cases content with
    | ok value => simp [Scan.step, Control.code, Control.next, Control.ofScan, perform]
    | error text => rfl
  | symbol s =>
    have hreceive := Stacks.receive_eq_execute ⟨s, position⟩ scan.operators
      (scan.operandsFor s)
    simp only [Scan.step, Control.code, Control.next, hreceive, execute_append,
      execute_signCode, bind_assoc, pure_bind]
    rfl

/-- All that a step does if it does not fail: its code is carried out, and
control goes on. -/
theorem outcome_step_eq_ok {scan next : Scan α ρ} {token : Located ρ (Token (Reading α))}
    (h : (scan.step token).outcome = .ok next) :
    (execute scan.operands ((Control.ofScan scan).code token)).outcome = .ok next.operands ∧
      Control.ofScan next = (Control.ofScan scan).next token := by
  rw [step_eq_execute] at h
  obtain ⟨operands, hoperands, hnext⟩ := Recorded.outcome_bind_eq_ok_iff.1 h
  cases hnext
  exact ⟨hoperands, rfl⟩

/-- Tokens are scanned by carrying out their code, and control goes on. -/
theorem steps_eq_execute (scan : Scan α ρ) (tokens : List (Located ρ (Token (Reading α)))) :
    scan.steps tokens =
      execute scan.operands ((Control.ofScan scan).codes tokens) >>= fun operands =>
        pure ⟨⟨operands, ((Control.ofScan scan).after tokens).operators⟩,
          ((Control.ofScan scan).after tokens).operandStart⟩ := by
  induction tokens generalizing scan with
  | nil => rfl
  | cons token tokens ih =>
    simp only [Scan.steps_cons, step_eq_execute, bind_assoc, pure_bind, ih, Control.codes,
      execute_append]
    rfl

/-- The rest of a run carries out the rest of its schedule. -/
theorem steps_finish_eq_execute (scan : Scan α ρ)
    (tokens : List (Located ρ (Token (Reading α)))) (stop : ρ) :
    (scan.steps tokens >>= fun scan => scan.finish stop) =
      execute scan.operands ((Control.ofScan scan).schedule tokens) >>=
        Stacks.onlyValue stop := by
  simp only [steps_eq_execute, bind_assoc, pure_bind, Stacks.finish, drain_eq_execute,
    Control.schedule_eq_codes, execute_append]

/-- A run is the execution of its schedule. -/
theorem run_eq_execute (state : Stacks α ρ)
    (tokens : List (Located ρ (Token (Reading α)))) (stop : ρ) :
    state.run tokens stop =
      execute state.operands ((⟨state.operators, true⟩ : Control ρ).schedule tokens) >>=
        Stacks.onlyValue stop :=
  steps_finish_eq_execute (Scan.start state) tokens stop

/-! ## Outcomes -/

/-- How a run ends that still has to carry out `code`. -/
def answer (stop : ρ) (operands : List α) (code : List (Instruction α ρ)) :
    Except (Fault ρ) α :=
  (execute operands code >>= Stacks.onlyValue stop).outcome

theorem outcome_run (state : Stacks α ρ)
    (tokens : List (Located ρ (Token (Reading α)))) (stop : ρ) :
    (state.run tokens stop).outcome =
      answer stop state.operands ((⟨state.operators, true⟩ : Control ρ).schedule tokens) := by
  rw [run_eq_execute, answer]

@[simp]
theorem answer_push (stop : ρ) (operands : List α) (value : α)
    (code : List (Instruction α ρ)) :
    answer stop operands (.push value :: code) = answer stop (value :: operands) code :=
  rfl

@[simp]
theorem answer_pair (stop : ρ) (operands : List α) (opened closed : ρ)
    (code : List (Instruction α ρ)) :
    answer stop operands (.pair opened closed :: code) = answer stop operands code := by
  simp [answer, perform, Recorded.outcome_bind, Except.bind]

/-- A pair at the very end makes no difference either. -/
theorem answer_concat_pair (stop : ρ) (operands : List α) (opened closed : ρ)
    (code : List (Instruction α ρ)) :
    answer stop operands (code ++ [.pair opened closed]) = answer stop operands code := by
  have hpair : ∀ operands : List α,
      (execute operands [.pair opened closed] >>= Stacks.onlyValue stop).outcome =
        (Stacks.onlyValue stop operands).outcome :=
    fun operands => answer_pair stop operands opened closed []
  rw [answer, answer, execute_append, bind_assoc, Recorded.outcome_bind,
    Recorded.outcome_bind]
  exact congrArg _ (funext hpair)

@[simp]
theorem answer_reduce (stop : ρ) (op : BinaryOp) (left right : α) (operands : List α)
    (position : ρ) (code : List (Instruction α ρ)) :
    answer stop (right :: left :: operands) (.reduce ⟨.binary op, position⟩ :: code) =
      answer stop (Arithmetic.apply op left right :: operands) code := by
  simp [answer, perform, Stacks.reduce, Recorded.outcome_bind, Except.bind]

end InfixArith
