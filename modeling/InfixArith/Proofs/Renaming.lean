import InfixArith.Proofs.Control

/-!
# Renaming operands and positions

A run moves operands and positions about, and hands operands to the
arithmetic, but it never looks at either of them.  So it does not matter
whether they are renamed before the run or after it.

* `Run.rename` renames what a run has written and how it has ended, and
  `Run.rename_bind` takes it apart along the steps of the run.
* `Control.schedule_rename` says that the schedule of renamed tokens is the
  renamed schedule, and `execute_rename` that executing it renames the run.
* `run_rename` is the result for a whole run, from any stacks.

Positions may be renamed at will, even if two of them become one.  Operands
may be renamed along a map that `Carries` their arithmetic.
-/

namespace InfixArith

variable {α β ρ σ γ δ : Type}

/-- A map of operands that keeps the zero and every operator. -/
structure Carries [Arithmetic α] [Arithmetic β] (f : α → β) : Prop where
  zero : f Arithmetic.zero = Arithmetic.zero
  apply : ∀ op left right,
    f (Arithmetic.apply op left right) = Arithmetic.apply op (f left) (f right)

theorem carries_id [Arithmetic α] : Carries (id : α → α) :=
  ⟨rfl, fun _ _ _ => rfl⟩

/-! ## Renaming what a run gives -/

/-- Renames the events and the fault of a run, and changes its result. -/
def Run.rename (f : α → β) (g : ρ → σ) (h : γ → δ) (x : Run α ρ γ) : Run β σ δ :=
  ⟨x.log.map (Event.map f g), (x.outcome.mapError (Fault.map g)).map h⟩

section Steps

variable (f : α → β) (g : ρ → σ)

@[simp]
theorem Run.rename_pure (h : γ → δ) (c : γ) :
    Run.rename f g h (pure c) = pure (h c) :=
  rfl

@[simp]
theorem Run.rename_fail (h : γ → δ) (fault : Fault ρ) :
    Run.rename f g h (Recorded.fail fault) = Recorded.fail (fault.map g) :=
  rfl

/-- If what follows a step is renamed for every result of the step, then so
are the two together. -/
theorem Run.rename_bind {γ' δ' : Type} {h : γ → δ} {h' : γ' → δ'} {x : Run α ρ γ}
    {next : γ → Run α ρ γ'} {next' : δ → Run β σ δ'}
    (hnext : ∀ c, Run.rename f g h' (next c) = next' (h c)) :
    Run.rename f g h' (x >>= next) = Run.rename f g h x >>= next' := by
  obtain ⟨log, outcome⟩ := x
  cases outcome with
  | error fault => rfl
  | ok c =>
    have hlog := congrArg Recorded.log (hnext c)
    have houtcome := congrArg Recorded.outcome (hnext c)
    refine Recorded.ext ?_ houtcome
    show (log ++ (next c).log).map (Event.map f g) =
      log.map (Event.map f g) ++ (next' (h c)).log
    rw [List.map_append, ← hlog]
    rfl

/-! ## Renaming what a run works on -/

/-- Renames the operand and the positions of an instruction. -/
def Instruction.rename : Instruction α ρ → Instruction β σ
  | .push value => .push (f value)
  | .reduce top => .reduce (top.mapPosition g)
  | .pair opened closed => .pair (g opened) (g closed)
  | .refuse text position => .refuse text (g position)

/-- Renames a token that has been read. -/
def Located.rename (token : Located ρ (Token (Reading α))) :
    Located σ (Token (Reading β)) :=
  ⟨token.item.map (Except.map f), g token.position⟩

/-- Renames what waits on the stacks. -/
def Stacks.rename (state : Stacks α ρ) : Stacks β σ :=
  ⟨state.operands.map f, state.operators.map (Located.mapPosition g)⟩

/-- Renames the symbols that steer a run. -/
def Control.mapPosition (c : Control ρ) : Control σ :=
  ⟨c.operators.map (Located.mapPosition g), c.operandStart⟩

/-! ## Schedules -/

namespace Stacks

theorem receiveCode_rename (incoming : Located ρ Symbol)
    (operators : List (Located ρ Symbol)) :
    receiveCode (incoming.mapPosition g) (operators.map (Located.mapPosition g)) =
      (receiveCode incoming operators).map (Instruction.rename f g) := by
  induction operators with
  | nil => rfl
  | cons top rest ih =>
    rw [List.map_cons, receiveCode, receiveCode, Located.item_mapPosition,
      Located.item_mapPosition]
    cases top.item.precedence incoming.item with
    | higher => exact congrArg _ ih
    | equal => rfl
    | lower => rfl

theorem receiveOperators_mapPosition (incoming : Located ρ Symbol)
    (operators : List (Located ρ Symbol)) :
    receiveOperators (incoming.mapPosition g) (operators.map (Located.mapPosition g)) =
      (receiveOperators incoming operators).map (Located.mapPosition g) := by
  induction operators with
  | nil => rfl
  | cons top rest ih =>
    rw [List.map_cons, receiveOperators, receiveOperators, Located.item_mapPosition,
      Located.item_mapPosition]
    cases top.item.precedence incoming.item with
    | higher => exact ih
    | equal => rfl
    | lower => rfl

end Stacks

namespace Control

theorem next_mapPosition (c : Control ρ) (token : Located ρ (Token (Reading α))) :
    (c.mapPosition g).next (token.rename f g) = (c.next token).mapPosition g := by
  rcases token with ⟨content | s, position⟩
  · rfl
  · have hreceive := Stacks.receiveOperators_mapPosition g ⟨s, position⟩ c.operators
    exact congrArg (fun operators => (⟨operators, s == .paren .left⟩ : Control σ)) hreceive

variable [Arithmetic α] [Arithmetic β] {f}

theorem signCode_rename (hf : Carries f) (c : Control ρ) (s : Symbol) :
    ((c.mapPosition g).signCode s : List (Instruction β σ)) =
      (c.signCode s).map (Instruction.rename f g) := by
  unfold signCode mapPosition
  split
  · rw [List.map_singleton, Instruction.rename, hf.zero]
  · rfl

theorem code_rename (hf : Carries f) (c : Control ρ)
    (token : Located ρ (Token (Reading α))) :
    (c.mapPosition g).code (token.rename f g) =
      (c.code token).map (Instruction.rename f g) := by
  rcases token with ⟨(text | value) | s, position⟩
  · rfl
  · rfl
  · have hreceive := Stacks.receiveCode_rename f g ⟨s, position⟩ c.operators
    have hsign := signCode_rename g hf c s
    show _ = (c.signCode s ++ Stacks.receiveCode ⟨s, position⟩ c.operators).map _
    rw [List.map_append, ← hsign, ← hreceive]
    rfl

/-- The schedule of renamed tokens is the renamed schedule. -/
theorem schedule_rename (hf : Carries f) (c : Control ρ)
    (tokens : List (Located ρ (Token (Reading α)))) :
    (c.mapPosition g).schedule (tokens.map (Located.rename f g)) =
      (c.schedule tokens).map (Instruction.rename f g) := by
  induction tokens generalizing c with
  | nil =>
    show (c.operators.map _).map Instruction.reduce =
      (c.operators.map Instruction.reduce).map _
    rw [List.map_map, List.map_map]
    rfl
  | cons token tokens ih =>
    rw [List.map_cons, schedule, schedule, List.map_append, code_rename g hf,
      next_mapPosition, ih]

end Control

/-! ## Execution -/

theorem onlyValue_rename (stop : ρ) (operands : List α) :
    Stacks.onlyValue (g stop) (operands.map f) =
      Run.rename f g f (Stacks.onlyValue stop operands) := by
  rcases operands with _ | ⟨value, _ | ⟨next, rest⟩⟩
  · rfl
  · rfl
  · simp [Stacks.onlyValue, Fault.map]

variable [Arithmetic α] [Arithmetic β] {f}

theorem perform_rename (hf : Carries f) (operands : List α) (i : Instruction α ρ) :
    perform (operands.map f) (i.rename f g) =
      Run.rename f g (List.map f) (perform operands i) := by
  cases i with
  | push value => rfl
  | pair opened closed => rfl
  | refuse text position => rfl
  | reduce top =>
    rcases top with ⟨op | side, position⟩
    · rcases operands with _ | ⟨right, _ | ⟨left, rest⟩⟩
      · rfl
      · rfl
      · have happly := hf.apply op left right
        simp only [perform, Instruction.rename, Located.mapPosition, Stacks.reduce,
          List.map_cons, ← happly]
        rfl
    · rfl

/-- Executing renamed instructions renames the run. -/
theorem execute_rename (hf : Carries f) (operands : List α)
    (code : List (Instruction α ρ)) :
    execute (operands.map f) (code.map (Instruction.rename f g)) =
      Run.rename f g (List.map f) (execute operands code) := by
  induction code generalizing operands with
  | nil => rfl
  | cons i code ih =>
    have hnext : ∀ operands : List α,
        Run.rename f g (List.map f) (execute operands code) =
          execute (operands.map f) (code.map (Instruction.rename f g)) :=
      fun operands => (ih operands).symm
    rw [List.map_cons, execute_cons, execute_cons, perform_rename g hf]
    exact (Run.rename_bind f g hnext).symm

/-- A run over renamed operands and positions is the renamed run. -/
theorem run_rename (hf : Carries f) (state : Stacks α ρ)
    (tokens : List (Located ρ (Token (Reading α)))) (stop : ρ) :
    (state.rename f g).run (tokens.map (Located.rename f g)) (g stop) =
      Run.rename f g f (state.run tokens stop) := by
  have hschedule := Control.schedule_rename g hf ⟨state.operators, true⟩ tokens
  have hexecute := execute_rename g hf state.operands
    ((⟨state.operators, true⟩ : Control ρ).schedule tokens)
  have honly : ∀ operands : List α,
      Run.rename f g f (Stacks.onlyValue stop operands) =
        Stacks.onlyValue (g stop) (operands.map f) :=
    fun operands => (onlyValue_rename f g stop operands).symm
  rw [run_eq_execute, run_eq_execute, Run.rename_bind f g honly, ← hexecute, ← hschedule]
  rfl

end Steps

end InfixArith
