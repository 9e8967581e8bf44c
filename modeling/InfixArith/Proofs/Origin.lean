import InfixArith.Proofs.Reading
import InfixArith.Proofs.Renaming

/-!
# Where a position comes from

A fault has a position, and that position is a plain number.  The symbols
that wait before an evaluation have positions of their own, so the number
alone does not tell whether an offset of the expression is meant.

`markedRun` is the same run with an `Origin` for each position.  Forgetting
the origins gives back the run of the expression (`run_eq_rename_marked`), and
reading the offsets in another way gives the run over tokens that stand
somewhere else (`run_eq_marked`).  A fault has no position but those that the
run was given (`occurs_of_marked`).
-/

namespace InfixArith

variable {α ρ σ τ : Type}

/-! ## Renaming positions only -/

theorem Located.rename_id (g : ρ → σ) :
    (Located.rename id g : Located ρ (Token (Reading α)) → _) = Located.mapPosition g := by
  funext token
  rcases token with ⟨(text | value) | s, position⟩ <;> rfl

theorem outcome_rename_id (g : ρ → σ) (x : Run α ρ α) :
    (Run.rename id g id x).outcome = x.outcome.mapError (Fault.map g) := by
  obtain ⟨log, outcome⟩ := x
  cases outcome <;> rfl

/-- If only positions are renamed, a run keeps its value, or the position of its
fault is renamed. -/
theorem outcome_run_mapPosition [Arithmetic α] (g : ρ → σ) (state : Stacks α ρ)
    (tokens : List (Located ρ (Token (Reading α)))) (stop : ρ) :
    ((state.rename id g).run (tokens.map (Located.mapPosition g)) (g stop)).outcome =
      (state.run tokens stop).outcome.mapError (Fault.map g) := by
  have hrun := run_rename g carries_id state tokens stop
  rw [Located.rename_id] at hrun
  rw [hrun, outcome_rename_id]

/-- The operator, the operands and the value of a reduction. -/
def Event.reduction? : Event α ρ → Option (BinaryOp × α × α × α)
  | .reduced left op right value => some (op, left, right, value)
  | .matched .. | .evaluated .. => none

/-- The reductions that a log tells of, the first one first. -/
def reductions (log : List (Event α ρ)) : List (BinaryOp × α × α × α) :=
  log.filterMap Event.reduction?

/-- Renaming a run renames the operands of its reductions. -/
theorem reductions_rename {β γ δ : Type} (f : α → β) (g : ρ → σ) (h : γ → δ)
    (x : Run α ρ γ) :
    reductions (Run.rename f g h x).log =
      (reductions x.log).map fun (op, left, right, value) =>
        (op, f left, f right, f value) := by
  show (x.log.map (Event.map f g)).filterMap Event.reduction? =
    (x.log.filterMap Event.reduction?).map _
  rw [List.filterMap_map, List.map_filterMap]
  refine congrArg (fun step => x.log.filterMap step) (funext fun event => ?_)
  cases event <;> rfl

/-- The positions of a log do not count for its reductions. -/
theorem reductions_rename_id {γ δ : Type} (g : ρ → σ) (h : γ → δ) (x : Run α ρ γ) :
    reductions (Run.rename id g h x).log = reductions x.log := by
  rw [reductions_rename]
  exact List.map_id _

/-- An evaluation reduces what its run does. -/
theorem reductions_evaluateOn (state : Stacks Float Nat) (expression : String) :
    reductions (evaluateOn state expression).log =
      reductions (state.run (readTokens expression) (byteLength expression.toList)).log := by
  rw [evaluateOn, Recorded.log_bind]
  split
  · rfl
  · rw [reductions, List.filterMap_append]
    exact List.append_nil _

/-! ## Origins -/

/-- A position, and where it comes from. -/
inductive Origin where
  /-- The position of a symbol that waited before the evaluation. -/
  | seeded (position : Nat)
  /-- An offset of the expression. -/
  | scanned (offset : Nat)

/-- The position that is reported for an origin, if offsets are moved. -/
def Origin.position (move : Nat → Nat) : Origin → Nat
  | .seeded position => position
  | .scanned offset => move offset

/-- The run of an expression that starts on the given stacks, with the origin
of each position. -/
def markedRun (state : Stacks Float Nat) (expression : String) : Run Float Origin Float :=
  (state.rename id .seeded).run
    ((readTokens expression).map (Located.mapPosition .scanned))
    (.scanned (byteLength expression.toList))

/-- If the tokens and the end of an expression are moved, so are the offsets
of its run. -/
theorem run_eq_marked (move : Nat → Nat) (state : Stacks Float Nat) (expression : String) :
    state.run ((readTokens expression).map (Located.mapPosition move))
        (move (byteLength expression.toList)) =
      Run.rename id (Origin.position move) id (markedRun state expression) := by
  have hrun := run_rename (Origin.position move) carries_id (state.rename id .seeded)
    ((readTokens expression).map (Located.mapPosition .scanned))
    (.scanned (byteLength expression.toList))
  rw [Located.rename_id, List.map_map] at hrun
  rw [markedRun, ← hrun]
  have hstate : (state.rename id .seeded).rename id (Origin.position move) = state := by
    have hoperators : (state.operators.map (Located.mapPosition Origin.seeded)).map
        (Located.mapPosition (Origin.position move)) = state.operators := by
      rw [List.map_map]
      exact List.map_id _
    have hoperands : (state.operands.map id).map id = state.operands := by
      rw [List.map_id, List.map_id]
    exact congr (congrArg Stacks.mk hoperands) hoperators
  rw [hstate]
  rfl

/-- Without its origins, the marked run is the run of the expression. -/
theorem run_eq_rename_marked (state : Stacks Float Nat) (expression : String) :
    state.run (readTokens expression) (byteLength expression.toList) =
      Run.rename id (Origin.position id) id (markedRun state expression) := by
  have hrun := run_eq_marked id state expression
  have htokens : (readTokens expression).map (Located.mapPosition id) =
      readTokens expression := List.map_id _
  rw [htokens] at hrun
  exact hrun

theorem outcome_evaluateOn_eq_marked (state : Stacks Float Nat) (expression : String) :
    (evaluateOn state expression).outcome =
      (markedRun state expression).outcome.mapError (Fault.map (Origin.position id)) := by
  rw [outcome_evaluateOn, run_eq_rename_marked, outcome_rename_id]

theorem reductions_evaluateOn_eq_marked (state : Stacks Float Nat) (expression : String) :
    reductions (evaluateOn state expression).log =
      reductions (markedRun state expression).log := by
  rw [reductions_evaluateOn, run_eq_rename_marked, reductions_rename_id]

/-! ## Positions of faults -/

/-- The position of a fault, if it has one. -/
def Fault.position? : Fault ρ → Option ρ
  | .malformedLiteral _ position => some position
  | .missingOperand position => some position
  | .unbalancedParenthesis position => some position
  | .danglingOperands _ => none

theorem Fault.position?_map (g : ρ → σ) (fault : Fault ρ) :
    (fault.map g).position? = fault.position?.map g := by
  cases fault <;> rfl

/-- Items whose positions have a property are items at such positions. -/
theorem exists_mapPosition_val {p : ρ → Prop} (xs : List (Located ρ τ))
    (h : ∀ x ∈ xs, p x.position) :
    ∃ ys : List (Located {position // p position} τ),
      ys.map (Located.mapPosition Subtype.val) = xs := by
  induction xs with
  | nil => exact ⟨[], rfl⟩
  | cons x xs ih =>
    obtain ⟨ys, rfl⟩ := ih fun y hy => h y (List.mem_cons_of_mem x hy)
    exact ⟨⟨x.item, x.position, h x List.mem_cons_self⟩ :: ys, rfl⟩

/-- A property of all positions that a run is given is a property of the
position of its fault. -/
theorem position_of_outcome_run [Arithmetic α] {p : ρ → Prop} {state : Stacks α ρ}
    {tokens : List (Located ρ (Token (Reading α)))} {stop : ρ} {fault : Fault ρ}
    (hoperators : ∀ top ∈ state.operators, p top.position)
    (htokens : ∀ token ∈ tokens, p token.position) (hstop : p stop)
    (h : (state.run tokens stop).outcome = .error fault) :
    ∀ position ∈ fault.position?, p position := by
  -- The run is the image of one whose positions carry the property.
  obtain ⟨operators, hmap⟩ := exists_mapPosition_val state.operators hoperators
  obtain ⟨tokens, rfl⟩ := exists_mapPosition_val tokens htokens
  have hstate : (⟨state.operands, operators⟩ : Stacks α _).rename id Subtype.val = state := by
    show (⟨state.operands.map id, operators.map _⟩ : Stacks α ρ) = state
    rw [hmap, List.map_id]
  have hrun := run_rename Subtype.val carries_id
    (⟨state.operands, operators⟩ : Stacks α _) tokens (⟨stop, hstop⟩ : {q // p q})
  rw [hstate, Located.rename_id] at hrun
  rw [hrun, outcome_rename_id] at h
  intro position hposition
  cases hinner : ((⟨state.operands, operators⟩ : Stacks α _).run tokens
      (⟨stop, hstop⟩ : {q // p q})).outcome with
  | ok value =>
    rw [hinner] at h
    cases h
  | error inner =>
    rw [hinner] at h
    obtain rfl : inner.map Subtype.val = fault := Except.error.inj h
    rw [Fault.position?_map] at hposition
    obtain ⟨q, -, rfl⟩ := Option.map_eq_some_iff.1 hposition
    exact q.2

/-- The origins that a run is given: the symbols that wait, the tokens of the
expression, and its end. -/
def Origin.Occurs (state : Stacks Float Nat) (expression : String) : Origin → Prop
  | .seeded position => ∃ top ∈ state.operators, top.position = position
  | .scanned offset =>
    (∃ token ∈ tokens expression, token.position = offset) ∨
      offset = byteLength expression.toList

/-- A fault of a marked run has an origin that the run was given. -/
theorem occurs_of_marked {state : Stacks Float Nat} {expression : String}
    {fault : Fault Origin} (h : (markedRun state expression).outcome = .error fault) :
    ∀ origin ∈ fault.position?, origin.Occurs state expression := by
  have hstop : (Origin.scanned (byteLength expression.toList)).Occurs state expression :=
    .inr rfl
  refine position_of_outcome_run ?_ ?_ hstop h
  · intro top htop
    obtain ⟨x, hx, rfl⟩ := List.mem_map.1 htop
    exact ⟨x, hx, rfl⟩
  · intro token htoken
    obtain ⟨x, hx, rfl⟩ := List.mem_map.1 htoken
    obtain ⟨y, hy, rfl⟩ := List.mem_map.1 hx
    exact .inl ⟨y, hy, rfl⟩

end InfixArith
