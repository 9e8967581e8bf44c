import InfixArith.Proofs.Accounting
import InfixArith.Proofs.Origin

/-!
# The stacks as a checkpoint

An evaluation may be stopped between two tokens and taken up again.  All that
has to be kept are the two stacks, if the new start may be taken for the
start of a group whenever a sign comes next.

`operandStart_of_steps` says what is lost, which is the flag for the start of
a group, and `schedule_operandStart` when that does not matter.
`run_append_of_steps` takes up a run, and `evaluateOn_append` an expression.
-/

namespace InfixArith

variable {α ρ : Type} [Arithmetic α]

/-! ## The flag -/

/-- An operand may start after the tokens if the last one opened a group. -/
theorem operandStart_of_steps {scan next : Scan α ρ}
    {tokens : List (Located ρ (Token (Reading α)))}
    (h : (scan.steps tokens).outcome = .ok next) :
    next.operandStart =
      (tokens.getLast?.map (·.item.opensGroup)).getD scan.operandStart := by
  induction tokens generalizing scan with
  | nil =>
    cases h
    rfl
  | cons token tokens ih =>
    rw [Scan.steps_cons] at h
    obtain ⟨middle, hstep, hrest⟩ := Recorded.outcome_bind_eq_ok_iff.1 h
    rw [ih hrest, Scan.operandStart_of_step hstep, List.getLast?_cons]
    cases tokens.getLast? <;> rfl

/-- Whether an operand may start matters to a sign only. -/
theorem schedule_operandStart (operators : List (Located ρ Symbol)) {flag : Bool}
    {tokens : List (Located ρ (Token (Reading α)))}
    (h : flag = true ∨ ∀ token ∈ tokens.head?, token.item.isSign = false) :
    (⟨operators, flag⟩ : Control ρ).schedule tokens =
      (⟨operators, true⟩ : Control ρ).schedule tokens := by
  rcases h with rfl | hsign
  · rfl
  · cases tokens with
    | nil => rfl
    | cons token tokens =>
      have hnone : token.item.isSign = false := hsign token rfl
      obtain ⟨(text | value) | s, position⟩ := token
      · rfl
      · rfl
      · have hs : s.isSign = false := hnone
        simp [Control.schedule, Control.code, Control.signCode, Control.next, hs]

/-! ## Runs -/

/-- A run goes on from the stacks that the first tokens leave. -/
theorem run_append_of_steps {state : Stacks α ρ} {scan : Scan α ρ}
    {tokens later : List (Located ρ (Token (Reading α)))} (stop : ρ)
    (h : ((Scan.start state).steps tokens).outcome = .ok scan)
    (hflag : scan.operandStart = true ∨ ∀ token ∈ later.head?, token.item.isSign = false) :
    (state.run (tokens ++ later) stop).outcome = (scan.toStacks.run later stop).outcome := by
  have hrest : (state.run (tokens ++ later) stop).outcome =
      (scan.steps later >>= fun scan => scan.finish stop).outcome := by
    rw [Stacks.run, Scan.steps_append, bind_assoc, Recorded.outcome_bind, h]
    rfl
  rw [hrest, steps_finish_eq_execute, run_eq_execute]
  have hschedule := schedule_operandStart scan.operators hflag
  rw [← hschedule]
  rfl

/-! ## Expressions -/

/-- The tokens of two texts in a row.  Those of the second text are moved by
the length of the first one. -/
theorem readTokens_append {first rest : String}
    (h : ¬Token.Joins first.toList rest.toList) :
    readTokens (first ++ rest) = readTokens first ++
      (readTokens rest).map (Located.mapPosition (byteLength first.toList + ·)) := by
  rw [readTokens_eq_placed, readTokens_eq_placed, readTokens_eq_placed, String.toList_append,
    Token.lex_append_of_not_joins h, Token.placed_append, Token.flatMap_chars_lex,
    ← Token.placed_add, Nat.add_comm]

/-- A text that does not begin with a plus or a minus has no sign as its
first token. -/
theorem isSign_head_readTokens {rest : String}
    (h : ∀ c ∈ rest.toList.head?, c ≠ '+' ∧ c ≠ '-') :
    ∀ token ∈ (readTokens rest).head?, token.item.isSign = false := by
  have hhead : (readTokens rest).head? =
      (Token.lex rest.toList).head?.map fun t => ⟨t.map Literal.read, 0⟩ := by
    rw [readTokens_eq_placed]
    cases Token.lex rest.toList <;> rfl
  rw [hhead]
  intro token htoken
  obtain ⟨t, ht, rfl⟩ := Option.map_eq_some_iff.1 htoken
  cases hchars : rest.toList with
  | nil =>
    rw [hchars] at ht
    cases ht
  | cons c cs =>
    obtain ⟨hplus, hminus⟩ := h c (by simp [hchars])
    rw [hchars] at ht
    rcases Token.head?_lex_cons c cs with ⟨s, hs, hfirst⟩ | ⟨ds, hfirst⟩
    · obtain rfl := Option.some.inj (hfirst.symm.trans ht)
      have hsign := (Token.symbol_chars (τ := Reading Float) s).1
      rw [Symbol.toChar_of_ofChar? hs] at hsign
      show (Token.symbol s : Token (Reading Float)).isSign = false
      rw [← hsign]
      simp [hplus, hminus]
    · obtain rfl := Option.some.inj (hfirst.symm.trans ht)
      rfl

/-- A text that ends with an opening parenthesis has it as its last token. -/
theorem getLast?_readTokens_of_open {first : String}
    (h : first.toList.getLast? = some '(') :
    (readTokens first).getLast?.map (·.item.opensGroup) = some true := by
  obtain ⟨cs, hcs⟩ := List.getLast?_eq_some_iff.1 h
  have hlex : Token.lex (cs ++ ['(']) = Token.lex cs ++ [.symbol (.paren .left)] :=
    Token.lex_append_symbol cs (.paren .left) []
  rw [readTokens_eq_placed, hcs, hlex, Token.placed_append, List.getLast?_append]
  rfl

/-- The stacks that a text leaves are all that the rest of an expression needs.
The rest has the same outcome on them as behind that text, but for its own
offsets, which count from the start of the expression. -/
theorem evaluateOn_append {state : Stacks Float Nat} {first rest : String}
    {scan : Scan Float Nat} (hapart : ¬Token.Joins first.toList rest.toList)
    (hsign : first.toList = [] ∨ first.toList.getLast? = some '(' ∨
      ∀ c ∈ rest.toList.head?, c ≠ '+' ∧ c ≠ '-')
    (hscan : ((Scan.start state).steps (readTokens first)).outcome = .ok scan) :
    (evaluateOn scan.toStacks rest).outcome =
        (markedRun scan.toStacks rest).outcome.mapError (Fault.map (Origin.position id)) ∧
      (evaluateOn state (first ++ rest)).outcome =
        (markedRun scan.toStacks rest).outcome.mapError
          (Fault.map (Origin.position (byteLength first.toList + ·))) ∧
      ∀ fault, (markedRun scan.toStacks rest).outcome = .error fault →
        ∀ origin ∈ fault.position?, origin.Occurs scan.toStacks rest := by
  have hstart := operandStart_of_steps hscan
  have hflag : scan.operandStart = true ∨
      ∀ token ∈ ((readTokens rest).map (Located.mapPosition
        (byteLength first.toList + ·))).head?, token.item.isSign = false := by
    rcases hsign with hnil | hopen | hrest
    · left
      rw [hstart, readTokens_eq_placed, hnil]
      rfl
    · left
      rw [hstart, getLast?_readTokens_of_open hopen]
      rfl
    · right
      intro token htoken
      rw [List.head?_map] at htoken
      obtain ⟨x, hx, rfl⟩ := Option.map_eq_some_iff.1 htoken
      exact isSign_head_readTokens hrest x hx
  refine ⟨outcome_evaluateOn_eq_marked _ _, ?_, fun fault hfault => occurs_of_marked hfault⟩
  rw [outcome_evaluateOn, readTokens_append hapart, String.toList_append, byteLength_append,
    run_append_of_steps _ hscan hflag, ← outcome_rename_id, ← run_eq_marked]

/-- The rest begins with a sign, and the last product lacks an operand.  The
offset of that product is three in the rest and six in the whole.  Without that
product the rest has the value of the whole. -/
theorem evaluateOn_append_open_group :
    (∃ scan : Scan Float Nat,
      ((Scan.start ⟨[], [⟨.binary .sub, 7⟩]⟩).steps (readTokens "2*(")).outcome = .ok scan ∧
        scan.operators = [⟨.paren .left, 2⟩, ⟨.binary .mul, 1⟩, ⟨.binary .sub, 7⟩] ∧
        (evaluateOn scan.toStacks "-3)*").outcome = .error (.missingOperand 3) ∧
        (evaluateOn ⟨[], [⟨.binary .sub, 7⟩]⟩ ("2*(" ++ "-3)*")).outcome =
          .error (.missingOperand 6)) ∧
    ∃ (scan : Scan Float Nat) (value : Float),
      ((Scan.start .empty).steps (readTokens "2*(")).outcome = .ok scan ∧
        Event.numeral value = "-6" ∧
        (evaluateOn scan.toStacks "-3)").outcome = .ok value ∧
        (evaluateOn .empty ("2*(" ++ "-3)")).outcome = .ok value := by
  obtain ⟨scan, hscan, hmarked, hoperators⟩ : ∃ scan : Scan Float Nat,
      ((Scan.start ⟨[], [⟨.binary .sub, 7⟩]⟩).steps (readTokens "2*(")).outcome = .ok scan ∧
        (markedRun scan.toStacks "-3)*").outcome = .error (.missingOperand (.scanned 3)) ∧
        scan.operators = [⟨.paren .left, 2⟩, ⟨.binary .mul, 1⟩, ⟨.binary .sub, 7⟩] :=
    ⟨_, rfl, rfl, rfl⟩
  have hlast : "2*(".toList.getLast? = some '(' := rfl
  have hapart : ∀ rest, ¬Token.Joins "2*(".toList rest := by
    rintro rest ⟨⟨c, hc, hnone⟩, -⟩
    obtain rfl := Option.some.inj (hlast.symm.trans hc)
    cases hnone
  obtain ⟨hrest, hwhole, -⟩ := evaluateOn_append (hapart _) (.inr (.inl hlast)) hscan
  rw [hmarked] at hrest hwhole
  obtain ⟨opened, value, hopened, hvalue, htext⟩ : ∃ (opened : Scan Float Nat) (value : Float),
      ((Scan.start .empty).steps (readTokens "2*(")).outcome = .ok opened ∧
        (markedRun opened.toStacks "-3)").outcome = .ok value ∧ Event.numeral value = "-6" :=
    ⟨_, _, rfl, rfl, by decide +kernel⟩
  obtain ⟨hrest', hwhole', -⟩ := evaluateOn_append (hapart _) (.inr (.inl hlast)) hopened
  rw [hvalue] at hrest' hwhole'
  exact ⟨⟨scan, hscan, hoperators, hrest, hwhole⟩, opened, value, hopened, htext, hrest',
    hwhole'⟩

end InfixArith
