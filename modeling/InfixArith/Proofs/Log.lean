import InfixArith.Proofs.Conservation
import InfixArith.Proofs.NoValue
import InfixArith.Proofs.Partners

/-!
# The log of an evaluation

The log tells what was done, in order, up to the end or to the first fault.  It is
written with one line for each event, and the first word of a line tells which
kind of event that was: `linesWith_matched` and `linesWith_reduced` are the lines
of the pairs and of the reductions, with their texts.

`Completes.matchings` and `Completes.level` read the log off the instructions
that were carried out, and `exists_completes` says that those are the first ones
of the schedule.  So the pairs in the log are the first pairs of the tokens.
`Completes.above_made` follows the value of the last reduction: what comes later
is put on top of it.

`evaluateOn_log` puts these together for an expression on empty stacks.
-/

namespace InfixArith

variable {α ρ τ : Type}

/-- The positions that an event tells of a pair of parentheses. -/
def Event.matching? : Event α ρ → Option (ρ × ρ)
  | .matched opened closed => some (opened, closed)
  | .reduced .. | .evaluated .. => none

/-- The pairs of parentheses that a log tells of, the first one first. -/
def matchings (log : List (Event α ρ)) : List (ρ × ρ) :=
  log.filterMap Event.matching?

/-! ## Written logs -/

namespace Event

/-- The line that an event is written as: the word for its level, and its message. -/
def line (event : Event Float Nat) : String × String :=
  (event.level.toString, event.message)

/-- The line of a pair of parentheses. -/
def matchedLine : Nat × Nat → String × String
  | (opened, closed) =>
    ("TRACE", "matched parentheses at " ++ opened.repr ++ " and " ++ closed.repr)

/-- The line of a reduction. -/
def reducedLine : BinaryOp × Float × Float × Float → String × String
  | (op, left, right, value) =>
    ("TRACE", "reduced " ++ numeral left ++ " " ++ op.toChar.toString ++ " " ++ numeral right ++
      " to " ++ numeral value)

/-- The line of the value of an expression. -/
def evaluatedLine (expression : String) (value : Float) : String × String :=
  ("DEBUG", "evaluated \"" ++ expression ++ "\" to " ++ numeral value)

-- The messages are opened before they are compared: the check that two appended
-- texts are equal should meet the same pieces on both sides.
theorem line_matched (opened closed : Nat) :
    (Event.matched opened closed).line = matchedLine (opened, closed) := by
  unfold line message
  rfl

theorem line_reduced (left : Float) (op : BinaryOp) (right value : Float) :
    (Event.reduced left op right value).line = reducedLine (op, left, right, value) := by
  unfold line message
  rfl

theorem line_evaluated (expression : String) (value : Float) :
    (Event.evaluated expression value).line = evaluatedLine expression value := by
  unfold line message
  rfl

/-- The word for the kind of an event. -/
def word : Event Float Nat → String
  | .reduced .. => "reduced"
  | .matched .. => "matched"
  | .evaluated .. => "evaluated"

end Event

/-- The first word of a line. -/
def firstWord (line : String × String) : String :=
  String.ofList (line.2.toList.takeWhile (· ≠ ' '))

/-- The lines of a log that start with a word. -/
def linesWith (word : String) (log : List (Event Float Nat)) : List (String × String) :=
  (log.map Event.line).filter (firstWord · = word)

/-- A line starts with the word for its event. -/
theorem Event.firstWord_line (event : Event Float Nat) : firstWord event.line = event.word := by
  unfold line message firstWord
  cases event <;> simp only [String.toList_append, List.append_assoc] <;> rfl

/-- The lines with a word are those of the events that the word is for. -/
theorem linesWith_eq_filterMap (word : String) (log : List (Event Float Nat)) :
    linesWith word log =
      log.filterMap fun event => if event.word = word then some event.line else none := by
  induction log with
  | nil => rfl
  | cons event log ih =>
    rw [linesWith, List.map_cons, List.filter_cons, Event.firstWord_line, List.filterMap_cons,
      ← ih]
    by_cases hword : event.word = word
    · simp only [hword, decide_true, if_true]
      rfl
    · simp only [hword, decide_false, if_false]
      rfl

/-- The lines that start with "matched" are those of the pairs. -/
theorem linesWith_matched (log : List (Event Float Nat)) :
    linesWith "matched" log = (matchings log).map Event.matchedLine := by
  rw [linesWith_eq_filterMap, matchings, List.map_filterMap]
  refine congrArg (log.filterMap ·) (funext fun event => ?_)
  cases event with
  | matched opened closed => exact congrArg some (Event.line_matched opened closed)
  | reduced left op right value => rfl
  | evaluated expression value => rfl

/-- The lines that start with "reduced" are those of the reductions. -/
theorem linesWith_reduced (log : List (Event Float Nat)) :
    linesWith "reduced" log = (reductions log).map Event.reducedLine := by
  rw [linesWith_eq_filterMap, reductions, List.map_filterMap]
  refine congrArg (log.filterMap ·) (funext fun event => ?_)
  cases event with
  | matched opened closed => rfl
  | reduced left op right value =>
    exact congrArg some (Event.line_reduced left op right value)
  | evaluated expression value => rfl

/-! ## Logs of instructions -/

section Execution

variable [Arithmetic α] {operands result : List α} {code : List (Instruction α ρ)}
  {log : List (Event α ρ)}

/-- What has been carried out has told of each of its pairs. -/
theorem Completes.matchings (h : Completes operands code log result) :
    InfixArith.matchings log = code.filterMap Instruction.paired? := by
  induction h with
  | nil operands => rfl
  | push value h ih => exact ih
  | pair opened closed h ih => exact congrArg ((opened, closed) :: ·) ih
  | apply op position left right h ih => exact ih

/-- Instructions write traces only. -/
theorem Completes.level (h : Completes operands code log result) :
    ∀ event ∈ log, event.level = .trace := by
  induction h with
  | nil operands => exact List.forall_mem_nil _
  | push value h ih => exact ih
  | pair opened closed h ih => exact List.forall_mem_cons.2 ⟨rfl, ih⟩
  | apply op position left right h ih => exact List.forall_mem_cons.2 ⟨rfl, ih⟩

/-- Without a reduction the operands are left as they were, with others on top.
After the last reduction its value is left, with others on top. -/
theorem Completes.above_made (h : Completes operands code log result) :
    (made log = [] → ∃ above, result = above ++ operands) ∧
      ∀ last ∈ (made log).getLast?, ∃ above below, result = above ++ last :: below := by
  induction h with
  | nil operands =>
    refine ⟨fun _ => ⟨[], rfl⟩, ?_⟩
    intro last hlast
    cases hlast
  | push value h ih =>
    refine ⟨fun hnone => ?_, ih.2⟩
    obtain ⟨above, habove⟩ := ih.1 hnone
    exact ⟨above ++ [value], by rw [habove, List.append_assoc, List.singleton_append]⟩
  | pair opened closed h ih => exact ih
  | @apply operands result code log op position left right h ih =>
    have hmade : made (.reduced left op right (Arithmetic.apply op left right) :: log :
        List (Event α ρ)) = Arithmetic.apply op left right :: made log := rfl
    rw [hmade]
    refine ⟨fun hnone => absurd hnone (List.cons_ne_nil _ _), ?_⟩
    intro last hlast
    rw [List.getLast?_cons] at hlast
    cases hlater : (made log).getLast? with
    | none =>
      rw [hlater] at hlast
      cases hlast
      obtain ⟨above, habove⟩ := ih.1 (List.getLast?_eq_none_iff.1 hlater)
      exact ⟨above, operands, habove⟩
    | some later =>
      rw [hlater] at hlast
      cases hlast
      exact ih.2 later hlater

/-- The log of an execution is the log of what came to its end: all of the
instructions, or those before the fault. -/
theorem exists_completes (operands : List α) (code : List (Instruction α ρ)) :
    ∃ front result, front <+: code ∧
      Completes operands front (execute operands code).log result := by
  cases hcode : (execute operands code).outcome with
  | ok result => exact ⟨code, result, List.prefix_rfl, completes_of_execute hcode⟩
  | error fault =>
    obtain ⟨front, i, back, result, hsplit, hfront, -⟩ := exists_of_execute_eq_error hcode
    refine ⟨front, result, ?_, hfront⟩
    rw [hsplit]
    exact List.prefix_append front (i :: back)

/-- The pairs in the log are the first pairs of the instructions. -/
theorem matchings_prefix_paired (operands : List α) (code : List (Instruction α ρ)) :
    matchings (execute operands code).log <+: code.filterMap Instruction.paired? := by
  obtain ⟨front, result, hfront, hcompletes⟩ := exists_completes operands code
  rw [hcompletes.matchings]
  exact hfront.filterMap _

end Execution

/-! ## Expressions -/

/-- The instructions of an expression that is evaluated on empty stacks. -/
def scheduleOf (expression : String) : List (Instruction Float Nat) :=
  (⟨[], true⟩ : Control Nat).schedule (readTokens expression)

/-- The log of an evaluation on empty stacks is the log of its instructions, and
the value comes after it if there is one. -/
theorem log_evaluateOn_empty (expression : String) :
    (evaluateOn .empty expression).log =
      (execute [] (scheduleOf expression)).log ++
        match evaluate expression with
        | .ok value => [.evaluated expression value]
        | .error _ => [] := by
  have hrun : (Stacks.empty.run (readTokens expression) (byteLength expression.toList)).log =
      (execute [] (scheduleOf expression)).log := log_run _ _ _
  rw [evaluateOn, Recorded.log_bind, hrun, evaluate_eq_outcome_run]
  cases (Stacks.empty.run (readTokens expression) (byteLength expression.toList)).outcome with
  | error fault => exact (List.append_nil _).symm
  | ok value => rfl

/-- The instructions of an expression write traces only. -/
theorem level_execute_scheduleOf (expression : String) :
    ∀ event ∈ (execute [] (scheduleOf expression)).log, event.level = .trace := by
  obtain ⟨front, result, -, hcompletes⟩ := exists_completes [] (scheduleOf expression)
  exact hcompletes.level

/-! ## Matched parentheses -/

theorem matchings_evaluateOn_empty (expression : String) :
    matchings (evaluateOn .empty expression).log =
      matchings (execute [] (scheduleOf expression)).log := by
  rw [log_evaluateOn_empty, matchings, List.filterMap_append]
  cases evaluate expression <;> exact List.append_nil _

/-- An evaluation tells of the first pairs of its tokens. -/
theorem matchings_prefix_partners (expression : String) :
    matchings (evaluateOn .empty expression).log <+: partners (readTokens expression) := by
  have hpaired : (scheduleOf expression).filterMap Instruction.paired? =
      partners (readTokens expression) := Control.paired_schedule _ _
  rw [matchings_evaluateOn_empty, ← hpaired]
  exact matchings_prefix_paired [] (scheduleOf expression)

/-- It tells of all of them if all tokens have been scanned. -/
theorem matchings_of_steps {expression : String} {scan : Scan Float Nat}
    (h : ((Scan.start Stacks.empty).steps (readTokens expression)).outcome = .ok scan) :
    matchings (evaluateOn .empty expression).log = partners (readTokens expression) := by
  obtain ⟨operands, hoperands⟩ : ∃ operands, (execute [] ((⟨[], true⟩ : Control Nat).codes
      (readTokens expression))).outcome = .ok operands := by
    rw [steps_eq_execute] at h
    obtain ⟨operands, hoperands, -⟩ := Recorded.outcome_bind_eq_ok_iff.1 h
    exact ⟨operands, hoperands⟩
  have hpartners : matchings (execute [] ((⟨[], true⟩ : Control Nat).codes
      (readTokens expression))).log = partners (readTokens expression) :=
    (completes_of_execute hoperands).matchings.trans (Control.paired_codes _ _)
  have hlog : (execute [] ((⟨[], true⟩ : Control Nat).codes (readTokens expression))).log <+:
      (execute [] (scheduleOf expression)).log := by
    rw [scheduleOf, Control.schedule_eq_codes, execute_append, Recorded.log_bind, hoperands]
    exact List.prefix_append _ _
  have hall : partners (readTokens expression) <+:
      matchings (evaluateOn .empty expression).log := by
    rw [matchings_evaluateOn_empty, ← hpartners]
    exact hlog.filterMap _
  exact (matchings_prefix_partners expression).eq_of_length_le hall.length_le

/-! ## The value -/

/-- The operand of a literal is supplied. -/
theorem Token.mem_supply [Arithmetic α] {groupStart : Bool} {ts : List (Token (Reading α))}
    {value : α} (h : .literal (.ok value) ∈ ts) : value ∈ supply groupStart ts := by
  induction ts generalizing groupStart with
  | nil => cases h
  | cons t ts ih =>
    rw [supply]
    rcases List.mem_cons.1 h with rfl | h
    · exact List.mem_append_left _ List.mem_cons_self
    · exact List.mem_append_right _ (ih h)

/-- What the log of an evaluation with a value tells: as many reductions as the
expression has operators, and then the value once, which is the value of the last
reduction or that of the only literal.  The line of the value is the only one at
the debug level. -/
structure Concludes (expression : String) (value : Float) (log : List (Event Float Nat)) :
    Prop where
  length_reductions :
    (reductions log).length = (Token.lex expression.toList).countP Token.isBinary
  evaluated_last : ∃ steps, log = steps ++ [.evaluated expression value] ∧
    ∀ event ∈ steps, event.level = .trace
  debug_once : log.countP (·.level = .debug) = 1
  last_line : (log.map Event.line).getLast? = some (Event.evaluatedLine expression value)
  last_made : made log ≠ [] → (made log).getLast? = some value
  only_literal : made log = [] → ∃ cs,
    (Token.lex expression.toList).filter Token.isLiteral = [.literal cs] ∧
      Literal.read cs = .ok value

/-- There is a reduction for each operator of the expression. -/
theorem Conserves.length_reductions {expression : String} {left : List Float}
    (h : Conserves .empty expression left) :
    (reductions (evaluateOn .empty expression).log).length =
      (Token.lex expression.toList).countP Token.isBinary := by
  have hlength := h.operators.length_eq
  have hbinary : (fun t : Token (List Char) => t.binary?.isSome) = Token.isBinary := by
    funext t
    rcases t with content | op | side <;> rfl
  rw [applied, List.length_map, List.length_append, List.length_filterMap_eq_countP,
    hbinary] at hlength
  exact hlength.trans (Nat.zero_add _)

/-- An expression with one literal, which supplies its only operand. -/
theorem exists_literal_of_supply {expression : String} {value : Float}
    (hdecimal : Token.AllDecimal (Token.lex expression.toList))
    (hcount : (Token.lex expression.toList).countP Token.isLiteral = 1)
    (hsupply : Token.supply true ((readTokens expression).map Located.item) = [value]) :
    ∃ cs, (Token.lex expression.toList).filter Token.isLiteral = [.literal cs] ∧
      Literal.read cs = .ok value := by
  rw [List.countP_eq_length_filter] at hcount
  obtain ⟨t, ht⟩ := List.length_eq_one_iff.1 hcount
  have hmem : t ∈ (Token.lex expression.toList).filter Token.isLiteral := by
    rw [ht]
    exact List.mem_cons_self
  obtain ⟨hlex, hliteral⟩ := List.mem_filter.1 hmem
  rcases t with cs | s
  · refine ⟨cs, ht, ?_⟩
    cases hread : Literal.read cs with
    | error text =>
      have htext : Literal.isDecimal (String.ofList cs) = true := hdecimal _ hlex
      rw [(Literal.read_eq_error_iff.1 hread).2] at htext
      cases htext
    | ok other =>
      have hitem : .literal (.ok other) ∈ (readTokens expression).map Located.item := by
        rw [map_item_readTokens]
        exact List.mem_map.2 ⟨_, hlex, congrArg Token.literal hread⟩
      have hother : other ∈ [value] := hsupply ▸ Token.mem_supply hitem
      rw [List.mem_singleton.1 hother]
  · cases hliteral

/-- Without a reduction the value is that of the only literal. -/
theorem Conserves.only_literal {expression : String} {value : Float}
    (h : Conserves .empty expression [value]) (hvalue : evaluate expression = .ok value)
    (hnone : made (evaluateOn .empty expression).log = []) :
    ∃ cs, (Token.lex expression.toList).filter Token.isLiteral = [.literal cs] ∧
      Literal.read cs = .ok value := by
  have hreductions : reductions (evaluateOn .empty expression).log = [] :=
    List.map_eq_nil_iff.1 hnone
  have hbinary : (Token.lex expression.toList).countP Token.isBinary = 0 := by
    rw [← h.length_reductions, hreductions, List.length_nil]
  have hsigns := Token.signCount_le_countP_isBinary true (Token.lex expression.toList)
  obtain ⟨-, hdecimal, hcount⟩ := accounts_of_leftOver_evaluate (congrArg leftOver hvalue)
  -- One operand has been pushed, and it was not the zero of a sign.
  refine exists_literal_of_supply hdecimal (by omega) ?_
  have hoperands := h.operands
  rw [hnone, taken, hreductions, List.append_nil] at hoperands
  exact List.perm_singleton.1 hoperands

theorem concludes_of_evaluate {expression : String} {value : Float}
    (h : evaluate expression = .ok value) :
    Concludes expression value (evaluateOn .empty expression).log := by
  have hexecute : (execute [] (scheduleOf expression)).outcome = .ok [value] := by
    rw [evaluate_eq_outcome_run, outcome_run] at h
    exact execute_of_answer_eq_ok h
  have hconserves : Conserves .empty expression [value] := conserves_of_execute hexecute
  have htrace := level_execute_scheduleOf expression
  have hlog : (evaluateOn .empty expression).log =
      (execute [] (scheduleOf expression)).log ++ [.evaluated expression value] := by
    rw [log_evaluateOn_empty, h]
  refine ⟨hconserves.length_reductions, ⟨_, hlog, htrace⟩, ?_, ?_, ?_, hconserves.only_literal h⟩
  · have hnone : (execute [] (scheduleOf expression)).log.countP (·.level = .debug) = 0 := by
      rw [List.countP_eq_zero]
      intro event hevent
      rw [htrace event hevent]
      decide
    rw [hlog, List.countP_append, hnone]
    rfl
  · rw [hlog, List.map_append, List.map_singleton, List.getLast?_concat, Event.line_evaluated]
  · have hmade : made (evaluateOn .empty expression).log =
        made (execute [] (scheduleOf expression)).log := by
      rw [made, reductions_evaluateOn, log_run]
      rfl
    rw [hmade]
    intro hsome
    obtain ⟨last, hlast⟩ := Option.ne_none_iff_exists'.1 (mt List.getLast?_eq_none_iff.1 hsome)
    obtain ⟨above, below, habove⟩ := (completes_of_execute hexecute).above_made.2 last hlast
    rcases above with _ | ⟨first, above⟩
    · cases habove
      exact hlast
    · simp at habove

/-- The pairs of parentheses in the log of an evaluation on empty stacks are the
first ones of its tokens, and all of them if every token has been scanned.  Each
pair and each reduction has a line with its text.  With a value, the log holds a
reduction for each operator and ends with the value, which the last reduction or
the only literal gives.  With a fault, no value is told. -/
theorem evaluateOn_log (expression : String) :
    IsPairing (readTokens expression) (partners (readTokens expression)) ∧
      linesWith "matched" (evaluateOn .empty expression).log =
        (matchings (evaluateOn .empty expression).log).map Event.matchedLine ∧
      linesWith "reduced" (evaluateOn .empty expression).log =
        (reductions (evaluateOn .empty expression).log).map Event.reducedLine ∧
      matchings (evaluateOn .empty expression).log <+: partners (readTokens expression) ∧
      (∀ scan, ((Scan.start Stacks.empty).steps (readTokens expression)).outcome = .ok scan →
        matchings (evaluateOn .empty expression).log = partners (readTokens expression)) ∧
      (∀ value, evaluate expression = .ok value →
        Concludes expression value (evaluateOn .empty expression).log) ∧
      ∀ fault, evaluate expression = .error fault →
        ∀ event ∈ (evaluateOn .empty expression).log, event.level = .trace := by
  refine ⟨?_, linesWith_matched _, linesWith_reduced _, matchings_prefix_partners expression,
    fun scan => matchings_of_steps, fun value => concludes_of_evaluate, ?_⟩
  · exact isPairing_partners (pairwise_position_readTokens expression)
  · intro fault h
    rw [log_evaluateOn_empty, h, List.append_nil]
    exact level_execute_scheduleOf expression

/-- A group that is not closed is found when all pairs have been told.  Without an
operator the value is that of the literal. -/
theorem evaluateOn_log_groups :
    (∃ scan, ((Scan.start Stacks.empty).steps (readTokens "(1+(2))*(3")).outcome = .ok scan) ∧
      matchings (evaluateOn .empty "(1+(2))*(3").log = [(3, 5), (0, 6)] ∧
      linesWith "matched" (evaluateOn .empty "(1+(2))*(3").log =
        [("TRACE", "matched parentheses at 3 and 5"), ("TRACE", "matched parentheses at 0 and 6")] ∧
      evaluate "(1+(2))*(3" = .error (.unbalancedParenthesis 8) ∧
      (∀ event ∈ (evaluateOn .empty "(1+(2))*(3").log, event.level = .trace) ∧
      (∃ value, evaluate "(1+2)*3" = .ok value ∧
        Concludes "(1+2)*3" value (evaluateOn .empty "(1+2)*3").log ∧
        linesWith "reduced" (evaluateOn .empty "(1+2)*3").log =
          [("TRACE", "reduced 1 + 2 to 3"), ("TRACE", "reduced 3 * 3 to 9")]) ∧
      ∃ value, evaluate "((7))" = .ok value ∧
        Concludes "((7))" value (evaluateOn .empty "((7))").log := by
  obtain ⟨scan, hscan⟩ : ∃ scan,
      ((Scan.start Stacks.empty).steps (readTokens "(1+(2))*(3")).outcome = .ok scan := ⟨_, rfl⟩
  obtain ⟨-, hmatched, -, -, hall, -, htrace⟩ := evaluateOn_log "(1+(2))*(3"
  obtain ⟨-, -, hreduced, -, -, hconcludes, -⟩ := evaluateOn_log "(1+2)*3"
  obtain ⟨-, -, -, -, -, hsingle, -⟩ := evaluateOn_log "((7))"
  have hunclosed : evaluate "(1+(2))*(3" = .error (.unbalancedParenthesis 8) := rfl
  obtain ⟨value, hvalue⟩ : ∃ value, evaluate "(1+2)*3" = .ok value := ⟨_, rfl⟩
  obtain ⟨seven, hseven⟩ : ∃ value, evaluate "((7))" = .ok value := ⟨_, rfl⟩
  have hmatchings : matchings (evaluateOn .empty "(1+(2))*(3").log = [(3, 5), (0, 6)] := by
    rw [hall scan hscan]
    rfl
  refine ⟨⟨scan, hscan⟩, hmatchings, ?_, hunclosed, htrace _ hunclosed,
    ⟨value, hvalue, hconcludes value hvalue, ?_⟩, seven, hseven, hsingle seven hseven⟩
  · rw [hmatched, hmatchings]
    decide +kernel
  · rw [hreduced]
    decide +kernel

end InfixArith
