import InfixArith.Proofs.Accounting
import InfixArith.Proofs.Openings
import InfixArith.Proofs.Origin

/-!
# Groups

The tokens between two parentheses are an expression of their own.  The
parenthesis that opens the group keeps them apart from the symbols that wait,
and the one that closes it does what the end of the expression would do.

There are three steps.

* Control.  `Control.code_above` says that a token inside a group does what it
  does without the group.  `Control.codes_grouped` follows from it by induction
  on the tokens: a group carries out the schedule of its content, and leaves
  the symbols below as they were.
* Operands.  Nothing guards the operands below a group.  `Completes.above`
  says that a code which comes to an end on its own operands has not reached
  below them.
* Texts.  `parenthesized` writes the parentheses.
  `parenthesized_pushes_value` is about an expression with a value, on any
  stacks and inside any text.  `evaluate_parenthesized` is about any expression
  whose parentheses balance, faults included.
-/

namespace InfixArith

variable {α ρ τ : Type}

/-- Tokens in parentheses, which stand at the given positions. -/
def grouped (opened closed : ρ) (tokens : List (Located ρ (Token τ))) :
    List (Located ρ (Token τ)) :=
  ⟨.symbol (.paren .left), opened⟩ :: (tokens ++ [⟨.symbol (.paren .right), closed⟩])

theorem map_mapPosition_grouped {σ : Type} (g : ρ → σ) (opened closed : ρ)
    (tokens : List (Located ρ (Token τ))) :
    (grouped opened closed tokens).map (Located.mapPosition g) =
      grouped (g opened) (g closed) (tokens.map (Located.mapPosition g)) := by
  rw [grouped, List.map_cons, List.map_append]
  rfl

/-! ## Symbols above an opening parenthesis -/

namespace Stacks

/-- A symbol that stays in its group meets neither the parenthesis that opened
the group nor what is below. -/
theorem receive_above {s : Symbol} {operators : List (Located ρ Symbol)} {depth : Nat}
    (hstray : NoStray operators)
    (hnest : (Token.symbol s : Token τ).nest (openCount operators) = some depth)
    (position opened : ρ) (below : List (Located ρ Symbol)) :
    (receiveCode ⟨s, position⟩ (operators ++ ⟨.paren .left, opened⟩ :: below) :
        List (Instruction α ρ)) = receiveCode ⟨s, position⟩ operators ∧
      receiveOperators ⟨s, position⟩ (operators ++ ⟨.paren .left, opened⟩ :: below) =
        receiveOperators ⟨s, position⟩ operators ++ ⟨.paren .left, opened⟩ :: below := by
  induction operators with
  | nil =>
    rcases s with next | _ | _
    · exact ⟨rfl, rfl⟩
    · exact ⟨rfl, rfl⟩
    · cases hnest
  | cons top rest ih =>
    rw [List.cons_append, receiveCode, receiveCode, receiveOperators, receiveOperators]
    cases hp : top.item.precedence s with
    | higher =>
      rw [openCount_cons_of_ne (Symbol.ne_left_of_precedence_eq_higher hp)] at hnest
      obtain ⟨hcode, hoperators⟩ := ih hstray.tail hnest
      exact ⟨congrArg _ hcode, hoperators⟩
    | equal => exact ⟨rfl, rfl⟩
    | lower => exact ⟨rfl, rfl⟩

/-- The closing parenthesis of a group reduces the operators of the group, and
meets its partner. -/
theorem receive_close {operators : List (Located ρ Symbol)} (hstray : NoStray operators)
    (hopen : openCount operators = 0) (opened closed : ρ) (below : List (Located ρ Symbol)) :
    (receiveCode ⟨.paren .right, closed⟩ (operators ++ ⟨.paren .left, opened⟩ :: below) :
        List (Instruction α ρ)) = operators.map .reduce ++ [.pair opened closed] ∧
      receiveOperators ⟨.paren .right, closed⟩
        (operators ++ ⟨.paren .left, opened⟩ :: below) = below := by
  induction operators with
  | nil => exact ⟨rfl, rfl⟩
  | cons top rest ih =>
    rcases top with ⟨op | _ | _, place⟩
    · rw [openCount_cons_of_ne (by simp)] at hopen
      obtain ⟨hcode, hoperators⟩ := ih hstray.tail hopen
      exact ⟨congrArg _ hcode, hoperators⟩
    · rw [openCount_cons_left] at hopen
      cases hopen
    · exact absurd rfl (hstray _ List.mem_cons_self)

end Stacks

/-! ## Control in a group -/

namespace Control

/-- Control inside a group: below its symbols are the parenthesis that opened
the group, and all that waited then. -/
def above (c : Control ρ) (opened : ρ) (below : List (Located ρ Symbol)) : Control ρ :=
  ⟨c.operators ++ ⟨.paren .left, opened⟩ :: below, c.operandStart⟩

variable [Arithmetic α]

/-- A token that stays in its group does what it does without the group. -/
theorem code_above (c : Control ρ) {token : Located ρ (Token (Reading α))} {depth : Nat}
    (hstray : NoStray c.operators)
    (hnest : token.item.nest (openCount c.operators) = some depth)
    (opened : ρ) (below : List (Located ρ Symbol)) :
    (c.above opened below).code token = c.code token ∧
      (c.above opened below).next token = (c.next token).above opened below := by
  rcases token with ⟨(text | value) | s, position⟩
  · exact ⟨rfl, rfl⟩
  · exact ⟨rfl, rfl⟩
  · obtain ⟨hcode, hoperators⟩ :=
      Stacks.receive_above (α := α) hstray hnest position opened below
    exact ⟨congrArg (c.signCode s ++ ·) hcode,
      congrArg (fun operators => (⟨operators, s == .paren .left⟩ : Control ρ)) hoperators⟩

/-- The rest of a group does what it does as the rest of an expression, and
after the closing parenthesis the symbols below are as they were. -/
theorem codes_close (c : Control ρ) {tokens : List (Located ρ (Token (Reading α)))}
    (hstray : NoStray c.operators)
    (hnest : Token.nesting (openCount c.operators) (tokens.map Located.item) = some 0)
    (opened closed : ρ) (below : List (Located ρ Symbol)) :
    (c.above opened below).codes (tokens ++ [⟨.symbol (.paren .right), closed⟩]) =
        c.schedule tokens ++ [.pair opened closed] ∧
      (c.above opened below).after (tokens ++ [⟨.symbol (.paren .right), closed⟩]) =
        ⟨below, false⟩ := by
  induction tokens generalizing c with
  | nil =>
    obtain ⟨hcode, hoperators⟩ :=
      Stacks.receive_close (α := α) hstray (Option.some.inj hnest) opened closed below
    refine ⟨?_, congrArg (fun operators => (⟨operators, false⟩ : Control ρ)) hoperators⟩
    rw [List.nil_append, codes, codes, List.append_nil, code_paren]
    exact hcode
  | cons token tokens ih =>
    rw [List.map_cons, Token.nesting_cons] at hnest
    obtain ⟨depth, htoken, hrest⟩ := Option.bind_eq_some_iff.1 hnest
    obtain ⟨hcode, hnext⟩ := c.code_above hstray htoken opened below
    obtain ⟨hstray', hdepth⟩ := c.nest_next hstray htoken
    obtain ⟨hcodes, hafter⟩ := ih (c.next token) hstray' (hdepth ▸ hrest)
    refine ⟨?_, ?_⟩
    · rw [List.cons_append, codes, hcode, hnext, hcodes, schedule, List.append_assoc]
    · rw [← hafter, ← hnext]
      rfl

/-- A group does what its content does on its own, and then it pairs its
parentheses.  The symbols below are as they were. -/
theorem codes_grouped (c : Control ρ) {tokens : List (Located ρ (Token (Reading α)))}
    (htop : ∀ top ∈ c.operators.head?, top.item ≠ .paren .right)
    (hbalanced : Token.Balanced (tokens.map Located.item)) (opened closed : ρ) :
    c.codes (grouped opened closed tokens) =
        (⟨[], true⟩ : Control ρ).schedule tokens ++ [.pair opened closed] ∧
      c.after (grouped opened closed tokens) = ⟨c.operators, false⟩ := by
  obtain ⟨hcode, hoperators⟩ := Stacks.receive_open (α := α) htop opened
  have hnext : c.next ⟨(.symbol (.paren .left) : Token (Reading α)), opened⟩ =
      (⟨[], true⟩ : Control ρ).above opened c.operators :=
    congrArg (fun operators => (⟨operators, true⟩ : Control ρ)) hoperators
  obtain ⟨hcodes, hafter⟩ := (⟨[], true⟩ : Control ρ).codes_close
    (fun _ htop => nomatch htop) hbalanced opened closed c.operators
  refine ⟨?_, ?_⟩
  · rw [grouped, codes, code_paren, hcode, hnext, hcodes]
    rfl
  · rw [← hafter, ← hnext]
    rfl

end Control

/-! ## Runs over a group -/

section Runs

variable [Arithmetic α]

/-- A code that comes to an end does the same with more operands below, and
leaves those as they were. -/
theorem Completes.above {operands result : List α} {code : List (Instruction α ρ)}
    {log : List (Event α ρ)} (h : Completes operands code log result) (below : List α) :
    Completes (operands ++ below) code log (result ++ below) := by
  induction h with
  | nil operands => exact .nil _
  | push value h ih => exact .push value ih
  | pair opened closed h ih => exact .pair opened closed ih
  | apply op position left right h ih => exact .apply op position left right ih

variable {first second : List (Located ρ (Token (Reading α)))} {value : α}

/-- A group whose content has a value pushes that value, and does nothing
else. -/
theorem steps_grouped {scan : Scan α ρ} {stop : ρ}
    (htop : ∀ top ∈ scan.operators.head?, top.item ≠ .paren .right)
    (hvalue : ((Stacks.empty : Stacks α ρ).run first stop).outcome = .ok value)
    (opened closed : ρ) :
    (scan.steps (grouped opened closed first)).outcome =
      .ok ⟨⟨value :: scan.operands, scan.operators⟩, false⟩ := by
  obtain ⟨-, hbalanced, -⟩ := accounts_of_leftOver (congrArg leftOver hvalue)
  rw [outcome_run] at hvalue
  have hcode : (execute scan.operands ((⟨[], true⟩ : Control ρ).schedule first)).outcome =
      .ok (value :: scan.operands) := by
    have hcompletes := completes_of_execute (execute_of_answer_eq_ok hvalue)
    exact congrArg Recorded.outcome (hcompletes.above scan.operands).execute_eq
  obtain ⟨hcodes, hafter⟩ :=
    (Control.ofScan scan).codes_grouped htop hbalanced opened closed
  rw [steps_eq_execute, hcodes, hafter, execute_append, bind_assoc, Recorded.outcome_bind]
  show (execute scan.operands ((⟨[], true⟩ : Control ρ).schedule first)).outcome.bind _ = _
  rw [hcode]
  rfl

/-- The first symbol after a stray parenthesis finds it. -/
theorem step_of_stray {scan : Scan α ρ} {stray : ρ} {below : List (Located ρ Symbol)}
    (h : scan.operators = ⟨.paren .right, stray⟩ :: below) (s : Symbol) (position : ρ) :
    scan.step ⟨.symbol s, position⟩ = .fail (.unbalancedParenthesis stray) := by
  simp only [Scan.step, h, Stacks.receive, Symbol.precedence_right, Stacks.reduce,
    Recorded.fail_bind]

/-- Two groups of one value scan alike, with or without a fault. -/
theorem steps_grouped_congr {stop stop' : ρ}
    (hfirst : ((Stacks.empty : Stacks α ρ).run first stop).outcome = .ok value)
    (hsecond : ((Stacks.empty : Stacks α ρ).run second stop').outcome = .ok value)
    (scan : Scan α ρ) (opened closed : ρ) :
    (scan.steps (grouped opened closed first)).outcome =
      (scan.steps (grouped opened closed second)).outcome := by
  by_cases htop : ∀ top ∈ scan.operators.head?, top.item ≠ .paren .right
  · rw [steps_grouped htop hfirst, steps_grouped htop hsecond]
  · obtain ⟨stray, below, hoperators⟩ : ∃ stray below,
        scan.operators = ⟨.paren .right, stray⟩ :: below := by
      rcases hoperators : scan.operators with _ | ⟨⟨item, stray⟩, below⟩
      · simp [hoperators] at htop
      · obtain rfl : item = .paren .right := by simpa [hoperators] using htop
        exact ⟨stray, below, rfl⟩
    rw [grouped, grouped, Scan.steps_cons, Scan.steps_cons, step_of_stray hoperators,
      Recorded.fail_bind, Recorded.fail_bind]

/-- In a run, a group may be replaced by one of the same value. -/
theorem run_grouped_congr {stop stop' : ρ}
    (hfirst : ((Stacks.empty : Stacks α ρ).run first stop).outcome = .ok value)
    (hsecond : ((Stacks.empty : Stacks α ρ).run second stop').outcome = .ok value)
    (state : Stacks α ρ) (front back : List (Located ρ (Token (Reading α))))
    (opened closed stopped : ρ) :
    (state.run (front ++ (grouped opened closed first ++ back)) stopped).outcome =
      (state.run (front ++ (grouped opened closed second ++ back)) stopped).outcome := by
  have hgroup := fun scan => steps_grouped_congr hfirst hsecond scan opened closed
  simp only [Stacks.run, Scan.steps_append, bind_assoc, Recorded.outcome_bind, hgroup]

end Runs

/-! ## Texts -/

/-- An expression in parentheses. -/
def parenthesized (expression : String) : String :=
  "(" ++ expression ++ ")"

theorem toList_parenthesized (expression : String) :
    (parenthesized expression).toList = '(' :: (expression.toList ++ [')']) := by
  simp [parenthesized]

theorem Token.lex_append_group (front cs back : List Char) :
    lex (front ++ '(' :: (cs ++ ')' :: back)) =
      lex front ++ .symbol (.paren .left) ::
        (lex cs ++ .symbol (.paren .right) :: lex back) := by
  have hopen := lex_append_symbol front (.paren .left) (cs ++ ')' :: back)
  have hclose := lex_append_symbol cs (.paren .right) back
  rw [← hclose]
  exact hopen

/-- The tokens of an expression in parentheses.  Its own tokens come one byte
later. -/
theorem readTokens_parenthesized (expression : String) :
    readTokens (parenthesized expression) =
      grouped 0 (byteLength expression.toList + 1)
        ((readTokens expression).map (Located.mapPosition (1 + ·))) := by
  have hlex := Token.lex_append_group [] expression.toList []
  have hlength : byteLength [(Symbol.paren .left).toChar] = 1 := rfl
  rw [readTokens_eq_placed, toList_parenthesized]
  rw [List.nil_append, Token.lex_nil, List.nil_append] at hlex
  rw [hlex, Token.placed_symbol_cons, Token.placed_append, Token.placed_symbol_cons,
    Token.flatMap_chars_lex, Nat.zero_add, hlength, readTokens_eq_placed, ← Token.placed_add,
    Nat.add_comm 1 (byteLength _)]
  rfl

/-- The tokens of an expression without their positions. -/
def bareTokens (expression : String) : List (Located Unit (Token (Reading Float))) :=
  (readTokens expression).map (Located.mapPosition fun _ => ())

theorem bareTokens_eq_map_lex (expression : String) :
    bareTokens expression =
      (Token.lex expression.toList).map fun t => ⟨t.map Literal.read, ()⟩ := by
  have hitem : bareTokens expression =
      ((readTokens expression).map Located.item).map fun item => ⟨item, ()⟩ := by
    rw [List.map_map]
    rfl
  rw [hitem, map_item_readTokens, List.map_map]
  rfl

theorem bareTokens_group (before inner after : String) :
    bareTokens (before ++ parenthesized inner ++ after) =
      bareTokens before ++ (grouped () () (bareTokens inner) ++ bareTokens after) := by
  have htext : (before ++ parenthesized inner ++ after).toList =
      before.toList ++ '(' :: (inner.toList ++ ')' :: after.toList) := by
    rw [String.toList_append, String.toList_append, toList_parenthesized]
    simp only [List.append_assoc, List.cons_append, List.nil_append]
  rw [bareTokens_eq_map_lex, htext, Token.lex_append_group, bareTokens_eq_map_lex,
    bareTokens_eq_map_lex, bareTokens_eq_map_lex, grouped]
  simp only [List.map_append, List.map_cons, Token.map_symbol, List.cons_append,
    List.append_assoc, List.nil_append]

/-- The fault of an expression in parentheses stands one byte later.  The end
moves by both parentheses. -/
def offsetInGroup (expression : String) (offset : Nat) : Nat :=
  if offset = byteLength expression.toList then offset + 2 else offset + 1

theorem byteLength_parenthesized (expression : String) :
    byteLength (parenthesized expression).toList =
      offsetInGroup expression (byteLength expression.toList) := by
  have hopen : '('.utf8Size = 1 := rfl
  have hclose : ')'.utf8Size = 1 := rfl
  rw [toList_parenthesized, byteLength_cons, byteLength_append, byteLength_cons, byteLength_nil,
    hopen, hclose, offsetInGroup, if_pos rfl]
  omega

/-- If the parentheses of an expression balance, then in parentheses it has the
same value, or the same fault in its place.  The end of the input takes the
place of the end of the expression. -/
theorem evaluate_parenthesized (expression : String)
    (hbalanced : Token.Balanced (Token.lex expression.toList)) :
    evaluate (parenthesized expression) =
      (evaluate expression).mapError (Fault.map (offsetInGroup expression)) := by
  have hmoved : (readTokens expression).map (Located.mapPosition (1 + ·)) =
      (readTokens expression).map (Located.mapPosition (offsetInGroup expression)) := by
    refine List.map_congr_left fun token htoken => ?_
    have hlt := position_lt_of_mem_readTokens htoken
    have hoffset : 1 + token.position = offsetInGroup expression token.position := by
      rw [offsetInGroup, if_neg (by omega), Nat.add_comm]
    exact congrArg (Located.mk token.item) hoffset
  have hitems : Token.Balanced (((readTokens expression).map
      (Located.mapPosition (offsetInGroup expression))).map Located.item) := by
    rw [List.map_map]
    exact balanced_readTokens_iff.2 hbalanced
  obtain ⟨hcodes, hafter⟩ := (⟨[], true⟩ : Control Nat).codes_grouped
    (fun _ htop => nomatch htop) hitems 0 (byteLength expression.toList + 1)
  rw [evaluate_eq_outcome_run, evaluate_eq_outcome_run, readTokens_parenthesized,
    byteLength_parenthesized, hmoved, ← outcome_run_mapPosition, outcome_run, outcome_run]
  show answer _ [] ((⟨[], true⟩ : Control Nat).schedule _) = _
  rw [Control.schedule_eq_codes, hcodes, hafter, List.map_nil, List.append_nil,
    answer_concat_pair]
  rfl

/-- Without any value the fault is at the end of the input, and a misplaced
product stands where it stood in the group.  A difference keeps its value. -/
theorem evaluate_parenthesized_empty :
    Token.Balanced (Token.lex "()".toList) ∧
      evaluate (parenthesized "()") = .error (.missingOperand 4) ∧
      Token.Balanced (Token.lex "2(*)".toList) ∧
      evaluate (parenthesized "2(*)") = .error (.missingOperand 3) ∧
      Token.Balanced (Token.lex "7-2".toList) ∧
      ∃ value, Event.numeral value = "5" ∧ evaluate "7-2" = .ok value ∧
        evaluate (parenthesized "7-2") = .ok value := by
  have hempty : Token.Balanced (Token.lex "()".toList) := by decide +kernel
  have hproduct : Token.Balanced (Token.lex "2(*)".toList) := by decide +kernel
  have hdifference : Token.Balanced (Token.lex "7-2".toList) := by decide +kernel
  obtain ⟨value, hvalue, htext⟩ :
      ∃ value, evaluate "7-2" = .ok value ∧ Event.numeral value = "5" :=
    ⟨_, rfl, by decide +kernel⟩
  rw [evaluate_parenthesized _ hempty, evaluate_parenthesized _ hproduct,
    evaluate_parenthesized _ hdifference, hvalue]
  exact ⟨hempty, rfl, hproduct, rfl, hdifference, value, htext, rfl, rfl⟩

/-- The kind of a fault, with its text or its count but without its position. -/
def Fault.kind (fault : Fault ρ) : Fault Unit :=
  fault.map fun _ => ()

/-- Without its positions, a run from any stacks has the same value, or a fault
of the same kind. -/
theorem outcome_evaluateOn_kind (state : Stacks Float Nat) (expression : String) :
    (evaluateOn state expression).outcome.mapError Fault.kind =
      ((state.rename id fun _ => ()).run (bareTokens expression) ()).outcome := by
  have hrun := outcome_run_mapPosition (fun _ => ()) state (readTokens expression)
    (byteLength expression.toList)
  rw [outcome_evaluateOn]
  exact hrun.symm

/-- An expression has its value wherever its tokens stand. -/
theorem outcome_run_of_evaluate (g : Nat → ρ) {expression : String} {value : Float}
    (h : evaluate expression = .ok value) :
    ((Stacks.empty : Stacks Float ρ).run ((readTokens expression).map (Located.mapPosition g))
      (g (byteLength expression.toList))).outcome = .ok value := by
  have hrun := outcome_run_mapPosition g (Stacks.empty : Stacks Float Nat)
    (readTokens expression) (byteLength expression.toList)
  rw [← evaluate_eq_outcome_run, h] at hrun
  exact hrun

/-- An expression that has a value pushes it in parentheses, from any stacks and
at any place of a text, and leaves all else as it was.  So it may be replaced by
any other expression of that value. -/
theorem parenthesized_pushes_value {inner : String} {value : Float}
    (h : evaluate inner = .ok value) :
    (∀ (scan : Scan Float Nat) (offset : Nat),
        (∀ top ∈ scan.operators.head?, top.item ≠ .paren .right) →
        (scan.steps ((readTokens (parenthesized inner)).map
            (Located.mapPosition (offset + ·)))).outcome =
          .ok ⟨⟨value :: scan.operands, scan.operators⟩, false⟩) ∧
      ∀ other : String, evaluate other = .ok value →
        ∀ (state : Stacks Float Nat) (before after : String),
          (evaluateOn state (before ++ parenthesized inner ++ after)).outcome.mapError
              Fault.kind =
            (evaluateOn state (before ++ parenthesized other ++ after)).outcome.mapError
              Fault.kind := by
  constructor
  · intro scan offset htop
    have hinner := outcome_run_of_evaluate (fun position => offset + (1 + position)) h
    rw [readTokens_parenthesized, map_mapPosition_grouped, List.map_map]
    exact steps_grouped htop hinner _ _
  · intro other hother state before after
    rw [outcome_evaluateOn_kind, outcome_evaluateOn_kind, bareTokens_group, bareTokens_group]
    exact run_grouped_congr (outcome_run_of_evaluate (fun _ => ()) h)
      (outcome_run_of_evaluate (fun _ => ()) hother) _ _ _ _ _ _

/-- The content takes its product over an opening parenthesis, and a power and a
stray parenthesis wait below the group. -/
theorem parenthesized_pushes_value_product :
    ∃ value, evaluate "2(*3)" = .ok value ∧ evaluate "2*3" = .ok value ∧
      ((⟨⟨[5], [⟨.binary .pow, 7⟩, ⟨.paren .right, 1⟩]⟩, true⟩ : Scan Float Nat).steps
          ((readTokens (parenthesized "2(*3)")).map (Located.mapPosition (8 + ·)))).outcome =
        .ok ⟨⟨[value, 5], [⟨.binary .pow, 7⟩, ⟨.paren .right, 1⟩]⟩, false⟩ ∧
      (evaluateOn ⟨[5], []⟩ ("/0" ++ parenthesized "2(*3)" ++ "^")).outcome.mapError
          Fault.kind =
        (evaluateOn ⟨[5], []⟩ ("/0" ++ parenthesized "2*3" ++ "^")).outcome.mapError
          Fault.kind := by
  obtain ⟨value, hinner, hother⟩ : ∃ value, evaluate "2(*3)" = .ok value ∧
      evaluate "2*3" = .ok value := ⟨_, rfl, rfl⟩
  obtain ⟨hsteps, hreplace⟩ := parenthesized_pushes_value hinner
  refine ⟨value, hinner, hother, ?_, hreplace _ hother _ _ _⟩
  refine hsteps ⟨⟨[5], [⟨.binary .pow, 7⟩, ⟨.paren .right, 1⟩]⟩, true⟩ 8 ?_
  rintro top htop
  obtain rfl := Option.some.inj htop
  exact nofun

end InfixArith
