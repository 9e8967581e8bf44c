import InfixArith.Proofs.Representation
import Mathlib.Order.Bounds.Defs

/-!
# The parenthesis that is reported

A parenthesis is reported when it would have to be reduced.  A closing one
without a partner is not reported when it is scanned: it waits at the bottom
of the stack, where the next symbol or the end finds it.  An opening one is
found at the end only.

The instruction that comes first is what counts.  `Control.unpaired_of_stray`
says which one that is if some closing parenthesis has no partner, and
`Control.unpaired_of_nesting` if each of them has one.  Both are inductions on
the tokens, from any stack without a closing parenthesis.

`isLeast_unopened` and `isGreatest_unclosed` read the same two parentheses off
the tokens: the leftmost one that nothing opens, and the rightmost one that
nothing closes.  `evaluate_unbalanced` puts both sides together.
-/

namespace InfixArith

variable {α ρ τ : Type}

/-! ## Instructions on a parenthesis -/

/-- The parenthesis that an instruction is to reduce. -/
def Instruction.unpaired? : Instruction α ρ → Option ρ
  | .reduce ⟨.paren _, position⟩ => some position
  | .reduce ⟨.binary _, _⟩ | .push _ | .pair .. | .refuse .. => none

/-- What is plain reduces no parenthesis. -/
theorem unpaired_of_plain {code : List (Instruction α ρ)} (h : ∀ i ∈ code, i.Plain) :
    code.findSome? Instruction.unpaired? = none := by
  refine List.findSome?_eq_none_iff.2 fun i hi => ?_
  rcases i with value | ⟨op | side, position⟩ | _ | _
  · rfl
  · rfl
  · obtain ⟨op, hop⟩ := h _ hi
    cases hop
  · rfl
  · rfl

/-- The parenthesis that is reported is the first one to be reduced. -/
theorem unpaired_of_execute [Arithmetic α] {operands : List α}
    {code : List (Instruction α ρ)} {position : ρ}
    (h : (execute operands code).outcome = .error (.unbalancedParenthesis position)) :
    code.findSome? Instruction.unpaired? = some position := by
  obtain ⟨front, i, back, result, rfl, hfront, hi⟩ := exists_of_execute_eq_error h
  cases hi
  rw [List.findSome?_append, unpaired_of_plain hfront.plain]
  rfl

/-- The end of a run reports no parenthesis of its own. -/
theorem unpaired_of_answer [Arithmetic α] {stop : ρ} {operands : List α}
    {code : List (Instruction α ρ)} {position : ρ}
    (h : answer stop operands code = .error (.unbalancedParenthesis position)) :
    code.findSome? Instruction.unpaired? = some position := by
  suffices hcode : (execute operands code).outcome =
      .error (.unbalancedParenthesis position) from unpaired_of_execute hcode
  rw [answer, Recorded.outcome_bind] at h
  cases hcode : (execute operands code).outcome with
  | error fault =>
    rw [hcode] at h
    cases h
    rfl
  | ok result =>
    rw [hcode] at h
    rcases result with _ | ⟨value, _ | ⟨next, rest⟩⟩ <;> cases h

/-- At the end, the topmost opening parenthesis is found first. -/
theorem unpaired_drain {operators : List (Located ρ Symbol)} (hstray : NoStray operators) :
    (operators.map Instruction.reduce : List (Instruction α ρ)).findSome?
      Instruction.unpaired? = (openings operators).head? := by
  induction operators with
  | nil => rfl
  | cons top rest ih =>
    rcases top with ⟨op | _ | _, position⟩
    · rw [openings_cons_of_ne (by simp)]
      exact ih hstray.tail
    · rw [openings_cons_left]
      rfl
    · exact absurd rfl (hstray _ List.mem_cons_self)

/-! ## The first parenthesis to be reduced -/

namespace Control

variable [Arithmetic α]

/-- While no closing parenthesis waits, no token reduces a parenthesis. -/
theorem unpaired_code (c : Control ρ) (hstray : NoStray c.operators)
    (token : Located ρ (Token (Reading α))) :
    (c.code token).findSome? Instruction.unpaired? = none := by
  rcases token with ⟨(text | value) | s, position⟩
  · rfl
  · exact unpaired_of_plain (c.plain_code hstray nofun)
  · exact unpaired_of_plain (c.plain_code hstray nofun)

/-- A closing parenthesis that waits alone is found, whatever comes. -/
theorem unpaired_of_alone {c : Control ρ} {position : ρ}
    (h : c.operators = [⟨.paren .right, position⟩])
    (tokens : List (Located ρ (Token (Reading α)))) :
    (c.schedule tokens).findSome? Instruction.unpaired? = some position := by
  induction tokens generalizing c with
  | nil =>
    rw [schedule, h]
    rfl
  | cons token tokens ih =>
    rw [schedule, List.findSome?_append]
    rcases token with ⟨(text | value) | s, place⟩
    · exact ih h
    · exact ih h
    · -- The symbol itself has to reduce the parenthesis.
      rw [code, List.findSome?_append, unpaired_of_plain (c.plain_signCode s), h,
        Stacks.receiveCode, Symbol.precedence_right]
      rfl

/-- If every closing parenthesis has a partner, the last of the parentheses that
are still open at the end is found. -/
theorem unpaired_of_nesting {c : Control ρ} {tokens : List (Located ρ (Token (Reading α)))}
    {depth : Nat} (hstray : NoStray c.operators)
    (hnest : Token.nesting (openCount c.operators) (tokens.map Located.item) = some depth) :
    (c.schedule tokens).findSome? Instruction.unpaired? =
      (tokens.foldl stillOpen (openings c.operators)).head? := by
  induction tokens generalizing c with
  | nil => exact unpaired_drain hstray
  | cons token tokens ih =>
    rw [List.map_cons, Token.nesting_cons] at hnest
    obtain ⟨middle, hmiddle, hrest⟩ := Option.bind_eq_some_iff.1 hnest
    obtain ⟨hnext, hcount⟩ := c.nest_next hstray hmiddle
    rw [schedule, List.findSome?_append, c.unpaired_code hstray, Option.none_or,
      ih hnext (hcount ▸ hrest), openings_next, List.foldl_cons]

/-- The first closing parenthesis without a partner is found, whatever comes
after it. -/
theorem unpaired_of_stray {c : Control ρ} {before : List (Located ρ (Token (Reading α)))}
    (hstray : NoStray c.operators)
    (hnest : Token.nesting (openCount c.operators) (before.map Located.item) = some 0)
    (position : ρ) (after : List (Located ρ (Token (Reading α)))) :
    (c.schedule (before ++ ⟨.symbol (.paren .right), position⟩ :: after)).findSome?
      Instruction.unpaired? = some position := by
  induction before generalizing c with
  | nil =>
    have halone : (c.next ⟨(.symbol (.paren .right) : Token (Reading α)), position⟩).operators =
        [⟨.paren .right, position⟩] :=
      Stacks.receive_stray hstray (Option.some.inj hnest) position
    rw [List.nil_append, schedule, List.findSome?_append, c.unpaired_code hstray,
      Option.none_or, unpaired_of_alone halone]
  | cons token before ih =>
    rw [List.map_cons, Token.nesting_cons] at hnest
    obtain ⟨depth, hdepth, hrest⟩ := Option.bind_eq_some_iff.1 hnest
    obtain ⟨hnext, hcount⟩ := c.nest_next hstray hdepth
    rw [List.cons_append, schedule, List.findSome?_append, c.unpaired_code hstray,
      Option.none_or, ih hnext (hcount ▸ hrest)]

end Control

/-! ## Parentheses without a partner -/

/-- Some opening parenthesis comes before balanced tokens, and so a closing one
behind all these tokens is its partner. -/
def Token.HasOpener (before : List (Token τ)) : Prop :=
  ∃ rest inner, before = rest ++ .symbol (.paren .left) :: inner ∧ Balanced inner

/-- A closing parenthesis stands at this position, and no partner of it comes
before. -/
def Unopened (tokens : List (Located ρ (Token τ))) (position : ρ) : Prop :=
  ∃ before after, tokens = before ++ ⟨.symbol (.paren .right), position⟩ :: after ∧
    ¬Token.HasOpener (before.map Located.item)

/-- The parentheses that are still open are as many as the nesting counts. -/
theorem length_foldl_stillOpen {opened : List ρ} {tokens : List (Located ρ (Token τ))}
    {depth : Nat} (h : Token.nesting opened.length (tokens.map Located.item) = some depth) :
    (tokens.foldl stillOpen opened).length = depth := by
  induction tokens generalizing opened with
  | nil => exact Option.some.inj h
  | cons token tokens ih =>
    rw [List.map_cons, Token.nesting_cons] at h
    obtain ⟨middle, htoken, hrest⟩ := Option.bind_eq_some_iff.1 h
    have hlength : (stillOpen opened token).length = middle := by
      rcases token with ⟨content | op | _ | _, position⟩
      · exact Option.some.inj htoken
      · exact Option.some.inj htoken
      · exact Option.some.inj htoken
      · cases opened with
        | nil => cases htoken
        | cons last opened => exact Option.some.inj htoken
    exact ih (hlength ▸ hrest)

/-- A closing parenthesis finds a partner exactly if some parenthesis is open. -/
theorem hasOpener_iff {before : List (Located ρ (Token τ))} {depth : Nat}
    (h : Token.nesting 0 (before.map Located.item) = some depth) :
    Token.HasOpener (before.map Located.item) ↔ depth ≠ 0 := by
  have hlength : (before.foldl stillOpen []).length = depth := length_foldl_stillOpen h
  constructor
  · rintro ⟨rest, inner, hbefore, hinner⟩
    obtain ⟨front, back, rfl, -, hback⟩ := List.map_eq_append_iff.1 hbefore
    obtain ⟨⟨item, position⟩, back, rfl, hitem, rfl⟩ := List.map_eq_cons_iff.1 hback
    obtain rfl : item = .symbol (.paren .left) := hitem
    have hlast := (getElem?_foldl_stillOpen _ 0 position).2 ⟨front, back, rfl, hinner⟩
    have hlt := (List.getElem?_eq_some_iff.1 hlast).1
    omega
  · intro hdepth
    have hlast : (before.foldl stillOpen [])[0]? = some (before.foldl stillOpen [])[0] :=
      List.getElem?_eq_getElem (by omega)
    obtain ⟨rest, inner, hbefore, hinner⟩ := (getElem?_foldl_stillOpen before 0 _).1 hlast
    refine ⟨rest.map Located.item, inner.map Located.item, ?_, hinner⟩
    rw [hbefore, List.map_append]
    rfl

/-- Where the nesting has a count, every closing parenthesis has a partner. -/
theorem not_unopened_of_nesting {tokens : List (Located ρ (Token τ))} {depth : Nat}
    (h : Token.nesting 0 (tokens.map Located.item) = some depth) (position : ρ) :
    ¬Unopened tokens position := by
  rintro ⟨before, after, rfl, hopener⟩
  rw [List.map_append, Token.nesting_append] at h
  obtain ⟨middle, hbefore, hrest⟩ := Option.bind_eq_some_iff.1 h
  obtain rfl : middle = 0 := by
    by_contra hmiddle
    exact hopener ((hasOpener_iff hbefore).2 hmiddle)
  cases hrest

/-! ## Leftmost and rightmost -/

/-- Behind balanced tokens stands the leftmost closing parenthesis without a
partner. -/
theorem isLeast_unopened {tokens before after : List (Located Nat (Token τ))}
    (hpositions : (tokens.map Located.position).Pairwise (· < ·)) {position : Nat}
    (htokens : tokens = before ++ ⟨.symbol (.paren .right), position⟩ :: after)
    (hbalanced : Token.Balanced (before.map Located.item)) :
    IsLeast {place | Unopened tokens place} position := by
  constructor
  · exact ⟨before, after, htokens, fun hopener => (hasOpener_iff hbalanced).1 hopener rfl⟩
  · rintro place ⟨front, back, hsplit, hopener⟩
    rw [htokens] at hsplit hpositions
    rcases List.append_eq_append_iff.1 hsplit with ⟨middle, rfl, hmiddle⟩ | ⟨middle, rfl, hmiddle⟩
    · -- It is this one, or it stands behind it.
      rw [List.map_append, List.pairwise_append] at hpositions
      have hbehind := (List.pairwise_cons.1 hpositions.2.1).1
      rcases middle with _ | ⟨other, middle⟩
      · cases hmiddle
        exact Nat.le_refl _
      · obtain ⟨rfl, rfl⟩ := List.cons.inj hmiddle
        exact Nat.le_of_lt (hbehind place (by simp))
    · -- Among balanced tokens it would have a partner.
      rcases middle with _ | ⟨other, middle⟩
      · cases hmiddle
        exact Nat.le_refl _
      · obtain ⟨rfl, rfl⟩ := List.cons.inj hmiddle
        exact absurd ⟨front, middle, rfl, hopener⟩ (not_unopened_of_nesting hbalanced place)

/-- The parentheses that are still open are kept in the order of the tokens, the
last one first. -/
theorem foldl_stillOpen_sublist (opened : List ρ) (tokens : List (Located ρ (Token τ))) :
    (tokens.foldl stillOpen opened).reverse.Sublist
      (opened.reverse ++ tokens.map Located.position) := by
  induction tokens generalizing opened with
  | nil => simp
  | cons token tokens ih =>
    have hstep : (stillOpen opened token).reverse.Sublist (opened.reverse ++ [token.position]) := by
      rcases token with ⟨content | op | _ | _, position⟩
      · exact List.sublist_append_left _ _
      · exact List.sublist_append_left _ _
      · rw [← List.reverse_cons]
        exact List.Sublist.refl _
      · exact (List.tail_sublist opened).reverse.trans (List.sublist_append_left _ _)
    have hrest := (ih (stillOpen opened token)).trans
      (hstep.append (List.Sublist.refl (tokens.map Located.position)))
    rw [List.append_assoc] at hrest
    exact hrest

/-- The last parenthesis that is still open is the rightmost one that is never
closed. -/
theorem isGreatest_unclosed {tokens : List (Located Nat (Token τ))}
    (hpositions : (tokens.map Located.position).Pairwise (· < ·)) {position : Nat}
    (h : (tokens.foldl stillOpen []).head? = some position) :
    IsGreatest {place | Unclosed tokens place} position := by
  obtain ⟨rest, hopen⟩ := List.head?_eq_some_iff.1 h
  have hincreasing := hpositions.sublist (foldl_stillOpen_sublist [] tokens)
  rw [hopen, List.pairwise_reverse, List.pairwise_cons] at hincreasing
  constructor
  · refine mem_foldl_stillOpen_iff.1 ?_
    rw [hopen]
    exact List.mem_cons_self
  · intro place hplace
    have hmem := mem_foldl_stillOpen_iff.2 hplace
    rw [hopen] at hmem
    rcases List.mem_cons.1 hmem with rfl | hmem
    · exact Nat.le_refl _
    · exact Nat.le_of_lt (hincreasing.1 place hmem)

/-! ## Runs and expressions -/

/-- The parenthesis that a run from empty stacks reports is the leftmost closing
one without a partner, or the rightmost opening one that is never closed if
every closing one has a partner. -/
theorem unbalanced_of_run [Arithmetic α] {tokens : List (Located Nat (Token (Reading α)))}
    {stop position : Nat} (hpositions : (tokens.map Located.position).Pairwise (· < ·))
    (h : ((Stacks.empty : Stacks α Nat).run tokens stop).outcome =
      .error (.unbalancedParenthesis position)) :
    ¬Token.Balanced (tokens.map Located.item) ∧
      (IsLeast {place | Unopened tokens place} position ∨
        (∀ place, ¬Unopened tokens place) ∧
          IsGreatest {place | Unclosed tokens place} position) := by
  rw [outcome_run] at h
  have hunpaired := unpaired_of_answer h
  have hstray : NoStray ((⟨[], true⟩ : Control Nat).operators) := fun _ htop => nomatch htop
  cases hnest : Token.nesting 0 (tokens.map Located.item) with
  | none =>
    refine ⟨by simp [Token.Balanced, hnest], .inl ?_⟩
    obtain ⟨inner, rest, hitems, hinner⟩ := Token.nesting_eq_none_iff.1 hnest
    obtain ⟨before, back, htokens, rfl, hback⟩ := List.map_eq_append_iff.1 hitems
    obtain ⟨⟨item, place⟩, after, rfl, hitem, rfl⟩ := List.map_eq_cons_iff.1 hback
    obtain rfl : item = .symbol (.paren .right) := hitem
    have hfirst := Control.unpaired_of_stray hstray hinner place after
    rw [← htokens] at hfirst
    obtain rfl : place = position := Option.some.inj (hfirst.symm.trans hunpaired)
    exact isLeast_unopened hpositions htokens hinner
  | some depth =>
    have hlast : (tokens.foldl stillOpen []).head? = some position :=
      (Control.unpaired_of_nesting hstray hnest).symm.trans hunpaired
    refine ⟨?_, .inr ⟨not_unopened_of_nesting hnest, isGreatest_unclosed hpositions hlast⟩⟩
    intro hbalanced
    have hnone : (tokens.foldl stillOpen []).length = 0 := length_foldl_stillOpen hbalanced
    rw [List.length_eq_zero_iff.1 hnone] at hlast
    cases hlast

/-- An expression whose parentheses do not balance has no value.  If a
parenthesis is reported, they do not balance, and it is the leftmost closing one
without a partner, or the rightmost opening one that is never closed if every
closing one has a partner. -/
theorem evaluate_unbalanced (expression : String) :
    (¬Token.Balanced (Token.lex expression.toList) →
        ∃ fault, evaluate expression = .error fault) ∧
      ∀ position, evaluate expression = .error (.unbalancedParenthesis position) →
        ¬Token.Balanced (Token.lex expression.toList) ∧
          (IsLeast {place | Unopened (readTokens expression) place} position ∨
            (∀ place, ¬Unopened (readTokens expression) place) ∧
              IsGreatest {place | Unclosed (readTokens expression) place} position) := by
  constructor
  · intro hunbalanced
    cases hevaluate : evaluate expression with
    | error fault => exact ⟨fault, rfl⟩
    | ok value =>
      have hleft : leftOver (evaluate expression) = some 1 := congrArg leftOver hevaluate
      exact absurd (accounts_of_leftOver_evaluate hleft).1 hunbalanced
  · intro position hfault
    have hpositions : ((readTokens expression).map Located.position).Pairwise (· < ·) :=
      Token.pairwise_position_placed Literal.read 0 (Token.separated_lex expression.toList)
    rw [evaluate_eq_outcome_run] at hfault
    rw [← balanced_readTokens_iff]
    exact unbalanced_of_run hpositions hfault

/-- A stray parenthesis is found by the opening one after it, which is not closed
either.  Of two that are not closed, the rightmost one is found. -/
theorem evaluate_unbalanced_both_ways :
    evaluate "(1)+2)(3" = .error (.unbalancedParenthesis 5) ∧
      IsLeast {place | Unopened (readTokens "(1)+2)(3") place} 5 ∧
      evaluate "(1*(2)-(3" = .error (.unbalancedParenthesis 7) ∧
      IsGreatest {place | Unclosed (readTokens "(1*(2)-(3") place} 7 ∧
      ∃ fault, evaluate "(x" = .error fault := by
  have hstray : evaluate "(1)+2)(3" = .error (.unbalancedParenthesis 5) := rfl
  have hopen : evaluate "(1*(2)-(3" = .error (.unbalancedParenthesis 7) := rfl
  obtain ⟨-, hleast⟩ := (evaluate_unbalanced "(1)+2)(3").2 5 hstray
  obtain ⟨-, hgreatest⟩ := (evaluate_unbalanced "(1*(2)-(3").2 7 hopen
  refine ⟨hstray, ?_, hopen, ?_, (evaluate_unbalanced "(x").1 (by decide +kernel)⟩
  · rcases hleast with hleast | ⟨-, hclosed, -⟩
    · exact hleast
    · have hnone : 5 ∉ (readTokens "(1)+2)(3").foldl stillOpen [] := by decide +kernel
      exact absurd (mem_foldl_stillOpen_iff.2 hclosed) hnone
  · rcases hgreatest with ⟨hopened, -⟩ | ⟨-, hgreatest⟩
    · have hnest : Token.nesting 0 ((readTokens "(1*(2)-(3").map Located.item) = some 2 := by
        decide +kernel
      exact absurd hopened (not_unopened_of_nesting hnest 7)
    · exact hgreatest

end InfixArith
