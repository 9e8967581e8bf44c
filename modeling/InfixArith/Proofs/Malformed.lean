import InfixArith.Proofs.Blame
import Mathlib.Data.Nat.Find

/-!
# Malformed literals

A literal is a run of characters that write no symbol, as long as it can be on
both sides.  `MaximalRun` says that by the text and a byte offset, and
`mem_lexPlaced_iff` says that the lexer makes literals of these runs and of
nothing else.

The first run that is no decimal is a fault as soon as the scan comes to it.
Until then the scan may have stopped at a symbol, which stands before the run.
`evaluate_malformed` states both, and that there is no such fault without such
a run.
-/

namespace InfixArith

variable {α ρ : Type}

/-! ## Maximal runs -/

/-- At this byte offset of the text begins a run of characters that write no
symbol.  A symbol or nothing comes before it, and also after it. -/
def MaximalRun (text cs : List Char) (offset : Nat) : Prop :=
  ∃ before after, text = before ++ (cs ++ after) ∧ offset = byteLength before ∧
    cs ≠ [] ∧ (∀ c ∈ cs, Symbol.ofChar? c = none) ∧
    (∀ c ∈ before.getLast?, Symbol.ofChar? c ≠ none) ∧
    ∀ c ∈ after.head?, Symbol.ofChar? c ≠ none

/-- The character of a symbol writes a symbol. -/
theorem Symbol.ofChar?_toChar_ne_none (s : Symbol) : ofChar? s.toChar ≠ none := by
  rw [ofChar?_toChar]
  exact Option.some_ne_none s

/-- The literals of a text are its maximal runs. -/
theorem Token.mem_lexPlaced_iff {text cs : List Char} {offset : Nat} :
    ⟨.literal cs, offset⟩ ∈ lexPlaced text ↔ MaximalRun text cs offset := by
  rw [lexPlaced, mem_place_iff]
  constructor
  · rintro ⟨front, back, hlex, rfl⟩
    have hseparated := separated_lex text
    have htext := flatMap_chars_lex text
    rw [hlex] at hseparated htext
    obtain ⟨hne, hcs⟩ := hseparated.proper _ (List.mem_append_right _ List.mem_cons_self)
    obtain ⟨-, hback, hfront⟩ := List.isChain_append.1 hseparated.apart
    rw [List.flatMap_append, List.flatMap_cons] at htext
    refine ⟨front.flatMap chars, back.flatMap chars, htext.symm, Nat.zero_add _, hne, hcs,
      ?_, ?_⟩
    · intro c hc
      rcases List.eq_nil_or_concat front with rfl | ⟨front, ds | s, rfl⟩
      · cases hc
      · exact absurd ⟨rfl, rfl⟩ (hfront (.literal ds) (by simp) (.literal cs) rfl)
      · obtain rfl : s.toChar = c := by simpa using hc
        exact s.ofChar?_toChar_ne_none
    · intro c hc
      rcases back with _ | ⟨ds | s, back⟩
      · cases hc
      · exact absurd ⟨rfl, rfl⟩ ((List.isChain_cons.1 hback).1 (.literal ds) rfl)
      · obtain rfl : s.toChar = c := by simpa using hc
        exact s.ofChar?_toChar_ne_none
  · rintro ⟨before, after, rfl, rfl, hne, hcs, hbefore, hafter⟩
    obtain ⟨c, tail, rfl⟩ := List.exists_cons_of_ne_nil hne
    have hfirst : ¬Joins before (c :: tail ++ after) := by
      rintro ⟨⟨d, hd, hnone⟩, -⟩
      exact hbefore d hd hnone
    have hsecond : ¬Joins (c :: tail) after := by
      rintro ⟨-, d, hd, hnone⟩
      exact hafter d hd hnone
    refine ⟨lex before, lex after, ?_, ?_⟩
    · rw [lex_append_of_not_joins hfirst, lex_append_of_not_joins hsecond, lex_literal hne hcs,
        List.singleton_append]
    · rw [flatMap_chars_lex, Nat.zero_add]

/-! ## Runs that are no decimals -/

/-- A run that is no decimal. -/
def MalformedRun (text cs : List Char) (offset : Nat) : Prop :=
  MaximalRun text cs offset ∧ Literal.isDecimal (String.ofList cs) = false

/-- A run that is no decimal, with nothing but decimals before it. -/
def FirstMalformed (text cs : List Char) (offset : Nat) : Prop :=
  MalformedRun text cs offset ∧
    ∀ earlier place, MalformedRun text earlier place → offset ≤ place

/-- The first such run is the first literal token that is no decimal. -/
theorem firstMalformed_iff {text cs : List Char} {offset : Nat} :
    FirstMalformed text cs offset ↔
      ⟨.literal cs, offset⟩ ∈ Token.lexPlaced text ∧ Literal.isDecimal (String.ofList cs) = false ∧
        ∀ token ∈ Token.lexPlaced text, token.item.isDecimal = false →
          offset ≤ token.position := by
  constructor
  · rintro ⟨⟨hrun, hdecimal⟩, hearliest⟩
    refine ⟨Token.mem_lexPlaced_iff.2 hrun, hdecimal, ?_⟩
    rintro ⟨earlier | s, place⟩ htoken hmalformed
    · exact hearliest earlier place ⟨Token.mem_lexPlaced_iff.1 htoken, hmalformed⟩
    · cases hmalformed
  · rintro ⟨hmem, hdecimal, hearliest⟩
    refine ⟨⟨Token.mem_lexPlaced_iff.1 hmem, hdecimal⟩, ?_⟩
    intro earlier place hearlier
    exact hearliest _ (Token.mem_lexPlaced_iff.2 hearlier.1) hearlier.2

instance (text cs : List Char) (offset : Nat) : Decidable (FirstMalformed text cs offset) :=
  decidable_of_iff _ firstMalformed_iff.symm

/-- If some run is no decimal, one of them is the first. -/
theorem exists_firstMalformed {text cs : List Char} {offset : Nat}
    (h : MalformedRun text cs offset) :
    ∃ (first : List Char) (place : Nat), FirstMalformed text first place := by
  classical
  have hexists : ∃ place, ∃ run, MalformedRun text run place := ⟨offset, cs, h⟩
  obtain ⟨first, hfirst⟩ := Nat.find_spec hexists
  refine ⟨first, Nat.find hexists, hfirst, ?_⟩
  intro earlier place hearlier
  exact Nat.find_min' hexists ⟨earlier, hearlier⟩

/-- The literals of an expression that cannot be read are these runs. -/
theorem mem_readTokens_error_iff {expression text : String} {offset : Nat} :
    ⟨.literal (.error text), offset⟩ ∈ readTokens expression ↔
      ∃ cs, text = String.ofList cs ∧ MalformedRun expression.toList cs offset := by
  constructor
  · intro h
    obtain ⟨⟨cs | s, position⟩, ht, hread⟩ := List.mem_map.1 h
    · obtain ⟨hitem, rfl⟩ := Located.mk.inj hread
      obtain ⟨rfl, hdecimal⟩ := Literal.read_eq_error_iff.1 (Token.literal.inj hitem)
      exact ⟨cs, rfl, Token.mem_lexPlaced_iff.1 ht, hdecimal⟩
    · cases hread
  · rintro ⟨cs, rfl, hrun, hdecimal⟩
    rw [← Literal.read_eq_error_iff.2 ⟨rfl, hdecimal⟩]
    exact List.mem_map_of_mem (Token.mem_lexPlaced_iff.2 hrun)

/-- The first such run is a token.  All tokens before it have smaller offsets,
and their literals can be read. -/
theorem FirstMalformed.exists_append {expression : String} {cs : List Char} {offset : Nat}
    (h : FirstMalformed expression.toList cs offset) :
    ∃ front back,
      readTokens expression = front ++ ⟨.literal (.error (String.ofList cs)), offset⟩ :: back ∧
        (∀ token ∈ front, token ∈ readTokens expression ∧ token.position < offset) ∧
        ∀ text position, ⟨.literal (.error text), position⟩ ∉ front := by
  obtain ⟨front, back, hsplit⟩ :=
    List.append_of_mem (mem_readTokens_error_iff.2 ⟨cs, rfl, h.1⟩)
  have hfront : ∀ token ∈ front, token ∈ readTokens expression ∧ token.position < offset := by
    have hpositions := pairwise_position_readTokens expression
    rw [hsplit, List.map_append, List.map_cons, List.pairwise_append] at hpositions
    intro token htoken
    refine ⟨hsplit ▸ List.mem_append_left _ htoken, ?_⟩
    exact hpositions.2.2 _ (List.mem_map_of_mem htoken) offset List.mem_cons_self
  refine ⟨front, back, hsplit, hfront, ?_⟩
  intro text position hmem
  obtain ⟨htoken, hbefore⟩ := hfront _ hmem
  obtain ⟨earlier, -, hearlier⟩ := mem_readTokens_error_iff.1 htoken
  exact absurd hbefore (Nat.not_lt.2 (h.2 earlier position hearlier))

/-! ## Runs -/

/-- A run that stops at a token, or goes on from there. -/
theorem outcome_run_split [Arithmetic α] (state : Stacks α ρ)
    (front : List (Located ρ (Token (Reading α)))) (token : Located ρ (Token (Reading α)))
    (back : List (Located ρ (Token (Reading α)))) (stop : ρ) :
    (state.run (front ++ token :: back) stop).outcome =
      ((Scan.start state).steps front).outcome.bind fun scan =>
        (scan.step token).outcome.bind fun next =>
          (next.steps back >>= fun scan => scan.finish stop).outcome := by
  rw [Stacks.run, Scan.steps_append, bind_assoc, Recorded.outcome_bind]
  refine congrArg _ (funext fun scan => ?_)
  rw [Scan.steps_cons, bind_assoc, Recorded.outcome_bind]

/-- A run with a malformed literal ends there, or before with a fault that blames
an earlier token. -/
theorem outcome_run_of_error [Arithmetic α] (front back : List (Located ρ (Token (Reading α))))
    (text : String) (position stop : ρ) :
    ((Stacks.empty : Stacks α ρ).run
          (front ++ ⟨.literal (.error text), position⟩ :: back) stop).outcome =
        .error (.malformedLiteral text position) ∨
      ∃ fault : Fault ρ, fault.Blames front ∧
        ((Stacks.empty : Stacks α ρ).run
          (front ++ ⟨.literal (.error text), position⟩ :: back) stop).outcome = .error fault := by
  rw [outcome_run_split]
  cases hsteps : ((Scan.start (Stacks.empty : Stacks α ρ)).steps front).outcome with
  | error fault => exact .inr ⟨fault, blames_of_steps hsteps, rfl⟩
  | ok scan => exact .inl rfl

/-- If some literal of an expression is no decimal, the first such literal is
reported, or an operator that lacks an operand, or a parenthesis without a
partner, and these stand before it.  No literal is reported otherwise. -/
theorem evaluate_malformed (expression : String) :
    (∀ cs offset, FirstMalformed expression.toList cs offset →
        evaluate expression = .error (.malformedLiteral (String.ofList cs) offset) ∨
          (∃ op position, StandsAt expression ⟨.binary op, position⟩ ∧ position < offset ∧
            evaluate expression = .error (.missingOperand position)) ∨
          ∃ side position, StandsAt expression ⟨.paren side, position⟩ ∧ position < offset ∧
            evaluate expression = .error (.unbalancedParenthesis position)) ∧
      ((∀ cs offset, ¬FirstMalformed expression.toList cs offset) →
        ∀ text position, evaluate expression ≠ .error (.malformedLiteral text position)) := by
  constructor
  · intro cs offset hfirst
    obtain ⟨front, back, hsplit, hfront, hread⟩ := hfirst.exists_append
    rw [evaluate_eq_outcome_run, hsplit]
    rcases outcome_run_of_error front back (String.ofList cs) offset
      (byteLength expression.toList) with hliteral | ⟨fault, hblames, hfault⟩
    · exact .inl hliteral
    · right
      cases hblames with
      | literal text position h => exact absurd h (hread text position)
      | operator op position h =>
        obtain ⟨hmem, hbefore⟩ := hfront _ h
        exact .inl ⟨op, position, standsAt_of_mem hmem, hbefore, hfault⟩
      | parenthesis side position h =>
        obtain ⟨hmem, hbefore⟩ := hfront _ h
        exact .inr ⟨side, position, standsAt_of_mem hmem, hbefore, hfault⟩
  · intro hnone text position hfault
    rw [evaluate_eq_outcome_run] at hfault
    rcases blames_of_run hfault with hblames | ⟨hmissing, -⟩ | ⟨count, hdangling⟩
    · cases hblames with
      | literal text position h =>
        obtain ⟨cs, -, hrun⟩ := mem_readTokens_error_iff.1 h
        obtain ⟨first, place, hfirst⟩ := exists_firstMalformed hrun
        exact hnone first place hfirst
    · cases hmissing
    · cases hdangling

/-- A fraction sign takes two bytes and is no decimal.  A product without its
right operand is found first, if a symbol comes between them. -/
theorem evaluate_malformed_fraction :
    FirstMalformed "2*½+x".toList ['½'] 2 ∧
      evaluate "2*½+x" = .error (.malformedLiteral (String.ofList ['½']) 2) ∧
      FirstMalformed "2*/½".toList ['½'] 3 ∧
      evaluate "2*/½" = .error (.missingOperand 1) ∧
      (∃ op, StandsAt "2*/½" ⟨.binary op, 1⟩) ∧
      (∀ cs offset, ¬FirstMalformed "2*".toList cs offset) ∧
      evaluate "2*" ≠ .error (.malformedLiteral "" 2) := by
  have hfirst : FirstMalformed "2*½+x".toList ['½'] 2 := by decide +kernel
  have hsecond : FirstMalformed "2*/½".toList ['½'] 3 := by decide +kernel
  have hnone : ∀ cs offset, ¬FirstMalformed "2*".toList cs offset := by
    intro cs offset h
    have hall : ∀ token ∈ Token.lexPlaced "2*".toList, token.item.isDecimal = true := by
      decide +kernel
    obtain ⟨hmem, hdecimal, -⟩ := firstMalformed_iff.1 h
    exact absurd (hall _ hmem) (Bool.eq_false_iff.1 hdecimal)
  have hliteral : evaluate "2*½+x" = .error (.malformedLiteral (String.ofList ['½']) 2) := rfl
  have hproduct : evaluate "2*/½" = .error (.missingOperand 1) := rfl
  refine ⟨hfirst, ?_, hsecond, hproduct, ?_, hnone, (evaluate_malformed "2*").2 hnone "" 2⟩
  · rcases (evaluate_malformed "2*½+x").1 _ _ hfirst with h | ⟨op, position, -, -, h⟩ |
      ⟨side, position, -, -, h⟩
    · exact h
    · rw [hliteral] at h
      cases h
    · rw [hliteral] at h
      cases h
  · rcases (evaluate_malformed "2*/½").1 _ _ hsecond with h | ⟨op, position, hstands, -, h⟩ |
      ⟨side, position, -, -, h⟩
    · rw [hproduct] at h
      cases h
    · rw [hproduct] at h
      cases h
      exact ⟨op, hstands⟩
    · rw [hproduct] at h
      cases h

end InfixArith
