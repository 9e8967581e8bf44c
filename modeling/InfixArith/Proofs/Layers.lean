import InfixArith.Proofs.Control
import InfixArith.Proofs.Nesting
import Mathlib.Data.List.Chain

/-!
# Layers of waiting symbols

The symbols that wait are layered: each one was admitted by the one below
it.  So between two opening parentheses the operators get tighter towards
the top, and a closing parenthesis can only be at the very bottom.

`layered_receive` is the step that keeps this shape.  `receive_nest` counts
the opening parentheses that wait, as the nesting of the tokens does.
`Control.plain_code` says that nothing but operators is reduced while no
closing parenthesis waits.
-/

namespace InfixArith

variable {α ρ τ : Type}

/-- Every waiting symbol was admitted by the one below it. -/
def Layered (operators : List (Located ρ Symbol)) : Prop :=
  operators.IsChain fun top below => below.item.precedence top.item = .lower

/-- No closing parenthesis waits. -/
def NoStray (operators : List (Located ρ Symbol)) : Prop :=
  ∀ top ∈ operators, top.item ≠ .paren .right

/-- The number of opening parentheses that wait. -/
def openCount (operators : List (Located ρ Symbol)) : Nat :=
  operators.countP fun top => top.item = .paren .left

theorem openCount_cons_left (position : ρ) (operators : List (Located ρ Symbol)) :
    openCount (⟨.paren .left, position⟩ :: operators) = openCount operators + 1 := by
  simp [openCount]

theorem openCount_cons_of_ne {top : Located ρ Symbol} (h : top.item ≠ .paren .left)
    (operators : List (Located ρ Symbol)) :
    openCount (top :: operators) = openCount operators := by
  simp [openCount, h]

theorem NoStray.tail {top : Located ρ Symbol} {operators : List (Located ρ Symbol)}
    (h : NoStray (top :: operators)) : NoStray operators :=
  fun x hx => h x (List.mem_cons_of_mem top hx)

theorem noStray_cons {top : Located ρ Symbol} {operators : List (Located ρ Symbol)}
    (htop : top.item ≠ .paren .right) (h : NoStray operators) : NoStray (top :: operators) := by
  intro x hx
  rcases List.mem_cons.1 hx with rfl | hx
  · exact htop
  · exact h x hx

/-! ## Receiving a symbol -/

/-- A closing parenthesis that waits is higher than any incoming symbol. -/
theorem Symbol.precedence_right (incoming : Symbol) :
    (Symbol.paren .right).precedence incoming = .higher := by
  rcases incoming with op | _ | _ <;> rfl

/-- No opening parenthesis is higher than an incoming symbol. -/
theorem Symbol.ne_left_of_precedence_eq_higher {top incoming : Symbol}
    (h : top.precedence incoming = .higher) : top ≠ .paren .left := by
  rintro rfl
  rcases incoming with op | _ | _ <;> cases h

namespace Stacks

/-- An opening parenthesis goes on top of everything but a closing one. -/
theorem receive_open {operators : List (Located ρ Symbol)}
    (h : ∀ top ∈ operators.head?, top.item ≠ .paren .right) (position : ρ) :
    (receiveCode ⟨.paren .left, position⟩ operators : List (Instruction α ρ)) = [] ∧
      receiveOperators ⟨.paren .left, position⟩ operators =
        ⟨.paren .left, position⟩ :: operators := by
  rcases operators with _ | ⟨⟨op | _ | _, place⟩, rest⟩
  · exact ⟨rfl, rfl⟩
  · exact ⟨rfl, rfl⟩
  · exact ⟨rfl, rfl⟩
  · exact absurd rfl (h _ rfl)

/-- An incoming symbol reduces operators only, unless a stray parenthesis
waits. -/
theorem plain_receiveCode {operators : List (Located ρ Symbol)} (hstray : NoStray operators)
    (incoming : Located ρ Symbol) :
    ∀ i ∈ (receiveCode incoming operators : List (Instruction α ρ)), i.Plain := by
  induction operators with
  | nil => exact List.forall_mem_nil _
  | cons top rest ih =>
    rw [receiveCode]
    split
    · rename_i hhigher
      refine List.forall_mem_cons.2 ⟨?_, ih hstray.tail⟩
      rcases top with ⟨op | _ | _, place⟩
      · exact ⟨op, rfl⟩
      · exact absurd rfl (Symbol.ne_left_of_precedence_eq_higher hhigher)
      · exact absurd rfl (hstray _ List.mem_cons_self)
    · exact List.forall_mem_singleton.2 trivial
    · exact List.forall_mem_nil _

/-- Receiving a symbol keeps the waiting symbols layered. -/
theorem layered_receive (incoming : Located ρ Symbol) {operators : List (Located ρ Symbol)}
    (h : Layered operators) : Layered (receiveOperators incoming operators) := by
  induction operators with
  | nil => exact .singleton incoming
  | cons top rest ih =>
    rw [receiveOperators]
    split
    · exact ih h.tail
    · exact h.tail
    · rename_i hlower
      exact .cons_cons hlower h

/-- The opening parentheses that wait are counted as the nesting of the
tokens counts them. -/
theorem receive_nest {s : Symbol} {operators : List (Located ρ Symbol)} {depth : Nat}
    (hstray : NoStray operators)
    (hnest : (Token.symbol s : Token τ).nest (openCount operators) = some depth)
    (position : ρ) :
    NoStray (receiveOperators ⟨s, position⟩ operators) ∧
      openCount (receiveOperators ⟨s, position⟩ operators) = depth := by
  induction operators with
  | nil =>
    rcases s with next | side
    · cases hnest
      exact ⟨noStray_cons (by simp) (by simp [NoStray]), rfl⟩
    · cases side with
      | left =>
        cases hnest
        exact ⟨noStray_cons (by simp) (by simp [NoStray]), rfl⟩
      | right => cases hnest
  | cons top rest ih =>
    have hpush : s ≠ .paren .right → NoStray (⟨s, position⟩ :: top :: rest) ∧
        openCount (⟨s, position⟩ :: top :: rest) = depth := by
      intro hs
      refine ⟨noStray_cons hs hstray, ?_⟩
      rcases s with next | side
      · rw [openCount_cons_of_ne (by simp)]
        exact Option.some.inj hnest
      · cases side with
        | left =>
          rw [openCount_cons_left]
          exact Option.some.inj hnest
        | right => exact absurd rfl hs
    rcases top with ⟨op | side, place⟩
    · rw [openCount_cons_of_ne (by simp)] at hnest
      rw [receiveOperators]
      split
      · exact ih hstray.tail hnest
      · rename_i hequal
        cases (Symbol.precedence_eq_equal_iff.1 hequal).1
      · rename_i hlower
        refine hpush ?_
        rintro rfl
        cases hlower
    · cases side with
      | left =>
        by_cases hs : s = .paren .right
        · subst hs
          rw [openCount_cons_left] at hnest
          exact ⟨hstray.tail, Option.some.inj hnest⟩
        · have hlower : (Symbol.paren .left).precedence s = .lower := by
            rcases s with next | _ | _
            · rfl
            · rfl
            · exact absurd rfl hs
          rw [receiveOperators]
          simp only [hlower]
          exact hpush hs
      | right => exact absurd rfl (hstray _ List.mem_cons_self)

end Stacks

/-! ## Going on -/

namespace Control

section Code

variable [Arithmetic α]

theorem plain_signCode (c : Control ρ) (s : Symbol) :
    ∀ i ∈ (c.signCode s : List (Instruction α ρ)), i.Plain := by
  unfold signCode
  split
  · exact List.forall_mem_singleton.2 trivial
  · exact List.forall_mem_nil _

/-- A token that has been read makes control do what is plain, unless a stray
parenthesis waits. -/
theorem plain_code (c : Control ρ) {token : Located ρ (Token (Reading α))}
    (hstray : NoStray c.operators) (hread : ∀ text, token.item ≠ .literal (.error text)) :
    ∀ i ∈ c.code token, i.Plain := by
  rcases token with ⟨(text | value) | s, position⟩
  · exact absurd rfl (hread text)
  · exact List.forall_mem_singleton.2 trivial
  · exact List.forall_mem_append.2 ⟨c.plain_signCode s, Stacks.plain_receiveCode hstray _⟩

end Code

/-- A token keeps the symbols layered. -/
theorem layered_next (c : Control ρ) (token : Located ρ (Token τ))
    (h : Layered c.operators) : Layered (c.next token).operators := by
  rcases token with ⟨content | s, position⟩
  · exact h
  · exact Stacks.layered_receive _ h

/-- A token keeps closing parentheses away and the opening ones counted, if it
has a depth itself. -/
theorem nest_next (c : Control ρ) {token : Located ρ (Token τ)} {depth : Nat}
    (hstray : NoStray c.operators)
    (hnest : token.item.nest (openCount c.operators) = some depth) :
    NoStray (c.next token).operators ∧ openCount (c.next token).operators = depth := by
  rcases token with ⟨content | s, position⟩
  · exact ⟨hstray, Option.some.inj hnest⟩
  · exact Stacks.receive_nest hstray hnest position

theorem operandStart_next (c : Control ρ) (token : Located ρ (Token τ)) :
    (c.next token).operandStart = token.item.opensGroup := by
  rcases token with ⟨content | op | _ | _, position⟩ <;> rfl

end Control

/-- After a token that is scanned without a fault, an operand may start if the
token opened a group. -/
theorem Scan.operandStart_of_step [Arithmetic α] {scan next : Scan α ρ}
    {token : Located ρ (Token (Reading α))} (h : (scan.step token).outcome = .ok next) :
    next.operandStart = token.item.opensGroup := by
  have hnext := congrArg Control.operandStart (outcome_step_eq_ok h).2
  rwa [Control.operandStart_next] at hnext

end InfixArith
