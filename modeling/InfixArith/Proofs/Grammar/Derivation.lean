import InfixArith.Proofs.Grammar
import InfixArith.Proofs.Places

/-!
# Finding a derivation

If operands and operators take turns, parentheses have partners and literals
are decimals, then a list of tokens has a derivation.  `WellPlaced` says that
much about a list, and `exists_tokens_eq` finds the derivation.

The search goes over the tokens from left to right, and it is in one of two
states.  Where an operand is due, it finds a literal or a group
(`atOperand_of`).  After an operand, it finds an operator, or the end of the
group (`afterOperand_of`).  A derivation grows at its left end on the way
back: `exists_chain_cons` puts one operand and one operator in front.
-/

namespace InfixArith

namespace Grammar

open Token

/-! ## Chains -/

/-- A base and an operator in front of a chain of terms are such a chain. -/
theorem exists_chain_cons (base : Base) (op : BinaryOp) (first : Term) (rest : Terms) :
    ∃ (first' : Term) (rest' : Terms),
      first'.tokens ++ rest'.tokens =
        base.tokens ++ .symbol (.binary op) :: (first.tokens ++ rest.tokens) := by
  obtain ⟨power, powers⟩ := first
  cases op with
  | add =>
    refine ⟨.mk (.base base) .nil, .cons ⟨.add, .inl rfl⟩ (.mk power powers) rest, ?_⟩
    simp [Terms.tokens, Term.tokens, Powers.tokens, Power.tokens]
  | sub =>
    refine ⟨.mk (.base base) .nil, .cons ⟨.sub, .inr rfl⟩ (.mk power powers) rest, ?_⟩
    simp [Terms.tokens, Term.tokens, Powers.tokens, Power.tokens]
  | mul =>
    refine ⟨.mk (.base base) (.cons ⟨.mul, .inl rfl⟩ power powers), rest, ?_⟩
    simp [Term.tokens, Powers.tokens, Power.tokens]
  | div =>
    refine ⟨.mk (.base base) (.cons ⟨.div, .inr rfl⟩ power powers), rest, ?_⟩
    simp [Term.tokens, Powers.tokens, Power.tokens]
  | pow =>
    refine ⟨.mk (.pow base power) powers, rest, ?_⟩
    simp [Term.tokens, Power.tokens]

/-! ## Well-placed tokens -/

/-- Tokens after the token `before`, with `depth` groups open: no place is a
junction or vacant, the groups are closed, and the literals are decimals. -/
structure WellPlaced (before : Option (Token (List Char))) (depth : Nat)
    (ts : List (Token (List Char))) : Prop where
  places : ∀ p ∈ placesAfter before ts, p.isJunction = false ∧ p.isVacant = false
  nested : nesting depth ts = some 0
  decimal : AllDecimal ts

variable {before : Option (Token (List Char))} {depth : Nat} {t : Token (List Char)}
  {ts : List (Token (List Char))}

theorem WellPlaced.head (h : WellPlaced before depth (t :: ts)) :
    (Place.mk before (some t)).isJunction = false ∧
      (Place.mk before (some t)).isVacant = false ∧ t.isDecimal = true := by
  obtain ⟨hjunction, hvacant⟩ := h.places _ List.mem_cons_self
  exact ⟨hjunction, hvacant, h.decimal t List.mem_cons_self⟩

theorem WellPlaced.tail (h : WellPlaced before depth (t :: ts)) :
    ∃ deeper, t.nest depth = some deeper ∧ WellPlaced (some t) deeper ts := by
  have hnested := h.nested
  rw [nesting_cons] at hnested
  obtain ⟨deeper, htoken, hrest⟩ := Option.bind_eq_some_iff.1 hnested
  refine ⟨deeper, htoken, ?_, hrest, ?_⟩
  · exact fun p hp => h.places p (List.mem_cons_of_mem _ hp)
  · exact fun u hu => h.decimal u (List.mem_cons_of_mem _ hu)

/-- What stands after the phrases of a group: nothing, if no group is open,
and otherwise the closing parenthesis and well-placed tokens. -/
def Closes : (depth : Nat) → List (Token (List Char)) → Prop
  | 0, later => later = []
  | depth + 1, later =>
    ∃ ts, later = .symbol Paren.right :: ts ∧
      WellPlaced (some (.symbol Paren.right)) depth ts

/-- The tokens start with a chain of terms that fills the rest of the group. -/
def StartsWithChain (depth : Nat) (ts : List (Token (List Char))) : Prop :=
  ∃ (first : Term) (rest : Terms) (later : List (Token (List Char))),
    ts = first.tokens ++ rest.tokens ++ later ∧ Closes depth later

/-! ## The two states -/

/-- After an operand, the operand starts a chain. -/
def AfterOperand (ts : List (Token (List Char))) : Prop :=
  ∀ (base : Base) (before : Token (List Char)) (depth : Nat),
    before.endsOperand = true → WellPlaced (some before) depth ts →
      StartsWithChain depth (base.tokens ++ ts)

/-- Where an operand is due and no sign is, a chain starts. -/
def AtOperand (ts : List (Token (List Char))) : Prop :=
  ∀ (before : Option (Token (List Char))) (depth : Nat),
    before.any endsOperand = false →
    (∀ t ∈ ts.head?, (Place.mk before (some t)).isSigned = false) →
    WellPlaced before depth ts → StartsWithChain depth ts

theorem startsWithChain_of_closes (base : Base) {later : List (Token (List Char))}
    (h : Closes depth later) : StartsWithChain depth (base.tokens ++ later) := by
  refine ⟨.mk (.base base) .nil, .nil, later, ?_, h⟩
  simp [Term.tokens, Terms.tokens, Powers.tokens, Power.tokens]

theorem afterOperand_of
    (ih : ∀ us : List (Token (List Char)), us.length < ts.length → AtOperand us) :
    AfterOperand ts := by
  intro base before depth hends hplaced
  cases ts with
  | nil =>
    have hdepth : depth = 0 := Option.some.inj hplaced.nested
    subst hdepth
    exact startsWithChain_of_closes base rfl
  | cons t ts =>
    obtain ⟨hjunction, -, -⟩ := hplaced.head
    obtain ⟨deeper, hnest, htail⟩ := hplaced.tail
    have hstarts : t.startsOperand = false := by
      simpa [Place.isJunction, hends] using hjunction
    rcases t with content | op | _ | _
    · cases hstarts
    · cases hnest
      obtain ⟨first, rest, later, hts, hcloses⟩ :=
        ih ts (Nat.lt_succ_self _) _ depth rfl (fun _ _ => rfl) htail
      obtain ⟨first', rest', hchain⟩ := exists_chain_cons base op first rest
      refine ⟨first', rest', later, ?_, hcloses⟩
      rw [hchain, hts]
      simp
    · cases hstarts
    · rw [Token.nest] at hnest
      split at hnest
      · cases hnest
      · rename_i hdepth
        obtain ⟨inner, rfl⟩ : ∃ inner, depth = inner + 1 := ⟨depth - 1, by omega⟩
        cases hnest
        exact startsWithChain_of_closes base ⟨ts, rfl, htail⟩

/-- Where a group starts, an expression fills it. -/
theorem exists_expr_of
    (ih : ∀ us : List (Token (List Char)), us.length ≤ ts.length → AtOperand us)
    (hopens : before.all opensGroup = true) (hplaced : WellPlaced before depth ts) :
    ∃ (e : Expr) (later : List (Token (List Char))),
      ts = e.tokens ++ later ∧ Closes depth later := by
  have hends : before.any endsOperand = false := by
    rcases before with _ | (content | op | _ | _)
    · rfl
    · cases hopens
    · cases hopens
    · rfl
    · cases hopens
  -- After a sign an operand is due, and no second sign can come there.
  by_cases hsigned : ∃ t ∈ ts.head?, (Place.mk before (some t)).isSigned = true
  · obtain ⟨t, ht, hsign⟩ := hsigned
    rcases ts with _ | ⟨_, ts⟩
    · cases ht
    cases ht
    obtain ⟨op, rfl⟩ : ∃ op : AddOp, t = .symbol op.1 := by
      rw [Place.isSigned, hopens] at hsign
      rcases t with content | op | side
      · cases hsign
      · cases op with
        | add => exact ⟨⟨.add, .inl rfl⟩, rfl⟩
        | sub => exact ⟨⟨.sub, .inr rfl⟩, rfl⟩
        | mul => cases hsign
        | div => cases hsign
        | pow => cases hsign
      · cases hsign
    obtain ⟨deeper, hnest, htail⟩ := hplaced.tail
    cases hnest
    obtain ⟨first, rest, later, hts, hcloses⟩ :=
      ih ts (Nat.le_succ _) _ depth rfl (fun _ _ => rfl) htail
    refine ⟨.mk (some op) first rest, later, ?_, hcloses⟩
    rw [hts]
    simp [Expr.tokens, signTokens]
  · have hnone : ∀ t ∈ ts.head?, (Place.mk before (some t)).isSigned = false := by
      intro t ht
      cases hsign : (Place.mk before (some t)).isSigned with
      | false => rfl
      | true => exact absurd ⟨t, ht, hsign⟩ hsigned
    obtain ⟨first, rest, later, hts, hcloses⟩ :=
      ih ts (Nat.le_refl _) before depth hends hnone hplaced
    refine ⟨.mk none first rest, later, ?_, hcloses⟩
    rw [hts]
    simp [Expr.tokens, signTokens]

theorem atOperand_of
    (ih : ∀ us : List (Token (List Char)), us.length < ts.length →
      AfterOperand us ∧ AtOperand us) :
    AtOperand ts := by
  intro before depth hends hunsigned hplaced
  cases ts with
  | nil =>
    have hvacant := (hplaced.places _ List.mem_cons_self).2
    simp [Place.isVacant, Place.isSigned, hends] at hvacant
  | cons t ts =>
    obtain ⟨-, hvacant, hdecimal⟩ := hplaced.head
    obtain ⟨deeper, hnest, htail⟩ := hplaced.tail
    have hstarts : t.startsOperand = true := by
      simpa [Place.isVacant, hends, hunsigned t rfl] using hvacant
    rcases t with cs | op | _ | _
    · cases hnest
      obtain ⟨d, hd⟩ := Literal.isDecimal_ofList_iff.1 hdecimal
      exact (ih ts (Nat.lt_succ_self _)).1 (.literal ⟨cs, d, hd⟩) _ depth rfl htail
    · cases hstarts
    · cases hnest
      obtain ⟨e, later, hts, us, hlater, hus⟩ :=
        exists_expr_of (fun us hlength => (ih us (Nat.lt_succ_of_le hlength)).2) rfl htail
      have hshorter : us.length < (Token.symbol (Symbol.paren .left) :: ts).length := by
        rw [hts, hlater]
        simp only [List.length_cons, List.length_append]
        omega
      have hchain := (ih us hshorter).1 (.group e) _ depth rfl hus
      rw [hts, hlater]
      simpa [Base.tokens] using hchain
    · cases hstarts

theorem afterOperand_and_atOperand (ts : List (Token (List Char))) :
    AfterOperand ts ∧ AtOperand ts := by
  -- On the number of tokens, because after a group the search goes on behind
  -- its closing parenthesis, any number of tokens further on.
  induction hlength : ts.length using Nat.strongRecOn generalizing ts with
  | ind n ih =>
    have hshorter : ∀ us : List (Token (List Char)), us.length < ts.length →
        AfterOperand us ∧ AtOperand us :=
      fun us hus => ih us.length (hlength ▸ hus) us rfl
    exact ⟨afterOperand_of fun us hus => (hshorter us hus).2, atOperand_of hshorter⟩

/-- Well-placed tokens have a derivation. -/
theorem exists_tokens_eq (h : WellPlaced none 0 ts) : ∃ e : Expr, e.tokens = ts := by
  obtain ⟨e, later, hts, hlater⟩ :=
    exists_expr_of (fun us _ => (afterOperand_and_atOperand us).2) rfl h
  cases hlater
  exact ⟨e, by rw [hts, List.append_nil]⟩

end Grammar

/-! ## Expressions -/

/-- Without juxtaposed operands, a run that gets to its end fills every place
and leaves one value. -/
theorem filled_of_leftOver {expression : String} {count : Nat}
    (hjuxtaposed : ¬Token.Juxtaposed (Token.lex expression.toList))
    (h : leftOver (evaluate expression) = some count) (hpos : 0 < count) :
    count = 1 ∧ Token.junctionCount (Token.lex expression.toList) = 0 ∧
      Token.vacantCount (Token.lex expression.toList) = 0 := by
  have hplaces := leftOver_add_vacant h
  have hnone : ¬0 < Token.junctionCount (Token.lex expression.toList) := by
    rw [← Token.juxtaposed_iff (Token.separated_lex expression.toList)]
    exact hjuxtaposed
  omega

/-- If no operands are juxtaposed, then operands never dangle, and a text
that evaluates has a derivation.  So every place is filled, every parenthesis
has a partner and every literal is a decimal. -/
theorem derivable_of_evaluate (expression : String)
    (hjuxtaposed : ¬Token.Juxtaposed (Token.lex expression.toList)) :
    (∀ count, evaluate expression ≠ .error (.danglingOperands count)) ∧
      ∀ value, evaluate expression = .ok value →
        (∃ e : Grammar.Expr, e.text = expression) ∧
          Token.vacantCount (Token.lex expression.toList) = 0 ∧
          Token.Balanced (Token.lex expression.toList) ∧
          Token.AllDecimal (Token.lex expression.toList) := by
  constructor
  · intro count hdangling
    have hcount : 2 ≤ count := two_le_of_evaluate_eq_dangling hdangling
    have hleft : leftOver (evaluate expression) = some count := by
      rw [hdangling]
      rfl
    obtain ⟨hone, -, -⟩ := filled_of_leftOver hjuxtaposed hleft (by omega)
    omega
  · intro value hvalue
    have hleft : leftOver (evaluate expression) = some 1 := by
      rw [hvalue]
      rfl
    obtain ⟨-, hjunction, hvacant⟩ := filled_of_leftOver hjuxtaposed hleft Nat.one_pos
    obtain ⟨hbalanced, hdecimal, -⟩ := accounts_of_leftOver_evaluate hleft
    have hplaced : Grammar.WellPlaced none 0 (Token.lex expression.toList) := by
      refine ⟨?_, hbalanced, hdecimal⟩
      intro p hp
      have hno := List.countP_eq_zero.1 hjunction p hp
      have hfull := List.countP_eq_zero.1 hvacant p hp
      simp only [Bool.not_eq_true] at hno hfull
      exact ⟨hno, hfull⟩
    obtain ⟨e, he⟩ := Grammar.exists_tokens_eq hplaced
    refine ⟨⟨e, ?_⟩, hvacant, hbalanced, hdecimal⟩
    rw [Grammar.Expr.text, he, Token.flatMap_chars_lex, String.ofList_toList]

theorem derivable_signed_power :
    ¬Token.Juxtaposed (Token.lex "-(2+3)*4^.5".toList) ∧
      ∃ e : Grammar.Expr, e.text = "-(2+3)*4^.5" := by
  have hjuxtaposed : ¬Token.Juxtaposed (Token.lex "-(2+3)*4^.5".toList) := by decide +kernel
  have hvalid : isValid "-(2+3)*4^.5" = true := by decide +kernel
  refine ⟨hjuxtaposed, ?_⟩
  cases hvalue : evaluate "-(2+3)*4^.5" with
  | ok value => exact ((derivable_of_evaluate _ hjuxtaposed).2 value hvalue).1
  | error fault =>
    rw [isValid, hvalue] at hvalid
    cases hvalid

end InfixArith
