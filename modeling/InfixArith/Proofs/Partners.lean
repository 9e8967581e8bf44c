import InfixArith.Proofs.Openings

/-!
# Partners

A closing parenthesis is the partner of the last parenthesis that is open before
it.  `partnersFrom` lists the pairs along the tokens, in the order of the closing
ones.  `Partners` says which two parentheses are a pair without going along the
tokens: the ones between them balance.

`mem_partners_iff` states that the list holds all pairs and nothing else, and
`isPairing_partners` adds the order.  `Control.paired_codes` says that an
evaluation pairs its parentheses in the same way, whatever symbols wait at first.
-/

namespace InfixArith

variable {α ρ τ : Type}

/-! ## Pairs of parentheses -/

/-- The pair that a token completes.  `opened` are the positions of the open
parentheses, the last one first. -/
def partner? (opened : List ρ) (token : Located ρ (Token τ)) : Option (ρ × ρ) :=
  match token.item with
  | .symbol (.paren .right) => opened.head?.map fun position => (position, token.position)
  | .symbol (.paren .left) | .symbol (.binary _) | .literal _ => none

/-- The pairs that some tokens complete. -/
def partnersFrom (opened : List ρ) : List (Located ρ (Token τ)) → List (ρ × ρ)
  | [] => []
  | token :: tokens =>
    (partner? opened token).toList ++ partnersFrom (stillOpen opened token) tokens

/-- The pairs of parentheses of some tokens. -/
def partners (tokens : List (Located ρ (Token τ))) : List (ρ × ρ) :=
  partnersFrom [] tokens

/-- Two parentheses with balanced tokens between them. -/
def Partners (tokens : List (Located ρ (Token τ))) (opened closed : ρ) : Prop :=
  ∃ before inner after,
    tokens = before ++ ⟨.symbol (.paren .left), opened⟩ ::
      (inner ++ ⟨.symbol (.paren .right), closed⟩ :: after) ∧
    Token.Balanced (inner.map Located.item)

/-- A list of all pairs, in the order of the closing parentheses. -/
structure IsPairing (tokens : List (Located Nat (Token τ))) (pairs : List (Nat × Nat)) :
    Prop where
  mem_iff : ∀ opened closed, (opened, closed) ∈ pairs ↔ Partners tokens opened closed
  increasing : (pairs.map Prod.snd).Pairwise (· < ·)

theorem partner?_eq_some_iff {opened : List ρ} {token : Located ρ (Token τ)} {first last : ρ} :
    partner? opened token = some (first, last) ↔
      token = ⟨.symbol (.paren .right), last⟩ ∧ opened.head? = some first := by
  rcases token with ⟨content | op | _ | _, position⟩
  · simp [partner?]
  · simp [partner?]
  · simp [partner?]
  · simp [partner?, and_comm]

/-- A pair is completed by a closing parenthesis, with the last one that is open
there. -/
theorem mem_partnersFrom_iff {opened : List ρ} {tokens : List (Located ρ (Token τ))}
    {first last : ρ} :
    (first, last) ∈ partnersFrom opened tokens ↔
      ∃ front back, tokens = front ++ ⟨.symbol (.paren .right), last⟩ :: back ∧
        (front.foldl stillOpen opened).head? = some first := by
  induction tokens generalizing opened with
  | nil => simp [partnersFrom]
  | cons token tokens ih =>
    rw [partnersFrom, List.mem_append, Option.mem_toList, partner?_eq_some_iff, ih]
    constructor
    · rintro (⟨rfl, hfirst⟩ | ⟨front, back, rfl, hfirst⟩)
      · exact ⟨[], tokens, rfl, hfirst⟩
      · exact ⟨token :: front, back, rfl, hfirst⟩
    · rintro ⟨_ | ⟨head, front⟩, back, htokens, hfirst⟩
      · obtain ⟨rfl, rfl⟩ := List.cons.inj htokens
        exact .inl ⟨rfl, hfirst⟩
      · obtain ⟨rfl, rfl⟩ := List.cons.inj htokens
        exact .inr ⟨front, back, rfl, hfirst⟩

theorem mem_partners_iff {tokens : List (Located ρ (Token τ))} {opened closed : ρ} :
    (opened, closed) ∈ partners tokens ↔ Partners tokens opened closed := by
  rw [partners, mem_partnersFrom_iff]
  simp only [List.head?_eq_getElem?, getElem?_foldl_stillOpen]
  constructor
  · rintro ⟨front, back, rfl, before, inner, rfl, hinner⟩
    exact ⟨before, inner, back, by rw [List.append_assoc, List.cons_append], hinner⟩
  · rintro ⟨before, inner, after, rfl, hinner⟩
    exact ⟨before ++ ⟨.symbol (.paren .left), opened⟩ :: inner, after,
      by rw [List.append_assoc, List.cons_append], before, inner, rfl, hinner⟩

/-- The closing parentheses of the pairs are in the order of the tokens. -/
theorem partnersFrom_sublist (opened : List ρ) (tokens : List (Located ρ (Token τ))) :
    ((partnersFrom opened tokens).map Prod.snd).Sublist (tokens.map Located.position) := by
  induction tokens generalizing opened with
  | nil => exact List.Sublist.refl _
  | cons token tokens ih =>
    have hrest := ih (stillOpen opened token)
    rw [partnersFrom, List.map_append, List.map_cons]
    cases hpair : partner? opened token with
    | none => exact hrest.cons _
    | some pair =>
      obtain ⟨rfl, -⟩ := partner?_eq_some_iff.1 hpair
      exact hrest.cons_cons _

theorem isPairing_partners {tokens : List (Located Nat (Token τ))}
    (hpositions : (tokens.map Located.position).Pairwise (· < ·)) :
    IsPairing tokens (partners tokens) where
  mem_iff _ _ := mem_partners_iff
  increasing := hpositions.sublist (partnersFrom_sublist [] tokens)

/-! ## Pairs of an evaluation -/

/-- The positions of the parentheses that an instruction pairs. -/
def Instruction.paired? : Instruction α ρ → Option (ρ × ρ)
  | .pair opened closed => some (opened, closed)
  | .push _ | .reduce _ | .refuse .. => none

/-- An incoming symbol makes the pair that it completes. -/
theorem Stacks.paired_receiveCode (incoming : Located ρ Symbol)
    (operators : List (Located ρ Symbol)) :
    (receiveCode incoming operators : List (Instruction α ρ)).filterMap Instruction.paired? =
      (partner? (openings operators)
        ⟨(.symbol incoming.item : Token τ), incoming.position⟩).toList := by
  induction operators with
  | nil => rcases incoming with ⟨op | _ | _, position⟩ <;> rfl
  | cons top rest ih =>
    rw [receiveCode]
    split
    · rename_i hhigher
      rw [openings_cons_of_ne (Symbol.ne_left_of_precedence_eq_higher hhigher)]
      exact ih
    · rename_i hequal
      obtain ⟨htop, hincoming⟩ := Symbol.precedence_eq_equal_iff.1 hequal
      obtain ⟨item, place⟩ := top
      obtain rfl : item = .paren .left := htop
      rw [openings_cons_left, hincoming]
      rfl
    · rename_i hlower
      -- A closing parenthesis is stacked by no symbol.
      rcases incoming with ⟨op | _ | _, position⟩
      · rfl
      · rfl
      · rcases top with ⟨op | _ | _, place⟩ <;> cases hlower

namespace Control

variable [Arithmetic α]

theorem paired_code (c : Control ρ) (token : Located ρ (Token (Reading α))) :
    (c.code token).filterMap Instruction.paired? =
      (partner? (openings c.operators) token).toList := by
  rcases token with ⟨(text | value) | s, position⟩
  · rfl
  · rfl
  · have hsign : (c.signCode s : List (Instruction α ρ)).filterMap Instruction.paired? = [] := by
      unfold signCode
      split <;> rfl
    rw [code, List.filterMap_append, hsign]
    exact Stacks.paired_receiveCode ⟨s, position⟩ c.operators

/-- The pairs of an evaluation are those of its tokens, if the opening
parentheses that wait at first are taken as open. -/
theorem paired_codes (c : Control ρ) (tokens : List (Located ρ (Token (Reading α)))) :
    (c.codes tokens).filterMap Instruction.paired? =
      partnersFrom (openings c.operators) tokens := by
  induction tokens generalizing c with
  | nil => rfl
  | cons token tokens ih =>
    rw [codes, List.filterMap_append, paired_code, ih, openings_next, partnersFrom]

/-- The end of the tokens makes no pair. -/
theorem paired_schedule (c : Control ρ) (tokens : List (Located ρ (Token (Reading α)))) :
    (c.schedule tokens).filterMap Instruction.paired? =
      partnersFrom (openings c.operators) tokens := by
  have hdrain : ((c.after tokens).operators.map Instruction.reduce :
      List (Instruction α ρ)).filterMap Instruction.paired? = [] := by
    rw [List.filterMap_map]
    exact List.filterMap_eq_nil_iff.2 fun top _ => rfl
  rw [schedule_eq_codes, List.filterMap_append, paired_codes, hdrain, List.append_nil]

end Control

end InfixArith
