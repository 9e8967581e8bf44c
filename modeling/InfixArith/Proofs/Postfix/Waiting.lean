import InfixArith.Proofs.Postfix

/-!
# Waiting operators

The postfix order looks ahead for the closing point of each operator.  This
module finds the same order from left to right.

A `Waiting` operator knows how many groups have been opened after it and are
still open.  `waitingOrder` keeps a list of such operators, the last one
first, and lets those go that the next token closes.  `waitingOrder_nil`
states that it starts out as the postfix order.
-/

namespace InfixArith

variable {α ρ τ : Type}

/-- An operator that has not been closed yet, and the number of open groups
between it and the next token. -/
structure Waiting (ρ : Type) where
  op : BinaryOp
  position : ρ
  depth : Nat

namespace Waiting

def item (x : Waiting ρ) : PostfixItem α ρ :=
  .operator x.op x.position

/-- Whether the next token closes a waiting operator. -/
def closedBy (x : Waiting ρ) (t : Token τ) : Bool :=
  x.depth = 0 && x.op.closedBy t

/-- A waiting operator after the next token. -/
def after (x : Waiting ρ) (t : Token τ) : Waiting ρ :=
  ⟨x.op, x.position, (t.nest x.depth).getD 0⟩

/-- A token that is an operator starts to wait. -/
def ofToken (token : Located ρ (Token τ)) : List (Waiting ρ) :=
  match token.item with
  | .symbol (.binary op) => [⟨op, token.position, 0⟩]
  | .symbol (.paren _) | .literal _ => []

/-- The operators that wait after a token. -/
def advance (waiting : List (Waiting ρ)) (token : Located ρ (Token τ)) : List (Waiting ρ) :=
  ofToken token ++ (waiting.filter fun x => !x.closedBy token.item).map (·.after token.item)

/-- The index of the token that closes a waiting operator. -/
def goesAt (x : Waiting ρ) : List (Token τ) → Nat
  | [] => 0
  | t :: ts => if x.closedBy t then 0 else (x.after t).goesAt ts + 1

end Waiting

/-- The postfix order of tokens that come after the waiting operators. -/
def waitingOrder [Arithmetic α] (groupStart : Bool) (waiting : List (Waiting ρ)) :
    List (Located ρ (Token (Reading α))) → List (PostfixItem α ρ)
  | [] => waiting.map Waiting.item
  | token :: tokens =>
    operandsOf groupStart token ++
      (waiting.filter (·.closedBy token.item)).map Waiting.item ++
      waitingOrder token.item.opensGroup (Waiting.advance waiting token) tokens

/-! ## Looking ahead -/

/-- Only a closing parenthesis takes a count away, and that one closes every
operator of its group. -/
theorem BinaryOp.closedBy_of_nest_eq_none {op : BinaryOp} {t : Token τ} {depth : Nat}
    (h : t.nest depth = none) : depth = 0 ∧ op.closedBy t = true := by
  rcases t with content | ⟨next | side⟩
  · cases h
  · cases h
  · cases side with
    | left => cases h
    | right =>
      rw [Token.nest] at h
      split at h
      · rename_i hdepth
        exact ⟨hdepth, rfl⟩
      · cases h

namespace Waiting

/-- Whether the token at index `k` is in the group of a waiting operator and
closes it. -/
def closesAt (x : Waiting ρ) (rest : List (Token τ)) (k : Nat) : Bool :=
  Token.nesting x.depth (rest.take k) = some 0 && rest[k]?.any x.op.closedBy

theorem closesAt_zero (x : Waiting ρ) (t : Token τ) (ts : List (Token τ)) :
    x.closesAt (t :: ts) 0 = x.closedBy t := by
  simp [closesAt, closedBy]

/-- An operator that the next token leaves waiting is closed by the tokens
after that one. -/
theorem closesAt_succ {x : Waiting ρ} {t : Token τ} (h : x.closedBy t = false)
    (ts : List (Token τ)) (k : Nat) :
    x.closesAt (t :: ts) (k + 1) = (x.after t).closesAt ts k := by
  have hnest : t.nest x.depth = some (x.after t).depth := by
    cases hn : t.nest x.depth with
    | none =>
      have hc : x.depth = 0 ∧ x.op.closedBy t = true := BinaryOp.closedBy_of_nest_eq_none hn
      simp [closedBy, hc] at h
    | some depth => simp [after, hn]
  rw [closesAt, List.take_succ_cons, Token.nesting_cons, hnest, List.getElem?_cons_succ]
  rfl

/-- Looking ahead finds the token at which a waiting operator goes. -/
theorem goesAt_eq_find (x : Waiting ρ) (rest : List (Token τ)) :
    x.goesAt rest = ((List.range rest.length).find? (x.closesAt rest)).getD rest.length := by
  induction rest generalizing x with
  | nil => rfl
  | cons t ts ih =>
    rw [List.length_cons, List.range_succ_eq_map, List.find?_cons, closesAt_zero, goesAt]
    cases hclosed : x.closedBy t with
    | true => rfl
    | false =>
      have hshift : x.closesAt (t :: ts) ∘ Nat.succ = (x.after t).closesAt ts := by
        funext k
        exact closesAt_succ hclosed ts k
      rw [List.find?_map, hshift, if_neg (by decide), ih]
      cases (List.range ts.length).find? ((x.after t).closesAt ts) <;> rfl

/-- An operator that starts to wait goes at its closing point. -/
theorem goesAt_start (op : BinaryOp) (position : ρ) (rest : List (Token τ)) :
    (⟨op, position, 0⟩ : Waiting ρ).goesAt rest = closingPoint op rest :=
  goesAt_eq_find _ rest

end Waiting

/-! ## Both orders are one -/

theorem closedOperator_succ (token : Located ρ (Token τ))
    (tokens : List (Located ρ (Token τ))) (k i : Nat) :
    (closedOperator (token :: tokens) (k + 1) (i + 1) : Option (PostfixItem α ρ)) =
      closedOperator tokens k i := by
  have hindex : ∀ n : Nat, i + 1 + 1 + n = k + 1 ↔ i + 1 + n = k := by
    intro n
    omega
  simp only [closedOperator, List.getElem?_cons_succ, List.drop_succ_cons, hindex]

theorem closedOperator_zero (token : Located ρ (Token τ))
    (tokens : List (Located ρ (Token τ))) (k : Nat) :
    (closedOperator (token :: tokens) (k + 1) 0 : Option (PostfixItem α ρ)).toList =
      ((Waiting.ofToken token).filter
        fun x => x.goesAt (tokens.map Located.item) = k).map Waiting.item := by
  obtain ⟨content | ⟨op | side⟩, position⟩ := token
  · rfl
  · have hindex : 0 + 1 + closingPoint op (tokens.map Located.item) = k + 1 ↔
        closingPoint op (tokens.map Located.item) = k := by omega
    simp only [closedOperator, List.getElem?_cons_zero, List.drop_succ_cons, List.drop_zero,
      hindex, Waiting.ofToken, List.filter_cons, Waiting.goesAt_start, decide_eq_true_eq,
      List.filter_nil]
    split <;> rfl
  · rfl

/-- The operator at the start of the tokens is the last of those that are
closed at one point. -/
theorem closedAt_cons (token : Located ρ (Token τ)) (tokens : List (Located ρ (Token τ)))
    (k : Nat) :
    (closedAt (token :: tokens) (k + 1) : List (PostfixItem α ρ)) =
      closedAt tokens k ++
        ((Waiting.ofToken token).filter
          fun x => x.goesAt (tokens.map Located.item) = k).map Waiting.item := by
  have hshift : (closedOperator (token :: tokens) (k + 1) ∘ Nat.succ :
      Nat → Option (PostfixItem α ρ)) = closedOperator tokens k := by
    funext i
    exact closedOperator_succ token tokens k i
  have hfirst : [0].filterMap (closedOperator (token :: tokens) (k + 1)) =
      (closedOperator (token :: tokens) (k + 1) 0 : Option (PostfixItem α ρ)).toList := by
    cases h : (closedOperator (token :: tokens) (k + 1) 0 : Option (PostfixItem α ρ)) <;>
      simp [h]
  rw [closedAt, List.range_succ_eq_map, List.reverse_cons, ← List.map_reverse,
    List.filterMap_append, List.filterMap_map, hshift, hfirst, closedOperator_zero, closedAt]

/-- What waits after a token goes where it went before the token. -/
theorem filter_goesAt_advance (waiting : List (Waiting ρ)) (token : Located ρ (Token τ))
    (tokens : List (Token τ)) (k : Nat) :
    ((Waiting.advance waiting token).filter fun x => x.goesAt tokens = k).map Waiting.item =
      ((Waiting.ofToken token).filter fun x => x.goesAt tokens = k).map Waiting.item ++
        (waiting.filter fun x => x.goesAt (token.item :: tokens) = k + 1).map
          (Waiting.item : Waiting ρ → PostfixItem α ρ) := by
  rw [Waiting.advance, List.filter_append, List.map_append, List.filter_map, List.map_map,
    List.filter_filter]
  congr 2
  refine List.filter_congr ?_
  intro x hx
  rw [Waiting.goesAt]
  cases x.closedBy token.item <;> simp

variable [Arithmetic α]

theorem operandsAt_succ (atStart : Bool) (token : Located ρ (Token (Reading α)))
    (tokens : List (Located ρ (Token (Reading α)))) (k : Nat) :
    operandsAt atStart (token :: tokens) (k + 1) =
      operandsAt token.item.opensGroup tokens k := by
  cases k <;> rfl

/-- Going from left to right, the operators go where looking ahead says. -/
theorem waitingOrder_eq_flatMap (groupStart : Bool) (waiting : List (Waiting ρ))
    (tokens : List (Located ρ (Token (Reading α)))) :
    waitingOrder groupStart waiting tokens =
      (List.range (tokens.length + 1)).flatMap fun k =>
        operandsAt groupStart tokens k ++
          (closedAt tokens k ++
            (waiting.filter fun x => x.goesAt (tokens.map Located.item) = k).map
              Waiting.item) := by
  induction tokens generalizing groupStart waiting with
  | nil =>
    have hall : (waiting.filter fun x => x.goesAt ([] : List (Token (Reading α))) = 0) =
        waiting := List.filter_eq_self.2 fun x _ => by simp [Waiting.goesAt]
    simp [waitingOrder, closedAt, operandsAt, hall]
  | cons token tokens ih =>
    have hfirst : (waiting.filter fun x =>
        x.goesAt ((token :: tokens).map Located.item) = 0) =
          waiting.filter (·.closedBy token.item) := by
      refine List.filter_congr ?_
      intro x hx
      rw [List.map_cons, Waiting.goesAt]
      cases x.closedBy token.item <;> simp
    have hlater : ∀ k : Nat,
        operandsAt groupStart (token :: tokens) (k + 1) ++
          (closedAt (token :: tokens) (k + 1) ++
            (waiting.filter fun x =>
              x.goesAt ((token :: tokens).map Located.item) = k + 1).map Waiting.item) =
        operandsAt token.item.opensGroup tokens k ++
          (closedAt tokens k ++
            ((Waiting.advance waiting token).filter fun x =>
              x.goesAt (tokens.map Located.item) = k).map Waiting.item) := by
      intro k
      rw [closedAt_cons, operandsAt_succ, filter_goesAt_advance, List.map_cons]
      simp only [List.append_assoc]
    rw [List.length_cons, List.range_succ_eq_map, List.flatMap_cons, List.flatMap_map,
      waitingOrder, ih, hfirst]
    simp only [hlater]
    simp [closedAt, operandsAt, startsGroup]

/-- With nothing waiting, both orders are one. -/
theorem waitingOrder_nil (tokens : List (Located ρ (Token (Reading α)))) :
    waitingOrder true [] tokens = postfixOrder tokens := by
  rw [waitingOrder_eq_flatMap, postfixOrder]
  simp

end InfixArith
