import InfixArith.Token

/-!
# Nesting of parentheses

`Token.nesting` counts the open parentheses along a list of tokens.  There is
no count after a closing parenthesis that has no partner.  A list is
`Balanced` if the count starts at zero and ends at zero.
-/

namespace InfixArith.Token

variable {τ : Type}

/-- Whether a token is an opening parenthesis. -/
def opensGroup : Token τ → Bool
  | .symbol (.paren .left) => true
  | .symbol (.paren .right) | .symbol (.binary _) | .literal _ => false

/-- The number of open parentheses after a token. -/
def nest (depth : Nat) : Token τ → Option Nat
  | .symbol (.paren .left) => some (depth + 1)
  | .symbol (.paren .right) => if depth = 0 then none else some (depth - 1)
  | .symbol (.binary _) | .literal _ => some depth

/-- The number of open parentheses after some tokens. -/
def nesting (depth : Nat) (ts : List (Token τ)) : Option Nat :=
  ts.foldlM nest depth

/-- Every parenthesis has a partner. -/
def Balanced (ts : List (Token τ)) : Prop :=
  nesting 0 ts = some 0

instance (ts : List (Token τ)) : Decidable (Balanced ts) :=
  inferInstanceAs (Decidable (nesting 0 ts = some 0))

@[simp]
theorem nesting_nil (depth : Nat) : nesting depth ([] : List (Token τ)) = some depth :=
  rfl

theorem nesting_cons (depth : Nat) (t : Token τ) (ts : List (Token τ)) :
    nesting depth (t :: ts) = (t.nest depth).bind fun depth => nesting depth ts :=
  List.foldlM_cons

/-- What the literals hold does not count. -/
theorem nesting_map {υ : Type} (f : τ → υ) (depth : Nat) (ts : List (Token τ)) :
    nesting depth (ts.map (Token.map f)) = nesting depth ts := by
  have hnest : ∀ (depth : Nat) (t : Token τ), (t.map f).nest depth = t.nest depth := by
    intro depth t
    rcases t with content | op | _ | _ <;> rfl
  rw [nesting, nesting, List.foldlM_map]
  exact congrArg (fun step => ts.foldlM step depth) (funext fun d => funext fun t => hnest d t)

end InfixArith.Token
