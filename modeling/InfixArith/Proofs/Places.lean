import InfixArith.Proofs.Accounting

/-!
# Places between tokens

A list of tokens has a place in front of each token and one at its end.  An
operand may end in front of a place, and an operand may start after it.  If
both happen then the place is a junction: two operands meet there.  If
neither happens then the place is vacant, unless the zero of a sign fills it.

A place where exactly one of the two happens is as it should be.  The
evaluator does not look at places at all.  It counts what is left at the end,
and `leftOver_add_vacant` says what that count knows about places: the number
of junctions, minus the number of vacant places.
-/

namespace InfixArith

variable {τ : Type}

namespace Token

/-- Whether an operand ends with this token. -/
def endsOperand : Token τ → Bool
  | .literal _ | .symbol (.paren .right) => true
  | .symbol (.paren .left) | .symbol (.binary _) => false

/-- Whether an operand starts with this token. -/
def startsOperand : Token τ → Bool
  | .literal _ | .symbol (.paren .left) => true
  | .symbol (.paren .right) | .symbol (.binary _) => false

/-- Whether an operand ends and the next one starts, with these two tokens. -/
def touches : Token τ → Token τ → Bool
  | .literal _, .symbol (.paren .left)
  | .symbol (.paren .right), .symbol (.paren .left)
  | .symbol (.paren .right), .literal _ => true
  | _, _ => false

/-- Somewhere two operands meet with no operator between them. -/
def Juxtaposed (ts : List (Token τ)) : Prop :=
  ∃ pair ∈ ts.zip ts.tail, pair.1.touches pair.2 = true

instance (ts : List (Token τ)) : Decidable (Juxtaposed ts) :=
  inferInstanceAs (Decidable (∃ pair ∈ ts.zip ts.tail, pair.1.touches pair.2 = true))

theorem touches_eq {t u : Token τ} (h : ¬(t.isLiteral = true ∧ u.isLiteral = true)) :
    t.touches u = (t.endsOperand && u.startsOperand) := by
  rcases t with content | op | _ | _ <;> rcases u with other | next | _ | _ <;>
    first
    | rfl
    | exact absurd ⟨rfl, rfl⟩ h

end Token

/-! ## Places -/

/-- A place with its two neighbours.  One of them is missing at each end. -/
structure Place (τ : Type) where
  before : Option (Token τ)
  after : Option (Token τ)

namespace Place

/-- Two operands meet at this place. -/
def isJunction (p : Place τ) : Bool :=
  p.before.any Token.endsOperand && p.after.any Token.startsOperand

/-- The zero of a sign is at this place. -/
def isSigned (p : Place τ) : Bool :=
  p.before.all Token.opensGroup && p.after.any Token.isSign

/-- An operand is missing at this place. -/
def isVacant (p : Place τ) : Bool :=
  !p.before.any Token.endsOperand && !p.after.any Token.startsOperand && !p.isSigned

end Place

namespace Token

/-- The places of some tokens that come after the token `before`. -/
def placesAfter (before : Option (Token τ)) : List (Token τ) → List (Place τ)
  | [] => [⟨before, none⟩]
  | t :: ts => ⟨before, some t⟩ :: placesAfter (some t) ts

/-- The number of places where two operands meet. -/
def junctionCount (ts : List (Token τ)) : Nat :=
  (placesAfter none ts).countP Place.isJunction

/-- The number of places where an operand is missing. -/
def vacantCount (ts : List (Token τ)) : Nat :=
  (placesAfter none ts).countP Place.isVacant

/-! ## Counting places -/

/-- What one place adds on both sides of `countP_places`. -/
theorem countP_place (before : Option (Token τ)) (t : Token τ) :
    (Place.isJunction ⟨before, some t⟩).toNat + t.isBinary.toNat + t.endsOperand.toNat =
      (Place.isVacant ⟨before, some t⟩).toNat + t.isLiteral.toNat +
        (before.all opensGroup && t.isSign).toNat + (before.any endsOperand).toNat := by
  rcases before with _ | (content | op | _ | _) <;>
    rcases t with other | next | _ | _ <;>
      first
      | rfl
      | cases next <;> rfl

/-- Junctions and operators are as many as vacant places, literals and signs
are, up to the one operand that has to be left. -/
theorem countP_places (before : Option (Token τ)) (ts : List (Token τ)) :
    (placesAfter before ts).countP Place.isJunction + ts.countP isBinary + 1 =
      (placesAfter before ts).countP Place.isVacant + ts.countP isLiteral +
        signCount (before.all opensGroup) ts + (before.any endsOperand).toNat := by
  induction ts generalizing before with
  | nil => rcases before with _ | (content | op | _ | _) <;> rfl
  | cons t ts ih =>
    -- Whether an operand ends with `t` is what the rest has to carry on with.
    have hplace := countP_place before t
    have hrest := ih (some t)
    rw [placesAfter, signCount, countP_cons_toNat, countP_cons_toNat, countP_cons_toNat,
      countP_cons_toNat]
    simp only [Option.all_some, Option.any_some] at hrest
    omega

/-- The same as a count of what is left over. -/
theorem add_vacantCount {ts : List (Token τ)} {count : Nat}
    (h : count + ts.countP isBinary = ts.countP isLiteral + signCount true ts) :
    count + vacantCount ts = junctionCount ts + 1 := by
  have hplaces := countP_places none ts
  simp only [Option.all_none, Option.any_none, Bool.toNat_false] at hplaces
  unfold vacantCount junctionCount
  omega

/-- Between separated tokens, operands meet where tokens touch. -/
theorem exists_junction_iff {t : Token (List Char)} {ts : List (Token (List Char))}
    (h : Separated (t :: ts)) :
    (∃ p ∈ placesAfter (some t) ts, p.isJunction = true) ↔ Juxtaposed (t :: ts) := by
  induction ts generalizing t with
  | nil => simp [placesAfter, Place.isJunction, Juxtaposed]
  | cons u ts ih =>
    have htouches := touches_eq (List.isChain_cons_cons.1 h.apart).1
    have hjuxtaposed : Juxtaposed (t :: u :: ts) ↔
        t.touches u = true ∨ Juxtaposed (u :: ts) :=
      List.exists_mem_cons_iff _ (t, u) ((u :: ts).zip ts)
    rw [hjuxtaposed, htouches, placesAfter, List.exists_mem_cons_iff, ih h.tail]
    rfl

theorem juxtaposed_iff {ts : List (Token (List Char))} (h : Separated ts) :
    Juxtaposed ts ↔ 0 < junctionCount ts := by
  rw [junctionCount, List.countP_pos_iff]
  cases ts with
  | nil => simp [placesAfter, Place.isJunction, Juxtaposed]
  | cons t ts =>
    rw [placesAfter, List.exists_mem_cons_iff, exists_junction_iff h]
    simp [Place.isJunction]

end Token

/-! ## What is left at the end -/

/-- A run that gets to its end leaves as many values as there are junctions
more than vacant places, and one besides. -/
theorem leftOver_add_vacant {expression : String} {count : Nat}
    (h : leftOver (evaluate expression) = some count) :
    count + Token.vacantCount (Token.lex expression.toList) =
      Token.junctionCount (Token.lex expression.toList) + 1 := by
  obtain ⟨-, -, hcount⟩ := accounts_of_leftOver_evaluate h
  exact Token.add_vacantCount hcount

end InfixArith
