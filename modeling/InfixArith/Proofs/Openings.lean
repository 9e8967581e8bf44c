import InfixArith.Proofs.Layers

/-!
# Parentheses that are still open

An opening parenthesis has its partner among the tokens after it, if some
closing parenthesis comes there behind balanced tokens.  `HasPartner` says
so, and `Unclosed` says that an opening parenthesis has none yet.

`stillOpen` finds the same from left to right: it keeps the positions of the
parentheses that have no partner yet, the last one first.
`getElem?_foldl_stillOpen` says which parenthesis stands at which depth of
that list, and `mem_foldl_stillOpen_iff` that the list holds the unclosed
parentheses and nothing else.  `Control.openings_next` says that the opening
parentheses that wait in a scan are kept in the same way.
-/

namespace InfixArith

variable {ρ τ : Type}

/-! ## Nesting -/

namespace Token

theorem nesting_append (depth : Nat) (ts us : List (Token τ)) :
    nesting depth (ts ++ us) = (nesting depth ts).bind fun depth => nesting depth us :=
  List.foldlM_append

/-- One more token at the end is one more step of the nesting. -/
theorem nesting_concat (depth : Nat) (ts : List (Token τ)) (t : Token τ) :
    nesting depth (ts ++ [t]) = (nesting depth ts).bind fun depth => t.nest depth := by
  rw [nesting_append]
  refine congrArg _ (funext fun middle => ?_)
  rw [nesting_cons]
  cases t.nest middle <;> rfl

/-- Only a closing parenthesis at depth zero has no count. -/
theorem nest_eq_none_iff {depth : Nat} {t : Token τ} :
    t.nest depth = none ↔ depth = 0 ∧ t = .symbol (.paren .right) := by
  rcases t with content | op | _ | _ <;> simp [nest]

/-- Some closing parenthesis comes behind balanced tokens, and so an opening
one in front of all these tokens is its partner. -/
def HasPartner (after : List (Token τ)) : Prop :=
  ∃ inner rest, after = inner ++ .symbol (.paren .right) :: rest ∧ Balanced inner

/-- The nesting has no count once a closing parenthesis comes at depth zero. -/
theorem nesting_eq_none_iff {depth : Nat} {ts : List (Token τ)} :
    nesting depth ts = none ↔
      ∃ inner rest, ts = inner ++ .symbol (.paren .right) :: rest ∧
        nesting depth inner = some 0 := by
  constructor
  · intro h
    induction ts generalizing depth with
    | nil => cases h
    | cons t ts ih =>
      rw [nesting_cons] at h
      cases hnest : t.nest depth with
      | none =>
        obtain ⟨rfl, rfl⟩ := nest_eq_none_iff.1 hnest
        exact ⟨[], ts, rfl, rfl⟩
      | some deeper =>
        rw [hnest] at h
        obtain ⟨inner, rest, rfl, hinner⟩ := ih h
        refine ⟨t :: inner, rest, rfl, ?_⟩
        rw [nesting_cons, hnest]
        exact hinner
  · rintro ⟨inner, rest, rfl, hinner⟩
    rw [nesting_append, hinner]
    rfl

theorem hasPartner_iff {after : List (Token τ)} :
    HasPartner after ↔ nesting 0 after = none :=
  nesting_eq_none_iff.symm

end Token

/-! ## Unclosed parentheses -/

/-- An opening parenthesis at this position has been scanned, and no partner
of it has. -/
def Unclosed (scanned : List (Located ρ (Token τ))) (position : ρ) : Prop :=
  ∃ before after, scanned = before ++ ⟨.symbol (.paren .left), position⟩ :: after ∧
    ¬Token.HasPartner (after.map Located.item)

/-- The positions of the parentheses that are open after a token, the last
one first. -/
def stillOpen (opened : List ρ) (token : Located ρ (Token τ)) : List ρ :=
  match token.item with
  | .symbol (.paren .left) => token.position :: opened
  | .symbol (.paren .right) => opened.tail
  | .symbol (.binary _) | .literal _ => opened

/-- Where an item stands in a list with one more item at the end: it is that
item, or it stands in the list before, and has the new item after it. -/
theorem exists_concat_eq_iff {β : Type} {p : List β → Prop} {xs : List β} {x y : β} :
    (∃ before after, xs ++ [y] = before ++ x :: after ∧ p after) ↔
      y = x ∧ p [] ∨ ∃ before after, xs = before ++ x :: after ∧ p (after ++ [y]) := by
  constructor
  · rintro ⟨before, after, hxs, hafter⟩
    rcases List.eq_nil_or_concat after with rfl | ⟨rest, z, rfl⟩
    · obtain ⟨-, hy⟩ := List.append_inj' hxs rfl
      exact .inl ⟨List.cons.inj hy |>.1, hafter⟩
    · rw [List.concat_eq_append] at hxs hafter
      have hsplit : xs ++ [y] = (before ++ x :: rest) ++ [z] := by
        rw [hxs, List.append_assoc]
        rfl
      obtain ⟨hbefore, hy⟩ := List.append_inj' hsplit rfl
      obtain rfl : y = z := (List.cons.inj hy).1
      exact .inr ⟨before, rest, hbefore, hafter⟩
  · rintro (⟨rfl, hnil⟩ | ⟨before, after, rfl, hafter⟩)
    · exact ⟨xs, [], rfl, hnil⟩
    · exact ⟨before, after ++ [y], by simp, hafter⟩

/-- The parenthesis at depth `depth` of the open ones is the one that has so
many others opened after it and still open. -/
theorem getElem?_foldl_stillOpen (scanned : List (Located ρ (Token τ))) (depth : Nat)
    (position : ρ) :
    (scanned.foldl stillOpen [])[depth]? = some position ↔
      ∃ before after, scanned = before ++ ⟨.symbol (.paren .left), position⟩ :: after ∧
        Token.nesting 0 (after.map Located.item) = some depth := by
  induction scanned using List.reverseRecOn generalizing depth with
  | nil => simp
  | append_singleton scanned token ih =>
    rw [List.foldl_append, List.foldl_cons, List.foldl_nil, exists_concat_eq_iff]
    simp only [List.map_append, List.map_singleton, Token.nesting_concat, List.map_nil,
      Token.nesting_nil, Option.bind_eq_some_iff]
    obtain ⟨content | op | _ | _, place⟩ := token
    · simp [stillOpen, ih, Token.nest]
    · simp [stillOpen, ih, Token.nest]
    · cases depth with
      | zero => simp [stillOpen, Token.nest]
      | succ depth => simp [stillOpen, ih, Token.nest]
    · have hnest : ∀ middle : Nat,
          (Token.symbol (.paren .right) : Token τ).nest middle = some depth ↔
            middle = depth + 1 := by
        intro middle
        rw [Token.nest]
        split
        · simp
          omega
        · rw [Option.some.injEq]
          omega
      simp [stillOpen, ih, hnest]

/-- The open parentheses are the unclosed ones. -/
theorem mem_foldl_stillOpen_iff {scanned : List (Located ρ (Token τ))} {position : ρ} :
    position ∈ scanned.foldl stillOpen [] ↔ Unclosed scanned position := by
  rw [List.mem_iff_getElem?]
  simp only [getElem?_foldl_stillOpen, Unclosed, Token.hasPartner_iff, ← ne_eq,
    Option.ne_none_iff_exists']
  constructor
  · rintro ⟨depth, before, after, hscanned, hnest⟩
    exact ⟨before, after, hscanned, depth, hnest⟩
  · rintro ⟨before, after, hscanned, depth, hnest⟩
    exact ⟨depth, before, after, hscanned, hnest⟩

/-! ## Parentheses that wait -/

/-- The positions of the opening parentheses that wait, the topmost first. -/
def openings (operators : List (Located ρ Symbol)) : List ρ :=
  (operators.filter fun top => top.item = .paren .left).map Located.position

theorem mem_openings_iff {operators : List (Located ρ Symbol)} {position : ρ} :
    position ∈ openings operators ↔ ⟨.paren .left, position⟩ ∈ operators := by
  simp only [openings, List.mem_map, List.mem_filter, decide_eq_true_eq]
  constructor
  · rintro ⟨⟨item, place⟩, ⟨hmem, hitem⟩, rfl⟩
    obtain rfl : item = .paren .left := hitem
    exact hmem
  · intro hmem
    exact ⟨_, ⟨hmem, rfl⟩, rfl⟩

theorem openings_cons_left (position : ρ) (operators : List (Located ρ Symbol)) :
    openings (⟨.paren .left, position⟩ :: operators) = position :: openings operators := by
  simp [openings]

theorem openings_cons_of_ne {top : Located ρ Symbol} (h : top.item ≠ .paren .left)
    (operators : List (Located ρ Symbol)) : openings (top :: operators) = openings operators := by
  simp [openings, h]

/-- What an incoming symbol does to the opening parentheses that wait. -/
theorem Stacks.openings_receive (incoming : Located ρ Symbol)
    (operators : List (Located ρ Symbol)) :
    openings (receiveOperators incoming operators) =
      stillOpen (openings operators) ⟨(.symbol incoming.item : Token τ), incoming.position⟩ := by
  have hpush : ∀ operators : List (Located ρ Symbol), incoming.item ≠ .paren .right →
      openings (incoming :: operators) = stillOpen (openings operators)
        ⟨(.symbol incoming.item : Token τ), incoming.position⟩ := by
    intro operators hright
    rcases incoming with ⟨op | _ | _, position⟩
    · exact openings_cons_of_ne (by simp) operators
    · exact openings_cons_left position operators
    · exact absurd rfl hright
  induction operators with
  | nil =>
    by_cases hright : incoming.item = .paren .right
    · obtain ⟨item, position⟩ := incoming
      obtain rfl : item = .paren .right := hright
      rfl
    · exact hpush [] hright
  | cons top rest ih =>
    rw [receiveOperators]
    split
    · rename_i hhigher
      rw [ih, openings_cons_of_ne (Symbol.ne_left_of_precedence_eq_higher hhigher)]
    · rename_i hequal
      obtain ⟨htop, hincoming⟩ := Symbol.precedence_eq_equal_iff.1 hequal
      obtain ⟨item, position⟩ := top
      obtain rfl : item = .paren .left := htop
      rw [openings_cons_left, hincoming]
      rfl
    · rename_i hlower
      refine hpush (top :: rest) ?_
      intro hright
      rw [hright] at hlower
      rcases top with ⟨op | _ | _, position⟩ <;> cases hlower

/-- The opening parentheses that wait are those that are still open. -/
theorem Control.openings_next (c : Control ρ) (token : Located ρ (Token τ)) :
    openings (c.next token).operators = stillOpen (openings c.operators) token := by
  rcases token with ⟨content | s, position⟩
  · rfl
  · exact Stacks.openings_receive ⟨s, position⟩ c.operators

end InfixArith
