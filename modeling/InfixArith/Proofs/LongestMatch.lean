import InfixArith.Expression
import InfixArith.Proofs.Tiling
import Mathlib.Data.Nat.Find

/-!
# Longest match

The tokens of an expression can be declared by patterns.  Seven of them match
one character each, and one matches a run of characters that leaves out the
seven.  A text is cut from left to right.  At each place the token is the
longest start of the rest that some pattern matches.  It is an error if no
pattern matches, and also if a rule makes no token of what it matched.

`Cuts` is this way of cutting, with its errors and the bytes that each piece
spans.  The declarations are written apart from `Symbol.ofChar?` and from each
other, and `mem_symbolChars_iff` and `ofChar?_eq_none_iff` say that they agree.
`cuts_iff` follows: a text can be cut in one way only, without an error, and
that gives the tokens of the lexer.
-/

namespace InfixArith

/-- An item, with the byte that it starts at and the one after its last. -/
structure Spanned (τ : Type) where
  item : τ
  start : Nat
  stop : Nat

/-- A placed token and the bytes that it spans. -/
def Located.spanned (t : Located Nat (Token (List Char))) : Spanned (Token (List Char)) :=
  ⟨t.item, t.position, t.stop⟩

namespace Token

/-! ## Declared tokens -/

/-- What a piece of text may look like. -/
inductive Pattern where
  /-- This character alone. -/
  | character (c : Char)
  /-- Some characters, and none of these. -/
  | runWithout (cs : List Char)

/-- Whether a pattern matches a text as a whole. -/
def Pattern.Matches : Pattern → List Char → Prop
  | .character c, text => text = [c]
  | .runWithout cs, text => text ≠ [] ∧ ∀ c ∈ text, c ∉ cs

/-- A pattern, and the token that is made of a text that it matched. -/
structure Rule where
  pattern : Pattern
  token? : List Char → Option (Token (List Char))

/-- The symbol that a text starts with. -/
def symbol? (text : List Char) : Option (Token (List Char)) :=
  (text.head?.bind Symbol.ofChar?).map .symbol

/-- The characters that are declared as tokens. -/
def symbolChars : List Char :=
  ['+', '-', '*', '/', '^', '(', ')']

/-- The characters that are left out of literals. -/
def literalEnds : List Char :=
  ['+', '-', '*', '/', '^', '(', ')']

/-- The declared tokens. -/
def declared : List Rule :=
  symbolChars.map (fun c => ⟨.character c, symbol?⟩) ++
    [⟨.runWithout literalEnds, fun text => some (.literal text)⟩]

theorem mem_declared_iff {rule : Rule} :
    rule ∈ declared ↔ (∃ c ∈ symbolChars, rule = ⟨.character c, symbol?⟩) ∨
      rule = ⟨.runWithout literalEnds, fun text => some (.literal text)⟩ := by
  rw [declared, List.mem_append, List.mem_map, List.mem_singleton]
  simp only [eq_comm]

/-- Every character that is declared as a token writes a symbol, and no other
one does. -/
theorem mem_symbolChars_iff {c : Char} :
    c ∈ symbolChars ↔ ∃ s, Symbol.ofChar? c = some s := by
  constructor
  · intro h
    simp only [symbolChars, List.mem_cons, List.not_mem_nil, or_false] at h
    rcases h with rfl | rfl | rfl | rfl | rfl | rfl | rfl <;> exact ⟨_, rfl⟩
  · rintro ⟨s, hs⟩
    rw [← Symbol.toChar_of_ofChar? hs]
    rcases s with op | side
    · cases op <;> decide
    · cases side <;> decide

/-- A character that is declared as a token ends a literal, and no other one
does. -/
theorem literalEnds_eq : literalEnds = symbolChars :=
  rfl

/-- The characters of a literal are those that write no symbol. -/
theorem ofChar?_eq_none_iff {c : Char} : Symbol.ofChar? c = none ↔ c ∉ literalEnds := by
  rw [literalEnds_eq, mem_symbolChars_iff, Option.eq_none_iff_forall_ne_some, not_exists]

theorem symbol?_toChar (s : Symbol) (cs : List Char) :
    symbol? (s.toChar :: cs) = some (.symbol s) := by
  rw [symbol?, List.head?_cons, Option.bind_some, Symbol.ofChar?_toChar, Option.map_some]

/-! ## Cutting -/

/-- The rule matches a start of the text, and no rule matches a longer one. -/
structure Rule.Longest (rule : Rule) (start rest : List Char) : Prop where
  declared : rule ∈ declared
  matched : rule.pattern.Matches start
  longest : ∀ other ∈ Token.declared, ∀ cs ds, cs ++ ds = start ++ rest →
    other.pattern.Matches cs → cs.length ≤ start.length

/-- The ways to cut a text whose first byte has the offset `start`. -/
inductive Cuts :
    Nat → List Char → List (Spanned (Except (List Char) (Token (List Char)))) → Prop where
  /-- Nothing is left. -/
  | done (start : Nat) : Cuts start [] []
  /-- The longest match is a token. -/
  | token {start : Nat} {cs rest : List Char} {rule : Rule} {t : Token (List Char)}
      {pieces : List (Spanned (Except (List Char) (Token (List Char))))}
      (hlongest : rule.Longest cs rest) (htoken : rule.token? cs = some t)
      (hrest : Cuts (start + byteLength cs) rest pieces) :
      Cuts start (cs ++ rest) (⟨.ok t, start, start + byteLength cs⟩ :: pieces)
  /-- No token is made of the longest match. -/
  | refused {start : Nat} {cs rest : List Char} {rule : Rule}
      {pieces : List (Spanned (Except (List Char) (Token (List Char))))}
      (hlongest : rule.Longest cs rest) (htoken : rule.token? cs = none)
      (hrest : Cuts (start + byteLength cs) rest pieces) :
      Cuts start (cs ++ rest) (⟨.error cs, start, start + byteLength cs⟩ :: pieces)
  /-- Nothing matches, and the first character is passed over. -/
  | unmatched {start : Nat} {c : Char} {rest : List Char}
      {pieces : List (Spanned (Except (List Char) (Token (List Char))))}
      (hnone : ∀ rule ∈ declared, ∀ cs ds, cs ++ ds = c :: rest → ¬rule.pattern.Matches cs)
      (hrest : Cuts (start + c.utf8Size) rest pieces) :
      Cuts start (c :: rest) (⟨.error [c], start, start + c.utf8Size⟩ :: pieces)

theorem Pattern.Matches.ne_nil {pattern : Pattern} {text : List Char}
    (h : pattern.Matches text) : text ≠ [] := by
  cases pattern with
  | character c => exact h ▸ List.cons_ne_nil c []
  | runWithout cs => exact h.1

/-- Some rule matches every character alone. -/
theorem exists_matches_singleton (c : Char) :
    ∃ rule ∈ declared, rule.pattern.Matches [c] := by
  by_cases hc : c ∈ symbolChars
  · exact ⟨_, mem_declared_iff.2 (.inl ⟨c, hc, rfl⟩), rfl⟩
  · refine ⟨_, mem_declared_iff.2 (.inr rfl), List.cons_ne_nil c [], ?_⟩
    rwa [List.forall_mem_singleton, literalEnds_eq]

/-- The longest match is the first token of the lexer. -/
theorem Rule.Longest.lex_append {rule : Rule} {cs rest : List Char}
    (h : rule.Longest cs rest) :
    ∃ t : Token (List Char), rule.token? cs = some t ∧ t.chars = cs ∧
      lex (cs ++ rest) = t :: lex rest := by
  rcases mem_declared_iff.1 h.declared with ⟨c, hc, rfl⟩ | rfl
  · obtain ⟨s, hs⟩ := mem_symbolChars_iff.1 hc
    obtain rfl := Symbol.toChar_of_ofChar? hs
    obtain rfl : cs = [s.toChar] := h.matched
    exact ⟨.symbol s, symbol?_toChar s [], rfl, prepend_toChar s _⟩
  · obtain ⟨hne, hcs⟩ := h.matched
    refine ⟨.literal cs, rfl, rfl, ?_⟩
    have hliteral : ∀ c ∈ cs, Symbol.ofChar? c = none :=
      fun c hc => ofChar?_eq_none_iff.2 (hcs c hc)
    -- One more character of a literal would make a longer match.
    have hnext : ∀ d ∈ rest.head?, Symbol.ofChar? d ≠ none := by
      intro d hd hnone
      obtain ⟨ds, rfl⟩ := List.head?_eq_some_iff.1 hd
      have hlonger := h.longest _ (mem_declared_iff.2 (.inr rfl)) (cs ++ [d]) ds
        (by rw [List.append_assoc, List.singleton_append])
        ⟨by simp, List.forall_mem_append.2
          ⟨hcs, List.forall_mem_singleton.2 (ofChar?_eq_none_iff.1 hnone)⟩⟩
      rw [List.length_append, List.length_singleton] at hlonger
      omega
    have hapart : ¬Joins cs rest := fun ⟨_, d, hd, hnone⟩ => hnext d hd hnone
    rw [lex_append_of_not_joins hapart, lex_literal hne hliteral, List.singleton_append]

/-- Some rule matches a start of the text of this length. -/
def MatchesLength (text : List Char) (length : Nat) : Prop :=
  ∃ rule ∈ declared, ∃ cs rest, cs ++ rest = text ∧ rule.pattern.Matches cs ∧ cs.length = length

theorem MatchesLength.le {text : List Char} {length : Nat} (h : MatchesLength text length) :
    length ≤ text.length := by
  obtain ⟨rule, -, cs, rest, rfl, -, rfl⟩ := h
  rw [List.length_append]
  exact Nat.le_add_right _ _

/-- A text that is not empty has a longest match. -/
theorem exists_longest {text : List Char} (h : text ≠ []) :
    ∃ (rule : Rule) (cs rest : List Char), text = cs ++ rest ∧ rule.Longest cs rest := by
  classical
  obtain ⟨c, tail, rfl⟩ := List.exists_cons_of_ne_nil h
  obtain ⟨first, hfirst, hsingleton⟩ := exists_matches_singleton c
  have hone : MatchesLength (c :: tail) 1 := ⟨first, hfirst, [c], tail, rfl, hsingleton, rfl⟩
  obtain ⟨rule, hrule, cs, rest, happend, hmatches, hlength⟩ :=
    Nat.findGreatest_spec hone.le hone
  refine ⟨rule, cs, rest, happend.symm, hrule, hmatches, ?_⟩
  intro other hother ds after hds hmatched
  have hother : MatchesLength (c :: tail) ds.length :=
    ⟨other, hother, ds, after, hds.trans happend, hmatched, rfl⟩
  rw [hlength]
  exact Nat.le_findGreatest hother.le hother

/-- The tokens of a text, each with the bytes that it spans and none of them an
error. -/
def pieces (start : Nat) (text : List Char) :
    List (Spanned (Except (List Char) (Token (List Char)))) :=
  (place start (lex text)).map fun t => ⟨.ok t.item, t.position, t.stop⟩

theorem pieces_eq_of_cuts {start : Nat} {text : List Char}
    {cut : List (Spanned (Except (List Char) (Token (List Char))))}
    (h : Cuts start text cut) : cut = pieces start text := by
  induction h with
  | done start => rfl
  | token hlongest htoken hrest ih =>
    obtain ⟨t, ht, hchars, hlex⟩ := hlongest.lex_append
    obtain rfl := Option.some.inj (htoken.symm.trans ht)
    rw [ih, pieces, pieces, hlex, place_cons, List.map_cons, hchars]
    rw [Located.stop, hchars]
  | refused hlongest htoken hrest ih =>
    obtain ⟨t, ht, -, -⟩ := hlongest.lex_append
    rw [htoken] at ht
    cases ht
  | @unmatched start c rest pieces hnone hrest ih =>
    obtain ⟨rule, hrule, hmatches⟩ := exists_matches_singleton c
    exact absurd hmatches (hnone rule hrule [c] rest rfl)

/-- Every text can be cut. -/
theorem exists_cuts (start : Nat) (text : List Char) : ∃ cut, Cuts start text cut := by
  by_cases h : text = []
  · exact ⟨[], h ▸ .done start⟩
  · obtain ⟨rule, cs, rest, htext, hlongest⟩ := exists_longest h
    obtain ⟨t, htoken, -, -⟩ := hlongest.lex_append
    have hshorter : rest.length < text.length := by
      have hpos := List.length_pos_of_ne_nil hlongest.matched.ne_nil
      rw [htext, List.length_append]
      omega
    obtain ⟨cut, hcut⟩ := exists_cuts (start + byteLength cs) rest
    have hfirst := Cuts.token hlongest htoken hcut
    exact ⟨_, htext ▸ hfirst⟩
termination_by text.length

/-- There is one way to cut a text, and it gives the tokens of the lexer. -/
theorem cuts_iff {start : Nat} {text : List Char}
    {cut : List (Spanned (Except (List Char) (Token (List Char))))} :
    Cuts start text cut ↔ cut = pieces start text := by
  refine ⟨pieces_eq_of_cuts, ?_⟩
  rintro rfl
  obtain ⟨cut, hcut⟩ := exists_cuts start text
  exact pieces_eq_of_cuts hcut ▸ hcut

end Token

end InfixArith
