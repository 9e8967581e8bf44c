import InfixArith.Token.Lexer
import Mathlib.Data.List.Chain

/-!
# Tokens and texts

A text has exactly one list of tokens.  `Separated` says what such a list
looks like: a literal holds at least one character and no symbol, and no two
literals touch.  The lexer produces lists of that kind (`separated_lex`), and
a list of that kind is what the lexer makes of its own characters
(`lex_flatMap_chars`).

The second fact is how a text that is put together from parts is cut.
`separated_append_symbol` and the lemmas around it build such lists.
-/

namespace InfixArith.Token

/-- Whether a token is a literal. -/
def isLiteral {τ : Type} : Token τ → Bool
  | .literal _ => true
  | .symbol _ => false

/-- A literal holds at least one character, and none of a symbol. -/
def Proper : Token (List Char) → Prop
  | .literal cs => cs ≠ [] ∧ ∀ c ∈ cs, Symbol.ofChar? c = none
  | .symbol _ => True

/-- A proper token takes at least one byte. -/
theorem Proper.byteLength_chars_pos {t : Token (List Char)} (h : t.Proper) :
    0 < byteLength t.chars := by
  refine byteLength_pos ?_
  cases t with
  | literal cs => exact h.1
  | symbol s => exact List.cons_ne_nil _ _

/-- The tokens are proper, and no two literals are neighbours. -/
structure Separated (ts : List (Token (List Char))) : Prop where
  proper : ∀ t ∈ ts, t.Proper
  apart : ts.IsChain fun t u => ¬(t.isLiteral = true ∧ u.isLiteral = true)

/-! ## Building separated lists -/

theorem separated_nil : Separated [] :=
  ⟨by simp, .nil⟩

theorem separated_literal {cs : List Char} (hne : cs ≠ [])
    (hcs : ∀ c ∈ cs, Symbol.ofChar? c = none) : Separated [.literal cs] := by
  refine ⟨?_, .singleton _⟩
  intro t ht
  rw [List.mem_singleton.1 ht]
  exact ⟨hne, hcs⟩

/-- A symbol keeps any two lists apart. -/
theorem separated_append_symbol {ts us : List (Token (List Char))} (s : Symbol)
    (ht : Separated ts) (hu : Separated us) : Separated (ts ++ .symbol s :: us) := by
  constructor
  · intro t hmem
    rcases List.mem_append.1 hmem with hmem | hmem
    · exact ht.proper t hmem
    · rcases List.mem_cons.1 hmem with rfl | hmem
      · trivial
      · exact hu.proper t hmem
  · refine List.isChain_append.2 ⟨ht.apart, List.isChain_cons.2 ⟨?_, hu.apart⟩, ?_⟩
    · simp [isLiteral]
    · simp [isLiteral]

theorem separated_symbol_cons {us : List (Token (List Char))} (s : Symbol)
    (hu : Separated us) : Separated (.symbol s :: us) :=
  separated_append_symbol s separated_nil hu

/-- What is left of a separated list is separated. -/
theorem Separated.tail {t : Token (List Char)} {ts : List (Token (List Char))}
    (h : Separated (t :: ts)) : Separated ts :=
  ⟨fun u hu => h.proper u (List.mem_cons_of_mem t hu), h.apart.tail⟩

/-- After a literal comes a symbol, or nothing. -/
theorem Separated.not_literal_of_literal_cons {cs : List Char}
    {ts : List (Token (List Char))} (h : Separated (.literal cs :: ts)) :
    ∀ t ∈ ts.head?, t.isLiteral = false := by
  intro t ht
  have hchain := (List.isChain_cons.1 h.apart).1 t ht
  simpa [isLiteral] using hchain

/-! ## The lexer -/

/-- The characters of a literal join into one token, unless a literal comes
right after them. -/
theorem foldr_prepend_literal {cs : List Char} {ts : List (Token (List Char))}
    (hne : cs ≠ []) (hcs : ∀ c ∈ cs, Symbol.ofChar? c = none)
    (hts : ∀ t ∈ ts.head?, t.isLiteral = false) :
    cs.foldr prepend ts = .literal cs :: ts := by
  induction cs with
  | nil => exact absurd rfl hne
  | cons c cs ih =>
    have hc : Symbol.ofChar? c = none := hcs c (List.mem_cons_self)
    rw [List.foldr_cons]
    cases cs with
    | nil =>
      rcases ts with _ | ⟨_ | s, ts⟩
      · simp [prepend, hc]
      · simp [isLiteral] at hts
      · simp [prepend, hc]
    | cons d ds =>
      rw [ih (by simp) (fun x hx => hcs x (List.mem_cons_of_mem c hx)), prepend, hc]

/-- The lexer finds the tokens that a text was put together from. -/
theorem lex_flatMap_chars {ts : List (Token (List Char))} (h : Separated ts) :
    lex (ts.flatMap chars) = ts := by
  induction ts with
  | nil => rfl
  | cons t ts ih =>
    have htail := ih h.tail
    cases t with
    | literal cs =>
      obtain ⟨hne, hcs⟩ := h.proper _ List.mem_cons_self
      rw [List.flatMap_cons, chars_literal, lex_append, htail,
        foldr_prepend_literal hne hcs h.not_literal_of_literal_cons]
    | symbol s =>
      rw [List.flatMap_cons, chars_symbol, List.singleton_append, lex_cons, htail,
        prepend_toChar]

/-- The characters of a literal are one token. -/
theorem lex_literal {cs : List Char} (hne : cs ≠ [])
    (hcs : ∀ c ∈ cs, Symbol.ofChar? c = none) : lex cs = [.literal cs] := by
  have hlex := lex_flatMap_chars (separated_literal hne hcs)
  rwa [List.flatMap_singleton, chars_literal] at hlex

/-- One character more in front keeps the tokens separated. -/
theorem separated_prepend (c : Char) {ts : List (Token (List Char))} (h : Separated ts) :
    Separated (prepend c ts) := by
  unfold prepend
  split
  · exact separated_symbol_cons _ h
  · rename_i hc
    split
    · rename_i cs ts
      obtain ⟨-, hcs⟩ := h.proper _ List.mem_cons_self
      refine ⟨?_, ?_⟩
      · intro t ht
        rcases List.mem_cons.1 ht with rfl | ht
        · exact ⟨by simp, by simpa [hc] using hcs⟩
        · exact h.tail.proper t ht
      · exact List.isChain_cons.2 (List.isChain_cons.1 h.apart)
    · rename_i hlit
      refine ⟨?_, List.isChain_cons.2 ⟨?_, h.apart⟩⟩
      · intro t ht
        rcases List.mem_cons.1 ht with rfl | ht
        · exact ⟨by simp, by simpa using hc⟩
        · exact h.proper t ht
      · rcases ts with _ | ⟨cs | s, ts⟩
        · simp
        · exact absurd rfl (hlit cs ts)
        · simp [isLiteral]

/-- The lexer produces separated tokens. -/
theorem separated_lex (cs : List Char) : Separated (lex cs) := by
  induction cs with
  | nil => exact separated_nil
  | cons c cs ih => exact separated_prepend c ih

/-- The first character of a text tells what its first token is. -/
theorem head?_lex_cons (c : Char) (cs : List Char) :
    (∃ s, Symbol.ofChar? c = some s ∧ (lex (c :: cs)).head? = some (.symbol s)) ∨
      ∃ ds, (lex (c :: cs)).head? = some (.literal ds) := by
  rw [lex_cons]
  unfold prepend
  split
  · rename_i s hs
    exact .inl ⟨s, hs, rfl⟩
  · right
    split <;> exact ⟨_, rfl⟩

/-! ## Two texts in a row -/

/-- One text ends in a literal and the next one starts with one, so the two
literals would become one. -/
def Joins (cs ds : List Char) : Prop :=
  (∃ c ∈ cs.getLast?, Symbol.ofChar? c = none) ∧ ∃ d ∈ ds.head?, Symbol.ofChar? d = none

theorem lex_ne_nil {cs : List Char} (h : cs ≠ []) : lex cs ≠ [] := by
  intro hlex
  have hchars := flatMap_chars_lex cs
  rw [hlex] at hchars
  exact h hchars.symm

/-- A character sees the first token after it, and no other. -/
theorem prepend_append (c : Char) {ts : List (Token (List Char))} (h : ts ≠ [])
    (us : List (Token (List Char))) : prepend c (ts ++ us) = prepend c ts ++ us := by
  unfold prepend
  cases Symbol.ofChar? c with
  | some s => rfl
  | none =>
    rcases ts with _ | ⟨_ | s, ts⟩
    · exact absurd rfl h
    · rfl
    · rfl

/-- A character that does not join the next text is a token of its own. -/
theorem prepend_lex_of_not_joins {c : Char} {ds : List Char} (h : ¬Joins [c] ds) :
    prepend c (lex ds) = prepend c [] ++ lex ds := by
  cases hc : Symbol.ofChar? c with
  | some s => simp [prepend, hc]
  | none =>
    cases ds with
    | nil => exact (List.append_nil _).symm
    | cons d ds =>
      cases hd : Symbol.ofChar? d with
      | none => exact absurd ⟨⟨c, rfl, hc⟩, d, rfl, hd⟩ h
      | some s => simp [prepend, hc, hd]

/-- Texts that do not join have their tokens one after the other. -/
theorem lex_append_of_not_joins {cs ds : List Char} (h : ¬Joins cs ds) :
    lex (cs ++ ds) = lex cs ++ lex ds := by
  induction cs with
  | nil => rfl
  | cons c cs ih =>
    rw [List.cons_append, lex_cons, lex_cons]
    cases cs with
    | nil => exact prepend_lex_of_not_joins h
    | cons x xs =>
      have hrest : ¬Joins (x :: xs) ds := by
        rwa [Joins, List.getLast?_cons_cons] at h
      rw [ih hrest, prepend_append c (lex_ne_nil (List.cons_ne_nil x xs))]

/-- A symbol between two texts is a token of its own. -/
theorem lex_append_symbol (cs : List Char) (s : Symbol) (ds : List Char) :
    lex (cs ++ s.toChar :: ds) = lex cs ++ .symbol s :: lex ds := by
  have hapart : ¬Joins cs (s.toChar :: ds) := by
    rintro ⟨-, d, hd, hnone⟩
    obtain rfl := Option.some.inj hd
    rw [Symbol.ofChar?_toChar] at hnone
    cases hnone
  rw [lex_append_of_not_joins hapart, lex_cons, prepend_toChar]

/-! ## Tokens in a text -/

/-- A token is placed where the characters of the tokens before it end. -/
theorem mem_place_iff {start position : Nat} {t : Token (List Char)}
    {ts : List (Token (List Char))} :
    ⟨t, position⟩ ∈ place start ts ↔
      ∃ front back, ts = front ++ t :: back ∧
        position = start + byteLength (front.flatMap chars) := by
  constructor
  · intro h
    induction ts generalizing start with
    | nil => cases h
    | cons u ts ih =>
      rcases List.mem_cons.1 h with hhead | h
      · cases hhead
        exact ⟨[], ts, rfl, rfl⟩
      · obtain ⟨front, back, rfl, rfl⟩ := ih h
        refine ⟨u :: front, back, rfl, ?_⟩
        rw [List.flatMap_cons, byteLength_append, Nat.add_assoc]
  · rintro ⟨front, back, rfl, rfl⟩
    rw [place_append]
    exact List.mem_append_right _ List.mem_cons_self

/-- A placed token stands in the text at its offset. -/
theorem exists_of_mem_place {start : Nat} {ts : List (Token (List Char))}
    {token : Located Nat (Token (List Char))} (h : token ∈ place start ts) :
    ∃ before after, ts.flatMap chars = before ++ token.item.chars ++ after ∧
      token.position = start + byteLength before := by
  obtain ⟨front, back, rfl, hposition⟩ := mem_place_iff.1 h
  refine ⟨front.flatMap chars, back.flatMap chars, ?_, hposition⟩
  rw [List.flatMap_append, List.flatMap_cons, List.append_assoc]

end InfixArith.Token
