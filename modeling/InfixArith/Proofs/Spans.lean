import InfixArith.Proofs.LongestMatch

/-!
# Spans

The tokens of an expression lie side by side and cover it.  `Tiling` says what
that is for a list of tokens with their spans, by the text and its byte offsets
alone.

`eq_placed_of_spans` reads such a list from left to right: each token takes the
place where the one before it ends.  Together with the tokens of a text being
determined by their characters (`Token.lex_flatMap_chars`), this leaves only the
list that the lexer makes.  `tokens_tile` states that, and that a lexer which
goes by the longest match makes it too.
-/

namespace InfixArith

/-- These characters stand in the text between these two byte offsets. -/
def Spans (text cs : List Char) (start stop : Nat) : Prop :=
  ∃ before after, text = before ++ (cs ++ after) ∧ start = byteLength before ∧
    stop = start + byteLength cs

/-- The byte after the last token, or `start` if there is no token. -/
def lastStop (start : Nat) (ts : List (Spanned (Token (List Char)))) : Nat :=
  (ts.getLast?.map Spanned.stop).getD start

/-- Tokens with spans that are not empty, begin at zero, follow one another and
end where the text ends.  A symbol spans one byte, which is its character.  A
literal spans its own characters, none of which writes a symbol, and no literal
comes right after another one. -/
structure Tiling (text : List Char) (ts : List (Spanned (Token (List Char)))) : Prop where
  nonempty : ∀ t ∈ ts, t.start < t.stop
  start : ∀ t ∈ ts.head?, t.start = 0
  contiguous : ts.IsChain fun t u => t.stop = u.start
  stop : lastStop 0 ts = byteLength text
  symbol : ∀ s start stop, ⟨.symbol s, start, stop⟩ ∈ ts →
    stop = start + 1 ∧ ∃ c, Spans text [c] start stop ∧ Symbol.ofChar? c = some s
  literal : ∀ cs start stop, ⟨.literal cs, start, stop⟩ ∈ ts →
    Spans text cs start stop ∧ ∀ c ∈ cs, Symbol.ofChar? c = none
  apart : ts.IsChain fun t u => ¬(t.item.isLiteral = true ∧ u.item.isLiteral = true)

/-! ## From spans to the text -/

/-- A text has one part of each byte length at its start. -/
theorem append_inj_of_byteLength_eq {before other rest tail : List Char}
    (happend : before ++ rest = other ++ tail)
    (hlength : byteLength before = byteLength other) : before = other ∧ rest = tail := by
  have hnil : ∀ cs : List Char, byteLength cs = 0 → cs = [] := by
    intro cs hcs
    by_contra hne
    have hpos := byteLength_pos hne
    omega
  rcases List.append_eq_append_iff.1 happend with ⟨middle, rfl, rfl⟩ | ⟨middle, rfl, rfl⟩
  · rw [byteLength_append] at hlength
    obtain rfl := hnil middle (by omega)
    exact ⟨(List.append_nil before).symm, rfl⟩
  · rw [byteLength_append] at hlength
    obtain rfl := hnil middle (by omega)
    exact ⟨List.append_nil other, rfl⟩

theorem lastStop_cons (start : Nat) (t : Spanned (Token (List Char)))
    (ts : List (Spanned (Token (List Char)))) :
    lastStop start (t :: ts) = lastStop t.stop ts := by
  rw [lastStop, lastStop, List.getLast?_cons]
  cases ts.getLast? <;> rfl

/-- Tokens that follow one another up to the end of a text hold the rest of it,
and each of them stands where the one before it ends. -/
theorem eq_placed_of_spans {text before rest : List Char}
    {ts : List (Spanned (Token (List Char)))} (htext : text = before ++ rest)
    (hspans : ∀ t ∈ ts, Spans text t.item.chars t.start t.stop)
    (hstart : ∀ t ∈ ts.head?, t.start = byteLength before)
    (hcontiguous : ts.IsChain fun t u => t.stop = u.start)
    (hstop : lastStop (byteLength before) ts = byteLength text) :
    rest = (ts.map Spanned.item).flatMap Token.chars ∧
      ts = (Token.place (byteLength before) (ts.map Spanned.item)).map Located.spanned := by
  induction ts generalizing before rest with
  | nil =>
    have hend : before ++ rest = text ++ [] := by rw [← htext, List.append_nil]
    exact ⟨(append_inj_of_byteLength_eq hend hstop).2, rfl⟩
  | cons t ts ih =>
    obtain ⟨item, start, stop⟩ := t
    obtain ⟨front, after, hfront, hbefore, hlength⟩ := hspans _ List.mem_cons_self
    obtain rfl : start = byteLength before := hstart _ rfl
    obtain ⟨rfl, rfl⟩ := append_inj_of_byteLength_eq (htext.symm.trans hfront) hbefore
    obtain rfl : stop = byteLength (before ++ item.chars) := by
      rw [byteLength_append]
      exact hlength
    rw [lastStop_cons] at hstop
    obtain ⟨hafter, hts⟩ := ih (by rw [htext, List.append_assoc])
      (fun u hu => hspans u (List.mem_cons_of_mem _ hu))
      (fun u hu => ((List.isChain_cons.1 hcontiguous).1 u hu).symm) hcontiguous.tail hstop
    refine ⟨congrArg (item.chars ++ ·) hafter, ?_⟩
    rw [List.map_cons, Token.place_cons, List.map_cons, ← byteLength_append, ← hts]
    rw [Located.spanned, Located.stop, byteLength_append]

namespace Tiling

variable {text : List Char} {ts : List (Spanned (Token (List Char)))}

/-- Each token of a tiling spans its own characters. -/
theorem spans (h : Tiling text ts) : ∀ t ∈ ts, Spans text t.item.chars t.start t.stop := by
  rintro ⟨cs | s, start, stop⟩ ht
  · exact (h.literal cs start stop ht).1
  · obtain ⟨-, c, hspans, hc⟩ := h.symbol s start stop ht
    rwa [Token.chars_symbol, Symbol.toChar_of_ofChar? hc]

/-- The tokens of a tiling are like those of a lexer. -/
theorem separated (h : Tiling text ts) : Token.Separated (ts.map Spanned.item) := by
  refine ⟨?_, (List.isChain_map Spanned.item).2 h.apart⟩
  intro t ht
  obtain ⟨⟨cs | s, start, stop⟩, hmem, rfl⟩ := List.mem_map.1 ht
  · obtain ⟨⟨before, after, -, -, hlength⟩, hcs⟩ := h.literal cs start stop hmem
    refine ⟨?_, hcs⟩
    rintro rfl
    have hlt := h.nonempty _ hmem
    rw [hlength] at hlt
    exact Nat.lt_irrefl _ hlt
  · trivial

/-- A tiling is made of the tokens of its text. -/
theorem eq_spanned (h : Tiling text ts) : ts = (Token.lexPlaced text).map Located.spanned := by
  obtain ⟨htext, hts⟩ := eq_placed_of_spans (List.nil_append text).symm h.spans h.start
    h.contiguous h.stop
  have hlex := Token.lex_flatMap_chars h.separated
  rw [← htext] at hlex
  rw [Token.lexPlaced, hlex]
  exact hts

end Tiling

/-! ## From the text to spans -/

theorem contiguous_place (start : Nat) (ts : List (Token (List Char))) :
    ((Token.place start ts).map Located.spanned).IsChain fun t u => t.stop = u.start := by
  induction ts generalizing start with
  | nil => exact .nil
  | cons t ts ih =>
    refine List.isChain_cons.2 ⟨?_, ih _⟩
    intro u hu
    cases ts with
    | nil => cases hu
    | cons v ts =>
      cases hu
      rfl

theorem lastStop_place (start : Nat) (ts : List (Token (List Char))) :
    lastStop start ((Token.place start ts).map Located.spanned) =
      start + byteLength (ts.flatMap Token.chars) := by
  induction ts generalizing start with
  | nil => rfl
  | cons t ts ih =>
    rw [Token.place_cons, List.map_cons, lastStop_cons, List.flatMap_cons, byteLength_append,
      ← Nat.add_assoc]
    exact ih _

/-- The character of a symbol takes one byte. -/
theorem byteLength_toChar (s : Symbol) : byteLength [s.toChar] = 1 := by
  rcases s with op | side
  · cases op <;> rfl
  · cases side <;> rfl

theorem Token.proper_of_mem_lexPlaced {text : List Char} {t : Located Nat (Token (List Char))}
    (h : t ∈ lexPlaced text) : t.item.Proper := by
  refine (separated_lex text).proper _ ?_
  rw [← map_item_place 0 (lex text)]
  exact List.mem_map_of_mem h

/-- Each token of a text spans its own characters. -/
theorem Token.spans_of_mem_lexPlaced {text : List Char} {t : Located Nat (Token (List Char))}
    (h : t ∈ lexPlaced text) : Spans text t.item.chars t.position t.stop := by
  obtain ⟨before, after, hchars, hposition⟩ := exists_of_mem_place h
  rw [flatMap_chars_lex, List.append_assoc] at hchars
  exact ⟨before, after, hchars, by rw [hposition, Nat.zero_add], rfl⟩

/-- The tokens that the lexer makes of a text are a tiling of it. -/
theorem tiling_lexPlaced (text : List Char) :
    Tiling text ((Token.lexPlaced text).map Located.spanned) where
  nonempty := by
    intro t ht
    obtain ⟨u, hu, rfl⟩ := List.mem_map.1 ht
    have hpos := (Token.proper_of_mem_lexPlaced hu).byteLength_chars_pos
    show u.position < u.position + byteLength u.item.chars
    omega
  start := by
    intro t ht
    cases hlex : Token.lex text with
    | nil =>
      rw [Token.lexPlaced, hlex] at ht
      cases ht
    | cons u ts =>
      rw [Token.lexPlaced, hlex] at ht
      cases ht
      rfl
  contiguous := contiguous_place 0 (Token.lex text)
  stop := by
    have hstop := lastStop_place 0 (Token.lex text)
    rwa [Token.flatMap_chars_lex, Nat.zero_add] at hstop
  symbol := by
    intro s start stop h
    obtain ⟨⟨item, position⟩, hu, hspanned⟩ := List.mem_map.1 h
    obtain ⟨rfl, rfl, rfl⟩ := Spanned.mk.inj hspanned
    exact ⟨congrArg (position + ·) (byteLength_toChar s), s.toChar,
      Token.spans_of_mem_lexPlaced hu, Symbol.ofChar?_toChar s⟩
  literal := by
    intro cs start stop h
    obtain ⟨⟨item, position⟩, hu, hspanned⟩ := List.mem_map.1 h
    obtain ⟨rfl, rfl, rfl⟩ := Spanned.mk.inj hspanned
    exact ⟨Token.spans_of_mem_lexPlaced hu, (Token.proper_of_mem_lexPlaced hu).2⟩
  apart := by
    have hapart := (Token.separated_lex text).apart
    rw [← Token.map_item_place 0 (Token.lex text), List.isChain_map] at hapart
    exact (List.isChain_map Located.spanned).2 hapart

/-! ## Expressions -/

/-- An expression has exactly one tiling, and it is the list of its tokens with
their spans.  A lexer that goes by the longest match of the declared tokens makes
the same list, without an error.  Put together, the tokens are the expression. -/
theorem tokens_tile (expression : String) :
    (∀ ts, Tiling expression.toList ts ↔ ts = (tokens expression).map Located.spanned) ∧
      (∀ pieces, Token.Cuts 0 expression.toList pieces ↔
        pieces = (tokens expression).map fun t => ⟨.ok t.item, t.position, t.stop⟩) ∧
      (tokens expression).flatMap (fun t => t.item.chars) = expression.toList := by
  refine ⟨fun ts => ⟨Tiling.eq_spanned, ?_⟩, fun pieces => Token.cuts_iff, ?_⟩
  · rintro rfl
    exact tiling_lexPlaced _
  · have hchars := Token.flatMap_chars_lex expression.toList
    rw [← Token.map_item_place 0 (Token.lex expression.toList), List.flatMap_map] at hchars
    exact hchars

example : (tokens "½ (-").map (fun t => (t.position, t.stop)) = [(0, 3), (3, 4), (4, 5)] := by
  decide +kernel

end InfixArith
