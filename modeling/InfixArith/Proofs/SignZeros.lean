import InfixArith.Proofs.Accounting
import InfixArith.Proofs.Origin

/-!
# Zeros in front of signs

A plus or a minus at the start of a group is a sign, and the evaluator pushes
a zero before it takes the sign in.  The zero might as well be written:
`withZeros` writes it, and the evaluation of the new text does the same as
before.

There are three steps.

* Tokens.  `insertZeros` puts a token for zero in front of each sign.  It has
  the schedule of the tokens without these zeros (`schedule_insertZeros`).
* Texts.  The tokens of the new text are the old ones with a literal `0` in
  front of each sign (`lex_withZeros`).  This is where the new character may
  not join a neighbour.
* Offsets.  `signOffsets` lists where the zeros go.  An offset of the old
  text moves by the number of them up to it (`placed_fill`).
-/

namespace InfixArith

/-! ## Tokens with zeros -/

section Tokens

variable {α ρ : Type} [Arithmetic α]

/-- The tokens with a zero in front of each sign.  The position of a zero
depends on that of its sign. -/
def insertZeros (zeroAt : ρ → ρ) (groupStart : Bool) :
    List (Located ρ (Token (Reading α))) → List (Located ρ (Token (Reading α)))
  | [] => []
  | token :: tokens =>
    if groupStart && token.item.isSign then
      ⟨.literal (.ok Arithmetic.zero), zeroAt token.position⟩ :: token ::
        insertZeros zeroAt token.item.opensGroup tokens
    else
      token :: insertZeros zeroAt token.item.opensGroup tokens

/-- A zero that is there as a token is pushed as the zero of its sign would
be, and the sign behind it pushes no other. -/
theorem schedule_insertZeros (zeroAt : ρ → ρ) (c : Control ρ)
    (tokens : List (Located ρ (Token (Reading α)))) :
    c.schedule (insertZeros zeroAt c.operandStart tokens) = c.schedule tokens := by
  induction tokens generalizing c with
  | nil => rfl
  | cons token tokens ih =>
    have hrest := ih (c.next token)
    rw [Control.operandStart_next] at hrest
    rw [insertZeros, Control.schedule_cons c token tokens]
    split
    · rename_i hsign
      obtain ⟨content | s, position⟩ := token
      · simp [Token.isSign] at hsign
      · -- After the zero no operand may start, so the sign is an operator only.
        have hcode : c.code ⟨.symbol s, position⟩ =
            (.push Arithmetic.zero : Instruction α ρ) ::
              (⟨c.operators, false⟩ : Control ρ).code ⟨.symbol s, position⟩ := by
          have hs : (c.operandStart && s.isSign) = true := hsign
          simp [Control.code, Control.signCode, hs]
        rw [Control.schedule_literal, hcode, List.cons_append, ← hrest]
        rfl
    · rw [Control.schedule_cons, hrest]

end Tokens

/-! ## Texts with zeros -/

/-- A text with the digit zero in front of each sign.  A plus or a minus is a
sign at the start of the text, if `groupStart` says so, and after an opening
parenthesis. -/
def fillSigns (groupStart : Bool) : List Char → List Char
  | [] => []
  | c :: cs =>
    (if groupStart && (c == '+' || c == '-') then ['0'] else []) ++
      c :: fillSigns (c == '(') cs

/-- The byte offsets of the signs of a text that starts at `start`. -/
def signOffsets (groupStart : Bool) (start : Nat) : List Char → List Nat
  | [] => []
  | c :: cs =>
    (if groupStart && (c == '+' || c == '-') then [start] else []) ++
      signOffsets (c == '(') (start + c.utf8Size) cs

/-- An expression with the digit zero in front of each sign. -/
def withZeros (expression : String) : String :=
  String.ofList (fillSigns true expression.toList)

/-- Where an offset of an expression is after the zeros have been written:
each zero at or before it moves it by one. -/
def offsetWithZeros (expression : String) (offset : Nat) : Nat :=
  offset + (signOffsets true 0 expression.toList).countP (· ≤ offset)

theorem mem_signOffsets {groupStart : Bool} {start offset : Nat} {cs : List Char}
    (h : offset ∈ signOffsets groupStart start cs) :
    start ≤ offset ∧ offset < start + byteLength cs := by
  induction cs generalizing groupStart start with
  | nil => cases h
  | cons c cs ih =>
    have hpos := c.utf8Size_pos
    rw [byteLength_cons]
    rcases List.mem_append.1 h with h | h
    · split at h
      · obtain rfl := List.mem_singleton.1 h
        omega
      · cases h
    · have hrest := ih h
      omega

/-- All signs of a text that starts later come later. -/
theorem countP_signOffsets_of_lt {start offset : Nat} (h : offset < start)
    (groupStart : Bool) (cs : List Char) :
    (signOffsets groupStart start cs).countP (· ≤ offset) = 0 := by
  refine List.countP_eq_zero.2 ?_
  intro sign hsign
  have hle := (mem_signOffsets hsign).1
  rw [decide_eq_true_eq]
  omega

/-- Each sign makes the text one byte longer. -/
theorem byteLength_fillSigns (groupStart : Bool) (start : Nat) (cs : List Char) :
    byteLength (fillSigns groupStart cs) =
      byteLength cs + (signOffsets groupStart start cs).length := by
  induction cs generalizing groupStart start with
  | nil => rfl
  | cons c cs ih =>
    have hrest := ih (c == '(') (start + c.utf8Size)
    have hzero : byteLength ['0'] = 1 := rfl
    rw [fillSigns, signOffsets, byteLength_append, byteLength_cons, byteLength_cons,
      List.length_append, hrest]
    split
    · rw [hzero, List.length_singleton]
      omega
    · rw [byteLength_nil, List.length_nil]
      omega

/-- The end of an expression moves to the end of the new one. -/
theorem byteLength_withZeros (expression : String) :
    byteLength (withZeros expression).toList =
      offsetWithZeros expression (byteLength expression.toList) := by
  have hall : (signOffsets true 0 expression.toList).countP
      (· ≤ byteLength expression.toList) =
        (signOffsets true 0 expression.toList).length := by
    refine List.countP_eq_length.2 ?_
    intro offset hoffset
    have hlt := (mem_signOffsets hoffset).2
    exact decide_eq_true (by omega)
  rw [withZeros, String.toList_ofList, byteLength_fillSigns true 0, offsetWithZeros, hall]

/-! ## The tokens of a text with zeros -/

namespace Token

/-- The tokens with a literal `0` in front of each sign. -/
def fill (groupStart : Bool) : List (Token (List Char)) → List (Token (List Char))
  | [] => []
  | t :: ts =>
    (if groupStart && t.isSign then [.literal ['0']] else []) ++ t :: fill t.opensGroup ts

theorem literal_char {c : Char} (h : Symbol.ofChar? c = none) :
    (c == '+' || c == '-') = false ∧ (c == '(') = false := by
  have hne : ∀ s : Symbol, (c == s.toChar) = false := by
    intro s
    rw [beq_eq_false_iff_ne]
    rintro rfl
    rw [Symbol.ofChar?_toChar] at h
    cases h
  have hplus := hne (.binary .add)
  have hminus := hne (.binary .sub)
  have hopen := hne (.paren .left)
  refine ⟨?_, hopen⟩
  rw [Bool.or_eq_false_iff]
  exact ⟨hplus, hminus⟩

/-- There is no zero before or inside a literal, and no sign right after it. -/
theorem fillSigns_literal (groupStart : Bool) {cs : List Char} (rest : List Char)
    (hne : cs ≠ []) (hcs : ∀ c ∈ cs, Symbol.ofChar? c = none) :
    fillSigns groupStart (cs ++ rest) = cs ++ fillSigns false rest := by
  induction cs generalizing groupStart with
  | nil => exact absurd rfl hne
  | cons c cs ih =>
    obtain ⟨hsign, hopen⟩ := literal_char (hcs c List.mem_cons_self)
    have hrest : fillSigns false (cs ++ rest) = cs ++ fillSigns false rest := by
      cases cs with
      | nil => rfl
      | cons d ds => exact ih false (by simp) fun x hx => hcs x (List.mem_cons_of_mem c hx)
    rw [List.cons_append, fillSigns, hsign, hopen, Bool.and_false, hrest]
    rfl

theorem signOffsets_literal (groupStart : Bool) (start : Nat) {cs : List Char}
    (rest : List Char) (hne : cs ≠ []) (hcs : ∀ c ∈ cs, Symbol.ofChar? c = none) :
    signOffsets groupStart start (cs ++ rest) =
      signOffsets false (start + byteLength cs) rest := by
  induction cs generalizing groupStart start with
  | nil => exact absurd rfl hne
  | cons c cs ih =>
    obtain ⟨hsign, hopen⟩ := literal_char (hcs c List.mem_cons_self)
    have hrest : signOffsets false (start + c.utf8Size) (cs ++ rest) =
        signOffsets false (start + c.utf8Size + byteLength cs) rest := by
      cases cs with
      | nil => rfl
      | cons d ds =>
        exact ih false _ (by simp) fun x hx => hcs x (List.mem_cons_of_mem c hx)
    rw [List.cons_append, signOffsets, hsign, hopen, Bool.and_false, hrest, byteLength_cons,
      Nat.add_assoc]
    rfl

/-- The zeros of a text, one token further. -/
theorem fillSigns_chars_append {t : Token (List Char)} (ht : t.Proper) (groupStart : Bool)
    (rest : List Char) :
    fillSigns groupStart (t.chars ++ rest) =
      (if groupStart && t.isSign then ['0'] else []) ++
        t.chars ++ fillSigns t.opensGroup rest := by
  cases t with
  | literal cs =>
    rw [chars_literal, fillSigns_literal groupStart rest ht.1 ht.2, isSign, Bool.and_false]
    rfl
  | symbol s =>
    obtain ⟨hsign, hopen⟩ := symbol_chars (τ := List Char) s
    rw [chars_symbol, List.singleton_append, fillSigns, hsign, hopen, List.append_assoc]
    rfl

/-- The offsets of the signs, one token further. -/
theorem signOffsets_chars_append {t : Token (List Char)} (ht : t.Proper)
    (groupStart : Bool) (start : Nat) (rest : List Char) :
    signOffsets groupStart start (t.chars ++ rest) =
      (if groupStart && t.isSign then [start] else []) ++
        signOffsets t.opensGroup (start + byteLength t.chars) rest := by
  cases t with
  | literal cs =>
    rw [chars_literal, signOffsets_literal groupStart start rest ht.1 ht.2, isSign,
      Bool.and_false]
    rfl
  | symbol s =>
    obtain ⟨hsign, hopen⟩ := symbol_chars (τ := List Char) s
    rw [chars_symbol, List.singleton_append, signOffsets, hsign, hopen]
    rfl

theorem flatMap_chars_fill {ts : List (Token (List Char))} (h : Separated ts)
    (groupStart : Bool) :
    (fill groupStart ts).flatMap chars = fillSigns groupStart (ts.flatMap chars) := by
  induction ts generalizing groupStart with
  | nil => rfl
  | cons t ts ih =>
    have ht : t.Proper := h.proper t List.mem_cons_self
    rw [fill, List.flatMap_append, List.flatMap_cons, List.flatMap_cons,
      fillSigns_chars_append ht, ih h.tail, List.append_assoc]
    split <;> rfl

/-- A zero stands between symbols, or at the very start. -/
theorem separated_fill {ts : List (Token (List Char))} (h : Separated ts)
    (groupStart : Bool) : Separated (fill groupStart ts) := by
  induction ts generalizing groupStart with
  | nil => exact separated_nil
  | cons t ts ih =>
    have hrest := ih h.tail t.opensGroup
    cases t with
    | symbol s =>
      refine separated_append_symbol s ?_ hrest
      split
      · exact separated_literal (by simp) (List.forall_mem_singleton.2 rfl)
      · exact separated_nil
    | literal cs =>
      have hhead : (fill false ts).head? = ts.head? := by
        cases ts <;> rfl
      rw [fill, isSign, Bool.and_false]
      refine ⟨List.forall_mem_cons.2 ⟨h.proper _ List.mem_cons_self, hrest.proper⟩,
        List.isChain_cons.2 ⟨?_, hrest.apart⟩⟩
      intro u hu
      have hu' : u ∈ ts.head? := hhead ▸ hu
      have hsymbol := h.not_literal_of_literal_cons u hu'
      simp [hsymbol]

theorem lex_withZeros (expression : String) :
    lex (withZeros expression).toList = fill true (lex expression.toList) := by
  have hlex := separated_lex expression.toList
  have hchars := flatMap_chars_fill hlex true
  rw [flatMap_chars_lex] at hchars
  rw [withZeros, String.toList_ofList, ← hchars, lex_flatMap_chars (separated_fill hlex true)]

end Token

/-! ## The positions of a text with zeros -/

/-- Where an offset moves to, after `zeros` zeros and those of the given offsets
that are not behind it. -/
def moved (zeros : Nat) (offsets : List Nat) (offset : Nat) : Nat :=
  offset + zeros + offsets.countP (· ≤ offset)

/-- Zeros in front of an offset move it by their number. -/
theorem moved_append {earlier : List Nat} (later : List Nat) (zeros : Nat) {offset : Nat}
    (h : ∀ sign ∈ earlier, sign ≤ offset) :
    moved zeros (earlier ++ later) offset = moved (zeros + earlier.length) later offset := by
  have hall : earlier.countP (· ≤ offset) = earlier.length :=
    List.countP_eq_length.2 fun sign hsign => decide_eq_true (h sign hsign)
  rw [moved, moved, List.countP_append, hall]
  omega

theorem map_moved_append {τ : Type} {tokens : List (Located Nat τ)} {earlier : List Nat}
    (later : List Nat) (zeros : Nat)
    (h : ∀ sign ∈ earlier, ∀ token ∈ tokens, sign ≤ token.position) :
    tokens.map (Located.mapPosition (moved zeros (earlier ++ later))) =
      tokens.map (Located.mapPosition (moved (zeros + earlier.length) later)) := by
  refine List.map_congr_left fun token htoken => ?_
  have hmoved := moved_append later zeros fun sign hsign => h sign hsign token htoken
  exact congrArg (Located.mk token.item) hmoved

/-- Zeros behind an offset do not move it. -/
theorem moved_signOffsets {start offset : Nat} (h : offset < start) (zeros : Nat)
    (groupStart : Bool) (cs : List Char) :
    moved zeros (signOffsets groupStart start cs) offset = offset + zeros := by
  rw [moved, countP_signOffsets_of_lt h, Nat.add_zero]

namespace Token

/-- The tokens of the new text are the old tokens at their new offsets, and
the zeros in between. -/
theorem placed_fill {α : Type} [Arithmetic α] {read : List Char → Reading α}
    (hzero : read ['0'] = .ok Arithmetic.zero) {ts : List (Token (List Char))}
    (h : Separated ts) (groupStart : Bool) (start zeros : Nat) :
    placed read (start + zeros) (fill groupStart ts) =
      insertZeros (· - 1) groupStart ((placed read start ts).map (Located.mapPosition
        (moved zeros (signOffsets groupStart start (ts.flatMap chars))))) := by
  induction ts generalizing groupStart start zeros with
  | nil => rfl
  | cons t ts ih =>
    have ht : t.Proper := h.proper t List.mem_cons_self
    have hlength : 0 < byteLength t.chars := ht.byteLength_chars_pos
    have hlt : start < start + byteLength t.chars := by omega
    have hafter : ∀ token ∈ placed read (start + byteLength t.chars) ts,
        start ≤ token.position := fun token htoken =>
      Nat.le_trans (Nat.le_of_lt hlt) (le_position_of_mem_placed htoken)
    have hitem : (t.map read).isSign = t.isSign ∧ (t.map read).opensGroup = t.opensGroup := by
      rcases t with cs | op | _ | _ <;> exact ⟨rfl, rfl⟩
    rw [fill, List.flatMap_cons, placed_cons, List.map_cons, insertZeros,
      signOffsets_chars_append ht]
    simp only [Located.item_mapPosition, Located.position_mapPosition, hitem.1, hitem.2]
    cases hsign : groupStart && t.isSign with
    | true =>
      -- The zero goes to the offset of its sign, and the sign one further.
      have hhere := (moved_append _ zeros (List.forall_mem_singleton.2 (Nat.le_refl start))).trans
        (moved_signOffsets hlt (zeros + 1) t.opensGroup (ts.flatMap chars))
      have hlater := map_moved_append (signOffsets t.opensGroup (start + byteLength t.chars)
        (ts.flatMap chars)) zeros (List.forall_mem_singleton.2 hafter)
      have hrest := ih h.tail t.opensGroup (start + byteLength t.chars) (zeros + 1)
      have hzeroLength : byteLength (literal ['0']).chars = 1 := rfl
      have hnext : start + zeros + 1 + byteLength t.chars =
          start + byteLength t.chars + (zeros + 1) := by omega
      simp only [if_true]
      rw [hlater, List.length_singleton, ← hrest, List.singleton_append, placed_cons,
        placed_cons, hzeroLength, hnext]
      simp only [Located.mapPosition, hhere, map_literal, hzero, Nat.add_sub_cancel,
        ← Nat.add_assoc]
    | false =>
      have hrest := ih h.tail t.opensGroup (start + byteLength t.chars) zeros
      have hnext : start + zeros + byteLength t.chars =
          start + byteLength t.chars + zeros := by omega
      simp only [Bool.false_eq_true, if_false, List.nil_append]
      rw [placed_cons, hnext, hrest]
      simp only [Located.mapPosition, moved_signOffsets hlt]

end Token

/-! ## Evaluation -/

/-- The digit zero is read as the operand that a sign takes from. -/
theorem Literal.read_zero : Literal.read ['0'] = .ok Arithmetic.zero :=
  rfl

/-- The tokens of the new text, read. -/
theorem readTokens_withZeros (expression : String) :
    readTokens (withZeros expression) =
      insertZeros (· - 1) true ((readTokens expression).map
        (Located.mapPosition (offsetWithZeros expression))) := by
  have hplaced := Token.placed_fill Literal.read_zero
    (Token.separated_lex expression.toList) true 0 0
  rw [Token.flatMap_chars_lex] at hplaced
  rw [readTokens_eq_placed, Token.lex_withZeros]
  exact hplaced

/-- The run of the new text is the run of the old one, with the offsets
moved. -/
theorem run_withZeros (state : Stacks Float Nat) (expression : String) :
    state.run (readTokens (withZeros expression))
        (byteLength (withZeros expression).toList) =
      Run.rename id (Origin.position (offsetWithZeros expression)) id
        (markedRun state expression) := by
  rw [← run_eq_marked, readTokens_withZeros, byteLength_withZeros, run_eq_execute,
    run_eq_execute]
  exact congrArg (fun code => execute state.operands code >>= Stacks.onlyValue _)
    (schedule_insertZeros (· - 1) ⟨state.operators, true⟩ _)

/-- On any stacks, an expression and the one with zeros in front of its signs
have the same outcome, up to the offsets that the zeros move, and they make
the same reductions.  Positions that waited stay as they are. -/
theorem evaluateOn_withZeros (state : Stacks Float Nat) (expression : String) :
    (evaluateOn state expression).outcome =
        (markedRun state expression).outcome.mapError (Fault.map (Origin.position id)) ∧
      (evaluateOn state (withZeros expression)).outcome =
        (markedRun state expression).outcome.mapError
          (Fault.map (Origin.position (offsetWithZeros expression))) ∧
      reductions (evaluateOn state (withZeros expression)).log =
        reductions (evaluateOn state expression).log ∧
      ∀ fault, (markedRun state expression).outcome = .error fault →
        ∀ origin ∈ fault.position?, origin.Occurs state expression := by
  refine ⟨outcome_evaluateOn_eq_marked state expression, ?_, ?_, ?_⟩
  · rw [outcome_evaluateOn, run_withZeros, outcome_rename_id]
  · rw [reductions_evaluateOn_eq_marked state expression, reductions_evaluateOn,
      run_withZeros, reductions_rename_id]
  · exact fun fault hfault => occurs_of_marked hfault

/-- A product that waited lacks its left operand.  Its position is not an
offset of the expression, and so the zero does not move it.  With an operand that
waited too, the product has the same value for both texts. -/
theorem evaluateOn_withZeros_waiting :
    (markedRun ⟨[], [⟨.binary .mul, 1⟩]⟩ "-5").outcome =
        .error (.missingOperand (.seeded 1)) ∧
      (evaluateOn ⟨[], [⟨.binary .mul, 1⟩]⟩ "-5").outcome = .error (.missingOperand 1) ∧
      (evaluateOn ⟨[], [⟨.binary .mul, 1⟩]⟩ (withZeros "-5")).outcome =
        .error (.missingOperand 1) ∧
      (Origin.seeded 1).Occurs ⟨[], [⟨.binary .mul, 1⟩]⟩ "-5" ∧
      ∃ value, Event.numeral value = "-20" ∧
        (evaluateOn ⟨[Binary64.readDecimal ⟨4, 0⟩], [⟨.binary .mul, 1⟩]⟩ "(-5)").outcome =
          .ok value ∧
        (evaluateOn ⟨[Binary64.readDecimal ⟨4, 0⟩], [⟨.binary .mul, 1⟩]⟩
          (withZeros "(-5)")).outcome = .ok value := by
  obtain ⟨hold, hnew, -, hoccurs⟩ :=
    evaluateOn_withZeros ⟨[], [⟨.binary .mul, 1⟩]⟩ "-5"
  have hmarked : (markedRun ⟨[], [⟨.binary .mul, 1⟩]⟩ "-5").outcome =
      .error (.missingOperand (.seeded 1)) := rfl
  rw [hmarked] at hold hnew
  obtain ⟨hold', hnew', -, -⟩ :=
    evaluateOn_withZeros ⟨[Binary64.readDecimal ⟨4, 0⟩], [⟨.binary .mul, 1⟩]⟩ "(-5)"
  obtain ⟨value, hvalue, htext⟩ : ∃ value,
      (markedRun ⟨[Binary64.readDecimal ⟨4, 0⟩], [⟨.binary .mul, 1⟩]⟩ "(-5)").outcome =
        .ok value ∧ Event.numeral value = "-20" := ⟨_, rfl, by decide +kernel⟩
  rw [hvalue] at hold' hnew'
  exact ⟨hmarked, hold, hnew, hoccurs _ hmarked _ rfl, value, htext, hold', hnew'⟩

end InfixArith
