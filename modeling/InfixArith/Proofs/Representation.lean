import InfixArith.Proofs.Accounting
import InfixArith.Proofs.Openings

/-!
# What the stacks hold

At every moment of a scan from empty stacks, the two stacks can be read off
the tokens that have been scanned.  `Tracks` collects what is kept from token
to token, with `Tracks.step` for one token and `tracks_of_steps` for any
number of them.  `represents_of_steps` says it for the tokens of an
expression.
-/

namespace InfixArith

variable {α ρ τ : Type}

/-! ## Positions -/

/-- The symbols that wait are among those that waited and the new one, in
their order. -/
theorem Stacks.receiveOperators_sublist (incoming : Located ρ Symbol)
    (operators : List (Located ρ Symbol)) :
    (receiveOperators incoming operators).Sublist (incoming :: operators) := by
  induction operators with
  | nil => exact List.Sublist.refl _
  | cons top rest ih =>
    rw [receiveOperators]
    split
    · exact ih.trans ((List.sublist_cons_self top rest).cons_cons incoming)
    · exact ((List.Sublist.refl rest).cons top).cons incoming
    · exact List.Sublist.refl _

/-- The symbols that wait, as tokens, the lowest first. -/
def waitingTokens (operators : List (Located ρ Symbol)) : List (Located ρ (Token τ)) :=
  operators.reverse.map (Located.mapItem Token.symbol)

theorem Control.waitingTokens_next {c : Control ρ} {scanned : List (Located ρ (Token τ))}
    (token : Located ρ (Token τ)) (h : (waitingTokens c.operators).Sublist scanned) :
    (waitingTokens (c.next token).operators).Sublist (scanned ++ [token]) := by
  rcases token with ⟨content | s, position⟩
  · exact h.trans (List.sublist_append_left scanned _)
  · have hreceive :=
      (Stacks.receiveOperators_sublist ⟨s, position⟩ c.operators).reverse.map
        (Located.mapItem (Token.symbol : Symbol → Token τ))
    rw [List.reverse_cons, List.map_append] at hreceive
    exact hreceive.trans (h.append (List.Sublist.refl _))

/-! ## The shape of the waiting symbols -/

/-- A closing parenthesis without a partner waits, and nothing else does. -/
def StrayAlone (scanned : List (Located ρ (Token τ)))
    (operators : List (Located ρ Symbol)) : Prop :=
  ∃ before position after, operators = [⟨.paren .right, position⟩] ∧
    scanned = before ++ ⟨.symbol (.paren .right), position⟩ :: after ∧
    Token.Balanced (before.map Located.item)

/-- No closing parenthesis waits, and the opening ones are as many as are
open. -/
def Nested (scanned : List (Located ρ (Token τ))) (operators : List (Located ρ Symbol)) :
    Prop :=
  NoStray operators ∧
    Token.nesting 0 (scanned.map Located.item) = some (openCount operators)

/-- A closing parenthesis without a partner gets down to the bottom. -/
theorem Stacks.receive_stray {operators : List (Located ρ Symbol)} (hstray : NoStray operators)
    (hopen : openCount operators = 0) (position : ρ) :
    receiveOperators ⟨.paren .right, position⟩ operators = [⟨.paren .right, position⟩] := by
  induction operators with
  | nil => rfl
  | cons top rest ih =>
    rcases top with ⟨op | _ | _, place⟩
    · rw [openCount_cons_of_ne (by simp)] at hopen
      exact ih hstray.tail hopen
    · rw [openCount_cons_left] at hopen
      cases hopen
    · exact absurd rfl (hstray _ List.mem_cons_self)

/-- One more token keeps the shape, or leaves a closing parenthesis alone. -/
theorem Control.nested_next {c : Control ρ} {scanned : List (Located ρ (Token (Reading α)))}
    (token : Located ρ (Token (Reading α))) (h : Nested scanned c.operators) :
    Nested (scanned ++ [token]) (c.next token).operators ∨
      StrayAlone (scanned ++ [token]) (c.next token).operators := by
  obtain ⟨hstray, hnesting⟩ := h
  cases hnest : token.item.nest (openCount c.operators) with
  | some depth =>
    obtain ⟨hstray', hdepth⟩ := c.nest_next hstray hnest
    refine .inl ⟨hstray', ?_⟩
    rw [List.map_append, List.map_singleton, Token.nesting_concat, hnesting, hdepth]
    exact hnest
  | none =>
    obtain ⟨hopen, hitem⟩ := Token.nest_eq_none_iff.1 hnest
    obtain ⟨item, position⟩ := token
    obtain rfl : item = .symbol (.paren .right) := hitem
    refine .inr ⟨scanned, position, [], Stacks.receive_stray hstray hopen position, rfl, ?_⟩
    rw [Token.Balanced, hnesting, hopen]

/-- While a closing parenthesis waits alone, only literals go by. -/
theorem Control.strayAlone_next [Arithmetic α] {c : Control ρ}
    {scanned : List (Located ρ (Token (Reading α)))} (token : Located ρ (Token (Reading α)))
    (hplain : ∀ i ∈ c.code token, i.Plain) (h : StrayAlone scanned c.operators) :
    StrayAlone (scanned ++ [token]) (c.next token).operators := by
  obtain ⟨before, position, after, hoperators, rfl, hbalanced⟩ := h
  rcases token with ⟨content | s, place⟩
  · exact ⟨before, position, after ++ [⟨.literal content, place⟩], hoperators, by simp,
      hbalanced⟩
  · -- A symbol would have to reduce the parenthesis.
    have hmem : (.reduce ⟨.paren .right, position⟩ : Instruction α ρ) ∈
        c.code ⟨.symbol s, place⟩ := by
      rw [code, hoperators]
      exact List.mem_append_right _ List.mem_cons_self
    obtain ⟨op, hop⟩ := hplain _ hmem
    cases hop

/-! ## Stretches of operators -/

/-- From the bottom to the top: at most one plus or minus, then at most one
product or quotient, then powers. -/
def Ascends (ops : List BinaryOp) : Prop :=
  ∃ sums products powers, ops = sums ++ products ++ powers ∧
    sums.length ≤ 1 ∧ (∀ op ∈ sums, op = .add ∨ op = .sub) ∧
    products.length ≤ 1 ∧ (∀ op ∈ products, op = .mul ∨ op = .div) ∧
    ∀ op ∈ powers, op = .pow

/-- If nothing in a first part may come next, then the first part is empty. -/
theorem eq_nil_of_forall_head? {β : Type} {p : β → Prop} {xs ys : List β}
    (hxs : ∀ x ∈ xs, ¬p x) (h : ∀ y ∈ (xs ++ ys).head?, p y) : xs = [] := by
  cases xs with
  | nil => rfl
  | cons x xs => exact absurd (h x rfl) (hxs x List.mem_cons_self)

/-- Operators ascend if each one admits the next. -/
theorem ascends_of_isChain {ops : List BinaryOp}
    (h : ops.IsChain fun below top =>
      (Symbol.binary below).precedence (.binary top) = .lower) : Ascends ops := by
  induction ops with
  | nil => exact ⟨[], [], [], by simp⟩
  | cons op ops ih =>
    obtain ⟨sums, products, powers, rfl, hsums, hsum, hproducts, hproduct, hpowers⟩ :=
      ih h.tail
    have hnext := (List.isChain_cons.1 h).1
    -- No operator admits a plus or a minus, so the rest starts higher.
    obtain rfl : sums = [] := by
      rw [List.append_assoc] at hnext
      refine eq_nil_of_forall_head? ?_ hnext
      intro top htop
      rcases hsum top htop with rfl | rfl <;> cases op <;> decide
    by_cases hop : op = .add ∨ op = .sub
    · exact ⟨[op], products, powers, rfl, Nat.le_refl 1, by simpa using hop, hproducts,
        hproduct, hpowers⟩
    -- The others do not admit a product or a quotient either.
    obtain rfl : products = [] := by
      refine eq_nil_of_forall_head? ?_ hnext
      intro top htop
      revert hop
      rcases hproduct top htop with rfl | rfl <;> cases op <;> decide
    cases op with
    | add => simp at hop
    | sub => simp at hop
    | mul => exact ⟨[], [.mul], powers, rfl, by simp, by simp, by simp, by simp, hpowers⟩
    | div => exact ⟨[], [.div], powers, rfl, by simp, by simp, by simp, by simp, hpowers⟩
    | pow =>
      refine ⟨[], [], .pow :: powers, rfl, by simp, by simp, by simp, by simp, ?_⟩
      exact List.forall_mem_cons.2 ⟨rfl, hpowers⟩

/-- A stretch of layered symbols that holds operators only ascends. -/
theorem ascends_of_layered {operators : List (Located ρ Symbol)} (h : Layered operators)
    {ops : List BinaryOp}
    (hops : ops.map Symbol.binary <:+: operators.reverse.map Located.item) : Ascends ops := by
  have hchain : (operators.reverse.map Located.item).IsChain
      fun below top => below.precedence top = .lower := by
    rw [List.isChain_map]
    exact List.isChain_reverse.2 h
  have hstretch := hchain.infix hops
  rw [List.isChain_map] at hstretch
  exact ascends_of_isChain hstretch

/-! ## One token, and any number of them -/

/-- One more token at the end is a sign if the one before it opened a group. -/
theorem Token.signCount_concat (groupStart : Bool) (ts : List (Token τ)) (t : Token τ) :
    signCount groupStart (ts ++ [t]) =
      signCount groupStart ts +
        ((ts.getLast?.map opensGroup).getD groupStart && t.isSign).toNat := by
  induction ts generalizing groupStart with
  | nil => simp [signCount]
  | cons u ts ih =>
    rw [List.cons_append, signCount, signCount, ih, List.getLast?_cons]
    cases ts.getLast? <;> simp [Nat.add_assoc]

/-- What is known of a scan that has gone over these tokens, from empty
stacks. -/
structure Tracks (scanned : List (Located ρ (Token (Reading α)))) (scan : Scan α ρ) :
    Prop where
  operandStart : scan.operandStart =
    ((scanned.map Located.item).getLast?.map Token.opensGroup).getD true
  waiting : (waitingTokens scan.operators).Sublist scanned
  layered : Layered scan.operators
  opened : openings scan.operators = scanned.foldl stillOpen []
  shape : Nested scanned scan.operators ∨ StrayAlone scanned scan.operators
  balance : scan.operands.length + (scanned.map Located.item).countP Token.isBinary =
    (scanned.map Located.item).countP Token.isLiteral +
      Token.signCount true (scanned.map Located.item) + binaryCount scan.operators

theorem tracks_start : Tracks [] (Scan.start (Stacks.empty : Stacks α ρ)) where
  operandStart := rfl
  waiting := List.Sublist.refl _
  layered := .nil
  opened := rfl
  shape := .inl ⟨(fun _ htop => nomatch htop), rfl⟩
  balance := rfl

variable [Arithmetic α]

/-- A token that is scanned without a fault keeps all of it. -/
theorem Tracks.step {scanned : List (Located ρ (Token (Reading α)))} {scan next : Scan α ρ}
    {token : Located ρ (Token (Reading α))} (h : Tracks scanned scan)
    (hstep : (scan.step token).outcome = .ok next) : Tracks (scanned ++ [token]) next := by
  obtain ⟨hcode, hnext⟩ := outcome_step_eq_ok hstep
  obtain ⟨hplain, hlength⟩ := length_of_execute hcode
  obtain ⟨hpush, happly⟩ := Control.countP_code _ token hplain
  have hoperators : next.operators = ((Control.ofScan scan).next token).operators :=
    congrArg Control.operators hnext
  rw [← hoperators] at happly
  constructor
  · rw [Scan.operandStart_of_step hstep]
    simp
  · rw [hoperators]
    exact Control.waitingTokens_next token h.waiting
  · rw [hoperators]
    exact Control.layered_next _ token h.layered
  · rw [hoperators, Control.openings_next, List.foldl_append, ← h.opened]
    rfl
  · rw [hoperators]
    rcases h.shape with hnested | hstray
    · exact Control.nested_next token hnested
    · exact .inr (Control.strayAlone_next token hplain hstray)
  · have hstart : (Control.ofScan scan).operandStart =
        ((scanned.map Located.item).getLast?.map Token.opensGroup).getD true :=
      h.operandStart
    have hbefore := h.balance
    have hwait : binaryCount (Control.ofScan scan).operators = binaryCount scan.operators :=
      rfl
    rw [hwait] at happly
    rw [List.map_append, List.map_singleton, List.countP_append, List.countP_append,
      Token.signCount_concat, ← hstart, countP_cons_toNat, countP_cons_toNat,
      List.countP_nil, List.countP_nil]
    omega

/-- So do any number of tokens. -/
theorem tracks_of_steps {tokens : List (Located ρ (Token (Reading α)))} {scan : Scan α ρ}
    (h : ((Scan.start Stacks.empty).steps tokens).outcome = .ok scan) : Tracks tokens scan := by
  induction tokens using List.reverseRecOn generalizing scan with
  | nil =>
    cases h
    exact tracks_start
  | append_singleton tokens token ih =>
    rw [Scan.steps_append] at h
    obtain ⟨middle, hbefore, hlast⟩ := Recorded.outcome_bind_eq_ok_iff.1 h
    rw [Scan.steps_cons] at hlast
    obtain ⟨last, hstep, hnil⟩ := Recorded.outcome_bind_eq_ok_iff.1 hlast
    cases hnil
    exact (ih hbefore).step hstep

/-! ## Expressions -/

/-- A symbol stands in the expression at the offset that is recorded for it. -/
def StandsAt (expression : String) (entry : Located Nat Symbol) : Prop :=
  ∃ before after, expression.toList = before ++ entry.item.toChar :: after ∧
    entry.position = byteLength before

theorem standsAt_of_mem {expression : String} {entry : Located Nat Symbol}
    (h : entry.mapItem Token.symbol ∈ readTokens expression) : StandsAt expression entry := by
  obtain ⟨⟨cs | s, position⟩, ht, hitem⟩ := List.mem_map.1 h
  · cases hitem
  · cases hitem
    obtain ⟨before, after, hchars, hposition⟩ := Token.exists_of_mem_place ht
    refine ⟨before, after, ?_, ?_⟩
    · rw [Token.flatMap_chars_lex] at hchars
      rw [hchars, Token.chars_symbol, List.append_assoc]
      rfl
    · rw [Nat.zero_add] at hposition
      exact hposition

/-- What the waiting symbols are, read off the expression and its tokens that
have been scanned.  The stack is listed from its top, and reversed where it
is read from the bottom. -/
structure WellStacked (expression : String) (scanned : List (Located Nat (Token τ)))
    (operators : List (Located Nat Symbol)) : Prop where
  noStray : ∀ top ∈ operators, top.item ≠ .paren .right
  standsAt : ∀ top ∈ operators, StandsAt expression top
  increasing : (operators.reverse.map Located.position).Pairwise (· < ·)
  unclosed : ∀ position, ⟨.paren .left, position⟩ ∈ operators ↔ Unclosed scanned position
  ascends : ∀ ops : List BinaryOp,
    ops.map Symbol.binary <:+: operators.reverse.map Located.item → Ascends ops

/-- After the first tokens of an expression, if none was a fault: a closing
parenthesis without a partner waits alone, or the stack of symbols is as it
should be.  Either way the stacks balance with the tokens. -/
theorem represents_of_steps {expression : String}
    {scanned : List (Located Nat (Token (Reading Float)))} {scan : Scan Float Nat}
    (hscanned : scanned <+: readTokens expression)
    (h : ((Scan.start Stacks.empty).steps scanned).outcome = .ok scan) :
    (StrayAlone scanned scan.operators ∨ WellStacked expression scanned scan.operators) ∧
      (scan.operands.length : Int) - binaryCount scan.operators =
        (scanned.map Located.item).countP Token.isLiteral +
          Token.signCount true (scanned.map Located.item) -
          (scanned.map Located.item).countP Token.isBinary := by
  have htracks := tracks_of_steps h
  refine ⟨?_, by have := htracks.balance; omega⟩
  rcases htracks.shape with ⟨hstray, -⟩ | hstray
  · right
    have hwaiting : (waitingTokens scan.operators).Sublist (readTokens expression) :=
      htracks.waiting.trans hscanned.sublist
    refine ⟨hstray, ?_, ?_, ?_, fun ops hops => ascends_of_layered htracks.layered hops⟩
    · intro top htop
      refine standsAt_of_mem (hwaiting.subset ?_)
      exact List.mem_map_of_mem (List.mem_reverse.2 htop)
    · have hpositions := Token.pairwise_position_placed Literal.read 0
        (Token.separated_lex expression.toList)
      have hincreasing := hpositions.sublist (hwaiting.map Located.position)
      rwa [waitingTokens, List.map_map] at hincreasing
    · intro position
      rw [← mem_openings_iff, htracks.opened, mem_foldl_stillOpen_iff]
  · exact .inl hstray

/-- The minus in front of the product is still waiting, and the one behind
the parenthesis has been applied to its zero. -/
theorem represents_of_open_group :
    ∃ scan : Scan Float Nat,
      ((Scan.start Stacks.empty).steps ((readTokens "1-2*(-3+4^5)").take 11)).outcome =
          .ok scan ∧
        scan.operators = [⟨.binary .pow, 9⟩, ⟨.binary .add, 7⟩, ⟨.paren .left, 4⟩,
          ⟨.binary .mul, 3⟩, ⟨.binary .sub, 1⟩] ∧
        WellStacked "1-2*(-3+4^5)" ((readTokens "1-2*(-3+4^5)").take 11) scan.operators ∧
        (scan.operands.length : Int) - binaryCount scan.operators = 1 := by
  obtain ⟨scan, hscan, hoperators⟩ : ∃ scan : Scan Float Nat,
      ((Scan.start Stacks.empty).steps ((readTokens "1-2*(-3+4^5)").take 11)).outcome =
          .ok scan ∧
        scan.operators = [⟨.binary .pow, 9⟩, ⟨.binary .add, 7⟩, ⟨.paren .left, 4⟩,
          ⟨.binary .mul, 3⟩, ⟨.binary .sub, 1⟩] := ⟨_, rfl, rfl⟩
  obtain ⟨hshape, hbalance⟩ := represents_of_steps (List.take_prefix 11 _) hscan
  refine ⟨scan, hscan, hoperators, ?_, hbalance.trans (by decide +kernel)⟩
  rcases hshape with ⟨before, position, after, halone, -⟩ | hstacked
  · rw [hoperators] at halone
    cases halone
  · exact hstacked

end InfixArith
