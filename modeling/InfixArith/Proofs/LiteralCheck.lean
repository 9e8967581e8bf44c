import InfixArith.Literal
import Mathlib.Data.List.Count

/-!
# The check of a literal

The check counts the bytes of a text, and the reader takes the text apart at
its first point.  `isDecimal_eq` says that they accept the same texts.  So a
text that passes the check is read, and `readAs_eq` says as what.

`Tally.foldlM_utf8EncodeChar` leads from bytes to characters.  A character is
one byte, or its first byte is one that the check does not count, so its bytes
count as the character does.  `Tally.foldlM_countChar?_eq_some_iff` is what a
check has counted at the end of a text.
-/

namespace InfixArith.Literal

/-! ## Bytes and characters -/

namespace Tally

/-- Counts one character. -/
def countChar? (t : Tally) (c : Char) : Option Tally :=
  if c.isDigit then some { t with digits := t.digits + 1 }
  else if c = '.' then some { t with points := t.points + 1 }
  else none

/-- No byte above the digits is counted. -/
theorem count?_eq_none (t : Tally) {byte : UInt8} (h : 0x39 < byte.toNat) :
    t.count? byte = none := by
  have hdigit : ¬(0x30 ≤ byte ∧ byte ≤ 0x39) := by
    rintro ⟨-, hle⟩
    exact absurd (UInt8.le_iff_toNat_le.1 hle) (Nat.not_le.2 h)
  have hpoint : byte ≠ 0x2e := by
    rintro rfl
    exact absurd h (by decide)
  rw [count?, if_neg hdigit, if_neg hpoint]

/-- A character of one byte is counted as that byte. -/
theorem count?_ofNat (t : Tally) {c : Char} (h : c.toNat ≤ 127) :
    t.count? (UInt8.ofNat c.toNat) = t.countChar? c := by
  have hbyte : (UInt8.ofNat c.toNat).toNat = c.toNat := by
    rw [UInt8.toNat_ofNat']
    omega
  have hdigit : (0x30 ≤ UInt8.ofNat c.toNat ∧ UInt8.ofNat c.toNat ≤ 0x39) ↔ c.isDigit = true := by
    rw [UInt8.le_iff_toNat_le, UInt8.le_iff_toNat_le, hbyte, Char.isDigit_iff_toNat]
    rfl
  have hpoint : UInt8.ofNat c.toNat = 0x2e ↔ c = '.' := by
    rw [← UInt8.toNat_inj, hbyte, ← Char.toNat_inj]
    rfl
  rw [count?, countChar?]
  simp only [hdigit, hpoint]

/-- Other characters are neither digits nor points. -/
theorem countChar?_eq_none (t : Tally) {c : Char} (h : 127 < c.toNat) :
    t.countChar? c = none := by
  have hdigit : ¬c.isDigit = true := by
    rw [Char.isDigit_iff_toNat]
    rintro ⟨-, hle⟩
    exact absurd (Nat.le_trans hle (by decide : '9'.toNat ≤ 127)) (Nat.not_le.2 h)
  have hpoint : c ≠ '.' := by
    rintro rfl
    exact absurd h (by decide)
  rw [countChar?, if_neg hdigit, if_neg hpoint]

/-- The bytes of a character count as that character. -/
theorem foldlM_utf8EncodeChar (t : Tally) (c : Char) :
    (String.utf8EncodeChar c).foldlM count? t = t.countChar? c := by
  have hval : c.val.toNat = c.toNat := rfl
  -- Two bytes or more start with one that is at least `0xc0`.
  have hlong : ∀ (first : Nat) (rest : List UInt8), 0x39 < first → first < 256 →
      127 < c.toNat → (UInt8.ofNat first :: rest).foldlM count? t = t.countChar? c := by
    intro first rest hfirst hbound hc
    have hbyte : (UInt8.ofNat first).toNat = first := by
      rw [UInt8.toNat_ofNat']
      omega
    rw [List.foldlM_cons, count?_eq_none t (Nat.lt_of_lt_of_eq hfirst hbyte.symm), countChar?_eq_none t hc]
    rfl
  fun_cases String.utf8EncodeChar c with
  | case1 v h =>
    have hone : t.count? (UInt8.ofNat v) = t.countChar? c := count?_ofNat t h
    simp only [List.foldlM_cons, List.foldlM_nil, hone, bind_pure]
  | case2 v h => exact hlong _ _ (by omega) (by omega) (by omega)
  | case3 v h => exact hlong _ _ (by omega) (by omega) (by omega)
  | case4 v h => exact hlong _ _ (by omega) (by omega) (by omega)

/-- The check goes over the characters of a text. -/
theorem foldlM_utf8 (t : Tally) (text : String) :
    text.toUTF8.data.toList.foldlM count? t = text.toList.foldlM countChar? t := by
  have hbytes : text.toUTF8.data.toList = text.toList.flatMap String.utf8EncodeChar := by
    rw [String.toUTF8, ← String.utf8Encode_toList, List.utf8Encode, List.data_toByteArray]
  rw [hbytes]
  generalize text.toList = cs
  induction cs generalizing t with
  | nil => rfl
  | cons c cs ih =>
    rw [List.flatMap_cons, List.foldlM_append, foldlM_utf8EncodeChar, List.foldlM_cons]
    exact bind_congr fun t => ih t

/-! ## Counting a text -/

/-- What has been counted at the end of a text, which holds digits and points
only. -/
theorem foldlM_countChar?_eq_some_iff {t u : Tally} {cs : List Char} :
    cs.foldlM countChar? t = some u ↔
      (∀ c ∈ cs, c.isDigit = true ∨ c = '.') ∧
        u = ⟨t.digits + cs.countP Char.isDigit, t.points + cs.count '.'⟩ := by
  induction cs generalizing t with
  | nil =>
    refine ⟨?_, ?_⟩
    · rintro ⟨⟩
      exact ⟨List.forall_mem_nil _, rfl⟩
    · rintro ⟨-, rfl⟩
      rfl
  | cons c cs ih =>
    rw [List.foldlM_cons, List.forall_mem_cons, countChar?]
    by_cases hdigit : c.isDigit = true
    · have hpoint : c ≠ '.' := bne_iff_ne.1 (Decimal.ne_point_of_isDigit hdigit)
      rw [if_pos hdigit, Option.bind_eq_bind, Option.bind_some, ih,
        List.countP_cons_of_pos hdigit, List.count_cons_of_ne hpoint]
      simp only [hdigit, true_or, true_and, Nat.add_assoc, Nat.add_comm 1]
    · rw [if_neg hdigit]
      by_cases hpoint : c = '.'
      · subst hpoint
        rw [if_pos rfl, Option.bind_eq_bind, Option.bind_some, ih,
          List.countP_cons_of_neg hdigit, List.count_cons_self]
        simp only [or_true, true_and, Nat.add_assoc, Nat.add_comm 1]
      · rw [if_neg hpoint]
        simp [hdigit, hpoint]

end Tally

/-- A text passes the check if it holds digits and points only, and enough
digits and few enough points. -/
theorem isDecimal_iff {text : String} :
    isDecimal text = true ↔ (∀ c ∈ text.toList, c.isDigit = true ∨ c = '.') ∧
      0 < text.toList.countP Char.isDigit ∧ text.toList.count '.' ≤ 1 := by
  unfold isDecimal
  rw [Tally.foldlM_utf8]
  cases htally : text.toList.foldlM Tally.countChar? ⟨0, 0⟩ with
  | none =>
    constructor
    · rintro ⟨⟩
    · rintro ⟨hchars, -⟩
      rw [Tally.foldlM_countChar?_eq_some_iff.2 ⟨hchars, rfl⟩] at htally
      cases htally
  | some t =>
    obtain ⟨hchars, rfl⟩ := Tally.foldlM_countChar?_eq_some_iff.1 htally
    simp only [Nat.zero_add, decide_eq_true_iff]
    exact (and_iff_right hchars).symm

/-! ## The check and the reader -/

/-- All characters are digits if they are digits and points, and there is no
point. -/
theorem forall_isDigit_iff {ds : List Char} :
    (ds ≠ [] ∧ ∀ c ∈ ds, c.isDigit = true) ↔
      (∀ c ∈ ds, c.isDigit = true ∨ c = '.') ∧ 0 < ds.countP Char.isDigit ∧ '.' ∉ ds := by
  rw [List.countP_pos_iff]
  constructor
  · rintro ⟨hne, hdigits⟩
    obtain ⟨c, hc⟩ := List.exists_mem_of_ne_nil ds hne
    refine ⟨fun c hc => .inl (hdigits c hc), ⟨c, hc, hdigits c hc⟩, ?_⟩
    intro hpoint
    exact absurd (hdigits '.' hpoint) (by decide)
  · rintro ⟨hchars, ⟨c, hc, -⟩, hpoint⟩
    refine ⟨List.ne_nil_of_mem hc, ?_⟩
    intro d hd
    exact (hchars d hd).resolve_right fun heq => hpoint (heq ▸ hd)

/-- The reader asks for the same.  The point that parts a text is the only one
if there is none in the parts. -/
theorem isText_iff_counts {cs : List Char} :
    Decimal.isText cs = true ↔ (∀ c ∈ cs, c.isDigit = true ∨ c = '.') ∧
      0 < cs.countP Char.isDigit ∧ cs.count '.' ≤ 1 := by
  rw [Decimal.isText, Option.isSome_iff_exists]
  simp only [Decimal.ofChars?_eq_some_iff, exists_eq_right]
  rw [forall_isDigit_iff]
  rcases Decimal.eq_parts cs with ⟨hnone, hw, hf⟩ | hparts
  · have hcount : cs.count '.' ≤ 1 := by
      rw [List.count_eq_zero.2 hnone]
      exact Nat.zero_le 1
    rw [hw, hf, List.append_nil]
    simp only [hnone, hcount, not_false_eq_true]
  · have hperm : cs.Perm ('.' :: (Decimal.wholePart cs ++ Decimal.fractionPart cs)) := by
      conv_lhs => rw [hparts]
      exact List.perm_middle
    have hdigit : ¬ '.'.isDigit = true := by decide
    have hcount : ∀ n, n + 1 ≤ 1 ↔ n = 0 := by omega
    rw [hperm.countP_eq, List.countP_cons_of_neg hdigit, hperm.count_eq, List.count_cons_self,
      hcount, List.count_eq_zero]
    simp only [hperm.mem_iff, List.forall_mem_cons, or_true, true_and]

/-- The check and the reader accept the same texts. -/
theorem isDecimal_eq (text : String) : isDecimal text = Decimal.isText text.toList := by
  rw [Bool.eq_iff_iff, isDecimal_iff, isText_iff_counts]

theorem isDecimal_ofList (cs : List Char) :
    isDecimal (String.ofList cs) = Decimal.isText cs := by
  rw [isDecimal_eq, String.toList_ofList]

theorem isDecimal_ofList_iff {cs : List Char} :
    isDecimal (String.ofList cs) = true ↔ ∃ d, Decimal.ofChars? cs = some d := by
  rw [isDecimal_ofList, Decimal.isText, Option.isSome_iff_exists]

/-! ## What is read -/

section Read

variable {α : Type} {value : Decimal → α} {cs : List Char}

/-- The check turns away what could not be read, and nothing else. -/
theorem readAs_eq (value : Decimal → α) (cs : List Char) :
    readAs value cs =
      match Decimal.ofChars? cs with
      | some d => .ok (value d)
      | none => .error (String.ofList cs) := by
  rw [readAs, isDecimal_ofList, Decimal.isText]
  cases Decimal.ofChars? cs <;> rfl

theorem readAs_of_ofChars? {d : Decimal} (h : Decimal.ofChars? cs = some d) :
    readAs value cs = .ok (value d) := by
  rw [readAs_eq, h]

/-- A text that does not pass the check is left as it is. -/
theorem readAs_eq_error_iff {text : String} :
    readAs value cs = .error text ↔
      text = String.ofList cs ∧ isDecimal (String.ofList cs) = false := by
  rw [readAs_eq, isDecimal_ofList, Decimal.isText]
  cases Decimal.ofChars? cs <;> simp [eq_comm]

end Read

theorem read_of_ofChars? {cs : List Char} {d : Decimal} (h : Decimal.ofChars? cs = some d) :
    read cs = .ok (Binary64.readDecimal d) :=
  readAs_of_ofChars? h

theorem read_eq_error_iff {cs : List Char} {text : String} :
    read cs = .error text ↔ text = String.ofList cs ∧ isDecimal (String.ofList cs) = false :=
  readAs_eq_error_iff

theorem parse_of_ofChars? {text : String} {d : Decimal}
    (h : Decimal.ofChars? text.toList = some d) (position : Nat) :
    parse text position = .ok (Binary64.readDecimal d) := by
  rw [parse, read_of_ofChars? h]
  rfl

theorem parse_of_not_isDecimal {text : String} (h : isDecimal text = false) (position : Nat) :
    parse text position = .error (.malformedLiteral text position) := by
  rw [← text.ofList_toList] at h
  rw [parse, read_eq_error_iff.2 ⟨rfl, h⟩, String.ofList_toList]
  rfl

end InfixArith.Literal
