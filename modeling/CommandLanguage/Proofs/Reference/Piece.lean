import CommandLanguage.Proofs.Decimal.Integer
import CommandLanguage.Proofs.Reference.Escape
import CommandLanguage.Proofs.Run.Returns

/-!
# Texts made of pieces

A `Piece` is a literal text without `$`, backslashes and braces, or a reference in braces: to the
whole text of a variable, or to a slice of it with integers as operands.

* `Piece.text` — how a piece is written;
* `Piece.value` — the text that it stands for, given the scopes and the draws to come;
* the forms that read the body of a piece, and those that do not.
-/

namespace CommandLanguage

namespace Reference

/-- A name of a variable. -/
structure Name where
  /-- its characters -/
  text : List Char
  /-- a letter or underscore, then letters, digits and underscores -/
  isName : Text.isName text = true

/-- An integer as it can be written in a slice. -/
structure Numeral where
  /-- its digits -/
  digits : List Char
  /-- there is one -/
  ne_nil : digits ≠ []
  /-- there is nothing else -/
  isDigit : ∀ c ∈ digits, c.isDigit = true
  /-- sixty-four bits are enough -/
  bounded : (Decimal.digitsValue digits : Int) ≤ Decimal.maxInteger

/-- A part of a text. The operands of a slice are numerals, so that reading a piece cannot fail and
every piece stands for a text. -/
inductive Piece where
  /-- a text that is no reference and has no part in one -/
  | literal (text : List Char)
      (plain : ∀ c ∈ text, c ≠ '$' ∧ c ≠ '\\' ∧ c ≠ '\x7b' ∧ c ≠ '\x7d')
  /-- a reference to the text of a variable -/
  | whole (name : Name)
  /-- a reference to a slice of the text of a variable -/
  | slice (name : Name) (offset length : Numeral)

/-! ## Names and numerals -/

namespace Name

variable (n : Name)

/-- All characters of a name may stand in one, the first one too. -/
theorem isNameChar_of_mem {c : Char} (h : c ∈ n.text) : Text.isNameChar c = true := by
  obtain ⟨text, hname⟩ := n
  cases text with
  | nil => cases h
  | cons a r =>
    obtain ⟨ha, hr⟩ := Bool.and_eq_true_iff.1 hname
    rcases List.mem_cons.1 h with rfl | h
    · exact Text.isNameChar_of_isNameStart ha
    · exact List.all_eq_true.1 hr c h

/-- A numeral holds digits only. -/
theorem ne_of_mem {c d : Char} (h : c ∈ n.text) (hd : Text.isNameChar d = false) : c ≠ d :=
  Text.ne_of_kind (n.isNameChar_of_mem h) hd

/-- A name does not begin with a character that names cannot hold. -/
theorem text_ne_cons {d : Char} (hd : Text.isNameChar d = false) (r : List Char) :
    n.text ≠ d :: r := fun h => n.ne_of_mem (by rw [h]; exact List.mem_cons_self) hd rfl

/-- A name is split off up to a character that names cannot hold. What stands behind the name then
decides which form reads the body. -/
theorem splitName?_append {r : List Char} (hr : ∀ c, r.head? = some c → Text.isNameChar c = false) :
    Form.splitName? (n.text ++ r) = some (String.ofList n.text, r) := by
  obtain ⟨text, hname⟩ := n
  cases text with
  | nil => cases hname
  | cons a t =>
    obtain ⟨ha, ht⟩ := Bool.and_eq_true_iff.1 hname
    obtain ⟨htake, hdrop⟩ := Text.span_append (List.all_eq_true.1 ht) hr
    simp [Form.splitName?, Text.splitName?, ha, htake, hdrop]

/-- A name alone is split off as a whole. -/
theorem splitName?_text : Form.splitName? n.text = some (String.ofList n.text, []) := by
  have h := n.splitName?_append (r := []) nofun
  rwa [List.append_nil] at h

end Name

namespace Numeral

variable (d : Numeral)

theorem ne_of_mem {c e : Char} (h : c ∈ d.digits) (he : e.isDigit = false) : c ≠ e :=
  Text.ne_of_kind (d.isDigit c h) he

theorem isDigits : Decimal.IsDigits d.digits := ⟨d.ne_nil, d.isDigit⟩

/-- A numeral has no sign. -/
theorem splitInteger?_digits : Decimal.splitInteger? d.digits = some (d.digits, []) := by
  have h := Decimal.splitInteger?_append false d.isDigits (r := []) nofun
  rwa [List.append_nil] at h

/-- A numeral is read as the number that its digits stand for, since sixty-four bits are enough for
it. -/
theorem readInteger?_digits :
    Decimal.readInteger? d.digits = some (Decimal.digitsValue d.digits : Int) := by
  rw [← Decimal.fitting?_eq_some ⟨Int.le_trans (by decide) (Int.natCast_nonneg _), d.bounded⟩]
  exact Decimal.readInteger?_withSign false d.isDigits

end Numeral

/-! ## Pieces -/

namespace Piece

/-- What stands between the braces of a reference to a slice. -/
def sliceBody (n : Name) (offset length : Numeral) : List Char :=
  n.text ++ ':' :: (offset.digits ++ ':' :: length.digits)

/-- How a piece is written. -/
def text : Piece → List Char
  | literal t _ => t
  | whole n => (Segment.group n.text).text
  | slice n offset length => (Segment.group (sliceBody n offset length)).text

/-- Whether a piece is a reference to the whole text of a variable. -/
def isWhole : Piece → Bool
  | whole _ => true
  | _ => false

/-- The text that a piece stands for. A name may be the one that stands for a random number, and so
the draws to come are asked for. -/
def value (σ : Scopes) (s : ScopeId) (draws : Nat → Nat) : Piece → List Char
  | literal t _ => t
  | whole n => (σ.readAt s (String.ofList n.text) draws).toText.toList
  | slice n offset length =>
    Text.slice (σ.readAt s (String.ofList n.text) draws).toText.toList
      (Decimal.digitsValue offset.digits) (some (Decimal.digitsValue length.digits : Int))

/-- Whether a random number is drawn for a piece. -/
def draws (σ : Scopes) (s : ScopeId) : Piece → Bool
  | literal _ _ => false
  | whole n | slice n _ _ => σ.draws s (String.ofList n.text)

/-- A piece for which nothing is drawn stands for the same text whatever the draws are. A name may
be the one that stands for a random number, and then it does not. -/
theorem value_eq_of_not_draws {σ : Scopes} {s : ScopeId} {p : Piece} (h : p.draws σ s = false)
    (draws draws' : Nat → Nat) : p.value σ s draws = p.value σ s draws' := by
  cases p with
  | literal t _ => rfl
  | whole n => simp only [value, Scopes.readAt_eq_of_not_draws h draws draws']
  | slice n offset length => simp only [value, Scopes.readAt_eq_of_not_draws h draws draws']

end Piece

/-! ## Forms -/

/-- A name alone is read by one form only. -/
theorem read?_name (n : Name) {form : Form} (h : form ≠ .whole) : form.read? n.text = none := by
  cases form with
  | whole => exact absurd rfl h
  | replace => simp [Form.read?, Form.replace?, n.splitName?_text, Form.splitReplacement?]
  | slice => simp [Form.read?, Form.slice?, n.splitName?_text]
  | endSlice => simp [Form.read?, Form.endSlice?, n.splitName?_text]
  | fallback => simp [Form.read?, Form.fallback?, n.splitName?_text]
  | remove => simp [Form.read?, Form.remove?, n.splitName?_text, Form.splitRemoval?]
  | changeCase =>
    simp [Form.read?, Form.changeCase?, n.splitName?_text, Text.CaseChange.ofOperator?]
  | elements =>
    -- a name begins with neither of the two signs
    have hview : Form.splitView n.text = (.content, n.text) := by
      unfold Form.splitView
      split
      · rename_i r hr
        exact absurd hr (n.text_ne_cons (by decide) r)
      · rename_i r hr
        exact absurd hr (n.text_ne_cons (by decide) r)
      · rfl
    simp [Form.read?, Form.elements?, hview, n.splitName?_text, Form.splitIndex?]
  | size =>
    unfold Form.read? Form.size?
    dsimp only
    split
    · rename_i r hr
      exact absurd hr (n.text_ne_cons (by decide) r)
    · rfl

/-- A name alone is a reference to the whole text. -/
theorem read?_whole (n : Name) :
    Form.whole.read? n.text = some (.whole (String.ofList n.text)) := by
  simp [Form.read?, Form.name?, n.isName]

theorem splitName?_sliceBody (n : Name) (offset length : Numeral) :
    Form.splitName? (Piece.sliceBody n offset length) =
      some (String.ofList n.text, ':' :: (offset.digits ++ ':' :: length.digits)) :=
  n.splitName?_append fun c hc => by
    cases hc
    decide

/-- A slice is no replacement, as no slash stands behind its name. -/
theorem read?_replace_sliceBody (n : Name) (offset length : Numeral) :
    Form.replace.read? (Piece.sliceBody n offset length) = none := by
  simp [Form.read?, Form.replace?, splitName?_sliceBody, Form.splitReplacement?]

/-- A slice is read with the operands that are written. -/
theorem read?_slice_sliceBody (n : Name) (offset length : Numeral) :
    Form.slice.read? (Piece.sliceBody n offset length) =
      some (.slice (String.ofList n.text) offset.digits (some length.digits)) := by
  have hoffset : Decimal.splitDigits? (offset.digits ++ ':' :: length.digits) =
      some (offset.digits, ':' :: length.digits) :=
    Decimal.splitDigits?_append offset.isDigits fun c hc => by
      cases hc
      decide
  simp [Form.read?, Form.slice?, splitName?_sliceBody, hoffset, Form.sliceLength?,
    length.splitInteger?_digits]

end Reference

end CommandLanguage
