import CommandLanguage.Decimal.Notation
import CommandLanguage.Decimal.Read
import CommandLanguage.Text.Blank

/-!
# Integers as they are written

An integer is written as digits, with a minus sign before them or not.

* `IsDigits`, `withSign` — such texts, and `Written`, those for which sixty-four bits are enough;
* `splitInteger?_append`, `readInteger?_withSign` — they are split off whole, and read as what their
  digits and sign say;
* `digitsValue_digits`, `not_hasLeadingZero_digits` — the digits that a number is written with stand
  for it, and do not begin with a zero that could be left out.
-/

namespace CommandLanguage.Decimal

/-- Nothing but digits, and at least one. -/
structure IsDigits (ds : List Char) : Prop where
  ne_nil : ds ≠ []
  isDigit : ∀ c ∈ ds, c.isDigit = true

/-- A zero stands before other digits. -/
def HasLeadingZero (ds : List Char) : Prop := 1 < ds.length ∧ ds.head? = some '0'

instance : DecidablePred HasLeadingZero := fun ds =>
  inferInstanceAs (Decidable (1 < ds.length ∧ ds.head? = some '0'))

/-- Digits with a minus sign before them, or without. There is no plus sign, neither in what is
written nor in what is read. -/
def withSign (negative : Bool) (ds : List Char) : List Char := if negative then '-' :: ds else ds

/-- The integer that digits with a sign stand for. -/
def signedValue (negative : Bool) (ds : List Char) : Int :=
  if negative then -(digitsValue ds : Int) else digitsValue ds

/-! ## Reading -/

section

variable {ds r : List Char}

theorem IsDigits.ne_cons (h : IsDigits ds) {c : Char} (hc : c.isDigit = false) (r : List Char) :
    ds ≠ c :: r := by
  rintro rfl
  exact Text.ne_of_kind (h.isDigit c List.mem_cons_self) hc rfl

/-- Digits are split off up to a character that is none. -/
theorem splitDigits?_append (h : IsDigits ds) (hr : ∀ c, r.head? = some c → c.isDigit = false) :
    splitDigits? (ds ++ r) = some (ds, r) := by
  obtain ⟨htake, hdrop⟩ := Text.span_append h.isDigit hr
  simp [splitDigits?, htake, hdrop, h.ne_nil]

theorem splitNegative?_eq_none (h : IsDigits ds) : splitNegative? (ds ++ r) = none := by
  cases ds with
  | nil => exact absurd rfl h.ne_nil
  | cons c ds =>
    have hc : c ≠ '-' := Text.ne_of_kind (h.isDigit c List.mem_cons_self) (by decide)
    rw [List.cons_append, splitNegative?]
    rintro _ heq
    exact hc (List.cons.inj heq).1

/-- An integer is split off whole, up to a character that is no digit. So it does not matter what
stands behind it, two dots or nothing. -/
theorem splitInteger?_append (negative : Bool) (h : IsDigits ds)
    (hr : ∀ c, r.head? = some c → c.isDigit = false) :
    splitInteger? (withSign negative ds ++ r) = some (withSign negative ds, r) := by
  cases negative with
  | false => simp [splitInteger?, withSign, splitNegative?_eq_none h, splitDigits?_append h hr]
  | true => simp [splitInteger?, withSign, splitNegative?, splitDigits?_append h hr]

/-- What is split off and what is left make up the text. -/
theorem append_of_splitDigits? {s : List Char} (h : splitDigits? s = some (ds, r)) :
    ds ++ r = s := by
  simp only [splitDigits?] at h
  split at h
  · cases h
  · obtain ⟨rfl, rfl⟩ := Prod.mk.inj (Option.some.inj h)
    exact List.takeWhile_append_dropWhile

theorem append_of_splitInteger? {s : List Char} (h : splitInteger? s = some (ds, r)) :
    ds ++ r = s := by
  rw [splitInteger?] at h
  cases hnegative : splitNegative? s with
  | none =>
    rw [hnegative] at h
    exact append_of_splitDigits? h
  | some split =>
    rw [hnegative] at h
    cases h
    rw [splitNegative?.eq_def] at hnegative
    split at hnegative
    · obtain ⟨⟨ds', r'⟩, hdigits, heq⟩ := Option.map_eq_some_iff.1 hnegative
      obtain ⟨rfl, rfl⟩ := Prod.mk.inj heq
      rw [List.cons_append, append_of_splitDigits? hdigits]
    · cases hnegative

theorem splitSign_withSign (negative : Bool) (h : IsDigits ds) :
    splitSign (withSign negative ds) = (negative, ds) := by
  cases negative with
  | true => rfl
  | false =>
    rw [withSign, if_neg Bool.false_ne_true, splitSign]
    · exact fun r => h.ne_cons (by decide) r
    · exact fun r => h.ne_cons (by decide) r

theorem readInteger?_withSign (negative : Bool) (h : IsDigits ds) :
    readInteger? (withSign negative ds) = fitting? (signedValue negative ds) := by
  have hall : ds.all Char.isDigit = true := List.all_eq_true.2 h.isDigit
  simp [readInteger?, splitSign_withSign negative h, hall, h.ne_nil, signedValue]

theorem fitting?_eq_some {i : Int} (h : minInteger ≤ i ∧ i ≤ maxInteger) : fitting? i = some i :=
  if_pos h

end

/-- An integer of sixty-four bits as it is written. It may be padded with zeros, and then several
texts are written for the same integer. -/
structure Written where
  /-- whether there is a minus sign -/
  negative : Bool
  /-- what follows the sign -/
  digits : List Char
  isDigits : IsDigits digits
  /-- sixty-four bits are enough -/
  fits : minInteger ≤ signedValue negative digits ∧ signedValue negative digits ≤ maxInteger

namespace Written

variable (w : Written)

/-- How the integer is written. -/
def text : List Char := withSign w.negative w.digits

/-- The integer itself. -/
def value : Int := signedValue w.negative w.digits

theorem value_fits : minInteger ≤ w.value ∧ w.value ≤ maxInteger := w.fits

theorem readInteger?_text : readInteger? w.text = some w.value :=
  (readInteger?_withSign _ w.isDigits).trans (fitting?_eq_some w.value_fits)

theorem splitInteger?_text {r : List Char} (hr : ∀ c, r.head? = some c → c.isDigit = false) :
    splitInteger? (w.text ++ r) = some (w.text, r) :=
  splitInteger?_append _ w.isDigits hr

end Written

/-! ## Writing

What is written is read back, whatever the integer: the digits are those of its absolute value, and
the sign comes before them. -/

section

variable (n : Nat)

theorem digitsValue_digits : digitsValue (digits n) = n :=
  Nat.ofDigitChars_toDigits (by decide) (by decide)

theorem isDigits_digits : IsDigits (digits n) :=
  ⟨Nat.toDigits_ne_nil, fun _ h => Nat.isDigit_of_mem_toDigits (by decide) (by decide) h⟩

theorem digitsValue_zeros_append (ds : List Char) :
    digitsValue (zeros n ++ ds) = digitsValue ds := by
  induction n with
  | zero => rfl
  | succ n ih => exact ih

theorem isDigits_zeros_append {ds : List Char} (h : IsDigits ds) : IsDigits (zeros n ++ ds) := by
  refine ⟨by simp [h.ne_nil], fun c hc => ?_⟩
  rcases List.mem_append.1 hc with hc | hc
  · rw [List.eq_of_mem_replicate hc]
    rfl
  · exact h.isDigit c hc

/-- The digits of a positive number begin with another digit than zero. -/
theorem head?_digits_ne_zero (hn : 0 < n) : (digits n).head? ≠ some '0' := by
  induction n using Nat.strongRecOn with
  | ind n ih =>
    rw [digits, Nat.toDigits_eq_if (by decide)]
    split
    · have hdigit : n.digitChar ≠ '0' := by simpa using Nat.ne_of_gt hn
      simpa using hdigit
    · rw [List.head?_append, Option.or_of_isSome (by simp [Nat.toDigits_ne_nil])]
      exact ih (n / 10) (by omega) (by omega)

theorem not_hasLeadingZero_digits : ¬ HasLeadingZero (digits n) := by
  rintro ⟨hlength, hhead⟩
  cases n with
  | zero => simp [digits] at hlength
  | succ n => exact head?_digits_ne_zero (n + 1) n.succ_pos hhead

end

end CommandLanguage.Decimal
