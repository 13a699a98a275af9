import CommandLanguage.Proofs.Source.Settled

/-!
# The normal form of a text between double quotes

`Source.doubleQuoted v` is a line that stands for the text `v`: between double quotes, with
backslashes where they are needed so that nothing in it is taken for anything else. Its normal form
is the line itself with a `;` behind it, whatever `v` holds.
-/

namespace CommandLanguage

namespace Source

/-! ## Escapes -/

/-- How a character is written between double quotes. The end of a line is written as an escape, so
that the whole stays on one line, and the `$` so that it begins no reference. -/
def escapeChar : Char → List Char
  | '\\' => ['\\', '\\']
  | '"' => ['\\', '"']
  | '\n' => ['\\', 'n']
  | '$' => ['\\', '$']
  | c => [c]

/-- A text between double quotes. -/
def doubleQuoted (v : List Char) : List Char := '"' :: v.flatMap escapeChar ++ ['"']

/-- A character stands for itself, unless it is one of the four that are escaped. -/
theorem escapeChar_of_ne {c : Char} (hb : c ≠ '\\') (hq : c ≠ '"') (hn : c ≠ '\n') (hd : c ≠ '$') :
    escapeChar c = [c] := by
  unfold escapeChar
  split <;> trivial

/-- A character is written with a backslash before a character that ends no line, or it stands for
itself and has no meaning between double quotes. Nothing else is needed to know of the table in what
follows. -/
theorem escapeChar_cases (c : Char) :
    (∃ e, escapeChar c = ['\\', e] ∧ e ≠ '\n') ∨
      escapeChar c = [c] ∧ c ≠ '\\' ∧ c ≠ '"' ∧ c ≠ '\n' ∧ c ≠ '$' := by
  by_cases hb : c = '\\'
  · subst hb
    exact .inl ⟨'\\', rfl, by decide⟩
  by_cases hq : c = '"'
  · subst hq
    exact .inl ⟨'"', rfl, by decide⟩
  by_cases hn : c = '\n'
  · subst hn
    exact .inl ⟨'n', rfl, by decide⟩
  by_cases hd : c = '$'
  · subst hd
    exact .inl ⟨'$', rfl, by decide⟩
  exact .inr ⟨escapeChar_of_ne hb hq hn hd, hb, hq, hn, hd⟩

/-- Escaped, every text can stand between double quotes: by induction on its characters, each of
which comes with its backslash or needs none. -/
theorem holds_escaped (v : List Char) : Quote.double.Holds (v.flatMap escapeChar) := by
  induction v with
  | nil => exact .nil
  | cons c r ih =>
    refine .append ?_ ih
    obtain ⟨e, he, hn⟩ | ⟨hc, hb, hq, hn, -⟩ := escapeChar_cases c
    · rw [he]
      exact .escaped (.inl rfl) hn .nil
    · rw [hc]
      exact .plain hq hb hn .nil

/-! ## The normal form -/

theorem getLast?_doubleQuoted (v : List Char) : (doubleQuoted v).getLast? = some '"' :=
  List.getLast?_concat

/-- A text between double quotes is a line that neither goes on nor begins a control statement: its
first word begins with a quote, and its last character is one. -/
theorem isSettled_doubleQuoted (v : List Char) : IsSettled (doubleQuoted v) where
  passes := (holds_escaped v).passes_enclose
  newline := (holds_escaped v).newline_not_mem_enclose
  last := ⟨'"', getLast?_doubleQuoted v, by decide⟩
  first := by
    obtain ⟨ws, hws⟩ :=
      Text.exists_words_eq_cons (c := '"') (by decide) (v.flatMap escapeChar ++ ['"'])
    rw [doubleQuoted, List.cons_append, hws]
    exact not_headWord List.mem_cons_self (by decide)

end Source

end CommandLanguage
