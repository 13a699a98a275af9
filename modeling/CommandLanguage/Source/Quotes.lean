/-!
# Quotes

The three kinds of quotes, and the state of a scan that keeps track of them: which quote is open
and whether the next character is escaped. A backslash escapes outside of quotes and between
double quotes; single quotes and backticks hold everything but themselves.
-/

namespace CommandLanguage

/-- A kind of quote. -/
inductive Quote where
  /-- `'…'` -/
  | single
  /-- `"…"` -/
  | double
  /-- a pair of backticks -/
  | backtick
  deriving DecidableEq, Repr

namespace Quote

/-- The character that opens and closes a quote. -/
def char : Quote → Char
  | .single => '\''
  | .double => '"'
  | .backtick => '`'

/-- The quote that a character opens. -/
def ofChar? : Char → Option Quote
  | '\'' => some .single
  | '"' => some .double
  | '`' => some .backtick
  | _ => none

@[simp] theorem ofChar?_char (q : Quote) : ofChar? q.char = some q := by cases q <;> rfl

end Quote

/-- Where a scan stands with respect to quotes. -/
structure Quotes where
  /-- the quote that is open -/
  within : Option Quote := none
  /-- whether the last character was a backslash that escapes -/
  escaped : Bool := false
  deriving DecidableEq, Repr

namespace Quotes

/-- Passes one character. The first component tells whether the character is quoted: a quote, a
backslash that escapes, something escaped, or something between quotes. -/
def feed (q : Quotes) (c : Char) : Bool × Quotes :=
  if q.escaped then (true, { q with escaped := false })
  else
    match q.within with
    | none =>
      match Quote.ofChar? c with
      | some k => (true, { within := some k })
      | none => if c == '\\' then (true, { escaped := true }) else (false, q)
    | some k =>
      if c == '\\' && k == .double then (true, { q with escaped := true })
      else (true, if c == k.char then {} else q)

/-- A text with each character marked as quoted or not. -/
def mark (q : Quotes) : List Char → List (Char × Bool)
  | [] => []
  | c :: r => (c, (q.feed c).1) :: mark (q.feed c).2 r

@[simp] theorem map_fst_mark (q : Quotes) (s : List Char) : (q.mark s).map Prod.fst = s := by
  induction s generalizing q with
  | nil => rfl
  | cons c r ih => simp [mark, ih]

end Quotes

end CommandLanguage
