import CommandLanguage.Token.Basic

/-!
# Cursors

A cursor walks through a text one character at a time and knows its line and column.
-/

namespace CommandLanguage

/-- A place in a text. -/
structure Cursor where
  /-- the character passed last -/
  before? : Option Char
  /-- the characters ahead -/
  rest : List Char
  /-- the position of the first of them -/
  position : Position
  deriving DecidableEq, Repr

namespace Cursor

/-- The cursor before a text. -/
def start (s : List Char) : Cursor := ⟨none, s, .first⟩

/-- The next character, `n` more characters ahead. -/
def peek? (c : Cursor) (n : Nat) : Option Char := c.rest[n]?

/-- Whether nothing is ahead. -/
def isAtEnd (c : Cursor) : Bool := c.rest.isEmpty

/-- The cursor after the next character, which stays where it is at the end of the text. -/
def step : Cursor → Cursor
  | ⟨_, a :: r, p⟩ => ⟨some a, r, p.after a⟩
  | c => c

/-- The cursor after the next `n` characters. -/
def skip : Nat → Cursor → Cursor
  | 0, c => c
  | n + 1, c => c.step.skip n

@[simp] theorem rest_step (c : Cursor) : c.step.rest = c.rest.drop 1 := by
  rcases c with ⟨b, _ | ⟨a, r⟩, p⟩ <;> rfl

@[simp] theorem rest_skip (n : Nat) (c : Cursor) : (c.skip n).rest = c.rest.drop n := by
  induction n generalizing c with
  | zero => simp [skip]
  | succ n ih => simp [skip, ih]

/-- The cursor where `rest` is ahead, for a `rest` that ends what is ahead now. -/
def moveTo (rest : List Char) (c : Cursor) : Cursor := c.skip (c.rest.length - rest.length)

/-- Splits off the longest run of characters of a class. -/
def takeWhile (p : Char → Bool) (c : Cursor) : List Char × Cursor :=
  (c.rest.takeWhile p, c.moveTo (c.rest.dropWhile p))

end Cursor

end CommandLanguage
