import CommandLanguage.Decimal.Notation
import CommandLanguage.Operator
import CommandLanguage.Source.Quotes

/-!
# Tokens

The tokens that a script is made of, with the places where they stand.

* `Position`, `Span` — lines and columns, both counted from one;
* `Literal` — how a text was written, which decides whether it is expanded;
* `Lexeme` — a token on its own;
* `Token` — a lexeme with its span, or an array literal with its items.
-/

namespace CommandLanguage

/-- A line and a column. -/
structure Position where
  /-- the line, from one -/
  line : Nat
  /-- the column, from one, in characters -/
  column : Nat
  deriving DecidableEq, Repr, Inhabited

namespace Position

/-- The position of the first character of a text. -/
def first : Position := ⟨1, 1⟩

/-- The position after a character. -/
def after (p : Position) (c : Char) : Position :=
  if c == '\n' then ⟨p.line + 1, 1⟩ else ⟨p.line, p.column + 1⟩

/-- A message with the position it is about. -/
def annotate (p : Position) (message : String) : String :=
  s!"{message} ({p.line}:{p.column})"

end Position

/-- Where something starts and where it has ended. -/
structure Span where
  /-- the position of its first character -/
  start : Position
  /-- the position after its last character -/
  stop : Position
  deriving DecidableEq, Repr, Inhabited

/-- How a text was written. -/
inductive Literal where
  /-- between quotes -/
  | quoted (q : Quote)
  /-- without quotes: a path or a flag -/
  | bare
  deriving DecidableEq, Repr

namespace Literal

/-- Between double quotes. -/
abbrev double : Literal := .quoted .double

end Literal

/-- A token on its own. -/
inductive Lexeme where
  /-- a reserved word -/
  | keyword (word : String)
  /-- an operator -/
  | operator (o : Operator)
  /-- a punctuation character -/
  | punctuation (c : Char)
  /-- a number -/
  | number (n : Float)
  /-- a text -/
  | text (value : String) (literal : Literal)
  /-- `true` or `false` -/
  | boolean (b : Bool)
  /-- a name, with a `$` before it or not, and the text of an index in brackets after it -/
  | variable (name : String) (deref : Bool) (index : Option String)
  /-- a word with groups in braces -/
  | braces (raw : String)
  /-- a `${…}` -/
  | parameter (raw : String)

/-- A token. -/
inductive Token where
  /-- a lexeme and where it stands -/
  | plain (lexeme : Lexeme) (span : Span)
  /-- an array literal; its items have positions within the text between the parentheses -/
  | array (items : List Token) (span : Span)

namespace Lexeme

/-- The reserved words. -/
def keywords : List String :=
  ["if", "then", "else", "function", "for", "in", "do", "done", "while", "unset"]

/-- Whether a word is reserved. -/
def isKeyword (word : String) : Bool := keywords.contains word

/-- Whether a character is punctuation. -/
def isPunctuation (c : Char) : Bool := ",;()\x7b\x7d[]".toList.contains c

/-- How a lexeme is named in errors. -/
def describe : Lexeme → String
  | .keyword w => s!"keyword \"{w}\""
  | .operator o => s!"operator \"{o.spelling}\""
  | .punctuation c => s!"\"{c}\""
  | .number n => s!"number {Decimal.plain n}"
  | .text v _ => s!"string \"{v}\""
  | .boolean b => s!"boolean {b}"
  | .variable n true _ => s!"variable \"${n}\""
  | .variable n false _ => s!"word \"{n}\""
  | .braces raw => s!"brace expansion \"{raw}\""
  | .parameter raw => s!"parameter expansion \"{raw}\""

end Lexeme

namespace Token

/-- Where a token stands. -/
def span : Token → Span
  | .plain _ s | .array _ s => s

/-- The token with another end. -/
def withStop (stop : Position) : Token → Token
  | .plain l s => .plain l { s with stop }
  | .array items s => .array items { s with stop }

/-- Whether a token is the given punctuation character. -/
def isPunctuation (c : Char) : Token → Bool
  | .plain (.punctuation d) _ => c == d
  | _ => false

/-- Whether a token is the given reserved word. -/
def isKeyword (word : String) : Token → Bool
  | .plain (.keyword w) _ => word == w
  | _ => false

/-- How a token is named in errors. -/
def describe : Token → String
  | .plain l _ => l.describe
  | .array items _ => s!"array literal of {items.length} items"

end Token

end CommandLanguage
