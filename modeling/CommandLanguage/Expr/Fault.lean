import CommandLanguage.Expr.Basic
import CommandLanguage.Token.Lexer

/-!
# Faults of scripts

What can be wrong with the text of a script: a fault of a token, or tokens that do not fit the
grammar. The latter tell what was expected and what stood there instead.
-/

namespace CommandLanguage

/-- What the grammar wants at some place. -/
inductive Expectation where
  /-- an expression -/
  | expression
  /-- an expression between brackets -/
  | indexExpression
  /-- a token that is a value -/
  | value
  /-- a punctuation character -/
  | punctuation (c : Char)
  /-- a reserved word -/
  | keyword (word : String)
  /-- the end of a block -/
  | endOfBlock
  /-- the body of a loop -/
  | loopBody
  /-- the condition of a loop -/
  | loopCondition
  /-- the end of the condition of a loop -/
  | endOfLoopCondition
  /-- what a loop runs over -/
  | loopRange
  /-- a name for `unset` -/
  | unsetName
  /-- the name of a parameter -/
  | parameterName
  deriving DecidableEq, Repr

/-- How an expectation is named in errors. -/
def Expectation.describe : Expectation → String
  | .expression => "expression"
  | .indexExpression => "index expression"
  | .value => "value"
  | .punctuation c => s!"\"{c}\""
  | .keyword w => s!"keyword \"{w}\""
  | .endOfBlock => "end of block"
  | .loopBody => "\"do\" or \"\x7b\""
  | .loopCondition => "loop condition"
  | .endOfLoopCondition => "end of loop condition"
  | .loopRange => "range after \"in\""
  | .unsetName => "variable name after \"unset\""
  | .parameterName => "parameter name"

/-- What stands where something else was expected. -/
inductive Finding where
  /-- a token -/
  | token (t : Token)
  /-- nothing more -/
  | endOfInput
  /-- the bracket that ends an empty index -/
  | closingBracket
  /-- an expression of some kind -/
  | node (e : Expr)

/-- How a finding is named in errors. -/
def Finding.describe : Finding → String
  | .token t => t.describe
  | .endOfInput => "end of input"
  | .closingBracket => "\"]\""
  | .node e => e.kind

/-- Tokens that do not fit the grammar. -/
structure ParseFault where
  /-- what was expected -/
  expected : Expectation
  /-- what stood there instead -/
  found : Finding
  /-- where -/
  position : Position

/-- The wording of a fault. -/
def ParseFault.message (f : ParseFault) : String :=
  let p := f.position
  s!"Parse error at {p.line}:{p.column}: " ++
    s!"expected {f.expected.describe}, found {f.found.describe}"

/-- A fault in the text of a script. -/
inductive SyntaxFault where
  /-- in the text of a token -/
  | lex (f : LexFault)
  /-- in the order of the tokens -/
  | parse (f : ParseFault)

/-- The wording of a fault. -/
def SyntaxFault.message : SyntaxFault → String
  | .lex f => f.message
  | .parse f => f.message

end CommandLanguage
