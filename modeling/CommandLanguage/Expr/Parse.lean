import CommandLanguage.Expr.Fault
import CommandLanguage.Source.Normal

/-!
# Reading expressions

The grammar of the language, over tokens:

```text
program    = statement separated by ';'
statement  = expression                     a lone word is a command without arguments
expression = operand operators
operand    = atom | word argument … | word '(' expression ',' … ')'
atom       = value | '(' expression ')' | block | sign operand operators
           | if | function | for | while | unset
block      = '{' statement … '}' | 'do' statement … 'done'
```

A word followed by a value is a command with arguments, so `foo bar` is a call and `foo + bar` is
not. Operators are read by climbing their precedences: `tree self p` is an operand with all the
operators after it that bind more tightly than `p`, and every other part of the grammar takes
`self`, which reads a tree further down, as an argument. Each tree reads a token before it asks
for another tree, so the weight of the tokens bounds how deep they go.
-/

namespace CommandLanguage

/-! ## The tokens ahead -/

mutual

/-- The greatest number of trees that a token can hold within each other: at most one for each of
its characters. -/
def Token.weight : Token → Nat
  | .plain (.variable _ _ (some index)) _ => 1 + index.length
  | .plain _ _ => 1
  | .array items _ => 1 + Token.weightList items

/-- The weight of several tokens. -/
def Token.weightList : List Token → Nat
  | [] => 0
  | t :: ts => t.weight + Token.weightList ts

end

/-- The tokens that are not yet read. -/
structure Tokens where
  /-- the tokens -/
  ahead : List Token
  /-- what comes after them: the end of the text or a fault -/
  ending : Except LexFault Position
  /-- where the token read last has ended -/
  reached : Position := .first

namespace Tokens

/-- The tokens of a text. -/
def ofText (s : List Char) : Tokens :=
  let s := Lexer.scan s
  { ahead := s.tokens, ending := s.ending }

/-- Tokens taken out of their place. Each is taken to reach to the start of the next one. -/
def ofList (ts : List Token) (stop : Position) : Tokens :=
  let stops := (ts.drop 1).map (·.span.start) ++ [stop]
  { ahead := ts.zipWith (fun t p => t.withStop p) stops, ending := .ok stop }

end Tokens

namespace Grammar

/-- Why reading stopped. -/
inductive Stop where
  /-- something is wrong with the script -/
  | fault (f : SyntaxFault)
  /-- the trees go deeper than the given bound -/
  | tooDeep

/-- A step of reading. -/
abbrev Parse := StateT Tokens (Except Stop)

/-- Fails with a fault of the grammar. -/
def fail {α : Type} (expected : Expectation) (found : Finding) (p : Position) :
    Except Stop α :=
  .error (.fault (.parse ⟨expected, found, p⟩))

/-- The next token, which stays the next one. -/
def peek : Parse (Option Token) := fun s =>
  match s.ahead, s.ending with
  | t :: _, _ => .ok (some t, s)
  | [], .ok _ => .ok (none, s)
  | [], .error f => .error (.fault (.lex f))

/-- Passes the next token. -/
def advance : Parse Unit := modify fun s =>
  match s.ahead with
  | t :: ts => { s with ahead := ts, reached := t.span.stop }
  | [] => s

/-- Fails because the next token is not the expected one. -/
def unexpected {α : Type} (expected : Expectation) : Parse α := do
  match ← peek with
  | some t => fail expected (.token t) t.span.start
  | none => fail expected .endOfInput ((← get).ending.toOption.getD (← get).reached)

/-- Whether the next token is the given punctuation character. -/
def atPunctuation (c : Char) : Parse Bool := return (← peek).any (·.isPunctuation c)

/-- Whether the next token is the given reserved word. -/
def atKeyword (word : String) : Parse Bool := return (← peek).any (·.isKeyword word)

/-- Passes a punctuation character, which has to come next. -/
def expectPunctuation (c : Char) : Parse Unit := do
  if ← atPunctuation c then advance else unexpected (.punctuation c)

/-- Passes a reserved word, which has to come next. -/
def expectKeyword (word : String) : Parse Unit := do
  if ← atKeyword word then advance else unexpected (.keyword word)

/-- Passes a reserved word, if it comes next. -/
def acceptKeyword (word : String) : Parse Bool := do
  if ← atKeyword word then
    advance
    return true
  else return false

/-- Passes a punctuation character, if it comes next. -/
def acceptPunctuation (c : Char) : Parse Bool := do
  if ← atPunctuation c then
    advance
    return true
  else return false

/-- Passes the semicolons that come next. -/
def skipSeparators : Parse Unit := modify fun s =>
  let seps := s.ahead.takeWhile (·.isPunctuation ';')
  { s with
    ahead := s.ahead.drop seps.length
    reached := (seps.getLast?.map (·.span.stop)).getD s.reached }

/-- The number of steps that a loop over the tokens ahead can take. -/
def budget : Parse Nat := return (← get).ahead.length + 1

section

/-! ## Values -/

variable (self : Nat → Parse Expr)

/-- Reads the text of an index: exactly one expression. `p` is the position of the token that has
the index. -/
def index (raw : String) (p : Position) : Except Stop Expr :=
  let read : Parse Expr := do
    if (← peek).isNone then fail .indexExpression .closingBracket p
    else
      let e ← self 0
      if (← peek).isSome then unexpected (.punctuation ']') else return e
  (read.run (.ofText raw.toList)).map Prod.fst

mutual

/-- The expression that a token stands for on its own. -/
def value : Token → Except Stop Expr
  | .plain l s =>
    match l with
    | .number n => .ok (.number n)
    | .text v q => .ok (.text v q)
    | .boolean b => .ok (.boolean b)
    | .variable n d none => .ok (.variable n d)
    | .variable n d (some raw) => (index self raw s.start).map (.element n d)
    | .braces raw => .ok (.braces raw)
    | .parameter raw => .ok (.parameter raw)
    | .keyword _ | .operator _ | .punctuation _ => fail .value (.token (.plain l s)) s.start
  | .array items _ => (values items).map .array

/-- The expressions that several tokens stand for. -/
def values : List Token → Except Stop (List Expr)
  | [] => .ok []
  | t :: ts => do
    let e ← value t
    return e :: (← values ts)

end

/-! ## Calls and operators -/

/-- Comma-separated expressions up to a closing character, of which at least one is left. -/
def listItems : Nat → Parse (List Expr)
  | 0 => throw .tooDeep
  | fuel + 1 => do
    let e ← self 0
    if ← acceptPunctuation ',' then return e :: (← listItems fuel)
    else return [e]

/-- Comma-separated expressions up to a closing character. -/
def list (stop : Char) : Parse (List Expr) := do
  if ← atPunctuation stop then return [] else listItems self (← budget)

/-- The expression that a token stands for as an argument of a command; nothing for tokens that
end the arguments. Reserved words stand for themselves there, but for those around blocks. -/
def argument? : Token → Option (Except Stop Expr)
  | .plain (.keyword w) _ =>
    if ["then", "else", "do", "done"].contains w then none else some (.ok (.text w .bare))
  | .plain (.operator _) _ | .plain (.punctuation _) _ => none
  | t => some (value self t)

/-- The arguments of a command. -/
def arguments : Nat → Parse (List Expr)
  | 0 => throw .tooDeep
  | fuel + 1 => do
    match (← peek).bind (argument? self) with
    | none => return []
    | some e =>
      advance
      let e ← (e : Except Stop Expr)
      return e :: (← arguments fuel)

/-- Makes a call of a word and what follows it, if that are arguments. -/
def callTail (e : Expr) : Parse Expr := do
  if e.bareWord?.isNone then return e
  else if ← acceptPunctuation '(' then
    let args ← list self ')'
    expectPunctuation ')'
    return .call e args
  else
    let args ← arguments self (← budget)
    return if args.isEmpty then e else .call e args

/-- The operator ahead, with its precedence. -/
def operator? : Parse (Option (Operator × Nat)) := do
  match ← peek with
  | some (.plain (.operator o) _) => return o.precedence?.map (o, ·)
  | _ => return none

/-- Reads the operators that bind more tightly than `limit`, with their right operands. -/
def operators (limit : Nat) : Nat → Expr → Parse Expr
  | 0, _ => throw .tooDeep
  | fuel + 1, left => do
    match ← operator? with
    | none => return left
    | some (o, p) =>
      if p ≤ limit then return left
      else
        advance
        if o.isPostfix then operators limit fuel (.binary o left .null)
        else
          let right ← self (if o.groupsRight then p - 1 else p)
          operators limit fuel <|
            match o with
            | .assign => .assign left right
            | o => .binary o left right

/-! ## Statements and blocks -/

/-- A statement: an expression, where a lone word is a command without arguments. -/
def statement : Parse Expr := do
  let e ← self 0
  return if e.bareWord?.isSome then .call e [] else e

/-- Statements up to a token that closes a block. -/
def statementsUntil (closes : Token → Bool) : Nat → Parse (List Expr)
  | 0 => throw .tooDeep
  | fuel + 1 => do
    skipSeparators
    match ← peek with
    | none => unexpected .endOfBlock
    | some t =>
      if closes t then return []
      else
        let e ← statement self
        match ← peek with
        | some t =>
          if closes t || t.isPunctuation ';' then
            return e :: (← statementsUntil closes fuel)
          else unexpected (.punctuation ';')
        | none => unexpected (.punctuation ';')

/-- A block in braces. -/
def block : Parse Expr := do
  expectPunctuation '\x7b'
  let ss ← statementsUntil self (·.isPunctuation '\x7d') (← budget)
  expectPunctuation '\x7d'
  return .block ss

/-- A block between `do` and `done`. -/
def doBlock : Parse Expr := do
  expectKeyword "do"
  let ss ← statementsUntil self (·.isKeyword "done") (← budget)
  expectKeyword "done"
  return .block ss

/-- The body of a loop. -/
def loopBody : Parse Expr := do
  if ← atKeyword "do" then doBlock self
  else if ← atPunctuation '\x7b' then block self
  else unexpected .loopBody

/-- A branch of an `if` or the body of a function: a block or a statement. -/
def branch : Parse Expr := do
  if ← atPunctuation '\x7b' then block self else statement self

/-! ## Compound constructs -/

/-- `if condition [then] branch [else branch]` -/
def ifTree : Parse Expr := do
  expectKeyword "if"
  let condition ← self 0
  discard <| acceptKeyword "then"
  let yes ← branch self
  if ← acceptKeyword "else" then return .ifThenElse condition yes (← branch self)
  else return .ifThen condition yes

/-- The parameters of a function, in parentheses, or none at all. Between parentheses, words
without commas are an array literal. -/
def parameters : Parse (List Expr) := do
  match ← peek with
  | some (.array items _) =>
    advance
    (values self items : Except Stop (List Expr))
  | _ =>
    if ← acceptPunctuation '(' then
      let ps ← list self ')'
      expectPunctuation ')'
      return ps
    else return []

/-- Whether an expression is a parameter: a name, or a name with a default value. -/
def isParameter : Expr → Bool
  | .assign target _ => target.bareWord?.isSome
  | e => e.bareWord?.isSome

/-- `function [name] [(parameters)] body` -/
def functionTree : Parse Expr := do
  expectKeyword "function"
  let name ← match ← peek with
    | some (.plain (.variable n false none) _) => do
      advance
      pure (some n)
    | _ => pure none
  let ps ← parameters self
  match ps.find? (!isParameter ·) with
  | some e => fail .parameterName (.node e) (← get).reached
  | none => return .function 0 name ps (← branch self)

/-- The tokens up to the body of a loop, without semicolons. -/
def conditionTokens : Nat → Parse (List Token)
  | 0 => throw .tooDeep
  | fuel + 1 => do
    match ← peek with
    | none => unexpected .loopBody
    | some t =>
      if t.isKeyword "do" || t.isPunctuation '\x7b' then return []
      else
        advance
        let ts ← conditionTokens fuel
        return if t.isPunctuation ';' then ts else t :: ts

/-- The tokens of a loop's head, of which there has to be one. -/
def headTokens : Parse (List Token) := do
  let ts ← conditionTokens (← budget)
  if ts.isEmpty then unexpected .loopCondition else return ts

/-- Comma-separated expressions up to the end of the tokens; a comma may come last. -/
def conditionItems : Nat → Parse (List Expr)
  | 0 => throw .tooDeep
  | fuel + 1 => do
    if (← peek).isNone then return []
    else
      let e ← self 0
      if ← acceptPunctuation ',' then return e :: (← conditionItems fuel)
      else if (← peek).isNone then return [e]
      else unexpected .endOfLoopCondition

/-- The conditions that the tokens of a loop's head stand for. -/
def conditions (ts : List Token) : Parse (List Expr) := do
  let stop := ((← peek).map (·.span.start)).getD (← get).reached
  ((conditionItems self (ts.length + 1)).run (.ofList ts stop)).map Prod.fst

/-- `while conditions body`, after the `while`; a `for` with conditions only is the same. -/
def whileTail (ts : List Token) : Parse Expr := do
  let cs ← conditions self ts
  return .while cs (← loopBody self)

/-- `while conditions body` -/
def whileTree : Parse Expr := do
  expectKeyword "while"
  whileTail self (← headTokens)

/-- What a loop runs over: one value, or several as an array. -/
def range : List Token → Parse Expr
  | [] => unexpected .loopRange
  | [t] => (value self t : Except Stop Expr)
  | ts => do return .array (← (values self ts : Except Stop (List Expr)))

/-- `for (init; condition; step) body`, `for name in range body` or `for conditions body` -/
def forTree : Parse Expr := do
  expectKeyword "for"
  if ← acceptPunctuation '(' then
    let init ← list self ';'
    expectPunctuation ';'
    let condition ← list self ';'
    expectPunctuation ';'
    let step ← list self ')'
    expectPunctuation ')'
    return .for init condition step (← loopBody self)
  else
    match ← headTokens with
    | .plain (.variable n false none) _ :: .plain (.keyword "in") _ :: ts =>
      let r ← range self ts
      return .forIn n r (← loopBody self)
    | ts => whileTail self ts

/-- The names after `unset`, each as an assignment of nothing. -/
def unsetItems : Nat → Parse (List Expr)
  | 0 => throw .tooDeep
  | fuel + 1 => do
    match ← peek with
    | some (.plain (.variable n d i) s) =>
      advance
      let target ← match ← (value self (.plain (.variable n d i) s) : Except Stop Expr) with
        | .variable n _ => pure (.variable n false)
        | .element n _ e => pure (.element n false e)
        | e => pure e
      return .assign target .null :: (← unsetItems fuel)
    | _ => return []

/-- `unset name …` -/
def unsetTree : Parse Expr := do
  expectKeyword "unset"
  match ← unsetItems self (← budget) with
  | [] => unexpected .unsetName
  | [e] => return e
  | es => return .block es

/-! ## Trees -/

/-- An expression without the arguments and operators after it. -/
def atom : Parse Expr := do
  match ← peek with
  | none => unexpected .expression
  | some (.plain (.punctuation '(') _) =>
    advance
    let e ← self 0
    expectPunctuation ')'
    return e
  | some (.plain (.punctuation '\x7b') _) => block self
  | some (.plain (.keyword "if") _) => ifTree self
  | some (.plain (.keyword "function") _) => functionTree self
  | some (.plain (.keyword "for") _) => forTree self
  | some (.plain (.keyword "while") _) => whileTree self
  | some (.plain (.keyword "unset") _) => unsetTree self
  | some (.plain (.operator o) _) =>
    if o.isSign then
      advance
      return .unary o (← self Operator.signPrecedence)
    else unexpected .expression
  | some (.plain (.keyword _) _) | some (.plain (.punctuation _) _) => unexpected .expression
  | some t =>
    advance
    (value self t : Except Stop Expr)

/-- An operand with the operators after it that bind more tightly than `limit`. -/
def treeStep (limit : Nat) : Parse Expr := do
  let e ← callTail self (← atom self)
  operators self limit (← budget) e

end

/-- An operand with the operators after it that bind more tightly than the second argument. The
first bounds how many trees lie within each other. -/
def tree : Nat → Nat → Parse Expr
  | 0, _ => throw .tooDeep
  | fuel + 1, limit => treeStep (tree fuel) limit

/-- Statements up to the end of the tokens. -/
def programItems (self : Nat → Parse Expr) : Nat → Parse (List Expr)
  | 0 => throw .tooDeep
  | fuel + 1 => do
    if (← peek).isNone then return []
    else
      let e ← statement self
      if (← peek).isNone then return [e]
      else
        expectPunctuation ';'
        skipSeparators
        return e :: (← programItems self fuel)

/-- A script. -/
def program (self : Nat → Parse Expr) : Parse (List Expr) := do
  skipSeparators
  programItems self (← budget)

/-- Runs a reader that is given the trees it needs. The result comes with the tokens left. -/
def run {α : Type} (p : (Nat → Parse Expr) → Parse α) (s : Tokens) :
    Except SyntaxFault (α × Tokens) :=
  match p (tree (Token.weightList s.ahead + 1)) s with
  | .ok r => .ok r
  | .error (.fault f) => .error f
  | .error .tooDeep => .error (.parse ⟨.expression, .endOfInput, s.reached⟩)

end Grammar

/-! ## Scripts -/

namespace Expr

/-- Reads a script that is in normal form already. -/
def parseNormal (s : String) : Except SyntaxFault (List Expr) :=
  (Grammar.run Grammar.program (.ofText s.toList)).map Prod.fst

/-- Reads a script. -/
def parse (s : String) : Except SyntaxFault (List Expr) := parseNormal (Source.normalize s)

/-- Reads one expression from the start of a text in normal form, whatever follows it. -/
def parseFirst (s : String) : Except SyntaxFault Expr :=
  (Grammar.run (fun self => self 0) (.ofText s.toList)).map Prod.fst

end Expr

end CommandLanguage
