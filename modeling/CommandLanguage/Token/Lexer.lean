import CommandLanguage.Decimal.Read
import CommandLanguage.Source.Braces
import CommandLanguage.Text.Name
import CommandLanguage.Token.Cursor

/-!
# Reading tokens

How a text is cut into tokens. At each place the kinds of tokens are tried in this order:

* paths (`/tmp/x`, `./run`, `~`), except right after a number or `)`, where `/` divides;
* texts between quotes, of which those between double quotes can be a `${…}` or a word with
  groups in braces;
* a `-` right before a number or word, which belongs to it;
* numbers and operators;
* names with a `$`, reserved words, names without a `$`;
* punctuation, where a `(` may begin an array literal (`readArray?`).

`readToken` reads one token; `Scan` is all tokens of a text up to its end or the first fault;
`Lexer` reads them one by one with one token of lookahead. A fault leaves the cursor where
reading stopped.
-/

namespace CommandLanguage

/-- What can be wrong with the text of a token. -/
inductive LexFault.Cause where
  /-- no closing quote -/
  | unclosedText
  /-- no closing bracket -/
  | unclosedIndex
  /-- a `$` without a name -/
  | nameMissing
  /-- a character that no token begins with -/
  | strayCharacter (c : Char)
  deriving DecidableEq, Repr

/-- A fault in the text of a token. -/
structure LexFault where
  /-- what is wrong -/
  cause : LexFault.Cause
  /-- where -/
  position : Position
  deriving DecidableEq, Repr

/-- The wording of a fault, without its position. -/
def LexFault.Cause.message : LexFault.Cause → String
  | .unclosedText => "Unterminated string"
  | .unclosedIndex => "Unterminated index"
  | .nameMissing => "Expected variable name after $"
  | .strayCharacter c => s!"Can't handle character: {c}"

/-- The wording of a fault. -/
def LexFault.message (f : LexFault) : String := f.position.annotate f.cause.message

namespace Lexer

open Text (isNameStart isNameChar)

/-! ## Classes of characters -/

/-- Whether a path can hold the character. -/
def isPathChar (c : Char) : Bool := !Text.isBlank c && !";),\"'`".toList.contains c

/-- Whether a word with a dash before it can hold the character. -/
def isFlagChar (c : Char) : Bool := isNameChar c || c == '-'

/-! ## Lookahead -/

/-- The text without the blanks, and the line ends after a backslash, that it begins with. -/
def dropBlanks : List Char → List Char
  | [] => []
  | '\\' :: '\n' :: r => dropBlanks r
  | c :: r => if Text.isBlank c then dropBlanks r else c :: r

/-- Whether a path begins here. `afterOperand` tells whether the last token was a number or a
closing parenthesis. -/
def isAtPath (afterOperand : Bool) (c : Cursor) : Bool :=
  let atWordStart := c.before?.all fun b => Text.isBlank b || "(;,".toList.contains b
  !afterOperand && atWordStart &&
    match c.rest with
    | '/' :: d :: _ => isNameChar d || ".-~".toList.contains d
    | '.' :: '/' :: _ | '.' :: '.' :: '/' :: _ => true
    | ['~'] => true
    | '~' :: d :: _ => d == '/' || Text.isBlank d || d == ';'
    | _ => false

/-- Whether a `-` that belongs to the number or word after it stands here. -/
def isAtDash (c : Cursor) : Bool :=
  let afterSeparator := c.before?.all fun b =>
    Text.isBlank b || "(;,\x7b[".toList.contains b || Operator.isOperatorChar b
  match c.rest with
  | '-' :: d :: _ => afterSeparator && (d.isDigit || isNameStart d)
  | _ => false

/-! ## Parts of tokens -/

/-- What a backslash and the character after it stand for between quotes. -/
def unescape (q : Quote) (c : Char) : List Char :=
  if c == q.char then [c]
  else
    match q, c with
    | .double, '\\' => ['\\']
    | .double, 'n' => ['\n']
    | .double, 't' => ['\t']
    | _, c => ['\\', c]

/-- The text up to a closing quote, with its escapes replaced, and what follows the quote. -/
def splitText? (q : Quote) : List Char → Option (List Char × List Char)
  | [] => none
  | c :: r =>
    if c == q.char then some ([], r)
    else if c == '\\' then
      match r with
      | [] => none
      | e :: r => (splitText? q r).map fun (v, rest) => (unescape q e ++ v, rest)
    else (splitText? q r).map fun (v, rest) => (c :: v, rest)

/-- The text up to the bracket that closes the innermost of `depth + 1` open ones, and what
follows that bracket. -/
def splitIndex? (depth : Nat) : List Char → Option (List Char × List Char)
  | [] => none
  | c :: r =>
    if c == ']' then
      match depth with
      | 0 => some ([], r)
      | d + 1 => (splitIndex? d r).map fun (v, rest) => (c :: v, rest)
    else
      (splitIndex? (if c == '[' then depth + 1 else depth) r).map fun (v, rest) => (c :: v, rest)

/-- The text up to the parenthesis that closes an array literal, and what follows it. There is no
array literal if another parenthesis opens, the line ends or a statement ends before. -/
def splitArray? (within : Option Quote) : List Char → Option (List Char × List Char)
  | [] => none
  | c :: r =>
    let go (within : Option Quote) : Option (List Char × List Char) :=
      (splitArray? within r).map fun (v, rest) => (c :: v, rest)
    match within with
    | some q => go (if c == q.char then none else some q)
    | none =>
      match Quote.ofChar? c with
      | some q => go (some q)
      | none =>
        if c == '(' || c == '\n' || c == ';' then none
        else if c == ')' then some ([], r)
        else go none

/-- The lexeme of a text between quotes. -/
def quotedLexeme (q : Quote) (value : List Char) : Lexeme :=
  if q == .double && Braces.isParameterWord value then .parameter (String.ofList value)
  else if q == .double && Braces.isBraceWord value then .braces (String.ofList value)
  else .text (String.ofList value) (.quoted q)

/-- The lexeme of a word that is not followed by an index. -/
def wordLexeme? (word : String) : Option Lexeme :=
  if word == "true" then some (.boolean true)
  else if word == "false" then some (.boolean false)
  else if Lexeme.isKeyword word then some (.keyword word)
  else none

/-- The items of an array literal: everything but commas. Operators, reserved words and other
punctuation are no items, and a single item is no array. -/
def arrayItems? (tokens : List Token) : Option (List Token) :=
  let items := tokens.filter (!·.isPunctuation ',')
  let isItem : Token → Bool
    | .plain (.operator _) _ | .plain (.keyword _) _ | .plain (.punctuation _) _ => false
    | _ => true
  if items.all isItem && items.length != 1 then some items else none

/-! ## One token -/

/-- The outcome of reading: a token, the end of the text, or a fault; and where reading
stopped. -/
abbrev Outcome := Except LexFault (Option Token) × Cursor

/-- A token between two cursors. -/
def found (lexeme : Lexeme) (start stop : Cursor) : Outcome :=
  (.ok (some (.plain lexeme ⟨start.position, stop.position⟩)), stop)

/-- A fault at one cursor, with reading stopped at another. -/
def failed (cause : LexFault.Cause) (at_ stop : Cursor) : Outcome :=
  (.error ⟨cause, at_.position⟩, stop)

/-- Reads a text from its opening quote on. -/
def readText (q : Quote) (c : Cursor) : Outcome :=
  match splitText? q (c.rest.drop 1) with
  | some (value, rest) => found (quotedLexeme q value) c (c.moveTo rest)
  | none => failed .unclosedText c (c.moveTo [])

/-- Reads a number, of which a minus sign may already be read. -/
def readNumber (negative : Bool) (start c : Cursor) : Outcome :=
  let (whole, c) := c.takeWhile Char.isDigit
  let (fraction, c) := match c.rest with
    | '.' :: d :: _ => if d.isDigit then c.step.takeWhile Char.isDigit else ([], c)
    | _ => ([], c)
  let n := Decimal.ofDigits whole fraction 0
  found (.number (if negative then -n else n)) start c

/-- Reads a number or word together with the dash before it. -/
def readDashed (c : Cursor) : Outcome :=
  let r := c.step
  if r.rest.head?.any Char.isDigit then readNumber true c r
  else
    let (word, stop) := r.takeWhile isFlagChar
    found (.text (String.ofList ('-' :: word)) .bare) c stop

/-- Reads the index after a name, if there is one, and makes a token of both. -/
def readIndex (name : List Char) (deref : Bool) (start c : Cursor) : Outcome :=
  match c.rest with
  | '[' :: r =>
    match splitIndex? 0 r with
    | some (index, rest) =>
      found (.variable (String.ofList name) deref (some (String.ofList index))) start
        (c.moveTo rest)
    | none => failed .unclosedIndex c (c.moveTo [])
  | _ => found (.variable (String.ofList name) deref none) start c

/-- Reads a name after a `$`. -/
def readReference (c : Cursor) : Outcome :=
  let (name, stop) := c.step.takeWhile isNameChar
  if name.isEmpty then failed .nameMissing stop stop
  else readIndex name true c stop

/-- Reads a word. -/
def readWord (c : Cursor) : Outcome :=
  let (word, stop) := c.takeWhile isNameChar
  match wordLexeme? (String.ofList word) with
  | some l => found l c stop
  | none => readIndex word false c stop

/-- Reads an array literal, if one begins here; `inner` gives the tokens of the text between the
parentheses. -/
def readArray? (inner : List Char → Option (List Token)) (c : Cursor) : Option Outcome := do
  let (text, rest) ← splitArray? none (c.rest.drop 1)
  let items ← arrayItems? (← inner text)
  let stop := c.moveTo rest
  return (.ok (some (.array items ⟨c.position, stop.position⟩)), stop)

/-- Reads the next token. -/
def readToken (inner : List Char → Option (List Token)) (afterOperand : Bool) (c : Cursor) :
    Outcome :=
  let c := c.moveTo (dropBlanks c.rest)
  match c.rest with
  | [] => (.ok none, c)
  | a :: _ =>
    if isAtPath afterOperand c then
      let (path, stop) := c.takeWhile isPathChar
      found (.text (String.ofList path) .bare) c stop
    else
      match Quote.ofChar? a with
      | some q => readText q c
      | none =>
        if isAtDash c then readDashed c
        else if a.isDigit then readNumber false c c
        else if Operator.isOperatorChar a then
          match Operator.longest? c.rest with
          | some o => found (.operator o) c (c.skip o.spelling.length)
          | none => failed (.strayCharacter a) c c
        else if a == '$' then readReference c
        else if isNameStart a then readWord c
        else
          match if a == '(' then readArray? inner c else none with
          | some outcome => outcome
          | none =>
            if Lexeme.isPunctuation a then found (.punctuation a) c c.step
            else failed (.strayCharacter a) c c

/-- Whether a `/` after the token divides. -/
def isOperand : Token → Bool
  | .plain (.number _) _ => true
  | t => t.isPunctuation ')'

/-! ## All tokens -/

/-- The tokens of a text up to its end, or up to the first fault. -/
structure Scan where
  /-- the tokens, in order -/
  tokens : List Token
  /-- the end of the text, or the fault -/
  ending : Except LexFault Position

/-- The tokens of a text without a fault. -/
def Scan.complete? (s : Scan) : Option (List Token) :=
  match s.ending with
  | .ok _ => some s.tokens
  | .error _ => none

/-- Reads tokens until there are no more. Each takes at least one character, so the number of
characters bounds the steps. -/
def scanFrom (inner : List Char → Option (List Token)) : Nat → Bool → Cursor → Scan
  | 0, _, c => ⟨[], .ok c.position⟩
  | fuel + 1, afterOperand, c =>
    match readToken inner afterOperand c with
    | (.error f, _) => ⟨[], .error f⟩
    | (.ok none, c) => ⟨[], .ok c.position⟩
    | (.ok (some t), c) =>
      let more := scanFrom inner fuel (isOperand t) c
      ⟨t :: more.tokens, more.ending⟩

/-- The tokens between the parentheses of an array literal, with array literals up to `depth`
within each other. -/
def innerTokens? : (depth : Nat) → List Char → Option (List Token)
  | 0, _ => none
  | depth + 1, s => (scanFrom (innerTokens? depth) (s.length + 1) false (.start s)).complete?

/-- All tokens of a text. The text of an array literal is shorter than the text around it, so no
more of them can lie within each other than there are characters. -/
def scan (s : List Char) : Scan := scanFrom (innerTokens? s.length) (s.length + 1) false (.start s)

end Lexer

/-! ## Tokens one by one -/

/-- A reader of tokens with one token of lookahead. -/
structure Lexer where
  /-- how many array literals may lie within each other -/
  depth : Nat
  /-- where reading goes on -/
  cursor : Cursor
  /-- a token already read but not yet taken -/
  buffered : Option Token := none
  /-- whether a `/` divides -/
  afterOperand : Bool := false

namespace Lexer

/-- A reader at the start of a text. -/
def start (s : List Char) : Lexer := { depth := s.length, cursor := .start s }

/-- Reads a token past the buffered one. -/
def read (l : Lexer) : Except LexFault (Option Token) × Lexer :=
  match readToken (innerTokens? l.depth) l.afterOperand l.cursor with
  | (.ok t?, c) => (.ok t?, { l with cursor := c, afterOperand := t?.any isOperand })
  | (.error f, c) => (.error f, { l with cursor := c })

/-- The next token, which stays the next one. -/
def peek (l : Lexer) : Except LexFault (Option Token) × Lexer :=
  match l.buffered with
  | some t => (.ok (some t), l)
  | none =>
    match l.read with
    | (.ok t?, l) => (.ok t?, { l with buffered := t? })
    | (.error f, l) => (.error f, l)

/-- Takes the next token. -/
def next (l : Lexer) : Except LexFault (Option Token) × Lexer :=
  match l.buffered with
  | some t => (.ok (some t), { l with buffered := none })
  | none => l.read

/-- Whether no token is left. -/
def isAtEnd (l : Lexer) : Except LexFault Bool × Lexer :=
  let (t?, l) := l.peek
  (t?.map (·.isNone), l)

/-- The position of the buffered token or, without one, of the cursor. -/
def position (l : Lexer) : Position :=
  match l.buffered with
  | some t => t.span.start
  | none => l.cursor.position

end Lexer

end CommandLanguage
