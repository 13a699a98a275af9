import CommandLanguage.Source.Braces
import CommandLanguage.Source.Quotes

/-!
# Normal form of scripts

What is done to the text of a script, line by line, before it is read:

* blanks at the end of a line and comments are dropped (`stripComment`);
* words with `${…}` or expandable groups are put between double quotes (`quoteWords`), so that
  each of them is one token;
* a `;` ends every line that does not go on in the next one (`normalizeLine`);
* statements without content are dropped (`dropBlankStatements`).

A line goes on when it ends in an operator that wants more (`goesOn`) or inside of the head of a
control statement, as after `for x in` (`endsInHead`); only the latter is carried from line to
line.
-/

namespace CommandLanguage.Source

/-! ## Comments -/

/-- A line without its comment. A comment starts at a `#` that stands first or after a blank or
`;`, outside of quotes and of `${…}`; `depth` counts the open `${` and `before` is the character
before the text. -/
def stripCommentFrom (q : Quotes) (depth : Nat) (before : Option Char) : List Char → List Char
  | [] => []
  | c :: r =>
    let (quoted, q) := q.feed c
    if quoted then c :: stripCommentFrom q depth (some c) r
    else if c == '$' && r.head? == some '\x7b' then
      c :: stripCommentFrom q (depth + 1) (some c) r
    else if c == '\x7d' && 0 < depth then c :: stripCommentFrom q (depth - 1) (some c) r
    else if c == '#' && depth == 0 && before.all fun b => Text.isBlank b || b == ';' then []
    else c :: stripCommentFrom q depth (some c) r

/-- A line without its comment. -/
def stripComment (s : List Char) : List Char := stripCommentFrom {} 0 none s

/-! ## Words that need quotes -/

/-- The characters that end a word outside of braces. -/
def isDelimiter (c : Char) : Bool := Text.isBlank c || ";(),=<>|&!+*".toList.contains c

/-- The quotes and the backslash, which end a word anywhere. -/
def isQuoting (c : Char) : Bool := c == '\\' || (Quote.ofChar? c).isSome

/-- The number of open braces after a character. -/
def braceDepth (depth : Nat) (c : Char) : Nat :=
  if c == '\x7b' then depth + 1 else if c == '\x7d' then depth - 1 else depth

/-- The number of open `${` after a character, `r` being the text after it. -/
def parameterDepth (parameters : Nat) (c : Char) (r : List Char) : Nat :=
  if c == '$' && r.head? == some '\x7b' then parameters + 1
  else if c == '\x7d' then parameters - 1
  else parameters

/-- Whether a character ends a word: a quote or backslash anywhere, a delimiter outside of
braces, and a blank inside of braces that are not those of a `${…}`. -/
def endsWord (depth parameters : Nat) (c : Char) : Bool :=
  isQuoting c || if depth == 0 then isDelimiter c else parameters == 0 && Text.isBlank c

/-- Splits off the rest of a word, of which `depth` braces and `parameters` of the `${` are
open. -/
def splitWord (depth parameters : Nat) : List Char → List Char × List Char
  | [] => ([], [])
  | c :: r =>
    if endsWord depth parameters c then ([], c :: r)
    else
      let (word, rest) := splitWord (braceDepth depth c) (parameterDepth parameters c r) r
      (c :: word, rest)

theorem splitWord_append (depth parameters : Nat) (s : List Char) :
    (splitWord depth parameters s).1 ++ (splitWord depth parameters s).2 = s := by
  induction s generalizing depth parameters with
  | nil => rfl
  | cons c r ih =>
    rw [splitWord]
    split
    · rfl
    · simp [ih]

theorem length_splitWord_snd_le (depth parameters : Nat) (s : List Char) :
    (splitWord depth parameters s).2.length ≤ s.length := by
  have h := congrArg List.length (splitWord_append depth parameters s)
  simp only [List.length_append] at h
  omega

/-- Whether a word is put between double quotes. -/
def needsQuotes (word : List Char) : Bool :=
  Braces.isParameterWord word || Braces.holdsParameter word || Braces.isBraceWord word

/-- A word, between double quotes if it needs them. -/
def quoteWord (word : List Char) : List Char :=
  if needsQuotes word then '"' :: word ++ ['"'] else word

/-- A line with the words that need it put between double quotes. What is quoted or escaped
already is left alone. -/
def quoteWordsFrom (q : Quotes) : List Char → List Char
  | [] => []
  | c :: r =>
    if q.within.isSome || q.escaped || isQuoting c then c :: quoteWordsFrom (q.feed c).2 r
    else if isDelimiter c then c :: quoteWordsFrom q r
    else
      let tail := splitWord (braceDepth 0 c) (parameterDepth 0 c r) r
      quoteWord (c :: tail.1) ++ quoteWordsFrom q tail.2
  termination_by s => s.length
  decreasing_by
    · simp
    · simp
    · have := length_splitWord_snd_le (braceDepth 0 c) (parameterDepth 0 c r) r
      simp only [List.length_cons]
      omega

/-- A line with the words that need it put between double quotes. -/
def quoteWords (s : List Char) : List Char := quoteWordsFrom {} s

/-! ## Ends of lines -/

/-- The endings after which a line goes on. -/
def openEndings : List String := ["\x7b", "(", ",", ";", "&&", "||", "\\"]

/-- Whether a line ends in an operator or bracket that wants more. -/
def goesOn (s : List Char) : Bool :=
  openEndings.any fun e => e.toList.isSuffixOf (Text.trimEnd s)

/-- The characters that separate the segments of a line. -/
def isSeparator (c : Char) : Bool := c == ';' || c == '\x7b' || c == '\x7d'

/-- The text after the last unquoted separator of a line, and whether there is one. -/
def lastSegment (s : List Char) : List Char × Bool :=
  let marked := (Quotes.mark {} s).reverse
  let isSplit (m : Char × Bool) : Bool := !m.2 && isSeparator m.1
  (((marked.takeWhile (!isSplit ·)).reverse).map Prod.fst, marked.any isSplit)

/-- The words that begin a segment of a control statement. -/
def headWords : List String := ["if", "then", "else", "for", "while", "do"]

/-- The words after which a control statement goes on. -/
def bridgeWords : List String := ["do", "then", "else", "in"]

/-- Whether a line stops inside of the head of a control statement. `wasOpen` tells whether the
line before it did, which counts as long as no separator intervenes. -/
def endsInHead (s : List Char) (wasOpen : Bool) : Bool :=
  let (segment, separated) := lastSegment (Text.trimEnd s)
  let words := (Text.words segment).map String.ofList
  let first := words.headD ""
  let last := words.getLastD ""
  (headWords.contains first || (wasOpen && !separated)) && bridgeWords.contains last

/-! ## Statements without content -/

/-- A line without the `;` that end no statement: those that come first or after another `;` or
an opening brace, unless they are quoted or in parentheses. `parens` counts the open parentheses
and `last` is the last character that is not blank. -/
def dropBlankStatementsFrom (q : Quotes) (parens : Nat) (last : Option Char) :
    List Char → List Char
  | [] => []
  | c :: r =>
    let (quoted, q) := q.feed c
    if quoted then c :: dropBlankStatementsFrom q parens (some c) r
    else if c == ';' && parens == 0 && last.all fun l => l == ';' || l == '\x7b' then
      dropBlankStatementsFrom q parens last r
    else
      let parens := if c == '(' then parens + 1 else if c == ')' then parens - 1 else parens
      c :: dropBlankStatementsFrom q parens (if Text.isBlank c then last else some c) r

/-- A line without the `;` that end no statement. -/
def dropBlankStatements (s : List Char) : List Char := dropBlankStatementsFrom {} 0 none s

/-! ## Scripts -/

/-- A line without its comment, its words quoted and its end trimmed. -/
def cleanLine (s : List Char) : List Char :=
  Text.trimEnd (quoteWords (Text.trimEnd (stripComment (Text.trimEnd s))))

/-- The normal form of a line, if anything is left of it, and whether it stops inside of the head
of a control statement. -/
def normalizeLine (wasOpen : Bool) (s : List Char) : Option (List Char) × Bool :=
  let line := cleanLine s
  if Text.isBlankText line then (none, wasOpen)
  else
    let isOpen := endsInHead line wasOpen
    let ended := if isOpen || goesOn line then line else line ++ [';']
    let line := dropBlankStatements ended
    (if Text.isBlankText line then none else some line, isOpen)

/-- The normal forms of lines, blank ones left out. -/
def normalizeLines (wasOpen : Bool) : List (List Char) → List (List Char)
  | [] => []
  | s :: r =>
    let (line, isOpen) := normalizeLine wasOpen s
    line.toList ++ normalizeLines isOpen r

/-- The normal form of a script. -/
def normalize (s : String) : String :=
  String.ofList (['\n'].intercalate (normalizeLines false (Text.lines s.toList)))

end CommandLanguage.Source
