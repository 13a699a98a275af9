import CommandLanguage.Regex.Fault
import CommandLanguage.Regex.Match
import CommandLanguage.Text.Blank
import CommandLanguage.Text.Case
import CommandLanguage.Text.LetterTable

/-!
# The text of regular expressions

`Regex.parse` reads a regular expression. In order of the sections below: the reader and its
flags, numbers and escapes, bracket expressions, repetitions, groups, and the expression as a
whole. There are no conditions on the text around, no references back to groups, and no sets of
characters by property; each of them has a fault of its own.

Together with the search of `CommandLanguage.Regex.Match` this makes an engine (`Regex.engine`).

With the flag `x` blanks and comments may stand between the parts, which is why so many steps
end in `skip`.
-/

namespace CommandLanguage.Regex

/-! ## The reader -/

/-- The flags that a group may set. -/
structure Flags where
  /-- `i`: a letter stands for both of its cases -/
  foldCase : Bool := false
  /-- `m`: `^` and `$` are the ends of lines -/
  lines : Bool := false
  /-- `s`: the dot stands for line ends too -/
  dotAll : Bool := false
  /-- `U`: greedy and reluctant repetitions change places -/
  swapGreed : Bool := false
  /-- `R`: lines may end in a carriage return and a line feed -/
  carriage : Bool := false
  /-- `x`: blanks and comments mean nothing -/
  spaced : Bool := false
  deriving DecidableEq, Repr

/-- Where the reader stands. -/
structure Reader where
  /-- the text not yet read -/
  rest : List Char
  /-- the flags in force -/
  flags : Flags := {}
  /-- the number of groups begun so far -/
  groups : Nat := 0
  /-- their names -/
  names : List (List Char) := []

/-- A step of the reader. -/
abbrev Read := StateT Reader (Except Fault)

namespace Read

/-- The text not yet read. -/
def rest : Read (List Char) := return (← get).rest

/-- The flags in force. -/
def flags : Read Flags := return (← get).flags

/-- Goes on at the given text. -/
def goTo (s : List Char) : Read Unit := modify fun r => { r with rest := s }

/-- Changes the flags. -/
def setFlags (f : Flags) : Read Unit := modify fun r => { r with flags := f }

/-- A text without the blanks and comments at its start. -/
def dropSpace : (inComment : Bool) → List Char → List Char
  | _, [] => []
  | true, c :: r => dropSpace (c != '\n') r
  | false, c :: r =>
    if Text.isBlank c then dropSpace false r
    else if c == '#' then dropSpace true r
    else c :: r

/-- Passes over blanks and comments, where these mean nothing. -/
def skip : Read Unit := do
  if (← flags).spaced then goTo (dropSpace false (← rest))

/-- Goes on at the given text and passes over what means nothing; the answer is the text left. -/
def moveTo (s : List Char) : Read (List Char) := do
  goTo s
  skip
  rest

/-- Goes on at the given text, failing when nothing but blanks and comments is left. -/
def moveOn (s : List Char) (fault : Fault) : Read (Char × List Char) := do
  match s with
  | [] => throw fault
  | _ =>
    match ← moveTo s with
    | c :: r => return (c, r)
    | [] => throw fault

/-- The character after the next one, blanks and comments left out. -/
def peekPast (r : List Char) : Read (Option Char) := do
  if (← flags).spaced then
    let r := r.dropWhile Text.isBlank
    match r with
    | '#' :: r => return (r.dropWhile Text.isBlank).head?
    | r => return r.head?
  else return r.head?

/-- Reads a given text, if it comes next. -/
def accept (token : List Char) : Read Bool := do
  let s ← rest
  if token.isPrefixOf s then
    goTo (s.drop token.length)
    return true
  else return false

end Read

open Read

/-! ## Characters, numbers and escapes -/

/-- A character as an expression; with the flag `i` a letter is the set of its two cases. -/
def literal (f : Flags) (c : Char) : Regex :=
  if f.foldCase && swapCase c != c then .set (.union (.single c) (.single (swapCase c)))
  else .char c

/-- The characters that operators are made of. -/
def isMeta (c : Char) : Bool := "\\.+*?()|[]\x7b\x7d^$#&-~".toList.contains c

/-- The characters that a backslash makes literal: all of the ASCII characters but letters,
digits and the angle brackets. -/
def isEscapable (c : Char) : Bool :=
  c.toNat < 128 && !c.isAlphanum && c != '<' && c != '>'

/-- Whether a character is a hexadecimal digit. -/
def isHexDigit (c : Char) : Bool :=
  c.isDigit || ('a' ≤ c && c ≤ 'f') || ('A' ≤ c && c ≤ 'F')

/-- The value of a hexadecimal digit. -/
def hexDigitValue (c : Char) : Nat :=
  if c.isDigit then c.toNat - '0'.toNat else 10 + (c.toLower.toNat - 'a'.toNat)

/-- The character with a given number in base sixteen. -/
def hexChar? (ds : List Char) : Option Char :=
  let n := ds.foldl (fun n c => 16 * n + hexDigitValue c) 0
  if n.isValidChar then some (Char.ofNat n) else none

/-- Exactly `n` hexadecimal digits, of which the next is `c`. -/
def hexFixed : Nat → Char → List Char → Read (List Char)
  | 0, _, _ => return []
  | n + 1, c, r => do
    if !isHexDigit c then throw .hexFixedDigit
    match n with
    | 0 =>
      discard <| moveTo r
      return [c]
    | n + 1 =>
      let (d, r) ← moveOn r .hexFixedUnfinished
      return c :: (← hexFixed (n + 1) d r)

/-- Hexadecimal digits up to a closing brace. The text gets shorter with every digit, so its
length bounds the steps. -/
def hexBrace : Nat → List Char → Read (List Char)
  | 0, _ => throw .hexBraceUnclosed
  | fuel + 1, s => do
    let (c, r) ← moveOn s .hexBraceUnclosed
    if c == '\x7d' then
      discard <| moveTo r
      return []
    else if !isHexDigit c then throw .hexBraceDigit
    else return c :: (← hexBrace fuel r)

/-- A character given by its number, after `\x`, `\u` or `\U`. -/
def hexEscape (length : Nat) (r : List Char) : Read Regex := do
  let (c, r) ← moveOn r .hexMissing
  if c == '\x7b' then
    let ds ← hexBrace (r.length + 1) r
    if ds.isEmpty then throw .hexBraceEmpty
    match hexChar? ds with
    | some c => return literal (← flags) c
    | none => throw .hexBraceInvalid
  else
    let ds ← hexFixed length c r
    match hexChar? ds with
    | some c => return literal (← flags) c
    | none => throw .hexFixedInvalid

/-- Whether a character may stand in the name of a word edge. -/
def isEdgeChar (c : Char) : Bool := c.isAlpha || c == '-'

/-- The name of a word edge up to its closing brace, of which the next character is `c`. -/
def edgeName : Nat → List Char → Read (List Char)
  | 0, _ => throw .wordEdgeUnclosed
  | fuel + 1, s => do
    match s with
    | [] => throw .wordEdgeUnclosed
    | c :: r =>
      if isEdgeChar c then
        let s ← moveTo r
        return c :: (← edgeName fuel s)
      else if c == '\x7d' then
        goTo r
        return []
      else throw .wordEdgeUnclosed

/-- What follows `\b`: a word edge, or one of the special word edges in braces. Braces around a
number are left for the repetition that they are. -/
def wordEdge (s : List Char) : Read Regex := do
  match s with
  | '\x7b' :: r =>
    let (c, r) ← moveOn r .wordEdgeUnfinished
    if !isEdgeChar c then
      goTo s
      return .look .wordEdge
    else
      match String.ofList (← edgeName (r.length + 2) (c :: r)) with
      | "start" => return .look .wordStart
      | "end" => return .look .wordEnd
      | "start-half" => return .look .wordStartHalf
      | "end-half" => return .look .wordEndHalf
      | _ => throw .wordEdgeUnknown
  | _ => return .look .wordEdge

/-- What follows a backslash. -/
def escape (s : List Char) : Read Regex := do
  match s with
  | [] => throw .escapeUnfinished
  | c :: r =>
    if c.isDigit then throw .backReference
    goTo r
    let special (c : Char) : Read Regex := return literal (← flags) c
    match c with
    | 'p' | 'P' => throw .propertyClass
    | 'x' => hexEscape 2 r
    | 'u' => hexEscape 4 r
    | 'U' => hexEscape 8 r
    | 'd' => return .set .digit
    | 's' => return .set .space
    | 'w' => return .set .word
    | 'D' => return .set (.complement .digit)
    | 'S' => return .set (.complement .space)
    | 'W' => return .set (.complement .word)
    | 'a' => special '\x07'
    | 'f' => special '\x0c'
    | 't' => special '\t'
    | 'n' => special '\n'
    | 'r' => special '\r'
    | 'v' => special '\x0b'
    | 'A' => return .look .start
    | 'z' => return .look .finish
    | 'b' => wordEdge r
    | 'B' => return .look .noWordEdge
    | '<' => return .look .wordStart
    | '>' => return .look .wordEnd
    | c => if isMeta c || isEscapable c then special c else throw .escapeUnknown

/-! ## Bracket expressions -/

/-- A member of a bracket expression, before it is known whether a range begins with it. -/
def bracketItem (c : Char) (r : List Char) : Read Regex := do
  if c == '\\' then escape r
  else
    goTo r
    return .char c

/-- The characters that a member of a bracket expression stands for. -/
def itemSet : Regex → Except Fault CharSet
  | .char c => .ok (.single c)
  | .set s => .ok s
  | _ => .error .bracketItem

/-- The character that an end of a range is. -/
def itemChar : Regex → Except Fault Char
  | .char c => .ok c
  | _ => .error .bracketRangeItem

/-- A member of a bracket expression or a range of them, of which the first character is `c`. -/
def bracketRange (c : Char) (r : List Char) : Read CharSet := do
  let first ← bracketItem c r
  skip
  match ← rest with
  | [] => throw .bracketUnclosedAfterItem
  | d :: r =>
    let next ← peekPast r
    if d != '-' || next == some ']' || next == some '-' then itemSet first
    else
      let (e, r) ← moveOn r .bracketUnclosedAfterDash
      let last ← bracketItem e r
      let low ← itemChar first
      let high ← itemChar last
      if high < low then throw .bracketRangeOrder
      return .range low high

/-- A named set such as `[:digit:]`, given the text after its `[`. -/
def namedSet? (s : List Char) : Option (CharSet × List Char) :=
  match s with
  | ':' :: r =>
    let (negated, r) := match r with
      | '^' :: r => (true, r)
      | r => (false, r)
    let name := r.takeWhile (· != ':')
    match r.dropWhile (· != ':') with
    | ':' :: ']' :: r =>
      (CharSet.named? (String.ofList name)).map fun s =>
        (if negated then .complement s else s, r)
    | _ => none
  | _ => none

/-- The members of a bracket expression up to its end, after those already read. Every member
takes at least one character, so the length of the text bounds the steps. -/
def bracketItems (seen : List CharSet) : Nat → Read CharSet
  | 0 => throw .bracketUnclosed
  | fuel + 1 => do
    skip
    match ← rest with
    | [] => throw .bracketUnclosed
    | '[' :: r =>
      match namedSet? r with
      | some (s, r) =>
        goTo r
        bracketItems (seen ++ [s]) fuel
      | none => throw .bracketNested
    | ']' :: r =>
      goTo r
      return .ofList seen
    | '&' :: '&' :: _ => throw .bracketIntersection
    | '-' :: '-' :: _ => throw .bracketDifference
    | '~' :: '~' :: _ => throw .bracketSymmetricDifference
    | c :: r =>
      let s ← bracketRange c r
      bracketItems (seen ++ [s]) fuel

/-- The dashes at the start of a bracket expression, which are literal, and a closing bracket in
the very first place, which is literal too. -/
def bracketStart (seen : List CharSet) : Nat → Char → List Char → Read (List CharSet)
  | 0, _, _ => return seen
  | fuel + 1, c, r => do
    if c == '-' then
      let (c, r) ← moveOn r .bracketUnclosedAfterDash
      bracketStart (seen ++ [.single '-']) fuel c r
    else if c == ']' && seen.isEmpty then
      discard <| moveOn r .bracketUnclosedAfterClosing
      return [.single ']']
    else return seen

/-- A bracket expression, given the text after its `[`. -/
def bracket (r : List Char) : Read Regex := do
  let (c, r) ← moveOn r .bracketUnclosed
  let negated := c == '^'
  let (c, r) ← if negated then moveOn r .bracketUnclosedAfterNegation else pure (c, r)
  let seen ← bracketStart [] (r.length + 2) c r
  let members ← bracketItems seen (r.length + 2)
  let members := if (← flags).foldCase then members.foldCase else members
  return .set (if negated then .complement members else members)

/-! ## Repetitions -/

/-- The digits of a count, blanks around them left out. -/
def countDigits : Nat → Read (List Char)
  | 0 => return []
  | fuel + 1 => do
    match ← rest with
    | c :: r =>
      if c.isDigit then
        discard <| moveTo r
        return c :: (← countDigits fuel)
      else return []
    | [] => return []

/-- A count of at most thirty-two bits. -/
def count : Read Nat := do
  goTo ((← rest).dropWhile Text.isBlank)
  let ds ← countDigits ((← rest).length + 1)
  let r ← rest
  if r.head?.any Text.isBlank then discard <| moveTo (r.dropWhile Text.isBlank)
  if ds.isEmpty then throw .countEmpty
  let n := ds.foldl (fun n c => 10 * n + (c.toNat - '0'.toNat)) 0
  if n < Nat.pow 2 32 then return n else throw .countInvalid

/-- The question mark that makes a repetition reluctant. -/
def greediness : Read Bool := do
  let greedy := !(← accept ['?'])
  return greedy != (← flags).swapGreed

/-- The counts in braces, given the text after the opening one. -/
def counts (r : List Char) : Read (Nat × Option Nat) := do
  discard <| moveOn r .countUnclosed
  let least ← count
  let most ← match ← rest with
    | [] => throw .countLeastUnclosed
    | ',' :: r => do
      let (c, _) ← moveOn r .countCommaUnclosed
      let most ← if c == '\x7d' then pure none else some <$> count
      if (← rest).isEmpty then throw .countMostUnclosed
      pure most
    | _ => pure (some least)
  match ← rest with
  | '\x7d' :: r => discard <| moveTo r
  | _ => throw .countEnd
  return (least, most)

/-! ## Groups -/

/-- Whether a character may stand in a group name. -/
def isNameChar (first : Bool) (c : Char) : Bool :=
  let letter := if c.toNat < 128 then c.isAlpha else Text.inRanges Text.letterRanges c
  let numeral := if c.toNat < 128 then c.isDigit else Text.inRanges Text.numeralRanges c
  c == '_' || letter || (!first && (numeral || c == '.' || c == '[' || c == ']'))

/-- The rest of a group name, up to its closing angle bracket. -/
def nameFrom (first : Bool) : List Char → Read (List Char)
  | [] => throw .groupNameUnclosed
  | c :: r => do
    if c == '>' then
      goTo r
      return []
    else if !isNameChar first c then throw .groupNameInvalid
    else return c :: (← nameFrom false r)

/-- The number of the group that begins here. -/
def groupNumber : Read Nat := do
  modify fun r => { r with groups := r.groups + 1 }
  return (← get).groups

/-- A group name, which must be a new one. -/
def groupName : Read (List Char) := do
  let s ← rest
  if s.isEmpty then throw .groupNameMissing
  let name ← nameFrom true s
  if name.isEmpty then throw .groupNameEmpty
  if (← get).names.contains name then throw .groupNameTwice
  modify fun r => { r with names := name :: r.names }
  return name

/-- Sets or clears one flag. -/
def Flags.put? (f : Flags) (on : Bool) : Char → Option Flags
  | 'i' => some { f with foldCase := on }
  | 'm' => some { f with lines := on }
  | 's' => some { f with dotAll := on }
  | 'U' => some { f with swapGreed := on }
  | 'R' => some { f with carriage := on }
  | 'x' => some { f with spaced := on }
  | 'u' => some f
  | _ => none

/-- Flags up to the `:` or `)` that ends them. `seen` holds the flags already given and
`dangling` tells whether the last character was the minus sign. -/
def flagsFrom (f : Flags) (seen : List Char) (negated dangling : Bool) :
    List Char → Except Fault (Flags × List Char)
  | [] => .error .flagsUnclosed
  | c :: r =>
    if c == ':' || c == ')' then
      if dangling then .error .flagNegationDangling else .ok (f, c :: r)
    else if c == '-' then
      if negated then .error .flagNegationTwice
      else flagsFrom f seen true true r
    else
      match f.put? (!negated) c with
      | none => .error .flagUnknown
      | some f =>
        if seen.contains c then .error .flagTwice
        else flagsFrom f (c :: seen) negated false r

/-- What an opening parenthesis begins. -/
inductive Opening where
  /-- a group with a number and perhaps a name -/
  | numbered (number : Nat) (name? : Option (List Char))
  /-- a group with neither -/
  | plain
  /-- flags for the rest of the group around -/
  | flagsOnly

/-- Reads the start of a group, given the text after its parenthesis. -/
def opening (r : List Char) : Read Opening := do
  discard <| moveTo r
  for ahead in ["?=", "?!", "?<=", "?<!"] do
    if ← accept ahead.toList then throw .lookAround
  if (← accept "?P<".toList) || (← accept "?<".toList) then
    return .numbered (← groupNumber) (some (← groupName))
  else if ← accept ['?'] then
    let s ← rest
    if s.isEmpty then throw .groupFlagsUnfinished
    let (f, r) ← flagsFrom (← flags) [] false false s
    setFlags f
    goTo r
    match r with
    | ')' :: _ => if r.length == s.length then throw .flagsEmpty else return .flagsOnly
    | _ =>
      goTo (r.drop 1)
      return .plain
  else return .numbered (← groupNumber) none

/-! ## Expressions -/

/-- The dot. -/
def dot (f : Flags) : Regex :=
  .set <| .complement <|
    if f.dotAll then .none
    else if f.carriage then .union (.single '\r') (.single '\n')
    else .single '\n'

/-- The start of a text or line. -/
def startAnchor (f : Flags) : Regex :=
  .look (if !f.lines then .start else if f.carriage then .lineStartCR else .lineStart)

/-- The end of a text or line. -/
def endAnchor (f : Flags) : Regex :=
  .look (if !f.lines then .finish else if f.carriage then .lineEndCR else .lineEnd)

/-- How many layers of groups and operators an expression may have. -/
def nestingLimit : Nat := 50

/-- The choice of the alternatives already read and of the present one, given by its parts; both
lists are latest first. -/
def ofAlternatives (alternatives parts : List Regex) : Regex :=
  ofChoice (ofSequence parts.reverse :: alternatives).reverse

/-- Reads alternatives up to the end of the text or of the group around. `alternatives` holds
the alternatives already read and `parts` the parts of the present one, both latest first. Every
step reads at least one character, so the length of the text bounds them. -/
def alternation : Nat → Nat → List Regex → List Regex → Read Regex
  | 0, _, _, _ => throw .nesting
  | fuel + 1, depth, alternatives, parts => do
    let goOn (r : List Char) (part : Regex) : Read Regex := do
      goTo r
      alternation fuel depth alternatives (part :: parts)
    skip
    match ← rest with
    | [] => return ofAlternatives alternatives parts
    | '(' :: r =>
      let before ← flags
      let parts ← match ← opening r with
        | .flagsOnly => pure parts
        | kind => do
          if nestingLimit < depth + 1 then throw .nesting
          let inner ← alternation fuel (depth + 1) [] []
          setFlags before
          match kind with
          | .numbered number name? => pure (.group number name? inner :: parts)
          | _ => pure (inner :: parts)
      match ← rest with
      | ')' :: r =>
        goTo r
        alternation fuel depth alternatives parts
      | _ => throw .groupUnclosed
    | ')' :: _ =>
      if depth == 0 then throw .groupUnopened else return ofAlternatives alternatives parts
    | '|' :: r =>
      goTo r
      alternation fuel depth (ofSequence parts.reverse :: alternatives) []
    | '[' :: r =>
      let part ← bracket r
      alternation fuel depth alternatives (part :: parts)
    | '\x7b' :: r =>
      match parts with
      | [] => throw .countOfNothing
      | part :: parts =>
        let (least, most) ← counts r
        let greedy ← greediness
        if most.any (· < least) then throw .countOrder
        alternation fuel depth alternatives (ofRepetition least most greedy part :: parts)
    | '\\' :: r =>
      let part ← escape r
      alternation fuel depth alternatives (part :: parts)
    | '.' :: r => goOn r (dot (← flags))
    | '^' :: r => goOn r (startAnchor (← flags))
    | '$' :: r => goOn r (endAnchor (← flags))
    | c :: r =>
      if c == '?' || c == '*' || c == '+' then
        match parts with
        | [] => throw .repetitionOfNothing
        | part :: parts =>
          goTo r
          let greedy ← greediness
          let least := if c == '+' then 1 else 0
          let most := if c == '?' then some 1 else none
          alternation fuel depth alternatives (ofRepetition least most greedy part :: parts)
      else goOn r (literal (← flags) c)

/-- Reads a regular expression, refusing those that are nested too deeply. -/
def parse (s : List Char) : Except Fault Regex := do
  let (r, _) ← (alternation (s.length + 1) 0 [] []).run { rest := s }
  if nestingLimit < r.depth then throw .nesting
  return r

/-- The engine that reads expressions in this way and searches in them through all of their ends. -/
def engine : Engine where
  compile s :=
    match parse s with
    | .ok r => .ok r.matcher
    | .error f => .error f.message

end CommandLanguage.Regex
