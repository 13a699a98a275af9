/-!
# Glob patterns

Patterns as the language writes them, and the regular expressions they stand for: `*` is any text,
`?` any character, `[…]` one of some characters, and a backslash makes the next character stand
for itself.

* `bracketLength?` — how far a bracket expression reaches;
* `bracketRegex` — a bracket expression as one of regular expressions;
* `regex` — a pattern as the text of a regular expression, without anchors.
-/

namespace CommandLanguage.Glob

/-- The characters that mean something in a regular expression. -/
def isMeta (c : Char) : Bool := "\\^$.|+()\x7b\x7d[]*?".toList.contains c

/-- A character that stands for itself in a regular expression. -/
def literal (c : Char) : List Char := if isMeta c then ['\\', c] else [c]

/-! ## Bracket expressions -/

/-- The members of the named sets, as a bracket expression lists them. -/
def named? : String → Option String
  | "alnum" => some "a-zA-Z0-9"
  | "alpha" => some "a-zA-Z"
  | "blank" => some " \\t"
  | "digit" => some "0-9"
  | "lower" => some "a-z"
  | "punct" => some "!-/:-@\\[-`\x7b-~"
  | "space" => some " \\t\\n\\r\\f\\v"
  | "upper" => some "A-Z"
  | "word" => some "a-zA-Z0-9_"
  | "xdigit" => some "0-9A-Fa-f"
  | _ => none

/-- The number of characters before the `:]` that ends the name of a set. -/
def nameLength? : List Char → Option Nat
  | [] => none
  | c :: r => if c == ':' && r.head? == some ']' then some 0 else (nameLength? r).map (· + 1)

/-- The length of the name of a set, given the text after an opening bracket. -/
def namedLength? : List Char → Option Nat
  | ':' :: r => nameLength? r
  | _ => none

/-- The number of characters before the bracket that closes a bracket expression. Closing
brackets after a backslash or in the name of a set do not count; `pass` characters belong to one
of those. -/
def closing? (pass : Nat) : List Char → Option Nat
  | [] => none
  | c :: r =>
    match pass with
    | n + 1 => (closing? n r).map (· + 1)
    | 0 =>
      if c == ']' then some 0
      else if c == '\\' then (closing? 1 r).map (· + 1)
      else if c == '[' then
        match namedLength? r with
        | some n => (closing? (n + 3) r).map (· + 1)
        | none => (closing? 0 r).map (· + 1)
      else (closing? 0 r).map (· + 1)

/-- Whether a character negates a bracket expression that it begins. -/
def isNegation (c : Char) : Bool := c == '!' || c == '^'

/-- The number of characters before the bracket that closes a bracket expression, given the text
after the opening one. A closing bracket in the very first place is literal. -/
def bracketLength? (s : List Char) : Option Nat :=
  let sign := if s.head?.any isNegation then 1 else 0
  let literals := if (s.drop sign).head? == some ']' then sign + 1 else sign
  (closing? 0 (s.drop literals)).map (literals + ·)

/-- The members of a bracket expression; `pass` of the characters are already accounted for. -/
def membersRegex (pass : Nat) : List Char → List Char
  | [] => []
  | c :: r =>
    match pass with
    | n + 1 => membersRegex n r
    | 0 =>
      if c == '\\' then '\\' :: (r.head?.toList ++ membersRegex 1 r)
      else if c == ']' || c == '[' || c == '^' then
        match if c == '[' then namedLength? r else none with
        | some n =>
          ((named? (String.ofList ((r.drop 1).take n))).getD "").toList ++ membersRegex (n + 3) r
        | none => '\\' :: c :: membersRegex 0 r
      else c :: membersRegex 0 r

/-- A bracket expression of a regular expression, given what stands between the brackets of a
pattern. -/
def bracketRegex (s : List Char) : List Char :=
  if s.head?.any isNegation then '[' :: '^' :: membersRegex 0 (s.drop 1) ++ [']']
  else '[' :: membersRegex 0 s ++ [']']

/-! ## Patterns -/

/-- The regular expression of a pattern; `pass` of the characters are already accounted for. -/
def regexFrom (greedy : Bool) (pass : Nat) : List Char → List Char
  | [] => []
  | c :: r =>
    match pass with
    | n + 1 => regexFrom greedy n r
    | 0 =>
      if c == '\\' then
        match r with
        | [] => ['\\', '\\']
        | d :: _ => literal d ++ regexFrom greedy 1 r
      else if c == '*' then
        (if greedy then ['.', '*'] else ['.', '*', '?']) ++ regexFrom greedy 0 r
      else if c == '?' then '.' :: regexFrom greedy 0 r
      else if c == '[' then
        match bracketLength? r with
        | some n => bracketRegex (r.take n) ++ regexFrom greedy (n + 1) r
        | none => '\\' :: '[' :: regexFrom greedy 0 r
      else literal c ++ regexFrom greedy 0 r

/-- The text of the regular expression that a pattern stands for. Its stars take as much as they
can if it is greedy and as little as they can otherwise. -/
def regex (greedy : Bool) (pattern : List Char) : List Char := regexFrom greedy 0 pattern

end CommandLanguage.Glob
