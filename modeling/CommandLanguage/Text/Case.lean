import CommandLanguage.Text.CaseTable

/-!
# Upper and lower case

The full case mappings of texts: one character may become several (`ß` is `SS`), and a capital
sigma becomes the final form `ς` exactly when it ends a word.

* `raise`, `lower` — one character, on its own;
* `raiseAll`, `lowerAll` — a whole text;
* `raiseFirst`, `lowerFirst` — the first character of a text only;
* `CaseChange` — these four, with the operators that stand for them.
-/

namespace CommandLanguage.Text

/-- The counterpart of a code point in a case table, the character itself where it has none. -/
private def mapCase (runs : List CaseRun) (spellings : List (Nat × List Nat)) (c : Char) :
    List Char :=
  match spellings.lookup c.toNat with
  | some ns => ns.map Char.ofNat
  | none =>
    match runs.find? (·.holds c.toNat) with
    | some r => [Char.ofNat (c.toNat + r.distance).toNat]
    | none => [c]

/-- The upper-case form of a character. -/
def raise (c : Char) : List Char :=
  if c.toNat < 0x80 then [c.toUpper] else mapCase risingRuns risingSpellings c

/-- The lower-case form of a character, wherever it stands. -/
def lower (c : Char) : List Char :=
  if c.toNat < 0x80 then [c.toLower] else mapCase fallingRuns fallingSpellings c

/-- Whether a table of ranges holds the character. -/
def inRanges (ranges : List (Nat × Nat)) (c : Char) : Bool :=
  ranges.any fun r => r.1 ≤ c.toNat && c.toNat ≤ r.2

/-- Whether the nearest character that is not passed over has case. -/
private def meetsCased (s : List Char) : Bool :=
  match s.dropWhile (inRanges ignorableRanges) with
  | c :: _ => inRanges casedRanges c
  | [] => false

/-- The upper-case form of a text. -/
def raiseAll (s : List Char) : List Char := s.flatMap raise

/-- The lower-case form of a text, `before` being the characters already passed, last first.
A sigma with a letter before it and none after it takes its final form. -/
private def lowerFrom (before : List Char) : List Char → List Char
  | [] => []
  | c :: r =>
    let here := if c == 'Σ' then
        if meetsCased before && !meetsCased r then ['ς'] else ['σ']
      else lower c
    here ++ lowerFrom (c :: before) r

/-- The lower-case form of a text. -/
def lowerAll (s : List Char) : List Char := lowerFrom [] s

/-- The text with its first character in upper case. -/
def raiseFirst : List Char → List Char
  | [] => []
  | c :: r => raise c ++ r

/-- The text with its first character in lower case. -/
def lowerFirst : List Char → List Char
  | [] => []
  | c :: r => lower c ++ r

/-- A change of case. -/
inductive CaseChange where
  /-- all characters to upper case -/
  | raiseAll
  /-- the first character to upper case -/
  | raiseFirst
  /-- all characters to lower case -/
  | lowerAll
  /-- the first character to lower case -/
  | lowerFirst
  deriving DecidableEq, Repr

namespace CaseChange

/-- The change that an operator stands for. -/
def ofOperator? : List Char → Option CaseChange
  | ['^', '^'] => some .raiseAll
  | ['^'] => some .raiseFirst
  | [',', ','] => some .lowerAll
  | [','] => some .lowerFirst
  | _ => none

/-- The changed text. -/
def apply : CaseChange → List Char → List Char
  | .raiseAll => Text.raiseAll
  | .raiseFirst => Text.raiseFirst
  | .lowerAll => Text.lowerAll
  | .lowerFirst => Text.lowerFirst

end CaseChange

end CommandLanguage.Text
