import CommandLanguage.Text.Case
import CommandLanguage.Text.PrintTable

/-!
# Quoted texts

Two ways to write a text between double quotes so that it can be shown on one line:

* `quote` — for diagnostics: quotes, backslashes and everything without a shape of its own are
  escaped, the latter by code point;
* `Json.string` — for JSON: quotes, backslashes and control characters are escaped.
-/

namespace CommandLanguage.Text

/-- The digits of a number in base sixteen, in lower case, without leading zeros. -/
def hexDigits (n : Nat) : List Char := Nat.toDigits 16 n

/-- Whether a diagnostic shows the character as it is. -/
def isShown (c : Char) : Bool :=
  if c.toNat < 0x7F then 0x20 ≤ c.toNat
  else !(inRanges hiddenRanges c || inRanges combiningRanges c)

/-- A character inside a quoted diagnostic. -/
def quoteChar : Char → List Char
  | '\x00' => ['\\', '0']
  | '\t' => ['\\', 't']
  | '\r' => ['\\', 'r']
  | '\n' => ['\\', 'n']
  | '"' => ['\\', '"']
  | '\\' => ['\\', '\\']
  | c => if isShown c then [c] else ['\\', 'u', '\x7b'] ++ hexDigits c.toNat ++ ['\x7d']

/-- A text as a diagnostic shows it. -/
def quote (s : String) : String := String.ofList (['"'] ++ s.toList.flatMap quoteChar ++ ['"'])

/-- A list of texts as a diagnostic shows it. -/
def quoteList (ss : List String) : String := "[" ++ String.intercalate ", " (ss.map quote) ++ "]"

end CommandLanguage.Text

namespace CommandLanguage.Json

/-- A character inside a JSON string. -/
def stringChar : Char → List Char
  | '"' => ['\\', '"']
  | '\\' => ['\\', '\\']
  | '\n' => ['\\', 'n']
  | '\r' => ['\\', 'r']
  | '\t' => ['\\', 't']
  | '\x08' => ['\\', 'b']
  | '\x0c' => ['\\', 'f']
  | c =>
    if c.toNat < 0x20 then
      let ds := Text.hexDigits c.toNat
      ['\\', 'u'] ++ List.replicate (4 - ds.length) '0' ++ ds
    else [c]

/-- A text as a JSON string. -/
def string (s : String) : String :=
  String.ofList (['"'] ++ s.toList.flatMap stringChar ++ ['"'])

end CommandLanguage.Json
