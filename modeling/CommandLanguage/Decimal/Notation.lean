import CommandLanguage.Decimal.Shortest

/-!
# Number notations

How numbers are written:

* `plain` — always positional, without an exponent however long that makes the text;
* `shell` — what the language prints: whole numbers below `10 ^ 15` as integers, all others plain;
* `json` — what a JSON text holds: the same integers, and for the others positional notation
  from `10 ^ (-5)` to below `10 ^ 16`, an exponent outside of it, and `null` for what is not a
  number.
-/

namespace CommandLanguage.Decimal

/-- The digits of a natural number. -/
def digits (n : Nat) : List Char := Nat.toDigits 10 n

/-- A list of zeros. -/
def zeros (n : Nat) : List Char := List.replicate n '0'

/-- A decimal in positional notation, with a point only where a fraction follows. -/
def Numeral.positional (d : Numeral) : List Char :=
  let ds := digits d.coefficient
  if 0 ≤ d.exponent then ds ++ zeros d.exponent.toNat
  else
    let places := (-d.exponent).toNat
    if places < ds.length then
      ds.take (ds.length - places) ++ '.' :: ds.drop (ds.length - places)
    else '0' :: '.' :: zeros (places - ds.length) ++ ds

/-- The power of ten of a decimal's first digit. -/
def Numeral.leading (d : Numeral) : Int := (digits d.coefficient).length - 1 + d.exponent

/-- A decimal as one digit, the rest after a point, and a signed exponent. -/
def Numeral.scientific (d : Numeral) : List Char :=
  let mantissa := match digits d.coefficient with
    | c :: [] => [c]
    | c :: r => c :: '.' :: r
    | [] => []
  let sign := if d.leading < 0 then '-' else '+'
  mantissa ++ 'e' :: sign :: digits d.leading.natAbs

/-- A decimal in the notation of JSON texts: a float keeps a fraction, if only `.0`. -/
def Numeral.json (d : Numeral) : List Char :=
  if -5 ≤ d.leading && d.leading < 16 then
    if 0 ≤ d.exponent then d.positional ++ ['.', '0'] else d.positional
  else d.scientific

private def signed (negative : Bool) (s : List Char) : String :=
  String.ofList (if negative then '-' :: s else s)

/-- The shortest positional text of a float. -/
def plain (x : Float) : String :=
  match parts x with
  | .nan => "NaN"
  | .infinite negative => signed negative ['i', 'n', 'f']
  | .zero negative => signed negative ['0']
  | .finite negative b => signed negative (b.shortest .up).positional

/-- An integer in decimal notation. -/
def integer (i : Int) : String := signed (i < 0) (digits i.natAbs)

/-- Whether a number is written as an integer: whole, and below `10 ^ 15` in size. -/
def isWritableInteger (x : Float) : Bool :=
  x.floor == x && x.abs < 1000000000000000.0

/-- How the language writes a number. -/
def shell (x : Float) : String :=
  if isWritableInteger x then integer x.toInt64.toInt else plain x

/-- How a number stands in a JSON text. -/
def json (x : Float) : String :=
  if isWritableInteger x then integer x.toInt64.toInt
  else
    match parts x with
    | .nan | .infinite _ => "null"
    | .zero negative => signed negative ['0', '.', '0']
    | .finite negative b => signed negative (b.shortest .even).json

end CommandLanguage.Decimal
