/-!
# Reading numbers

* `readFloat?` — an optional sign, then digits with an optional point and exponent, or `inf`,
  `infinity`, `nan` in any case;
* `readInteger?` — an optional sign and digits, within sixty-four bits;
* `splitDigits?`, `splitInteger?` — the digits, or the integer, that a text begins with.

Neither of the first two accepts blanks, digit separators or other bases.
-/

namespace CommandLanguage.Decimal

/-- The number a run of decimal digits stands for. -/
def digitsValue (ds : List Char) : Nat := ds.foldl (fun n c => 10 * n + (c.toNat - '0'.toNat)) 0

/-- Splits off an optional sign. -/
def splitSign : List Char → Bool × List Char
  | '-' :: r => (true, r)
  | '+' :: r => (false, r)
  | r => (false, r)

/-- An exponent part: `e`, an optional sign and at least one digit, or nothing at all. -/
def readExponent? : List Char → Option Int
  | [] => some 0
  | c :: r =>
    if c == 'e' || c == 'E' then
      let (negative, ds) := splitSign r
      if ds.isEmpty || !ds.all Char.isDigit then none
      else some (if negative then -(digitsValue ds : Int) else digitsValue ds)
    else none

/-- The float nearest to `coefficient · 10 ^ exponent`. Outside of the range of floats the
answer is known without computing the power. -/
def nearestFloat (coefficient : Nat) (exponent : Int) : Float :=
  let size : Int := (Nat.toDigits 10 coefficient).length + exponent
  if coefficient = 0 || size < -400 then 0.0
  else if 400 < size then 1.0 / 0.0
  else if exponent < 0 then Float.ofScientific coefficient true exponent.natAbs
  else Float.ofScientific coefficient false exponent.natAbs

/-- The float nearest to a decimal given by its digits before and after the point. -/
def ofDigits (whole fraction : List Char) (exponent : Int) : Float :=
  nearestFloat (digitsValue (whole ++ fraction)) (exponent - fraction.length)

/-- An unsigned decimal: digits, an optional point with digits on at least one of its sides, and
an optional exponent. -/
def readMagnitude? (s : List Char) : Option Float :=
  let whole := s.takeWhile Char.isDigit
  let rest := s.dropWhile Char.isDigit
  let (fraction, rest) := match rest with
    | '.' :: r => (r.takeWhile Char.isDigit, r.dropWhile Char.isDigit)
    | r => ([], r)
  if whole.isEmpty && fraction.isEmpty then none
  else (readExponent? rest).map (ofDigits whole fraction)

/-- Reads a float. -/
def readFloat? (s : List Char) : Option Float :=
  let (negative, body) := splitSign s
  let magnitude := match String.ofList (body.map Char.toLower) with
    | "inf" | "infinity" => some (1.0 / 0.0)
    | "nan" => some (0.0 / 0.0)
    | _ => readMagnitude? body
  magnitude.map fun x => if negative then -x else x

/-- The least integer of sixty-four bits. -/
def minInteger : Int := -(Nat.pow 2 63 : Nat)

/-- The greatest integer of sixty-four bits. -/
def maxInteger : Int := (Nat.pow 2 63 : Nat) - 1

/-- An integer, moved to the nearest one of sixty-four bits. -/
def clampInteger (i : Int) : Int := max minInteger (min maxInteger i)

/-- An integer, if sixty-four bits are enough for it. -/
def fitting? (i : Int) : Option Int := if minInteger ≤ i ∧ i ≤ maxInteger then some i else none

/-- An integer, moved to the one of sixty-four bits from which it differs by a multiple of
2 ^ 64. -/
def wrap (i : Int) : Int := (i - minInteger) % (Nat.pow 2 64 : Nat) + minInteger

/-- Reads an integer of sixty-four bits. -/
def readInteger? (s : List Char) : Option Int :=
  let (negative, ds) := splitSign s
  if ds.isEmpty || !ds.all Char.isDigit then none
  else fitting? (if negative then -(digitsValue ds : Int) else digitsValue ds)

/-- Splits off the digits that a text begins with, of which there has to be one. -/
def splitDigits? (s : List Char) : Option (List Char × List Char) :=
  let ds := s.takeWhile Char.isDigit
  if ds.isEmpty then none else some (ds, s.dropWhile Char.isDigit)

/-- Splits off a negative integer: a minus sign and digits. -/
def splitNegative? : List Char → Option (List Char × List Char)
  | '-' :: r => (splitDigits? r).map fun (ds, rest) => ('-' :: ds, rest)
  | _ => none

/-- Splits off an integer: digits, with a minus sign before them or not. -/
def splitInteger? (s : List Char) : Option (List Char × List Char) :=
  splitNegative? s <|> splitDigits? s

end CommandLanguage.Decimal
