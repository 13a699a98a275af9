/-!
# Shortest decimals

The shortest decimal that reads back as a given binary number, in exact integer arithmetic.

* `Binary` — a positive real `significand · 2 ^ exponent`, with the two neighbours that a float
  format puts beside it;
* `Binary.shortest` — the coarsest grid `10 ^ k · ℕ` with a point that rounds to the number, and
  on it the point nearest to the number.

Two grid points can be equally near; which of them is taken is a parameter, since the two number
notations of the language decide it differently.
-/

namespace CommandLanguage.Decimal

/-- A decimal `coefficient · 10 ^ exponent`. -/
structure Numeral where
  /-- the digits, as a number -/
  coefficient : Nat
  /-- the power of ten the last digit stands for -/
  exponent : Int
  deriving DecidableEq, Repr

/-- Which of two equally near grid points is taken. -/
inductive Tie where
  /-- the larger one -/
  | up
  /-- the one with an even last digit -/
  | even
  deriving DecidableEq, Repr

/-- A positive real `significand · 2 ^ exponent` of a binary floating-point format. -/
structure Binary where
  /-- the integer significand -/
  significand : Nat
  /-- the power of two it is scaled by -/
  exponent : Int
  /-- whether the next smaller number of the format is only half a unit away -/
  narrowBelow : Bool
  deriving DecidableEq, Repr

namespace Binary

/-- Numerator and denominator of `n · 2 ^ e · 10 ^ (-k)`. -/
def scaled (n : Nat) (e k : Int) : Nat × Nat :=
  (n * Nat.pow 2 e.toNat * Nat.pow 10 (-k).toNat, Nat.pow 2 (-e).toNat * Nat.pow 10 k.toNat)

/-- Whether `p · 10 ^ k` lies among the reals that round to the number. The end points belong to
them when the significand is even. All lengths are taken in quarters of a unit. -/
def rounds (b : Binary) (p : Nat) (k : Int) : Bool :=
  let (high, den) := scaled (4 * b.significand + 2) (b.exponent - 2) k
  let (low, _) := scaled (4 * b.significand - if b.narrowBelow then 1 else 2) (b.exponent - 2) k
  if b.significand % 2 = 0 then low ≤ p * den && p * den ≤ high
  else low < p * den && p * den < high

/-- The best point of the grid `10 ^ k · ℕ`: of the number's two neighbours on the grid, the
nearer one that rounds to the number. -/
def gridPoint? (tie : Tie) (b : Binary) (k : Int) : Option Nat :=
  let (num, den) := scaled b.significand b.exponent k
  let below := num / den
  let above := below + 1
  let twice := 2 * (num - below * den)
  let preferAbove := den < twice ||
    (den = twice && match tie with
      | .up => true
      | .even => above % 2 = 0)
  match b.rounds below k, b.rounds above k with
  | true, true => some (if preferAbove then above else below)
  | true, false => some below
  | false, true => some above
  | false, false => none

/-- Tries `fuel` grids, each ten times finer than the one before, beginning with `10 ^ k`. -/
def searchGrids (tie : Tie) (b : Binary) : Nat → Int → Numeral
  | 0, k => ⟨0, k⟩
  | fuel + 1, k =>
    match gridPoint? tie b k with
    | some p => ⟨p, k⟩
    | none => searchGrids tie b fuel (k - 1)

/-- A power of ten that is larger than the number. -/
def decade (b : Binary) : Int :=
  ((b.exponent + (Nat.log2 b.significand : Int) + 1) * 30103).fdiv 100000 + 2

/-- The shortest decimal that rounds to the number. Twenty-four grids below a power of ten that
exceeds it are more than the seventeen digits a sixty-four bit float needs. -/
def shortest (tie : Tie) (b : Binary) : Numeral := searchGrids tie b 24 b.decade

end Binary

/-- A sixty-four bit float, taken apart. -/
inductive Parts where
  /-- not a number -/
  | nan
  /-- an infinity -/
  | infinite (negative : Bool)
  /-- a zero -/
  | zero (negative : Bool)
  /-- any other number -/
  | finite (negative : Bool) (magnitude : Binary)
  deriving DecidableEq, Repr

/-- The parts of a float: one bit of sign, eleven of exponent, fifty-two of significand. -/
def parts (x : Float) : Parts :=
  let bits : Nat := x.toBits.toNat
  let negative := bits / Nat.pow 2 63 % 2 = 1
  let biased : Nat := bits / Nat.pow 2 52 % Nat.pow 2 11
  let fraction : Nat := bits % Nat.pow 2 52
  if biased = 2047 then
    if fraction = 0 then .infinite negative else .nan
  else if biased = 0 then
    if fraction = 0 then .zero negative else .finite negative ⟨fraction, -1074, false⟩
  else
    .finite negative
      ⟨Nat.pow 2 52 + fraction, (biased : Int) - 1075, fraction = 0 && 1 < biased⟩

end CommandLanguage.Decimal
