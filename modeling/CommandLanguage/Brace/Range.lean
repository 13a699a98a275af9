import CommandLanguage.Decimal.Notation
import CommandLanguage.Decimal.Read
import CommandLanguage.Fault

/-!
# Ranges in braces

`{1..10}`, `{01..10..2}` and `{a..z}`, given by what stands between the braces.

* A step of zero counts as one, and its sign does not count: a range runs from its first bound to
  its last.
* If a bound is written with a leading zero, all items are padded to the width of the widest such
  bound.
* Letters of a range have to be all capital or all small.
* Where sixty-four bits are not enough for the next integer, a range of numbers ends (`march`). For
  letters nothing looks out for this, and the next integer wraps around (`marchUnchecked`).
-/

namespace CommandLanguage.Brace

/-- The greatest number of items of a range and of words of an expansion. -/
def maxItems : Nat := 10000

/-- Whether the text between braces is meant as a range. -/
def isRange : List Char → Bool
  | [] => false
  | c :: r => (c == '.' && r.head? == some '.') || isRange r

/-- Splits off a letter. -/
def splitLetter? : List Char → Option (Char × List Char)
  | c :: r => if c.isAlpha then some (c, r) else none
  | [] => none

/-- Passes two dots. -/
def splitDots? : List Char → Option (List Char)
  | '.' :: '.' :: r => some r
  | _ => none

/-- The step at the end of a range, if there is one: nothing may follow it. -/
def step? (s : List Char) : Option (Option (List Char)) :=
  match s with
  | [] => some none
  | s => do
    let (step, r) ← Decimal.splitInteger? (← splitDots? s)
    if r.isEmpty then some (some step) else none

/-- The parts of a range between numbers. -/
def numbers? (s : List Char) : Option (List Char × List Char × Option (List Char)) := do
  let (a, r) ← Decimal.splitInteger? s
  let (b, r) ← Decimal.splitInteger? (← splitDots? r)
  return (a, b, ← step? r)

/-- The parts of a range between letters. -/
def letters? (s : List Char) : Option (Char × Char × Option (List Char)) := do
  let (a, r) ← splitLetter? s
  let (b, r) ← splitLetter? (← splitDots? r)
  return (a, b, ← step? r)

/-- The integers from `a` to `b` in steps of `step`. -/
def progression (a b : Int) (step : Nat) : List Int :=
  (List.range ((b - a).natAbs / step + 1)).map fun k : Nat =>
    if a ≤ b then a + k * step else a - k * step

/-- The integers that a loop from `i` to `last` runs through, upwards or downwards. It ends past
`last`, and also where sixty-four bits are not enough for the next integer. With a positive step
there are no more rounds than integers up to `last`. -/
def march (up : Bool) (last : Int) (step : Nat) : Nat → Int → List Int
  | 0, _ => []
  | rounds + 1, i =>
    if if up then i ≤ last else last ≤ i then
      match Decimal.fitting? (if up then i + step else i - step) with
      | some next => i :: march up last step rounds next
      | none => [i]
    else []

/-- The integers that the loop over letters runs through from `i` to `last`. Unlike `march` it does
not look whether sixty-four bits are enough for the next integer. If they are not, a build that
checks its additions stops for good; in all others the next integer wraps around, and as it then
lies far before `last`, the loop goes on. -/
def marchUnchecked (up : Bool) (last : Int) (step : Nat) : Nat → Int → List Int
  | 0, _ => []
  | rounds + 1, i =>
    if if up then i ≤ last else last ≤ i then
      i :: marchUnchecked up last step rounds (Decimal.wrap (if up then i + step else i - step))
    else []

/-- The character that the last thirty-two bits of an integer are the code point of. -/
def letter? (i : Int) : Option Char :=
  let n := (i % (Nat.pow 2 32 : Nat)).toNat
  if n.isValidChar then some (Char.ofNat n) else none

/-- The letters from `a` to `b`. With a step that wraps around, the loop visits no more than the code
points up to `a`, and what is left when it has passed them. -/
def letters (a b : Char) (step : Nat) : List Char :=
  let rounds := a.toNat + b.toNat + 3
  (marchUnchecked (a ≤ b) b.toNat step rounds a.toNat).filterMap letter?

/-- The width that items are padded to: that of the widest bound with a leading zero. -/
def padding (bounds : List (List Char)) : Nat :=
  let width (bound : List Char) : Nat :=
    let ds := bound.filter (· != '-')
    if 1 < ds.length && ds.head? == some '0' then ds.length else 0
  bounds.foldl (fun w b => max w (width b)) 0

/-- An item of a range, its digits padded with zeros. -/
def item (width : Nat) (i : Int) : List Char :=
  let ds := Decimal.digits i.natAbs
  let ds := Decimal.zeros (width - ds.length) ++ ds
  if i < 0 then '-' :: ds else ds

/-- The number that a bound or step stands for; `text` is the whole range. -/
def bound (text : String) (s : List Char) : Except Fault Int :=
  match Decimal.readInteger? s with
  | some i => .ok i
  | none => .error (.range text .bound)

/-- The step of a range: a positive integer of sixty-four bits. -/
def stepSize (text : String) : Option (List Char) → Except Fault Nat
  | none => .ok 1
  | some s => (bound text s).map fun i =>
    if i = 0 then 1 else min i.natAbs Decimal.maxInteger.toNat

/-- The items of a range, given by what stands between its braces. -/
def range (body : List Char) : Except Fault (List (List Char)) := do
  let text := String.ofList ('\x7b' :: body ++ ['\x7d'])
  match numbers? body, letters? body with
  | some (a, b, step), _ =>
    let first ← bound text a
    let last ← bound text b
    let step ← stepSize text step
    if maxItems < (last - first).natAbs / step + 1 then .error (.range text .tooLarge)
    else
      let rounds := (last - first).natAbs + 1
      return (march (first ≤ last) last step rounds first).map (item (padding [a, b]))
  | none, some (a, b, step) =>
    let step ← stepSize text step
    if a.isUpper != b.isUpper then .error (.range text .mixedCase)
    else return (letters a b step).map fun c => [c]
  | none, none => .error (.range text .malformed)

end CommandLanguage.Brace
