/-!
# Sets of characters

`CharSet` is what a bracket expression, a dot or an escape such as `\d` stands for. A set is built
from ranges; `holds` and `contains` say what is in it, by code point and by character.

`CharSet.runs` are the longest ranges of consecutive members, in ascending order: a set has one
list of runs however it was built. They are found from `CharSet.edges`, the code points where
membership may change. It is said run by run which letters a set gains when case means nothing
(`CharSet.foldCase`).
-/

namespace CommandLanguage.Regex

/-- The upper- or lower-case counterpart of a character of the Latin alphabet. -/
def swapCase (c : Char) : Char :=
  if c.isUpper then c.toLower else if c.isLower then c.toUpper else c

/-- A set of characters. -/
inductive CharSet where
  /-- no character -/
  | none
  /-- the characters from `low` to `high` -/
  | range (low high : Char)
  /-- the characters of either set -/
  | union (a b : CharSet)
  /-- the characters outside of a set -/
  | complement (a : CharSet)
  deriving DecidableEq, Repr

namespace CharSet

/-- The number of code points. -/
def codePoints : Nat := 0x110000

/-- Whether a set holds a code point. -/
def holds : CharSet → Nat → Bool
  | .none, _ => false
  | .range low high, n => low.toNat ≤ n && n ≤ high.toNat
  | .union a b, n => a.holds n || b.holds n
  | .complement a, n => n < codePoints && !a.holds n

/-- Membership. -/
def contains (s : CharSet) (c : Char) : Bool := s.holds c.toNat

/-- The set of one character. -/
def single (c : Char) : CharSet := .range c c

/-- The union of a list of sets. -/
def ofList : List CharSet → CharSet
  | [] => .none
  | s :: r => .union s (ofList r)

theorem toNat_lt_codePoints (c : Char) : c.toNat < codePoints := by
  have h := c.valid
  simp only [UInt32.isValidChar, Nat.isValidChar] at h
  simp only [Char.toNat, codePoints]
  omega

@[simp] theorem contains_complement (a : CharSet) (c : Char) :
    (complement a).contains c = !a.contains c := by
  simp [contains, holds, toNat_lt_codePoints]

@[simp] theorem contains_union (a b : CharSet) (c : Char) :
    (union a b).contains c = (a.contains c || b.contains c) := rfl

@[simp] theorem contains_range (low high c : Char) :
    (range low high).contains c = (decide (low ≤ c) && decide (c ≤ high)) := rfl

@[simp] theorem contains_single (c d : Char) : (single c).contains d = decide (c = d) := by
  simp only [single, contains_range]
  by_cases h : c = d
  · subst h; simp
  · simp only [h, decide_false, Bool.and_eq_false_imp, decide_eq_true_eq, decide_eq_false_iff_not]
    exact fun h₁ h₂ => h (Char.le_antisymm h₁ h₂)

theorem contains_ofList (ss : List CharSet) (c : Char) :
    (ofList ss).contains c = ss.any (·.contains c) := by
  induction ss with
  | nil => rfl
  | cons s r ih => simp [ofList, ih]

/-! ## Runs -/

/-- The code points where a set may begin or have ended. -/
def edges : CharSet → List Nat
  | .none => []
  | .range low high => [low.toNat, high.toNat + 1]
  | .union a b => a.edges ++ b.edges
  | .complement a => 0 :: codePoints :: a.edges

/-- Whether a run begins at a code point. -/
def startsAt (s : CharSet) (n : Nat) : Bool := s.holds n && (n == 0 || !s.holds (n - 1))

/-- Whether a run has ended right before a code point. -/
def stopsAt (s : CharSet) (n : Nat) : Bool := !s.holds n && n != 0 && s.holds (n - 1)

/-- The edges of one kind, in ascending order and each once. -/
private def ascending (s : CharSet) (kind : Nat → Bool) : List Nat :=
  ((s.edges.filter kind).mergeSort (· ≤ ·)).eraseReps

/-- The first and last code points of the runs of a set, in ascending order. -/
def runs (s : CharSet) : List (Nat × Nat) :=
  (s.ascending s.startsAt).zip ((s.ascending s.stopsAt).map (· - 1))

/-! ## Case -/

/-- The letters that a run gains when case means nothing: a run with small letters gains the
capitals of these, and only a run without any gains the small letters of its capitals. -/
def counterparts (run : Nat × Nat) : CharSet :=
  let swapped (low high : Char) : CharSet :=
    .range (swapCase (Char.ofNat (max run.1 low.toNat)))
      (swapCase (Char.ofNat (min run.2 high.toNat)))
  if run.1 ≤ 'z'.toNat && 'a'.toNat ≤ run.2 then swapped 'a' 'z'
  else if run.1 ≤ 'Z'.toNat && 'A'.toNat ≤ run.2 then swapped 'A' 'Z'
  else .none

/-- A set with what each of its runs gains when case means nothing. -/
def foldCase (s : CharSet) : CharSet := .union s (.ofList (s.runs.map counterparts))

/-! ## Named sets -/

/-- Decimal digits. -/
def digit : CharSet := .range '0' '9'

/-- The blanks of the Latin alphabet. -/
def space : CharSet := .union (.range '\t' '\r') (single ' ')

/-- Letters, digits and the underscore. -/
def word : CharSet :=
  ofList [.range '0' '9', .range 'A' 'Z', single '_', .range 'a' 'z']

/-- The named sets that a bracket expression may mention. -/
def named? : String → Option CharSet
  | "alnum" => some (ofList [.range '0' '9', .range 'A' 'Z', .range 'a' 'z'])
  | "alpha" => some (ofList [.range 'A' 'Z', .range 'a' 'z'])
  | "ascii" => some (.range '\x00' '\x7f')
  | "blank" => some (ofList [single '\t', single ' '])
  | "cntrl" => some (ofList [.range '\x00' '\x1f', single '\x7f'])
  | "digit" => some digit
  | "graph" => some (.range '!' '~')
  | "lower" => some (.range 'a' 'z')
  | "print" => some (.range ' ' '~')
  | "punct" => some (ofList [.range '!' '/', .range ':' '@', .range '[' '`', .range '\x7b' '~'])
  | "space" => some space
  | "upper" => some (.range 'A' 'Z')
  | "word" => some word
  | "xdigit" => some (ofList [.range '0' '9', .range 'A' 'F', .range 'a' 'f'])
  | _ => Option.none

end CharSet

end CommandLanguage.Regex
