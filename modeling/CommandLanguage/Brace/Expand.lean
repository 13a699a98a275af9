import CommandLanguage.Brace.Range
import CommandLanguage.Source.Braces

/-!
# Words from braces

The words that a word with groups in braces stands for: `a{x,y}b` is `axb` and `ayb`, and groups
that follow each other multiply, the first one varying slowest. A group that is neither a list
nor a range, or that belongs to a `${…}`, stays as it is.
-/

namespace CommandLanguage.Brace

/-- The parts of a text between the commas outside of inner groups. -/
def splitCommas (depth : Nat) : List Char → List (List Char)
  | [] => [[]]
  | c :: r =>
    if c == ',' && depth == 0 then [] :: splitCommas depth r
    else
      let depth := if c == '\x7b' then depth + 1 else if c == '\x7d' then depth - 1 else depth
      match splitCommas depth r with
      | [] => [[c]]
      | p :: ps => (c :: p) :: ps

/-- The alternatives of a group, if it is a list. -/
def alternatives? (body : List Char) : Option (List (List Char)) :=
  match splitCommas 0 body with
  | parts@(_ :: _ :: _) => some parts
  | _ => none

/-- A word cut at a group. -/
structure Group where
  /-- the text before the opening brace -/
  before : List Char
  /-- the text between the braces -/
  body : List Char
  /-- the text after the closing brace -/
  after : List Char
  deriving DecidableEq, Repr

/-- Whether a group stands for several texts. -/
def expands (body : List Char) : Bool := (alternatives? body).isSome || isRange body

/-- Cuts a word at its first group that stands for several texts. The search goes on inside of
groups that do not, but ends at one that is not closed; `before?` is the character before the
text. -/
def firstGroup? (before? : Option Char) : List Char → Option Group
  | [] => none
  | c :: r =>
    let later : Option Group :=
      (firstGroup? (some c) r).map fun g => { g with before := c :: g.before }
    if c == '\x7b' then
      match Braces.splitGroup? r with
      | none => none
      | some (body, after) =>
        if before? != some '$' && expands body then some ⟨[], body, after⟩ else later
    else later

/-- The words that one after the other stand before and after each other. -/
def combine (before : List Char) (middles tails : List (List Char)) : List (List Char) :=
  middles.flatMap fun m => tails.map fun t => before ++ m ++ t

/-- The words that a word stands for. Alternatives and tails are shorter than the word, so its
length bounds how deep they lie within each other. -/
def wordsFrom : Nat → List Char → Except Fault (List (List Char))
  | 0, word => .ok [word]
  | fuel + 1, word =>
    match firstGroup? none word with
    | none => .ok [word]
    | some g => do
      let middles ← match alternatives? g.body with
        | some parts => (parts.mapM (wordsFrom fuel)).map List.flatten
        | none => range g.body
      let tails ← wordsFrom fuel g.after
      if maxItems < middles.length * tails.length then
        .error (.range (String.ofList word) .expansionTooLarge)
      else return combine g.before middles tails

/-- The texts that a group stands for, given what is between its braces. -/
def groupTexts (fuel : Nat) (body : List Char) : Except Fault (List (List Char)) :=
  match alternatives? body with
  | some parts => (parts.mapM (wordsFrom fuel)).map List.flatten
  | none => range body

/-- One round: what a group stands for stands between what is before it and what the rest stands
for. -/
theorem wordsFrom_group {fuel : Nat} {word : List Char} {g : Group}
    (h : firstGroup? none word = some g) : wordsFrom (fuel + 1) word = (do
      let middles ← groupTexts fuel g.body
      let tails ← wordsFrom fuel g.after
      if maxItems < middles.length * tails.length then
        .error (.range (String.ofList word) .expansionTooLarge)
      else return combine g.before middles tails) := by
  rw [wordsFrom, h, groupTexts]
  dsimp only
  cases alternatives? g.body <;> rfl

/-- A word without a group stands for itself. -/
theorem wordsFrom_plain {word : List Char} (h : firstGroup? none word = none) (fuel : Nat) :
    wordsFrom fuel word = .ok [word] := by
  cases fuel with
  | zero => rfl
  | succ fuel => rw [wordsFrom, h]

/-- The words that a word stands for. -/
def words (word : List Char) : Except Fault (List (List Char)) :=
  wordsFrom (word.length + 1) word

end CommandLanguage.Brace
