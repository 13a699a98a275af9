import CommandLanguage.Pattern.Edit

/-!
# What is relied on of an engine

Patterns are left to an engine (`CommandLanguage.Pattern.Engine`), so that what they do depends on what
it makes of their expressions. What is said of it here is what engines of this kind document, for the
expressions that come from patterns and no others:

* `Engine.LeftmostFirst` — a search finds the match that begins first, and of those that begin there
  the one that comes first if every star tries its choices one after the other;
* `Engine.ReadsBrackets` — what the members of a bracket expression are, behind a backslash, too.

Theorems about patterns take these as hypotheses about an engine that is otherwise arbitrary. They are
meant to hold of the engine that the program is built with, and `Regex.engine` meets them
(`CommandLanguage.Proofs.Regex.Engine`). An engine may also limit the size of expressions. That an
expression is within the limit is nothing that can be read off these laws: where it matters that one
is accepted, it is asked of this expression.
-/

namespace CommandLanguage

/-! ## Searching -/

/-- The leftmost match in a text, given the ends of the matches that begin at a place, in the order in
which they are preferred: the first place where a match begins, and the first of its ends. -/
def leftmost? (ends : List Char → Nat → List Nat) (text : List Char) : Option (Nat × Nat) :=
  (List.range (text.length + 1)).findSome? fun n => (ends text n).head?.map (n, ·)

/-- A matcher finds the leftmost match, to tell whether there is one as well as to replace it. Nothing
is said of how it replaces all of them. -/
structure Matcher.Searches (m : Matcher) (ends : List Char → Nat → List Nat) : Prop where
  /-- there is a match if one is found -/
  isMatch (text : List Char) : m.isMatch text = (leftmost? ends text).isSome
  /-- the match that is found is the one that is replaced -/
  replaceFirst (replacement text : List Char) : m.replaceFirst replacement text =
    match leftmost? ends text with
    | some (n, k) => text.take n ++ replacement ++ text.drop k
    | none => text

/-- The conditions that are written around an expression. -/
structure Anchors where
  /-- a match begins where the text begins -/
  front : Bool
  /-- a match ends where the text ends -/
  back : Bool

/-- How an expression is written with the conditions around it. -/
def Anchors.text (a : Anchors) (expression : List Char) : List Char :=
  (if a.front then ['^'] else []) ++ grouped expression ++ if a.back then ['$'] else []

/-- The ends of the matches that begin at a place and meet the conditions, given how long the matches
are that begin where a text is ahead. -/
def Anchors.ends (a : Anchors) (lengths : List Char → List Nat) (text : List Char) (n : Nat) :
    List Nat :=
  if a.front && n != 0 then []
  else ((lengths (text.drop n)).map (n + ·)).filter fun k => !a.back || k == text.length

namespace Engine

/-! ## Expressions -/

/-- The characters that are signs in an expression. Every other one stands for itself, and a sign does
so behind a backslash. -/
def isSign (c : Char) : Bool :=
  ['\\', '^', '$', '.', '|', '+', '(', ')', '\x7b', '\x7d', '[', ']', '*', '?'].contains c

/-- A part of an expression without brackets. -/
inductive Part where
  /-- one given character -/
  | char (c : Char)
  /-- any character but the end of a line -/
  | any
  /-- any text on one line -/
  | star

/-- How a part is written. A star that takes as little as it can has a question mark. -/
def Part.text (greedy : Bool) : Part → List Char
  | .char c => if isSign c then ['\\', c] else [c]
  | .any => ['.']
  | .star => if greedy then ['.', '*'] else ['.', '*', '?']

/-- How much of the text ahead a part can take, in the order in which this is tried. -/
def Part.lengths (greedy : Bool) : Part → List Char → List Nat
  | .char c, t => if t.head? == some c then [1] else []
  | .any, t => if t.head?.any (· != '\n') then [1] else []
  | .star, t =>
    let choices := List.range ((t.takeWhile (· != '\n')).length + 1)
    if greedy then choices.reverse else choices

/-- Which of two choices is tried first. -/
def Before (greedy : Bool) (n m : Nat) : Prop := if greedy then m < n else n < m

/-- How long the matches of several parts are. The first part makes the first choice that the others
can go on from, whatever these would prefer. -/
def lengths (greedy : Bool) : List Part → List Char → List Nat
  | [], _ => [0]
  | p :: ps, t =>
    (p.lengths greedy t).flatMap fun n => (lengths greedy ps (t.drop n)).map (n + ·)

/-- The characters that neither begin nor end a bracket expression. -/
def isOrdinary (c : Char) : Bool := !"[]\\".toList.contains c

/-- What stands between brackets. -/
inductive Enclosed : List Char → Prop where
  | nil : Enclosed []
  /-- a character that is neither a bracket nor a backslash -/
  | ordinary {c : Char} {s : List Char} : isOrdinary c = true → Enclosed s → Enclosed (c :: s)
  /-- any character behind a backslash -/
  | escaped {c : Char} {s : List Char} : Enclosed s → Enclosed ('\\' :: c :: s)

/-- The text of an expression of characters, dots, greedy stars of dots and brackets, with a given text
behind it. No condition on a place is among them. -/
inductive Written (ending : List Char) : List Char → Prop where
  | ending : Written ending ending
  /-- a character that stands for itself -/
  | char {c : Char} {s : List Char} : isSign c = false → Written ending s → Written ending (c :: s)
  /-- a character that a backslash makes stand for itself -/
  | escaped {c : Char} {s : List Char} : isSign c = true → Written ending s →
      Written ending ('\\' :: c :: s)
  /-- any character -/
  | dot {s : List Char} : Written ending s → Written ending ('.' :: s)
  /-- any characters -/
  | star {s : List Char} : Written ending s → Written ending ('.' :: '*' :: s)
  /-- a bracket expression -/
  | bracket {u s : List Char} : Enclosed u → Written ending s →
      Written ending ('[' :: (u ++ ']' :: s))

/-- An engine searches for the leftmost match, and among the matches that begin there for the first one
in the order of the choices. -/
structure LeftmostFirst (E : Engine) : Prop where
  /-- Without brackets it is known which matches there are: those of the parts. -/
  parts (a : Anchors) (greedy : Bool) (ps : List Part) {m : Matcher} :
    E.compile (a.text (ps.flatMap (Part.text greedy))) = .ok m →
      m.Searches (a.ends (lengths greedy ps))
  /-- With brackets it is only known that there are some, and that they depend on nothing but the text
  ahead: whether a match has to begin with the text or not, the expression is the same. -/
  ahead {expression : List Char} : Written [] expression →
    ∃ lengths : List Char → List Nat, ∀ front, ∀ {m : Matcher},
      E.compile (Anchors.text ⟨front, true⟩ expression) = .ok m →
        m.Searches (Anchors.ends ⟨front, true⟩ lengths)

/-- An engine accepts an expression up to the end of the text both from the start of the text on and
from anywhere on, or it refuses both. A condition in front makes no expression well-formed that was not
so without, or the other way round: only a limit that lies between the two can tell them apart. -/
def AcceptsAlike (E : Engine) (expression : List Char) : Prop :=
  E.Accepts (Anchors.text ⟨true, true⟩ expression) ↔
    E.Accepts (Anchors.text ⟨false, true⟩ expression)

/-! ## Bracket expressions -/

/-- A member of a bracket expression that is neither a range nor a set with a name. -/
inductive Item where
  /-- a character by itself -/
  | plain (c : Char)
  /-- a character behind a backslash -/
  | escaped (c : Char)
  deriving DecidableEq, Repr

/-- Whether a backslash makes a character stand for itself: that is so of the ASCII characters but
letters, digits and the angle brackets. -/
def isEscapable (c : Char) : Bool :=
  c.toNat < 128 && !c.isAlphanum && c != '<' && c != '>'

/-- What a letter stands for behind a backslash: a set of characters, or one that is hard to write. -/
def letterSet? : Char → Option (Char → Bool)
  | 'd' => some isDigit
  | 'D' => some (!isDigit ·)
  | 's' => some isSpace
  | 'S' => some (!isSpace ·)
  | 'w' => some isWord
  | 'W' => some (!isWord ·)
  | 'a' => some (· == '\x07')
  | 'f' => some (· == '\x0c')
  | 't' => some (· == '\t')
  | 'n' => some (· == '\n')
  | 'r' => some (· == '\r')
  | 'v' => some (· == '\x0b')
  | _ => none
where
  isDigit (c : Char) : Bool := '0' ≤ c && c ≤ '9'
  isSpace (c : Char) : Bool := ('\t' ≤ c && c ≤ '\r') || c == ' '
  isWord (c : Char) : Bool :=
    ('0' ≤ c && c ≤ '9') || ('A' ≤ c && c ≤ 'Z') || c == '_' || ('a' ≤ c && c ≤ 'z')

namespace Item

/-- How a member is written. -/
def text : Item → List Char
  | plain c => [c]
  | escaped c => ['\\', c]

/-- The characters that a member stands for. Nothing is said of the characters by themselves that
brackets, negations, ranges and operators are written with, and there is no such set for a character
that cannot be escaped. -/
def set? : Item → Option (Char → Bool)
  | plain c => if "[]\\^-&~".toList.contains c then none else some (c == ·)
  | escaped c => if isEscapable c then some (c == ·) else letterSet? c

/-- Whether a character is one of those that a member stands for. -/
def holds (i : Item) (c : Char) : Bool := i.set?.any (· c)

end Item

/-- A bracket expression of some members. -/
def bracketText (negated : Bool) (items : List Item) : List Char :=
  '[' :: ((if negated then ['^'] else []) ++ (items.flatMap Item.text ++ [']']))

/-- An engine reads the members of bracket expressions one by one. -/
structure ReadsBrackets (E : Engine) : Prop where
  /-- A bracket expression is accepted if its members stand for something. It matches the characters
  that one of them stands for, and all others if it is negated. -/
  union (negated : Bool) {items : List Item} : items ≠ [] → (∀ i ∈ items, i.set?.isSome) →
    ∃ m, E.compile (bracketText negated items) = .ok m ∧
      ∀ c, m.isMatch [c] = (negated != items.any (·.holds c))
  /-- With anything else behind a backslash it is refused. -/
  refused (negated : Bool) {c : Char} : (Item.escaped c).set? = none →
    ¬E.Accepts (bracketText negated [.escaped c])

end Engine

end CommandLanguage
