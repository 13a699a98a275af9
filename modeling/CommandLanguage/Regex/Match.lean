import CommandLanguage.Pattern.Edit
import CommandLanguage.Regex.Basic
import Std.Data.HashSet

/-!
# Matching

Where a regular expression can stop, in order of preference, and the search that rests on it.

* `Place` — a place between two characters of a text;
* `Regex.ends r ps` — the places where a match of `r` from one of the places `ps` can end, each
  once: those from an earlier place first, earlier choices before later ones, and one more
  repetition before or after stopping, as the repetition says;
* `Regex.isMatch` — whether there is a match anywhere;
* `Regex.find?` — the leftmost match and, among those, the preferred one;
* `Regex.replaceFirst`, `Regex.replaceAll` — a text with matches replaced.

Because every list of places holds a place at most once, the work stays polynomial in the length
of the text where a search that backtracks could take exponential time.
-/

namespace CommandLanguage

/-- A place in a text. -/
structure Place where
  /-- the number of characters before it -/
  offset : Nat
  /-- the last of them -/
  before? : Option Char
  /-- the characters after it -/
  rest : List Char
  deriving DecidableEq, Repr

namespace Place

/-- The place before the first character. -/
def start (text : List Char) : Place := ⟨0, none, text⟩

/-- The place after the next character, if that is one of a given kind. -/
def advance? (ok : Char → Bool) : Place → Option Place
  | ⟨n, _, c :: r⟩ => if ok c then some ⟨n + 1, some c, r⟩ else none
  | ⟨_, _, []⟩ => none

/-- The number of characters after the foremost of several places of a text. -/
def charactersAhead : List Place → Nat
  | [] => 0
  | p :: r => (r.foldl (fun a b => if b.offset < a.offset then b else a) p).rest.length

/-- The places of a list, each where it occurs first. -/
def keepFirst (ps : List Place) : List Place :=
  let note (t : List Place × Std.HashSet Nat) (p : Place) : List Place × Std.HashSet Nat :=
    if t.2.contains p.offset then t else (p :: t.1, t.2.insert p.offset)
  (ps.foldl note ([], {})).1.reverse

end Place

namespace Regex

/-- Whether a character is there and is a word character. -/
private def isWordAt (c? : Option Char) : Bool := c?.any CharSet.word.contains

/-- Whether the condition holds at the place. -/
def Look.holds (p : Place) : Look → Bool
  | .start => p.before?.isNone
  | .finish => p.rest.isEmpty
  | .lineStart => p.before?.all (· == '\n')
  | .lineEnd => p.rest.head?.all (· == '\n')
  | .lineStartCR =>
    p.before?.all fun c => c == '\n' || (c == '\r' && p.rest.head? != some '\n')
  | .lineEndCR =>
    p.rest.head?.all fun c => c == '\r' || (c == '\n' && p.before? != some '\r')
  | .wordEdge => isWordAt p.before? != isWordAt p.rest.head?
  | .noWordEdge => isWordAt p.before? == isWordAt p.rest.head?
  | .wordStart => !isWordAt p.before? && isWordAt p.rest.head?
  | .wordEnd => isWordAt p.before? && !isWordAt p.rest.head?
  | .wordStartHalf => !isWordAt p.before?
  | .wordEndHalf => !isWordAt p.rest.head?

/-! ## Repetitions

A repetition is a depth-first tour through the places that its iterations lead to. A stage of the
tour is a place together with the number of iterations that may still follow, none meaning that
there is no bound. The tour remembers the stages where it has been, so that it goes on from each of
them once. -/

/-- A place and how many iterations may follow there. -/
abbrev Stage := Option Nat × Place

/-- What a tour has seen and found so far. -/
structure Tour where
  /-- the stages already visited, by iterations and offset -/
  visited : Std.HashSet (Option Nat × Nat) := {}
  /-- the places where the repetition can stop, the latest first -/
  found : List Place := []

/-- Visits stages in the given order, before each but the first of them everything that the one
before it leads to. `fuel` bounds the number of stages taken from the list. -/
def tour (iteration : Place → List Place) (greedy : Bool) :
    (fuel : Nat) → List Stage → Tour → Tour
  | 0, _, t => t
  | _, [], t => t
  | fuel + 1, (more, p) :: rest, t =>
    if t.visited.contains (more, p.offset) then tour iteration greedy fuel rest t
    else
      let t := { t with visited := t.visited.insert (more, p.offset) }
      if more == some 0 then tour iteration greedy fuel rest { t with found := p :: t.found }
      else
        let stop : Stage := (some 0, p)
        let further := (iteration p).map fun q => (more.map (· - 1), q)
        tour iteration greedy fuel
          (if greedy then further ++ stop :: rest else stop :: further ++ rest) t

/-- The ends of up to `most` iterations. More iterations than there are characters ahead lead
nowhere else, so that the stages are at most as many as the pairs of places, and each of them adds
at most one stage for every place. -/
def endsUpTo (iteration : Place → List Place) (greedy : Bool) (most : Option Nat)
    (ps : List Place) : List Place :=
  let ahead := Place.charactersAhead ps
  let stages : List Stage := ps.map fun p => (most.map (min · ahead), p)
  (tour iteration greedy (ps.length + Nat.pow (ahead + 2) 3) stages {}).found.reverse

/-- The ends of exactly `n` iterations. -/
def endsExactly (iteration : List Place → List Place) : Nat → List Place → List Place
  | 0, ps => ps
  | n + 1, ps => if ps.isEmpty then [] else endsExactly iteration n (iteration ps)

/-! ## Matches -/

mutual

/-- The places where a match from one of the given places can end, in order of preference. -/
def ends : Regex → List Place → List Place
  | .empty, ps => ps
  | .char c, ps => ps.filterMap (·.advance? (· == c))
  | .set s, ps => ps.filterMap (·.advance? s.contains)
  | .look l, ps => ps.filter l.holds
  | .sequence rs, ps => endsSequence rs ps
  | .choice rs, ps => Place.keepFirst (ps.flatMap (endsChoice rs))
  | .repetition least most greedy r, ps =>
    endsUpTo (fun p => r.ends [p]) greedy (most.map (· - least)) (endsExactly r.ends least ps)
  | .group _ _ r, ps => r.ends ps

/-- The ends of expressions one after the other. -/
def endsSequence : List Regex → List Place → List Place
  | [], ps => ps
  | r :: rs, ps => endsSequence rs (r.ends ps)

/-- The ends of any of the expressions, from one place. -/
def endsChoice : List Regex → Place → List Place
  | [], _ => []
  | r :: rs, p => r.ends [p] ++ endsChoice rs p

end

/-- The leftmost match from a place on, as the places where it starts and ends. -/
def findFrom? (r : Regex) (n : Nat) (before? : Option Char) : List Char → Option (Place × Place)
  | [] => (r.ends [⟨n, before?, []⟩]).head?.map (⟨n, before?, []⟩, ·)
  | c :: rest =>
    match r.ends [⟨n, before?, c :: rest⟩] with
    | q :: _ => some (⟨n, before?, c :: rest⟩, q)
    | [] => findFrom? r (n + 1) (some c) rest

/-- The leftmost match at or after a place. -/
def find? (r : Regex) (p : Place) : Option (Place × Place) := findFrom? r p.offset p.before? p.rest

/-- Whether there is a match anywhere in the text. -/
def isMatch (r : Regex) (text : List Char) : Bool := (r.find? (.start text)).isSome

/-- The next match after one that ended at `p`: an empty match right there does not count, the
search then goes on one character later. -/
def findNext? (r : Regex) (p : Place) : Option (Place × Place) :=
  match r.find? p with
  | some (a, b) =>
    if a.offset == b.offset && b.offset == p.offset then
      (p.advance? fun _ => true).bind r.find?
    else some (a, b)
  | none => none

/-- The matches that follow each other without overlapping, from the end of one on. Every match
ends later than the one before it, so there are no more than there are characters left. -/
def matchesAfter (r : Regex) : Nat → Place → List (Place × Place)
  | 0, _ => []
  | fuel + 1, p =>
    match r.findNext? p with
    | some m => m :: matchesAfter r fuel m.2
    | none => []

/-- All matches in a text, from left to right and without overlaps. -/
def allMatches (r : Regex) (text : List Char) : List (Place × Place) :=
  match r.find? (.start text) with
  | some m => m :: matchesAfter r (text.length + 1) m.2
  | none => []

/-- The text from a place on, with the given matches replaced. -/
def splice (replacement : List Char) : Place → List (Place × Place) → List Char
  | p, [] => p.rest
  | p, (a, b) :: ms =>
    p.rest.take (a.offset - p.offset) ++ replacement ++ splice replacement b ms

/-- The text with its first match replaced. -/
def replaceFirst (r : Regex) (replacement text : List Char) : List Char :=
  splice replacement (.start text) (r.find? (.start text)).toList

/-- The text with all its matches replaced. -/
def replaceAll (r : Regex) (replacement text : List Char) : List Char :=
  splice replacement (.start text) (r.allMatches text)

/-- An expression, by what can be asked of it. -/
def matcher (r : Regex) : Matcher := ⟨r.isMatch, r.replaceFirst, r.replaceAll⟩

end Regex

end CommandLanguage
