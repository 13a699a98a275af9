import CommandLanguage.Regex.CharSet

/-!
# Regular expressions

The expressions that filters and patterns are made of:

* `Look` — conditions on a place between two characters;
* `Regex` — the expressions themselves, with their nesting depth.

The sets of characters in them are those of `CommandLanguage.Regex.CharSet`.

How they match is in `CommandLanguage.Regex.Match`, how they are written in
`CommandLanguage.Regex.Parse`.
-/

namespace CommandLanguage

namespace Regex

/-- A condition on a place in the text. -/
inductive Look where
  /-- the start of the text -/
  | start
  /-- the end of the text -/
  | finish
  /-- the start of a line -/
  | lineStart
  /-- the end of a line -/
  | lineEnd
  /-- the start of a line that may end in a carriage return and a line feed -/
  | lineStartCR
  /-- the end of a line that may end in a carriage return and a line feed -/
  | lineEndCR
  /-- between a word character and another one -/
  | wordEdge
  /-- anywhere else -/
  | noWordEdge
  /-- before a word -/
  | wordStart
  /-- after a word -/
  | wordEnd
  /-- not after a word character -/
  | wordStartHalf
  /-- not before a word character -/
  | wordEndHalf
  deriving DecidableEq, Repr

end Regex

open Regex in
/-- A regular expression. -/
inductive Regex where
  /-- the empty text -/
  | empty
  /-- one given character -/
  | char (c : Char)
  /-- one character of a set -/
  | set (s : CharSet)
  /-- the empty text, where a condition holds -/
  | look (l : Look)
  /-- one expression after the other -/
  | sequence (rs : List Regex)
  /-- one of several expressions, earlier ones first -/
  | choice (rs : List Regex)
  /-- an expression from `least` to `most` times, as often or as seldom as possible -/
  | repetition (least : Nat) (most : Option Nat) (greedy : Bool) (r : Regex)
  /-- an expression in parentheses, which are numbered from 1 on and may have a name -/
  | group (number : Nat) (name? : Option (List Char)) (r : Regex)
  deriving Repr

namespace Regex

/-- A sequence, without a layer of its own around a single part. -/
def ofSequence : List Regex → Regex
  | [] => .empty
  | [r] => r
  | rs => .sequence rs

/-- A choice, without a layer of its own around a single part. -/
def ofChoice : List Regex → Regex
  | [r] => r
  | rs => .choice rs

/-- A repetition; none at all is the empty text and exactly one is the expression itself. -/
def ofRepetition (least : Nat) (most : Option Nat) (greedy : Bool) (r : Regex) : Regex :=
  if most = some 0 then .empty
  else if least = 1 && most = some 1 then r
  else .repetition least most greedy r

mutual

/-- How many layers are nested inside of an expression. -/
def depth : Regex → Nat
  | .empty | .char _ | .set _ | .look _ => 0
  | .sequence rs | .choice rs => depthList rs + 1
  | .repetition _ _ _ r | .group _ _ r => r.depth + 1

/-- The greatest nesting among several expressions. -/
def depthList : List Regex → Nat
  | [] => 0
  | r :: rs => max r.depth (depthList rs)

end

end Regex

end CommandLanguage
