import CommandLanguage.Pattern.Glob

/-!
# Edits by pattern

Taking the match of a pattern off one end of a text (`Removal.apply`) and putting something else
in its place (`Replacement.apply`). Both are given the text of a regular expression, and leave a
text alone if the engine does not accept it.
-/

namespace CommandLanguage

/-! ## Engines

Patterns and filters come down to regular expressions, and it is for an engine to say what these
mean. Which one there is is left open, as are the commands of the program around: it comes with the
settings of a run (`CommandLanguage.Run.Basic`). The one that the program has unless it is given
another is `Regex.engine`. -/

/-- A regular expression, by what can be asked of it. -/
structure Matcher where
  /-- whether there is a match anywhere in a text -/
  isMatch (text : List Char) : Bool
  /-- a text with the first match in it replaced -/
  replaceFirst (replacement text : List Char) : List Char
  /-- a text with all matches in it replaced -/
  replaceAll (replacement text : List Char) : List Char

/-- What reads regular expressions. -/
structure Engine where
  /-- the expression that a text is, or why it is none -/
  compile (expression : List Char) : Except String Matcher

/-- The text of an expression is accepted. -/
def Engine.Accepts (E : Engine) (expression : List Char) : Prop :=
  ∃ m, E.compile expression = .ok m

/-! ## Ends of texts -/

/-- An end of a text. -/
inductive End where
  /-- where the text begins -/
  | front
  /-- where the text ends -/
  | back
  deriving DecidableEq, Repr

/-- A way to take a match off a text. -/
structure Removal where
  /-- the end to take it off -/
  side : End
  /-- whether the longest match is taken, not the shortest -/
  greedy : Bool
  deriving DecidableEq, Repr

/-- The removal that an operator stands for. -/
def Removal.ofOperator? : String → Option Removal
  | "#" => some ⟨.front, false⟩
  | "##" => some ⟨.front, true⟩
  | "%" => some ⟨.back, false⟩
  | "%%" => some ⟨.back, true⟩
  | _ => none

/-- A regular expression in a group without a number. -/
def grouped (regex : List Char) : List Char := "(?:".toList ++ regex ++ [')']

/-- The expression that a removal looks for. At the back the whole rest of the text has to match. -/
def Removal.anchored (r : Removal) (regex : List Char) : List Char :=
  match r.side with
  | .front => '^' :: grouped regex
  | .back => '^' :: grouped regex ++ ['$']

/-- The text without a match of an anchored expression. At the front it is the expression that
decides how long the match is; at the back the first place counts from which on the rest of the
text matches, searched from the front for the longest match and from the back for the shortest. -/
def Removal.cut (r : Removal) (m : Matcher) (value : List Char) : List Char :=
  match r.side with
  | .front => m.replaceFirst [] value
  | .back =>
    let places := List.range (value.length + 1)
    let places := if r.greedy then places else places.reverse
    match places.find? fun n => m.isMatch (value.drop n) with
    | some n => value.take n
    | none => value

/-- The text without a match at one end. -/
def Removal.apply (E : Engine) (r : Removal) (regex value : List Char) : List Char :=
  match E.compile (r.anchored regex) with
  | .ok m => r.cut m value
  | .error _ => value

/-- Which matches are replaced. -/
structure Replacement where
  /-- whether all matches are replaced, not only the first -/
  all : Bool
  /-- the end of the text that a match has to touch, if any -/
  anchor : Option End
  deriving DecidableEq, Repr

/-- The expression that a replacement looks for. -/
def Replacement.anchored (r : Replacement) (regex : List Char) : List Char :=
  match r.anchor with
  | some .front => '^' :: grouped regex
  | some .back => grouped regex ++ ['$']
  | none => regex

/-- The text with matches replaced. The empty expression matches nothing. -/
def Replacement.apply (E : Engine) (r : Replacement) (regex replacement value : List Char) :
    List Char :=
  if regex.isEmpty then value
  else
    match E.compile (r.anchored regex) with
    | .ok m => if r.all then m.replaceAll replacement value else m.replaceFirst replacement value
    | .error _ => value

end CommandLanguage
