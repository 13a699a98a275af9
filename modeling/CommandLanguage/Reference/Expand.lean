import CommandLanguage.Brace.Expand
import CommandLanguage.Reference.Basic
import CommandLanguage.Reference.Segment
import CommandLanguage.Run.Basic
import CommandLanguage.Value.Element

/-!
# Expansion

Putting the values of references in their places.

* `Text.slice` — a part of a list, given by an offset and a length;
* `Reference.resolve` — the text that a single reference stands for;
* `Reference.expandForms` — a text with all references of some forms replaced, one form after
  the other;
* `Reference.expand` — a text with all its references replaced: those in braces, form by form in
  the order of `Form.all`, then those that are not in braces;
* `Reference.expandWords` — the words that the groups in braces of an expanded text stand for.

A reference can hold further ones: a pattern, a replacement, a word or an index is expanded when
it is needed. It holds fewer `$` than the text around, so their number is fuel enough.
-/

/-! ## Slices

A negative offset counts from the end, and a negative length stops so many items before the end.
Both are integers of sixty-four bits, and so is every sum of them: one that is too large or too
small becomes the nearest such integer. -/

namespace CommandLanguage.Text

open Decimal (clampInteger maxInteger)

/-- The first item of a slice and the one after its last, in a list of `n` items; a slice without
items has neither. -/
def sliceBounds? (n : Nat) (offset : Int) (length : Option Int) : Option (Nat × Nat) :=
  let n : Int := min n maxInteger
  let start := if offset < 0 then max (clampInteger (n + offset)) 0 else offset
  let stop := match length with
    | none => n
    | some l => if l < 0 then clampInteger (n + l) else min (clampInteger (start + l)) n
  if start < n ∧ start < stop then some (start.toNat, stop.toNat) else none

/-- A slice of a list. -/
def slice {α : Type} (xs : List α) (offset : Int) (length : Option Int) : List α :=
  match sliceBounds? xs.length offset length with
  | some (start, stop) => (xs.take stop).drop start
  | none => []

end CommandLanguage.Text

namespace CommandLanguage.Reference

/-! ## Single references -/

/-- The value of a variable, nothing if it has none. -/
def readValue (s : ScopeId) (name : String) : Run Value := do
  return (← Run.read s name).getD .null

/-- The text of a variable. -/
def readText (s : ScopeId) (name : String) : Run (List Char) := do
  return (← readValue s name).toText.toList

/-- The operand of a slice: an integer, or the name of a variable that has one as its value. -/
def operand (s : ScopeId) (text : List Char) : Run Int :=
  match Decimal.readInteger? text with
  | some i => pure i
  | none => do
    let v ← readValue s (String.ofList (text.dropWhile (· == '$')))
    Run.ofExcept (v.toInteger.map Int64.toInt)

/-- The operand of a slice that need not be there. -/
def operand? (s : ScopeId) : Option (List Char) → Run (Option Int)
  | none => pure none
  | some text => do return some (← operand s text)

/-- Whether a value is missing: there is none, or it is nothing, or with `emptyCounts` it has a
text without characters. -/
def isMissing (emptyCounts : Bool) (v : Option Value) : Bool :=
  match v with
  | none | some .null => true
  | some v => emptyCounts && v.toText.isEmpty

/-- What a fault says that a reference demands without describing it. -/
def missingMessage : String := "parameter null or not set"

/-- The element with a given key. A list has integers as keys, perhaps with blanks around;
values that are neither lists nor maps have no elements. -/
def element? (name : String) (v : Value) (key : List Char) : Except Fault (Option Value) :=
  match v with
  | .null => .ok none
  | .list items =>
    match Decimal.readInteger? (Text.trim key) with
    | some i => .ok (Value.itemAt? items i)
    | none => .error .notANumber
  | .map entries => .ok (Dictionary.get? entries (String.ofList key))
  | _ => .error (.notIndexable name)

/-- A view of an element. -/
def viewElement (view : View) (key : List Char) (e : Option Value) : List Char :=
  match view with
  | .content => (e.getD .null).toText.toList
  | .size => Decimal.digits (e.getD .null).size
  | .key => if e.isSome then key else []

/-- The texts without those in which a filter finds a match. -/
def filterOut (E : Engine) (filter : Option (List Char)) (items : List String) :
    Except Fault (List String) :=
  match filter with
  | none => .ok items
  | some f =>
    match E.compile f with
    | .ok m => .ok (items.filter fun t => !m.isMatch t.toList)
    | .error message => .error (.notAFilter (String.ofList f) message)

/-- The text that a reference stands for; `inner` expands the texts that it holds. -/
def resolve (inner : List Char → Run (List Char)) (s : ScopeId) : Reference → Run (List Char)
  | .replace name which pattern replacement => do
    let value ← readText s name
    let pattern ← inner pattern
    let replacement ← inner replacement
    return which.apply (← Run.engine) (Glob.regex true pattern) replacement value
  | .slice name offset length => do
    let value ← readText s name
    let offset ← operand s offset
    let length ← operand? s length
    return Text.slice value offset length
  | .fallback name emptyCounts action word => do
    let value ← Run.read s name
    match action, isMissing emptyCounts value with
    | .useWord, true => inner word
    | .assignWord, true =>
      let word ← inner word
      Run.assign s name (.text (String.ofList word))
      return word
    | .replaceValue, true => return []
    | .replaceValue, false => inner word
    | .demand, true =>
      let message ← if word.isEmpty then pure missingMessage.toList else inner word
      Run.fault (.requested name (String.ofList message))
    | _, false => return (value.getD .null).toText.toList
  | .remove name how pattern => do
    let value ← readText s name
    let pattern ← inner pattern
    return how.apply (← Run.engine) (Glob.regex how.greedy pattern) value
  | .changeCase name change => return change.apply (← readText s name)
  | .element name view index => do
    let value ← readValue s name
    let key ← inner index
    return viewElement view key (← Run.ofExcept (element? name value key))
  | .elements name view filter part => do
    let value ← readValue s name
    let items := if view == .key then value.keys else value.items.map Value.toText
    let items ← Run.ofExcept (filterOut (← Run.engine) filter items)
    let items ← match part with
      | none => pure items
      | some (offset, length) => do
        let offset ← operand s offset
        let length ← operand? s length
        pure (Text.slice items offset length)
    return if view == .size then Decimal.digits items.length
      else (" ".intercalate items).toList
  | .size name => return Decimal.digits (← readValue s name).size
  | .whole name => readText s name

/-! ## Texts -/

/-- Replaces the references of one form in the parts of a text. Groups of other forms stay as
they are. -/
def expandGroups (resolve : Reference → Run (List Char)) (form : Form) :
    List Segment → Run (List Char)
  | [] => pure []
  | .group body :: rest =>
    match form.read? body with
    | none => do return (Segment.group body).text ++ (← expandGroups resolve form rest)
    | some r => do
      let result ← resolve r
      Run.note .trace fun _ =>
        s!"expand pass={form.name} body={Text.quote (String.ofList body)} " ++
          s!"result={Text.quote (String.ofList result)}"
      return escape result ++ (← expandGroups resolve form rest)
  | other :: rest => do return other.text ++ (← expandGroups resolve form rest)

/-- Replaces the references of one form after the other. -/
def expandForms (resolve : Reference → Run (List Char)) :
    List Form → List Char → Run (List Char)
  | [], text => pure text
  | form :: forms, text => do
    let text ← expandGroups resolve form (segments text)
    expandForms resolve forms text

/-- Replaces the references without braces in the parts of a text. -/
def expandBare (s : ScopeId) : List Segment → Run (List Char)
  | [] => pure []
  | .bare name :: rest => do
    let value ← readText s (String.ofList name)
    return escape value ++ (← expandBare s rest)
  | other :: rest => do return other.text ++ (← expandBare s rest)

/-- Replaces the references of a text, given how to expand the texts in them. -/
def expandStep (inner : List Char → Run (List Char)) (s : ScopeId) (text : List Char) :
    Run (List Char) :=
  if text.contains '$' then do
    let text ← expandForms (resolve inner s) Form.all text
    return unescape (← expandBare s (bareSegments text))
  else pure text

/-- Replaces the references of a text if they are not deeper within each other than the fuel. -/
def expandFrom : Nat → ScopeId → List Char → Run (List Char)
  | 0, _, _ => Run.outOfFuel
  | fuel + 1, s, text => expandStep (expandFrom fuel s) s text

/-- Replaces the references of a text. -/
def expand (s : ScopeId) (text : List Char) : Run (List Char) :=
  expandFrom (openDollars text + 1) s text

/-- The words that a text stands for once its references are replaced. -/
def expandWords (s : ScopeId) (text : List Char) : Run (List (List Char)) := do
  let expanded ← expand s text
  let words ← Run.ofExcept (Brace.words expanded)
  Run.note .trace fun _ =>
    s!"brace expansion word={Text.quote (String.ofList text)} count={words.length}"
  return words

end CommandLanguage.Reference
