import CommandLanguage.Decimal.Read
import CommandLanguage.Pattern.Edit
import CommandLanguage.Text.Case
import CommandLanguage.Text.Name

/-!
# References

What can stand between the braces of a `${…}`.

* `Reference` — what is asked for, of which variable;
* `Form` — the nine ways to write a reference, in the order in which a text is searched for them;
* `Form.read?` — reading the body of a group as a reference of a given form.

A body is read as a whole: a form that does not account for its last character does not fit. No
two forms fit the same body, because after the name they begin with different characters, or
with the same characters and something different behind.
-/

namespace CommandLanguage

/-- What to do if a variable has a value, or has none. -/
inductive Fallback where
  /-- the word takes the place of a missing value -/
  | useWord
  /-- the word takes the place of a missing value and becomes the value -/
  | assignWord
  /-- the word takes the place of a value that is there -/
  | replaceValue
  /-- a missing value is a fault, which the word describes -/
  | demand
  deriving DecidableEq, Repr

/-- The fallback that a character stands for. -/
def Fallback.ofChar? : Char → Option Fallback
  | '-' => some .useWord
  | '=' => some .assignWord
  | '+' => some .replaceValue
  | '?' => some .demand
  | _ => none

/-- What is asked of an element. -/
inductive View where
  /-- its text -/
  | content
  /-- its size, or the number of elements -/
  | size
  /-- its key -/
  | key
  deriving DecidableEq, Repr

/-- A reference to a variable. The operands of slices are kept as they are written. -/
inductive Reference where
  /-- its text with matches of a pattern replaced -/
  | replace (name : String) (which : Replacement) (pattern replacement : List Char)
  /-- a slice of its text -/
  | slice (name : String) (offset : List Char) (length : Option (List Char))
  /-- its text or a word; with `emptyCounts`, a value without characters counts as missing -/
  | fallback (name : String) (emptyCounts : Bool) (action : Fallback) (word : List Char)
  /-- its text without a match of a pattern at one end -/
  | remove (name : String) (how : Removal) (pattern : List Char)
  /-- its text in another case -/
  | changeCase (name : String) (change : Text.CaseChange)
  /-- one of its elements -/
  | element (name : String) (view : View) (index : List Char)
  /-- all of its elements but those that match a filter, or a slice of them -/
  | elements (name : String) (view : View) (filter : Option (List Char))
      (slice : Option (List Char × Option (List Char)))
  /-- its size -/
  | size (name : String)
  /-- its text -/
  | whole (name : String)
  deriving DecidableEq, Repr

/-- A way to write a reference. -/
inductive Form where
  /-- `name/pattern/replacement` and its variants -/
  | replace
  /-- `name:offset:length` -/
  | slice
  /-- `name:(-offset):length` and `name: -offset:length` -/
  | endSlice
  /-- `name:-word` and its variants -/
  | fallback
  /-- `name#pattern` and its variants -/
  | remove
  /-- `name^` and its variants -/
  | changeCase
  /-- `name[index]` and its variants -/
  | elements
  /-- `#name` -/
  | size
  /-- `name` -/
  | whole
  deriving DecidableEq, Repr

namespace Form

/-- The name of a form in notes. -/
def name : Form → String
  | .replace => "replace"
  | .slice => "slice"
  | .endSlice => "right-slice"
  | .fallback => "default"
  | .remove => "removal"
  | .changeCase => "case"
  | .elements => "array"
  | .size => "length"
  | .whole => "simple"

/-- All forms, in the order in which a text is searched for them. -/
def all : List Form :=
  [.replace, .slice, .endSlice, .fallback, .remove, .changeCase, .elements, .size, .whole]

/-! ## Parts of bodies -/

/-- Whether a text has no line ends. -/
def isLine (s : List Char) : Bool := !s.contains '\n'

/-- Whether blanks of this kind may stand around the offset of a slice. -/
def isSpace (c : Char) : Bool := c == ' ' || ('\t' ≤ c && c ≤ '\r')

/-- Splits off the name that a body begins with. -/
def splitName? (s : List Char) : Option (String × List Char) :=
  (Text.splitName? s).map fun (n, r) => (String.ofList n, r)

/-- A text that is nothing but a name. -/
def name? (s : List Char) : Option String :=
  if Text.isName s then some (String.ofList s) else none

/-- Splits off the operator of a replacement. -/
def splitReplacement? : List Char → Option (Replacement × List Char)
  | '/' :: '/' :: r => some (⟨true, none⟩, r)
  | '/' :: '#' :: r => some (⟨false, some .front⟩, r)
  | '/' :: '%' :: r => some (⟨false, some .back⟩, r)
  | '/' :: r => some (⟨false, none⟩, r)
  | _ => none

/-- Splits off a name, with a `$` before it or not. -/
def splitVariable? : List Char → Option (List Char × List Char)
  | '$' :: r => (Text.splitName? r).map fun (n, rest) => ('$' :: n, rest)
  | s => Text.splitName? s

/-- The length at the end of a slice: nothing, or what can be split off after a colon. -/
def sliceLength? (split? : List Char → Option (List Char × List Char)) :
    List Char → Option (Option (List Char))
  | [] => some none
  | ':' :: r =>
    match split? r with
    | some (l, []) => some (some l)
    | _ => none
  | _ => none

/-- Splits off an offset that counts from the end: a negative integer after blanks or in
parentheses. -/
def splitEndOffset? : List Char → Option (List Char × List Char)
  | '(' :: r =>
    match Decimal.splitNegative? (r.dropWhile isSpace) with
    | some (o, r) =>
      match r.dropWhile isSpace with
      | ')' :: r => some (o, r)
      | _ => none
    | none => none
  | c :: r => if isSpace c then Decimal.splitNegative? (r.dropWhile isSpace) else none
  | [] => none

/-- Splits off the operator of a removal; the pattern after it has at least one character. -/
def splitRemoval? : List Char → Option (Removal × List Char)
  | '#' :: '#' :: c :: r => some (⟨.front, true⟩, c :: r)
  | '#' :: c :: r => some (⟨.front, false⟩, c :: r)
  | '%' :: '%' :: c :: r => some (⟨.back, true⟩, c :: r)
  | '%' :: c :: r => some (⟨.back, false⟩, c :: r)
  | _ => none

/-- Splits off the sign before the name of a variable whose elements are asked for. -/
def splitView : List Char → View × List Char
  | '#' :: r => (.size, r)
  | '!' :: r => (.key, r)
  | r => (.content, r)

/-- Splits off an index in brackets, which has at least one character. -/
def splitIndex? : List Char → Option (List Char × List Char)
  | '[' :: r =>
    match r.takeWhile (· != ']'), r.dropWhile (· != ']') with
    | c :: i, _ :: rest => some (c :: i, rest)
    | _, _ => none
  | _ => none

/-- Cuts a text at its last slash. -/
def splitLastSlash? (s : List Char) : Option (List Char × List Char) :=
  match s.reverse.dropWhile (· != '/') with
  | _ :: r => some (r.reverse, (s.reverse.takeWhile (· != '/')).reverse)
  | [] => none

/-- Splits off a filter between slashes, if there is one. Slashes in the filter are part of it. -/
def splitFilter? : List Char → Option (Option (List Char) × List Char)
  | '/' :: r =>
    match splitLastSlash? r with
    | some (filter, rest) => if isLine filter then some (some filter, rest) else none
    | none => none
  | s => some (none, s)

/-- The slice at the end of a reference to elements, if there is one. -/
def elementsSlice? : List Char → Option (Option (List Char × Option (List Char)))
  | [] => some none
  | ':' :: r => do
    let (offset, r) ← Decimal.splitInteger? r
    let length ← sliceLength? Decimal.splitDigits? r
    return some (offset, length)
  | _ => none

/-! ## The forms -/

/-- Reads a replacement: the pattern ends at the next slash, the replacement with the body. -/
def replace? (body : List Char) : Option Reference := do
  let (name, r) ← splitName? body
  let (which, r) ← splitReplacement? r
  let pattern := r.takeWhile (· != '/')
  match r.dropWhile (· != '/') with
  | [] => some (.replace name which pattern [])
  | _ :: replacement =>
    if isLine replacement then some (.replace name which pattern replacement) else none

/-- Reads a slice. Its offset cannot be negative: that would read as a fallback. -/
def slice? (body : List Char) : Option Reference := do
  let (name, r) ← splitName? body
  match r with
  | ':' :: r =>
    let (offset, r) ← Decimal.splitDigits? r <|> splitVariable? r
    let length ← sliceLength? (fun s => Decimal.splitInteger? s <|> splitVariable? s) r
    return .slice name offset length
  | _ => none

/-- Reads a slice whose offset counts from the end. -/
def endSlice? (body : List Char) : Option Reference := do
  let (name, r) ← splitName? body
  match r with
  | ':' :: r =>
    let (offset, r) ← splitEndOffset? r
    let length ← sliceLength? Decimal.splitInteger? r
    return .slice name offset length
  | _ => none

/-- Reads a fallback. -/
def fallback? (body : List Char) : Option Reference := do
  let (name, r) ← splitName? body
  let (emptyCounts, r) := match r with
    | ':' :: r => (true, r)
    | r => (false, r)
  match r with
  | c :: word =>
    let action ← Fallback.ofChar? c
    if isLine word then some (.fallback name emptyCounts action word) else none
  | [] => none

/-- Reads a removal. -/
def remove? (body : List Char) : Option Reference := do
  let (name, r) ← splitName? body
  let (how, pattern) ← splitRemoval? r
  if isLine pattern then some (.remove name how pattern) else none

/-- Reads a change of case. -/
def changeCase? (body : List Char) : Option Reference := do
  let (name, r) ← splitName? body
  return .changeCase name (← Text.CaseChange.ofOperator? r)

/-- Whether an index asks for all elements. -/
def isEvery (index : List Char) : Bool := index == ['@'] || index == ['*']

/-- Reads a reference to elements. What follows the index of a single element does not count. -/
def elements? (body : List Char) : Option Reference := do
  let (view, r) := splitView body
  let (name, r) ← splitName? r
  let (index, r) ← splitIndex? r
  let (filter, r) ← splitFilter? r
  let slice ← elementsSlice? r
  return if isEvery index then .elements name view filter slice else .element name view index

/-- Reads a reference to a size. -/
def size? : List Char → Option Reference
  | '#' :: r => (name? r).map .size
  | _ => none

/-- Reads the body of a group as a reference of the given form. -/
def read? : Form → List Char → Option Reference
  | .replace => replace?
  | .slice => slice?
  | .endSlice => endSlice?
  | .fallback => fallback?
  | .remove => remove?
  | .changeCase => changeCase?
  | .elements => elements?
  | .size => size?
  | .whole => fun body => (name? body).map .whole

end Form

end CommandLanguage
