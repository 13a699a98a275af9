import CommandLanguage.Decimal.Notation
import CommandLanguage.Decimal.Read
import CommandLanguage.Dictionary
import CommandLanguage.Fault
import CommandLanguage.Text.Blank

/-!
# Values

What expressions evaluate to.

* `Command` — the commands that are not written in the language itself;
* `Closure` — a function with the scope it was defined in;
* `Value` — all values, with their text (`toText`), their type and their views as a number, as a
  number of elements and as a list of items.
-/

namespace CommandLanguage

/-- The number of a scope. -/
abbrev ScopeId := Nat

/-- A command that is not written in the language. -/
inductive Command where
  /-- writes its arguments and ends the line -/
  | echo
  /-- writes its arguments -/
  | print
  /-- writes its arguments in a given format -/
  | printf
  /-- counts elements -/
  | len
  /-- names the type of a value -/
  | typeof
  /-- joins texts -/
  | join
  /-- cuts a text into pieces -/
  | split
  /-- a command of the program around -/
  | host (name : String)
  deriving DecidableEq, Repr

namespace Command

/-- The name of a command. -/
def name : Command → String
  | .echo => "echo"
  | .print => "print"
  | .printf => "printf"
  | .len => "len"
  | .typeof => "typeof"
  | .join => "join"
  | .split => "split"
  | .host n => n

/-- The commands that are there unless they are left out. -/
def standard : List Command := [.echo, .print, .printf, .len, .typeof, .join, .split]

end Command

/-- A function with the scope it was defined in. -/
structure Closure where
  /-- the number that tells the function from others written alike -/
  id : Nat
  /-- its name, if it has one -/
  name : Option String
  /-- its parameters -/
  parameters : List Expr
  /-- its body -/
  body : Expr
  /-- the scope it was defined in -/
  scope : ScopeId

/-- The name by which a function is shown. -/
def Closure.shownName (c : Closure) : String := c.name.getD "anonymous"

/-- A value. -/
inductive Value where
  /-- nothing -/
  | null
  /-- a truth value -/
  | boolean (b : Bool)
  /-- a number -/
  | number (n : Float)
  /-- a text -/
  | text (s : String)
  /-- a list -/
  | list (items : List Value)
  /-- a map from texts, in order -/
  | map (entries : List (String × Value))
  /-- a function -/
  | function (c : Closure)
  /-- a command -/
  | command (c : Command)
  deriving Inhabited

namespace Value

/-! ## Text -/

mutual

/-- How a value is shown. A list or map shows its elements with blanks between them. -/
def toText : Value → String
  | .null => ""
  | .boolean b => if b then "true" else "false"
  | .number n => Decimal.shell n
  | .text s => s
  | .list items => " ".intercalate (toTexts items)
  | .map entries => " ".intercalate (entryTexts entries)
  | .function c => s!"function {c.shownName}"
  | .command c => s!"builtin {c.name}"

/-- How several values are shown. -/
def toTexts : List Value → List String
  | [] => []
  | v :: vs => v.toText :: toTexts vs

/-- How the values of a map are shown. -/
def entryTexts : List (String × Value) → List String
  | [] => []
  | (_, v) :: es => v.toText :: entryTexts es

end

/-! ## Kinds of values -/

/-- The name of a value's type. -/
def typeName : Value → String
  | .null => "null"
  | .boolean _ => "boolean"
  | .number _ => "number"
  | .text _ => "string"
  | .list _ => "list"
  | .map _ => "map"
  | .function _ | .command _ => "function"

/-- Whether a value counts as true: every value does but `false`. -/
def isTrue : Value → Bool
  | .boolean b => b
  | _ => true

/-- Whether a value is nothing. -/
def isNull : Value → Bool
  | .null => true
  | _ => false

/-- Whether a value can be called. -/
def isCallable : Value → Bool
  | .function _ | .command _ => true
  | _ => false

/-! ## Views -/

/-- A value as a number: numbers themselves, and texts that are numbers but for blanks around. -/
def toNumber : Value → Except Fault Float
  | .number n => .ok n
  | .text s =>
    match Decimal.readFloat? (Text.trim s.toList) with
    | some n => .ok n
    | none => .error .notANumber
  | _ => .error .notANumber

/-- A value as an integer of sixty-four bits: what is behind the point is cut off, what is too
large becomes the nearest such integer, and what is no number becomes zero. -/
def toInteger (v : Value) : Except Fault Int64 := v.toNumber.map Float.toInt64

theorem eq_notANumber_of_toNumber {v : Value} {f : Fault} (h : v.toNumber = .error f) :
    f = .notANumber := by
  unfold toNumber at h
  repeat' split at h
  all_goals cases h
  all_goals rfl

theorem eq_notANumber_of_toInteger {v : Value} {f : Fault} (h : v.toInteger = .error f) :
    f = .notANumber := by
  unfold toInteger at h
  cases hn : v.toNumber with
  | error e =>
    rw [hn] at h
    cases h
    exact eq_notANumber_of_toNumber hn
  | ok n =>
    rw [hn] at h
    cases h

/-- A truth value as a number, every other value as it is. -/
def truthAsNumber : Value → Value
  | .boolean b => .number (if b then 1.0 else 0.0)
  | v => v

/-- The number of elements of a list or map, and of characters of everything else. -/
def size : Value → Nat
  | .null => 0
  | .list items => items.length
  | .map entries => entries.length
  | .text s => s.length
  | v => v.toText.length

/-- The items of a value: those of a list, the values of a map, nothing of nothing, and of
everything else the value itself. -/
def items : Value → List Value
  | .null => []
  | .list items => items
  | .map entries => Dictionary.values entries
  | v => [v]

/-- The items of a list, and of everything else the value itself. -/
def spread : Value → List Value
  | .list items => items
  | v => [v]

/-- The keys of a value: positions of a list, names of a map. -/
def keys : Value → List String
  | .null => []
  | .list items => (List.range items.length).map fun i : Nat => Decimal.integer i
  | .map entries => Dictionary.names entries
  | _ => ["0"]

end Value

end CommandLanguage
