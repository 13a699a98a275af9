import CommandLanguage.Run.Basic

/-!
# Commands

What the commands do that are not written in the language itself. All of them look at their
arguments only; three of them write to the output.

What a text is cut at is searched for from left to right, and what is found does not overlap:
`Text.split "aa" "aaab"` has the parts empty and `ab`.
-/

namespace CommandLanguage.Text

/-- The parts of a text between the occurrences of a separator; `pass` of the characters belong to
one that was found already. -/
def splitFrom (separator : List Char) (pass : Nat) : List Char → List (List Char)
  | [] => [[]]
  | c :: r =>
    match pass with
    | n + 1 => splitFrom separator n r
    | 0 =>
      if separator.isPrefixOf (c :: r) then [] :: splitFrom separator (separator.length - 1) r
      else
        match splitFrom separator 0 r with
        | [] => [[c]]
        | p :: ps => (c :: p) :: ps

/-- The parts of a text between the occurrences of a separator that is not empty. -/
def split (separator s : List Char) : List (List Char) := splitFrom separator 0 s

end CommandLanguage.Text

namespace CommandLanguage.Command

/-- The texts of values with blanks between them. -/
def line (args : List Value) : String := " ".intercalate (args.map Value.toText)

/-- The text of an integer argument; without an argument it is zero. -/
def integerText (arg : Option Value) : Except Fault (List Char) :=
  match arg with
  | none => .ok ['0']
  | some v =>
    match v.toInteger with
    | .ok i => .ok (Decimal.integer i.toInt).toList
    | .error _ => .error (.command "printf" s!"{v.toText}: invalid number")

/-- The text of a format with arguments. `%s` takes an argument as its text, `%d` as an integer,
and `%%` is a percent sign; `\n`, `\t` and `\\` are escapes. What else follows a percent sign or
backslash stands for itself, and arguments that are not asked for are ignored. -/
def formatted : List Char → List Value → Except Fault (List Char)
  | [], _ => .ok []
  | '%' :: 's' :: r, args => do
    return (args.head?.getD .null).toText.toList ++ (← formatted r args.tail)
  | '%' :: 'd' :: r, args => do
    let number ← integerText args.head?
    return number ++ (← formatted r args.tail)
  | '%' :: '%' :: r, args => do return '%' :: (← formatted r args)
  | '%' :: c :: r, args => do return '%' :: c :: (← formatted r args)
  | '\\' :: 'n' :: r, args => do return '\n' :: (← formatted r args)
  | '\\' :: 't' :: r, args => do return '\t' :: (← formatted r args)
  | '\\' :: '\\' :: r, args => do return '\\' :: (← formatted r args)
  | '\\' :: c :: r, args => do return '\\' :: c :: (← formatted r args)
  | c :: r, args => do return c :: (← formatted r args)

/-- The parts of a text: between the occurrences of a separator, or if there is none between
blanks. -/
def pieces (text : String) (separator : String) : List String :=
  if separator.isEmpty then text.blankWords
  else (Text.split separator.toList text.toList).map String.ofList

/-- Runs a command. -/
def run (c : Command) (args : List Value) : Run Value :=
  match c with
  | .echo => do
    Run.write (line args ++ "\n")
    return .null
  | .print => do
    Run.write (line args)
    return .null
  | .printf =>
    match args with
    | [] => Run.fault (.command "printf" "usage: printf format [arguments]")
    | format :: args => do
      let text ← Run.ofExcept (formatted format.toText.toList args)
      Run.write (String.ofList text)
      return .null
  | .len =>
    match args with
    | [v] => return .number (Float.ofNat v.size)
    | args => return .number (Float.ofNat args.length)
  | .typeof => return .text (args.head?.getD .null).typeName
  | .join =>
    match args with
    | [] => Run.fault (.command "join" "missing separator")
    | separator :: items =>
      return .text (separator.toText.intercalate (items.map Value.toText))
  | .split =>
    match args with
    | [] => Run.fault (.command "split" "missing string")
    | text :: rest =>
      return .list ((pieces text.toText (rest.head?.getD .null).toText).map .text)
  | .host name => do Run.ofExcept ((← Run.settings).host name args)

end CommandLanguage.Command
