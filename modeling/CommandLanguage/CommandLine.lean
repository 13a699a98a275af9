import CommandLanguage.Session

/-!
# The command line

What the program is asked for (`Invocation`), reading it from arguments (`Invocation.ofArguments?`),
and what is printed for it.

* `Terminal` — a session with what decides how reports are printed;
* `Terminal.runScript` — a whole script, from the command line or a file;
* `Terminal.runLine`, `Terminal.runLines` — scripts of one line each;
* `run` — everything at once, with the file system and the input given.

Notes are printed where errors are, each when it is taken.
-/

namespace CommandLanguage

/-- What the program is asked for. -/
structure Invocation where
  /-- the script on the command line -/
  script : Option String := none
  /-- the name of the file that holds the script -/
  file : Option String := none
  /-- whether reports are printed as JSON texts -/
  json : Bool := false
  /-- whether all operators write back -/
  writeBackAll : Bool := false
  /-- how many calls may lie within each other -/
  maxCalls : Option Nat := none
  /-- whether everything is noted -/
  trace : Bool := false
  /-- names and texts to bind, as they are given -/
  assignments : List String := []
  deriving DecidableEq, Repr

namespace Invocation

/-- An option with a value. -/
inductive Key where
  /-- the script -/
  | script
  /-- a name and text to bind -/
  | assignment
  /-- the greatest number of calls within each other -/
  | maxCalls
  deriving DecidableEq, Repr

/-- The option that an argument begins, and its value if it is part of the argument. -/
def Key.ofArgument? (a : String) : Option (Key × Option String) :=
  let attached (flag : String) (s : List Char) : Option (Option String) :=
    if s == flag.toList then some none
    else if (flag.toList ++ ['=']).isPrefixOf s then
      some (some (String.ofList (s.drop (flag.length + 1))))
    else none
  match a.toList with
  | ['-', 'c'] => some (.script, none)
  | '-' :: 'c' :: '=' :: v => some (.script, some (String.ofList v))
  | '-' :: 'c' :: v => some (.script, some (String.ofList v))
  | s =>
    match attached "--set" s, attached "--max-call-depth" s with
    | some v, _ => some (.assignment, v)
    | none, some v => some (.maxCalls, v)
    | none, none => none

/-- A number of calls, which has thirty-two bits. -/
def readCount? (s : List Char) : Option Nat :=
  let ds := match s with
    | '+' :: r => r
    | s => s
  if ds.isEmpty || !ds.all Char.isDigit then none
  else
    let n := Decimal.digitsValue ds
    if n < Nat.pow 2 32 then some n else none

/-- Sets an option with a value. All but assignments can be set once only. -/
def put? (i : Invocation) (key : Key) (v : String) : Option Invocation :=
  match key with
  | .script => if i.script.isSome then none else some { i with script := some v }
  | .assignment => some { i with assignments := i.assignments ++ [v] }
  | .maxCalls =>
    if i.maxCalls.isSome then none
    else (readCount? v.toList).map fun n => { i with maxCalls := some n }

/-- Sets an option without a value, which can be done once only. -/
def flag? (i : Invocation) (a : String) : Option Invocation :=
  if a == "--json" && !i.json then some { i with json := true }
  else if a == "--legacy-writeback" && !i.writeBackAll then some { i with writeBackAll := true }
  else if a == "--trace" && !i.trace then some { i with trace := true }
  else none

/-- Sets the file, of which there is at most one. -/
def file? (i : Invocation) (name : String) : Option Invocation :=
  if i.file.isSome then none else some { i with file := some name }

/-- Whether an argument looks like an option. -/
def isOption (a : String) : Bool :=
  match a.toList with
  | '-' :: _ :: _ => true
  | _ => false

/-- Reads arguments on top of what was read before. After `--`, all of them are files. -/
def read? (i : Invocation) : List String → Option Invocation
  | [] => some i
  | a :: rest =>
    if a == "--" then rest.foldlM file? i
    else
      match Key.ofArgument? a, rest with
      | some (key, some v), rest => (i.put? key v).bind (read? · rest)
      | some (key, none), v :: rest =>
        if isOption v then none else (i.put? key v).bind (read? · rest)
      | some (_, none), [] => none
      | none, rest =>
        ((if isOption a then i.flag? a else i.file? a)).bind (read? · rest)

/-- Reads the arguments of the program; there is no answer to arguments that make no sense. -/
def ofArguments? (args : List String) : Option Invocation := read? {} args

/-- The name and the text of an assignment, which stand before and after the first `=`. -/
def assignment? (s : String) : Option (String × String) :=
  let name := s.toList.takeWhile (· != '=')
  match s.toList.dropWhile (· != '=') with
  | _ :: text => if name.isEmpty then none else some (String.ofList name, String.ofList text)
  | [] => none

/-- The names and texts to bind, or what is wrong with the first that is none. -/
def bindings (i : Invocation) : Except String (List (String × String)) :=
  i.assignments.mapM fun s =>
    match assignment? s with
    | some b => .ok b
    | none => .error s!"--set expects NAME=VALUE, got \"{s}\""

end Invocation

/-- The level that a name stands for, in capital or small letters. Without a name that is known,
it is the level of what statements do. -/
def Level.ofName (name : String) : Option Level :=
  let name := String.ofList (name.toList.map Char.toUpper)
  if name == "OFF" then none else some ((Level.all.find? (·.name == name)).getD .debug)

namespace CommandLine

/-- What is printed. -/
structure Printed where
  /-- on the output -/
  output : String := ""
  /-- where errors are printed -/
  errors : String := ""
  deriving DecidableEq, Repr

instance : Append Printed where
  append a b := ⟨a.output ++ b.output, a.errors ++ b.errors⟩

/-- A note as it is printed. -/
def noteLine (n : Note) : String := s!"+ [{n.level.name}] {n.text}\n"

/-- A report as it is printed. A value is shown only if it is asked for, and not if it is
nothing. -/
def printReport (json showValue : Bool) (r : Report) : Printed :=
  if json then { output := r.json ++ "\n" }
  else
    let value := if showValue && !r.value.isNull then r.value.toText ++ "\n" else ""
    { output := r.output ++ value, errors := r.errors }

/-- A session with what decides how reports are printed. -/
structure Terminal where
  /-- the session -/
  session : Session
  /-- whether reports are printed as JSON texts -/
  json : Bool := false
  /-- the exit code so far -/
  exitCode : Nat := 0

namespace Terminal

/-- The terminal of an invocation. What is said about the level of notes outside of the command
line comes first. The engine and the random numbers are those that the program runs with. -/
def start (i : Invocation) (log : Option String) (engine : Engine) (draws : Nat → Nat) :
    Except String Terminal := do
  let texts ← i.bindings
  let noteLevel := match log with
    | some name => Level.ofName name
    | none => if i.trace then some .trace else none
  let defaults : Settings := {}
  let settings : Settings := { defaults with
    maxCalls := i.maxCalls.getD defaults.maxCalls
    writeBack := if i.writeBackAll then .allOperators else .assignments
    noteLevel
    engine }
  let session := Session.start settings Command.standard texts
  let session := { session with world := { session.world with draws } }
  return { session, json := i.json }

/-- Runs a script. -/
def runScript (t : Terminal) (script : String) (showValue : Bool) : Printed × Terminal :=
  let (report, session) := t.session.exec script
  let (notes, session) := session.takeNotes
  let noted : Printed := { errors := String.join (notes.map noteLine) }
  (noted ++ printReport t.json showValue report,
    { t with session, exitCode := report.exitCode })

/-- Runs a line. A blank one does nothing at all. -/
def runLine (t : Terminal) (line : String) (showValue : Bool) : Printed × Terminal :=
  if line.isBlankText then ({}, t) else t.runScript line showValue

/-- Runs lines one after the other. -/
def runLines (t : Terminal) : List String → Printed × Terminal
  | [] => ({}, t)
  | l :: ls =>
    let (a, t) := t.runLine l false
    let (b, t) := t.runLines ls
    (a ++ b, t)

end Terminal

/-- A line without a carriage return at its end. -/
def dropReturn (line : List Char) : List Char :=
  if line.getLast? == some '\r' then line.dropLast else line

/-- The lines of an input. What follows the last line end is a line only if it is not empty. -/
def inputLines (input : String) : List String :=
  let parts := Text.lines input.toList
  let last := String.ofList (parts.getLast?.getD [])
  let ended := parts.dropLast.map fun l => String.ofList (dropReturn l)
  if last.isEmpty then ended else ended ++ [last]

/-- An error of the program itself. -/
def errorLine (message : String) : String := s!"Error: {message}\n"

/-- What is printed if a file cannot be read. -/
def unreadable (file reason : String) : String :=
  errorLine s!"Cannot read script file: {file}: {reason}"

/-- What an invocation prints, and its exit code. -/
def run (i : Invocation) (log : Option String) (engine : Engine) (draws : Nat → Nat)
    (readFile : String → Except String String) (input : String) : Printed × Nat :=
  match Terminal.start i log engine draws with
  | .error message => ({ errors := errorLine message }, 2)
  | .ok t =>
    match i.script, i.file with
    | some script, _ =>
      let (printed, t) := t.runScript script true
      (printed, t.exitCode)
    | none, some file =>
      match readFile file with
      | .ok script =>
        let (printed, t) := t.runScript script false
        (printed, t.exitCode)
      | .error reason => ({ errors := unreadable file reason }, 1)
    | none, none =>
      let (printed, t) := t.runLines (inputLines input)
      (printed, t.exitCode)

end CommandLine

end CommandLanguage
