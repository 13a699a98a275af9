import CommandLanguage.Eval.Basic
import CommandLanguage.Expr.Parse
import CommandLanguage.Text.Quoted

/-!
# Sessions

A session runs one script after the other in the same root scope.

* `Report` — what came of a script: its output and how it ended;
* `Session.eval` — runs a script and leaves its output where it is;
* `Session.exec` — runs a script and takes all output so far;
* `Session.takeOutput`, `Session.takeNotes` — the output and the notes, each handed out once.

A fault ends the script it occurs in, not the session: what was bound and written before stays.
-/

/-! ## Values as JSON texts

Lists are arrays, maps are objects in the order of their names, and functions are shown by their
texts. -/

namespace CommandLanguage.Value

mutual

/-- A value as a JSON text without blanks. -/
def json : Value → String
  | .null => "null"
  | .boolean b => if b then "true" else "false"
  | .number n => Decimal.json n
  | .text s => Json.string s
  | .list items => "[" ++ ",".intercalate (jsonItems items) ++ "]"
  | .map entries => "\x7b" ++ ",".intercalate (jsonEntries entries) ++ "\x7d"
  | .function c => Json.string (toText (.function c))
  | .command c => Json.string (toText (.command c))

/-- The items of a JSON array. -/
def jsonItems : List Value → List String
  | [] => []
  | v :: vs => v.json :: jsonItems vs

/-- The members of a JSON object. -/
def jsonEntries : List (String × Value) → List String
  | [] => []
  | (n, v) :: es => (Json.string n ++ ":" ++ v.json) :: jsonEntries es

end

end CommandLanguage.Value

namespace CommandLanguage

/-! ## Reports and sessions -/

/-- The name that stands before the wording of a fault. -/
def programName : String := "termscript"

/-- What came of a script. -/
structure Report where
  /-- what it wrote -/
  output : String := ""
  /-- how it ended -/
  ending : Outcome Value := .value .null

namespace Report

/-- The wording of the fault that ended the script, if one did. -/
def errors (r : Report) : String :=
  match r.ending with
  | .fault f => s!"{programName}: {f.message}\n"
  | _ => ""

/-- The exit code: zero without a fault. -/
def exitCode (r : Report) : Nat :=
  match r.ending with
  | .fault f => f.exitCode
  | _ => 0

/-- The value of the script, nothing after a fault. -/
def value (r : Report) : Value :=
  match r.ending with
  | .value v => v
  | _ => .null

/-- A report as a JSON text. -/
def json (r : Report) : String :=
  "\x7b\"stdout\":" ++ Json.string r.output ++ ",\"stderr\":" ++ Json.string r.errors ++
    ",\"exitCode\":" ++ Decimal.integer r.exitCode ++ ",\"value\":" ++ r.value.json ++ "\x7d"

end Report

/-- A session. -/
structure Session where
  /-- what stays the same -/
  settings : Settings := {}
  /-- what scripts change -/
  world : World := {}
  /-- the number that the next function gets -/
  functions : Nat := 0

namespace Session

/-- The scope that scripts run in. -/
def rootScope : ScopeId := 0

/-- Runs a computation. -/
def run {α : Type} (s : Session) (m : Run α) : Outcome α × Session :=
  let (o, w) := m s.settings s.world
  (o, { s with world := w })

/-- Binds a name in the root scope. -/
def bind (s : Session) (name : String) (v : Value) : Session :=
  (s.run (Run.define rootScope name v)).2

/-- A session in which some commands and then some texts are bound. -/
def start (settings : Settings) (commands : List Command) (texts : List (String × String)) :
    Session :=
  let s : Session := { settings }
  let s := commands.foldl (fun s c => s.bind c.name (.command c)) s
  texts.foldl (fun s (name, text) => s.bind name (.text text)) s

/-- Takes the output. -/
def takeOutput (s : Session) : String × Session :=
  (s.world.output, { s with world := { s.world with output := "" } })

/-- Takes the notes, the first one first. -/
def takeNotes (s : Session) : List Note × Session :=
  (s.world.notes.reverse, { s with world := { s.world with notes := [] } })

/-- The value of a name. -/
def get? (s : Session) (name : String) : Option Value × Session :=
  match s.run (Run.read rootScope name) with
  | (.value v, s) => (v, s)
  | (_, s) => (none, s)

/-- Gives a name a value; nothing takes its binding away. -/
def set (s : Session) (name : String) (v : Value) : Session :=
  (s.run (if v.isNull then Run.remove rootScope name else Run.assign rootScope name v)).2

/-- Reads a script and numbers its functions, from a given number on. -/
def load (script : String) (functions : Nat) : Except Fault (List Expr × Nat) :=
  match Expr.parse script with
  | .ok es => .ok (Expr.numberList es functions)
  | .error f => .error (.malformed f)

/-- Runs a script that has been read. No call is going on when it begins. -/
def runProgram (program : List Expr) : Run Value := fun c w =>
  let m : Run Value := do
    Run.note .debug fun _ => s!"exec statements={program.length}"
    Program.run program rootScope
  m c { w with calls := 0 }

/-- Runs a script. What it writes stays in the session. -/
def eval (s : Session) (script : String) : Outcome Value × Session :=
  match load script s.functions with
  | .ok (program, functions) => ({ s with functions } : Session).run (runProgram program)
  | .error f => (.fault f, s)

/-- Runs a script and takes the output. A blank script does nothing at all. -/
def exec (s : Session) (script : String) : Report × Session :=
  if script.isBlankText then ({}, s)
  else
    let (ending, s) := s.eval script
    let (output, s) := s.takeOutput
    match ending with
    | .fault f =>
      let (_, s) := s.run <| Run.note .debug fun _ =>
        s!"exec failed kind={f.kind} exit_code={f.exitCode}"
      (⟨output, ending⟩, s)
    | _ => (⟨output, ending⟩, s)

end Session

end CommandLanguage
