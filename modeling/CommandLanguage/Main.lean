import CommandLanguage.CommandLine

/-!
# The program

Reads what the command line asks for from files and the input, and prints what comes of it. The
input is read line by line, so that each line is answered before the next one is read.
-/

namespace CommandLanguage.CommandLine

/-- Prints. -/
def Printed.print (p : Printed) : IO Unit := do
  let out ← IO.getStdout
  out.putStr p.output
  out.flush
  (← IO.getStderr).putStr p.errors

/-- Why a file cannot be read. -/
def reason : IO.Error → String
  | .noFileOrDirectory _ code _ => s!"No such file or directory (os error {code})"
  | .permissionDenied _ code _ => s!"Permission denied (os error {code})"
  | .inappropriateType _ code _ => s!"Is a directory (os error {code})"
  | _ => "stream did not contain valid UTF-8"

/-- Reads a file, or tells why it cannot be read. -/
def readScript (file : String) : IO (Except String String) := do
  try return .ok (← IO.FS.readFile file)
  catch e => return .error (reason e)

/-- Reads lines to the end of the input and runs each of them. In front of a person, a prompt
comes before each line and its value after it. -/
partial def interact (input : IO.FS.Stream) (prompt : Bool) (t : Terminal) : IO Terminal := do
  if prompt then
    let out ← IO.getStdout
    out.putStr "> "
    out.flush
  let line ← input.getLine
  if line.isEmpty then return t
  let (printed, t) := match inputLines line with
    | l :: _ => t.runLine l prompt
    | [] => ({}, t)
  printed.print
  interact input prompt t

/-- Random numbers, of which each is made from the high bits of what the one before it was made
from. -/
def pseudoRandom (seed : Nat) : Nat → Nat
  | 0 => seed / Nat.pow 2 33
  | n + 1 => pseudoRandom ((seed * 6364136223846793005 + 1442695040888963407) % Nat.pow 2 64) n

/-- Does what an invocation asks for and gives the exit code. -/
def perform (i : Invocation) : IO Nat := do
  let log ← IO.getEnv "TERMSCRIPT_LOG"
  match Terminal.start i log Regex.engine (pseudoRandom (← IO.monoNanosNow)) with
  | .error message =>
    ({ errors := errorLine message } : Printed).print
    return 2
  | .ok t =>
    match i.script, i.file with
    | some script, _ =>
      let (printed, t) := t.runScript script true
      printed.print
      return t.exitCode
    | none, some file =>
      match ← readScript file with
      | .ok script =>
        let (printed, t) := t.runScript script false
        printed.print
        return t.exitCode
      | .error reason =>
        ({ errors := unreadable file reason } : Printed).print
        return 1
    | none, none =>
      let input ← IO.getStdin
      let t ← interact input (← input.isTty) t
      return t.exitCode

end CommandLanguage.CommandLine

/-- Runs the program. -/
def main (args : List String) : IO UInt32 := do
  match CommandLanguage.Invocation.ofArguments? args with
  | some i => return UInt32.ofNat (← CommandLanguage.CommandLine.perform i)
  | none =>
    (← IO.getStderr).putStr "error: arguments not understood\n"
    return 2
