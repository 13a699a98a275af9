import CommandLanguage.Regex.Parse
import CommandLanguage.Scope.Basic

/-!
# Runs

What evaluation reads, changes and ends in.

* `Settings` — what stays the same during a run;
* `World` — what a run changes: scopes, output, notes, the number of calls going on;
* `Outcome` — a value, a fault, or an end for want of fuel;
* `Run` — a computation from settings and a world to an outcome and a world. A fault undoes
  nothing: the world that comes with it is the one at the time of the fault.

The steps that evaluation is made of follow in the last section.
-/

namespace CommandLanguage

/-- How important a note is. -/
inductive Level where
  /-- a fault -/
  | error
  /-- a warning -/
  | warn
  /-- what is of interest to a user -/
  | info
  /-- what statements and definitions do -/
  | debug
  /-- what every expansion and call does -/
  | trace
  deriving DecidableEq, Repr

namespace Level

/-- The place of a level, the most important first. -/
def rank : Level → Nat
  | .error => 1
  | .warn => 2
  | .info => 3
  | .debug => 4
  | .trace => 5

/-- The name of a level. -/
def name : Level → String
  | .error => "ERROR"
  | .warn => "WARN"
  | .info => "INFO"
  | .debug => "DEBUG"
  | .trace => "TRACE"

/-- All levels. -/
def all : List Level := [.error, .warn, .info, .debug, .trace]

end Level

/-- Which operators write their value back to a variable on their left. -/
inductive WriteBack where
  /-- compound assignments, `++` and `--` -/
  | assignments
  /-- every operator with two operands -/
  | allOperators
  deriving DecidableEq, Repr

/-- What stays the same during a run. -/
structure Settings where
  /-- how many calls may lie within each other -/
  maxCalls : Nat := 200
  /-- which operators write back -/
  writeBack : WriteBack := .assignments
  /-- the least important level of which notes are taken, if any -/
  noteLevel : Option Level := none
  /-- the commands of the program around -/
  host : String → List Value → Except Fault Value := fun name _ => .error (.undefinedFunction name)
  /-- what reads regular expressions -/
  engine : Engine := Regex.engine

/-- A note on what a run does. -/
structure Note where
  /-- how important it is -/
  level : Level
  /-- what it says -/
  text : String
  deriving DecidableEq, Repr

/-- What a run changes. -/
structure World where
  /-- all scopes -/
  scopes : Scopes := .root
  /-- the output that is not yet taken -/
  output : String := ""
  /-- the notes that are not yet taken, the latest first -/
  notes : List Note := []
  /-- the number of calls going on -/
  calls : Nat := 0
  /-- the numbers that are still to be drawn at random -/
  draws : Nat → Nat := fun _ => 0

/-- How a computation ends. -/
inductive Outcome (α : Type) where
  /-- with a value -/
  | value (a : α)
  /-- with a fault -/
  | fault (f : Fault)
  /-- for want of fuel -/
  | outOfFuel

/-- A computation that may change the world. -/
def Run (α : Type) : Type := Settings → World → Outcome α × World

namespace Run

variable {α β : Type}

/-- Gives a value and changes nothing. -/
@[always_inline, inline]
protected def pure (a : α) : Run α := fun _ w => (.value a, w)

/-- Goes on with the value of a computation, if it has one. -/
@[always_inline, inline]
protected def bind (m : Run α) (f : α → Run β) : Run β := fun c w =>
  match m c w with
  | (.value a, w) => f a c w
  | (.fault e, w) => (.fault e, w)
  | (.outOfFuel, w) => (.outOfFuel, w)

@[always_inline]
instance : Monad Run where
  pure := Run.pure
  bind := Run.bind

theorem pure_def (a : α) : (pure a : Run α) = fun _ w => (.value a, w) := rfl

theorem bind_def (m : Run α) (f : α → Run β) : m >>= f = Run.bind m f := rfl

/-- The three laws of a monad. -/
instance : LawfulMonad Run := LawfulMonad.mk' _
  (fun m => by
    funext c w
    change Run.bind m Run.pure c w = m c w
    simp only [Run.bind, Run.pure]
    rcases m c w with ⟨_ | _ | _, _⟩ <;> rfl)
  (fun _ _ => rfl)
  (fun m f g => by
    funext c w
    simp only [bind_def, Run.bind]
    rcases m c w with ⟨_ | _ | _, _⟩ <;> rfl)

/-! ## Steps -/

/-- Ends with a fault. -/
def fault (f : Fault) : Run α := fun _ w => (.fault f, w)

/-- Ends for want of fuel. -/
def outOfFuel : Run α := fun _ w => (.outOfFuel, w)

/-- A computation that leaves the world alone. -/
def ofExcept : Except Fault α → Run α
  | .ok a => pure a
  | .error f => fault f

/-- The settings. -/
def settings : Run Settings := fun c w => (.value c, w)

/-- What reads regular expressions. -/
def engine : Run Engine := return (← settings).engine

/-- The scopes. -/
def scopes : Run Scopes := fun _ w => (.value w.scopes, w)

/-- Changes the scopes. -/
def modifyScopes (f : Scopes → Scopes) : Run Unit := fun _ w =>
  (.value (), { w with scopes := f w.scopes })

/-- Appends to the output. -/
def write (s : String) : Run Unit := fun _ w => (.value (), { w with output := w.output ++ s })

/-- Takes a note, if notes of this level are wanted. -/
def note (level : Level) (text : Unit → String) : Run Unit := fun c w =>
  if c.noteLevel.any (level.rank ≤ ·.rank) then
    (.value (), { w with notes := ⟨level, text ()⟩ :: w.notes })
  else (.value (), w)

/-- The name that has another value each time it is read, unless it is bound. -/
def randomName : String := "RANDOM"

/-- The random number that the first of several draws comes to: it lies below 2 ^ 15. -/
def draw (draws : Nat → Nat) : Value := .number (Float.ofNat (draws 0 % Nat.pow 2 15))

/-- Draws a random number. -/
def random : Run Value := fun _ w =>
  (.value (draw w.draws), { w with draws := fun n => w.draws (n + 1) })

/-- Reads a name. -/
def read (s : ScopeId) (name : String) : Run (Option Value) := do
  match (← scopes).get? s name with
  | some v => return some v
  | none => if name == randomName then return some (← random) else return none

/-- Binds a name in a scope. -/
def define (s : ScopeId) (name : String) (v : Value) : Run Unit := modifyScopes (·.define s name v)

/-- Gives a name a value where it is bound. -/
def assign (s : ScopeId) (name : String) (v : Value) : Run Unit := modifyScopes (·.assign s name v)

/-- Takes away the nearest binding of a name. -/
def remove (s : ScopeId) (name : String) : Run Unit := modifyScopes fun σ => (σ.remove s name).2

/-- Makes a child of a scope. -/
def extend (s : ScopeId) : Run ScopeId := fun _ w =>
  let (t, σ) := w.scopes.extend s
  (.value t, { w with scopes := σ })

/-- The number of calls going on. -/
def calls : Run Nat := fun _ w => (.value w.calls, w)

/-- Runs one call deeper. -/
def deeper (m : Run α) : Run α := fun c w =>
  let (o, w) := m c { w with calls := w.calls + 1 }
  (o, { w with calls := w.calls - 1 })

/-- Runs, and then lets something else run that is told whether a value came out. -/
def andNote (m : Run α) (after : Bool → Run Unit) : Run α := fun c w =>
  match m c w with
  | (.value a, w) => (.value a, (after true c w).2)
  | (.fault f, w) => (.fault f, (after false c w).2)
  | (.outOfFuel, w) => (.outOfFuel, w)

end Run

end CommandLanguage
