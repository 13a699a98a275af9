import CommandLanguage.Eval.Variable
import CommandLanguage.Run.Command

/-!
# Functions and calls

A function is a value that remembers the scope it was defined in. A call binds its parameters in
a new child of that scope and evaluates the body there. Default values of parameters belong to
the caller: they are evaluated in the scope of the call. How many calls may lie within each other
is limited.
-/

namespace CommandLanguage.Eval

/-- Defines a function. One with a name is also bound. -/
def defineFunction (s : ScopeId) (id : Nat) (name : Option String) (parameters : List Expr)
    (body : Expr) : Run Value := do
  let f : Value := .function ⟨id, name, parameters, body, s⟩
  match name with
  | some n =>
    Run.note .debug fun _ => s!"define function name={n}"
    Run.define s n f
  | none => pure ()
  return f

/-- The value to call. A name is looked up, anything else is evaluated. -/
def callee (ev : Evaluator) (s : ScopeId) (e : Expr) : Run Value := do
  let found ← match e with
    | .variable name _ => Run.read s name
    | e => do pure (some (← ev e s))
  match found with
  | some v => if v.isCallable then return v else Run.fault (.notAFunction e.calleeName)
  | none => Run.fault (.undefinedFunction e.calleeName)

/-- The arguments that an expression gives: a word stands for its own text, and a list for its
items. -/
def argument (ev : Evaluator) (s : ScopeId) (e : Expr) : Run (List Value) :=
  match e.bareWord? with
  | some w => return [.text w]
  | none => do return (← ev e s).spread

/-- The arguments that several expressions give. -/
def arguments (ev : Evaluator) (s : ScopeId) : List Expr → Run (List Value)
  | [] => return []
  | e :: es => do
    let vs ← argument ev s e
    return vs ++ (← arguments ev s es)

/-- The value of a parameter with a default value, which takes the place of nothing. -/
def argumentOr (ev : Evaluator) (caller : ScopeId) (default : Expr) (arg : Option Value) :
    Run Value :=
  match arg with
  | none | some .null => ev default caller
  | some v => return v

/-- Binds a parameter in the scope of a call. -/
def bindParameter (ev : Evaluator) (caller s : ScopeId) (p : Expr) (arg : Option Value) :
    Run Unit :=
  match p with
  | .assign target default =>
    match target.variableName? with
    | some name => do Run.define s name (← argumentOr ev caller default arg)
    | none => Run.fault (.notAParameter none)
  | p =>
    match p.variableName? with
    | some name => Run.define s name (arg.getD .null)
    | none => Run.fault (.notAParameter (some p.kind))

/-- Binds parameters in the scope of a call. Missing arguments are nothing, and additional ones
are ignored. -/
def bindParameters (ev : Evaluator) (caller s : ScopeId) : List Expr → List Value → Run Unit
  | [], _ => return
  | p :: ps, args => do
    bindParameter ev caller s p args.head?
    bindParameters ev caller s ps args.tail

/-- Binds the parameters of a function and evaluates its body. -/
def enter (ev : Evaluator) (caller : ScopeId) (c : Closure) (args : List Value) : Run Value := do
  let depth ← Run.calls
  Run.note .trace fun _ =>
    s!"call function name={c.shownName} argc={args.length} depth={depth}"
  let s ← Run.extend c.scope
  bindParameters ev caller s c.parameters args
  ev c.body s

/-- Calls a function, unless too many calls are going on. -/
def callClosure (ev : Evaluator) (caller : ScopeId) (c : Closure) (args : List Value) :
    Run Value := do
  let limit := (← Run.settings).maxCalls
  if (← Run.calls) < limit then
    Run.andNote (Run.deeper (enter ev caller c args)) fun ok => do
      let depth ← Run.calls
      Run.note .trace fun _ => s!"leave function name={c.shownName} ok={ok} depth={depth}"
  else
    Run.note .debug fun _ => s!"call depth exceeded function={c.shownName} limit={limit}"
    Run.fault (.tooManyCalls limit)

/-- Calls a value. -/
def callValue (ev : Evaluator) (caller : ScopeId) (v : Value) (args : List Value) : Run Value :=
  match v with
  | .command c => do
    Run.note .trace fun _ => s!"call builtin name={c.name} argc={args.length}"
    c.run args
  | .function c => callClosure ev caller c args
  | v => Run.fault (.notAFunction v.typeName)

/-- A call: the callee comes before its arguments. -/
def call (ev : Evaluator) (s : ScopeId) (e : Expr) (args : List Expr) : Run Value := do
  let f ← callee ev s e
  let vs ← arguments ev s args
  callValue ev s f vs

end CommandLanguage.Eval
