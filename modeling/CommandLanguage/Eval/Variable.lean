import CommandLanguage.Run.Basic
import CommandLanguage.Value.Element

/-!
# Variables

Reading variables and their elements, and assigning to them. An index is an expression of its
own; everything here is given an `Evaluator` for those.
-/

namespace CommandLanguage

/-- A way to evaluate an expression in a scope. -/
abbrev Evaluator := Expr → ScopeId → Run Value

/-- What can be assigned to. -/
inductive Target where
  /-- a variable -/
  | whole (name : String)
  /-- an element of a variable -/
  | element (name : String) (index : Expr)

/-- The target that an expression stands for. -/
def Expr.target? : Expr → Option Target
  | .variable n _ => some (.whole n)
  | .element n _ i => some (.element n i)
  | _ => none

namespace Eval

/-- The value of a variable. One without a value is nothing if it is written with a `$`, and the
text of its own name otherwise. -/
def readVariable (s : ScopeId) (name : String) (deref : Bool) : Run Value := do
  return (← Run.read s name).getD (if deref then .null else .text name)

/-- The value of an element. The variable is read before its index is evaluated. -/
def readElement (ev : Evaluator) (s : ScopeId) (name : String) (index : Expr) : Run Value := do
  let base ← Run.read s name
  let key ← ev index s
  Run.ofExcept (Value.element name (base.getD .null) key)

/-- Stores a value. To store nothing in a variable takes its binding away. -/
def store (ev : Evaluator) (s : ScopeId) (t : Target) (v : Value) : Run Unit :=
  match t with
  | .whole name => if v.isNull then Run.remove s name else Run.assign s name v
  | .element name index => do
    let key ← ev index s
    let base ← Run.read s name
    Run.assign s name ((base.getD .null).setElement key v)

/-- An assignment. -/
def assign (ev : Evaluator) (s : ScopeId) (target value : Expr) : Run Value :=
  match target.target? with
  | none => Run.fault (.notAssignable target.kind)
  | some t => do
    let v ← ev value s
    store ev s t v
    return v

end Eval

end CommandLanguage
