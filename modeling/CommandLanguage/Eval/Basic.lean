import CommandLanguage.Eval.Call
import CommandLanguage.Eval.Loop
import CommandLanguage.Eval.Variable
import CommandLanguage.Reference.Expand
import CommandLanguage.Value.Operate

/-!
# Evaluation

The value of an expression in a scope.

* `Eval.binary` — operators between expressions;
* `Eval.step` — one level of an expression, given how to evaluate the levels below;
* `Eval.evaluateFrom` — evaluation with fuel, which every level and every round of a loop uses
  up;
* `Expr.evaluate`, `Value.call`, `Program.run` — evaluation with more fuel than can be used up.
-/

namespace CommandLanguage

namespace Eval

/-! ## Operators

`&&` and `||` leave their right operand alone if the left one decides, compound assignments and
postfix operators store their value where the left operand was read from. A setting makes every
operator do so whose left operand is a variable; truth values are then stored as numbers. -/

/-- The value of an operator, given that of its left operand. -/
def operate (ev : Evaluator) (s : ScopeId) (o : Operator) (a : Value) (right : Expr) :
    Run Value :=
  match o with
  | .both => if a.isTrue then ev right s else pure a
  | .either => if a.isTrue then pure a else ev right s
  | .increment | .decrement => Run.ofExcept (Value.binary o a .null)
  | o => do
    let b ← ev right s
    Run.ofExcept (Value.binary (o.base?.elim o .arithmetic) a b)

/-- Whether the value of an operator is stored. -/
def isStored (w : WriteBack) (o : Operator) : Bool := o.assigns || w == .allOperators

/-- Stores the value of an operator in its left operand, if that is to be done. -/
def writeBack (ev : Evaluator) (s : ScopeId) (o : Operator) (left : Expr) (v : Value) :
    Run Unit := do
  if isStored (← Run.settings).writeBack o then
    match left.target? with
    | some t => store ev s t v.truthAsNumber
    | none => if o.assigns then Run.fault (.notAssignable left.kind) else pure ()
  else pure ()

/-- An operator with two operands, or a postfix operator. -/
def binary (ev : Evaluator) (s : ScopeId) (o : Operator) (left right : Expr) : Run Value := do
  let a ← ev left s
  let v ← operate ev s o a right
  writeBack ev s o left v
  return v

/-! ## Expressions -/

/-- The value of a text. Only texts between double quotes have references. -/
def text (s : ScopeId) (t : String) (l : Literal) : Run Value :=
  match l with
  | .quoted .double => do return .text (String.ofList (← Reference.expand s t.toList))
  | _ => return .text t

/-- One level of an expression. -/
def step (ev : Evaluator) (fuel : Nat) (e : Expr) (s : ScopeId) : Run Value :=
  match e with
  | .number n => return .number n
  | .boolean b => return .boolean b
  | .null => return .null
  | .text t l => text s t l
  | .parameter raw => return .text (String.ofList (← Reference.expand s raw.toList))
  | .braces raw => do
    let words ← Reference.expandWords s raw.toList
    return .list (words.map fun w => .text (String.ofList w))
  | .variable name deref => readVariable s name deref
  | .element name _ index => readElement ev s name index
  | .array items => do return .list (← values ev s items)
  | .unary o operand => do
    let v ← ev operand s
    Run.ofExcept (Value.unary o v)
  | .binary o left right => binary ev s o left right
  | .assign target value => assign ev s target value
  | .block es => statements ev s .null es
  | .function id name parameters body => defineFunction s id name parameters body
  | .call e args => call ev s e args
  | .ifThen c y => branch ev s c y none
  | .ifThenElse c y n => branch ev s c y (some n)
  | .for init condition step body => countedLoop ev fuel s init condition step body
  | .forIn name range body => itemLoop ev s name range body
  | .while condition body => whileLoop ev fuel s condition body

/-- The value of an expression, if fuel suffices for its depth and for the rounds of its loops. -/
def evaluateFrom : Nat → Evaluator
  | 0 => fun _ _ => Run.outOfFuel
  | fuel + 1 => step (evaluateFrom fuel) fuel

/-- More levels and rounds than any computer can go through. -/
def enough : Nat := Nat.pow 2 60

end Eval

/-- The value of an expression. -/
def Expr.evaluate : Evaluator := Eval.evaluateFrom Eval.enough

/-- The value of a call from a scope. -/
def Value.call (v : Value) (args : List Value) (caller : ScopeId) : Run Value :=
  Eval.callValue Expr.evaluate caller v args

namespace Program

/-- Runs the statements of a script in order; the value is that of the last one. -/
def runFrom (ev : Evaluator) (s : ScopeId) : Value → List Expr → Run Value
  | last, [] => return last
  | _, e :: es => do
    Run.note .debug fun _ => s!"statement kind={e.kind}"
    let v ← ev e s
    runFrom ev s v es

/-- Runs a script in a scope. -/
def run (program : List Expr) (s : ScopeId) : Run Value :=
  runFrom Expr.evaluate s .null program

end Program

end CommandLanguage
