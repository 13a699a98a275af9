import CommandLanguage.Eval.Basic
import CommandLanguage.Proofs.Expr.Shape
import CommandLanguage.Proofs.Fault.Computed
import CommandLanguage.Proofs.Value.Callables

/-!
# Reasoning about evaluation

A `Logic` is something that can be said of runs, step by step: it holds of a run that is put together
from runs of which it holds. What is said may depend on the value of a run, on the scopes in which
something is evaluated, on the expressions that are evaluated and on the functions in values.

That it holds of evaluation as a whole, for every expression and on every way that evaluation can
end, is then `Logic.evaluates_evaluate`. The proof follows the definition of evaluation, with one
lemma for each of its parts; a new logic needs none of them again, only the laws of `Logic`. There
are laws about single steps and about commands, for which there is `Command.keeps_run`, and two about
the parts of evaluation that look at the settings: writing back, and calling a function.
-/

namespace CommandLanguage

/-- What is said of runs step by step holds of the commands of the language, none of which gives a
function. Those of the program around need a law of their own, as nothing is known of what they
do. -/
theorem Command.keeps_run (Keeps : {α : Type} → (α → Prop) → Run α → Prop)
    (callable : Value → Prop) {c : Command} {args : List Value}
    (keeps_pure : ∀ {α : Type} {Q : α → Prop} {a : α}, Q a → Keeps Q (pure a))
    (keeps_bind : ∀ {α β : Type} {P : α → Prop} {R : β → Prop} {m : Run α} {f : α → Run β},
      Keeps P m → (∀ a, P a → Keeps R (f a)) → Keeps R (m >>= f))
    (keeps_fault : ∀ {α : Type} {Q : α → Prop} {f : Fault}, f.isComputed = true →
      Keeps Q (Run.fault f : Run α))
    (keeps_write : ∀ text, Keeps (fun _ => True) (Run.write text))
    (keeps_host : ∀ name, c = .host name →
      Keeps (Value.AllCallables callable) ((Command.host name).run args)) :
    Keeps (Value.AllCallables callable) (c.run args) := by
  cases c with
  | host name => exact keeps_host name rfl
  | echo | print =>
    exact keeps_bind (keeps_write _) fun _ _ => keeps_pure Value.allCallables_null
  | printf =>
    cases args with
    | nil => exact keeps_fault rfl
    | cons format args =>
      -- the text is made before anything is written, so a fault comes first
      have htext : Keeps (fun _ => True) (Run.ofExcept (formatted format.toText.toList args)) := by
        cases h : formatted format.toText.toList args with
        | ok text => exact keeps_pure trivial
        | error f => exact keeps_fault (computed_formatted _ _ f h)
      exact keeps_bind htext fun _ _ => keeps_bind (keeps_write _) fun _ _ =>
        keeps_pure Value.allCallables_null
  | len =>
    unfold Command.run
    dsimp only
    split <;> exact keeps_pure (Value.allCallables_number _)
  | typeof => exact keeps_pure (Value.allCallables_text _)
  | join =>
    cases args with
    | nil => exact keeps_fault rfl
    | cons separator items => exact keeps_pure (Value.allCallables_text _)
  | split =>
    cases args with
    | nil => exact keeps_fault rfl
    | cons text rest =>
      -- the items are texts, which hold no functions
      refine keeps_pure (Value.allCallables_list.2 fun v hv => ?_)
      obtain ⟨t, -, rfl⟩ := List.mem_map.1 hv
      exact Value.allCallables_text t

namespace Eval

/-- Something that is said of runs, with what it takes of expressions, scopes and functions. The
laws are about single steps, so that it can be said of evaluations whatever is evaluated; the lemmas
behind this put the steps together once for all logics. -/
structure Logic where
  /-- what is said of a run, whose value meets a condition -/
  Keeps {α : Type} (Q : α → Prop) (m : Run α) : Prop
  /-- of a scope in which something is evaluated -/
  scope : ScopeId → Prop
  /-- of an expression that is evaluated -/
  expr : Expr → Prop
  /-- of a function or command in a value -/
  callable : Value → Prop
  /-- to give a value -/
  keeps_pure {α : Type} {Q : α → Prop} {a : α} : Q a → Keeps Q (pure a)
  /-- one run after the other -/
  keeps_bind {α β : Type} {P : α → Prop} {R : β → Prop} {m : Run α} {f : α → Run β} :
    Keeps P m → (∀ a, P a → Keeps R (f a)) → Keeps R (m >>= f)
  /-- to end for want of fuel -/
  keeps_outOfFuel {α : Type} {Q : α → Prop} : Keeps Q (Run.outOfFuel : Run α)
  /-- to take a note -/
  keeps_note (level : Level) (text : Unit → String) : Keeps (fun _ => True) (Run.note level text)
  /-- to ask what reads expressions -/
  keeps_engine : Keeps (fun _ => True) Run.engine
  /-- to count calls -/
  keeps_calls : Keeps (fun _ => True) Run.calls
  /-- to read a name -/
  keeps_read (s : ScopeId) (name : String) :
    Keeps (fun v? => ∀ v, v? = some v → v.AllCallables callable) (Run.read s name)
  /-- to bind a name in a scope -/
  keeps_define {s : ScopeId} {v : Value} (name : String) :
    scope s → v.AllCallables callable → Keeps (fun _ => True) (Run.define s name v)
  /-- to assign to a name -/
  keeps_assign {s : ScopeId} {v : Value} (name : String) :
    scope s → v.AllCallables callable → Keeps (fun _ => True) (Run.assign s name v)
  /-- to take a binding away -/
  keeps_remove {s : ScopeId} (name : String) :
    scope s → Keeps (fun _ => True) (Run.remove s name)
  /-- to make a scope, in which something may be evaluated then -/
  keeps_extend (s : ScopeId) : Keeps scope (Run.extend s)
  /-- the parts of an expression -/
  child {e c : Expr} : expr e → c ∈ e.children → expr c
  /-- a function that is defined -/
  function {id : Nat} {name : Option String} {parameters : List Expr} {body : Expr} (s : ScopeId) :
    expr (.function id name parameters body) → callable (.function ⟨id, name, parameters, body, s⟩)
  /-- the parameters of a function that is called -/
  parameter {c : Closure} {p : Expr} : callable (.function c) → p ∈ c.parameters → expr p
  /-- the body of a function that is called -/
  body {c : Closure} : callable (.function c) → expr c.body
  /-- a command that is called -/
  keeps_command {c : Command} {args : List Value} : callable (.command c) →
    (∀ v ∈ args, v.AllCallables callable) → Keeps (Value.AllCallables callable) (c.run args)
  /-- faults of computations -/
  keeps_fault {α : Type} {Q : α → Prop} {f : Fault} : f.isComputed = true →
    Keeps Q (Run.fault f : Run α)
  /-- faults of operators between operands -/
  keeps_unknownBinary {o : Operator} {left right : Expr} : expr (.binary o left right) →
    o.isBinary = false → Keeps (Value.AllCallables callable) (Run.fault (.unknownOperator o))
  /-- faults of operators before an operand -/
  keeps_unknownUnary {o : Operator} {operand : Expr} : expr (.unary o operand) →
    o.isSign = false → Keeps (Value.AllCallables callable) (Run.fault (.unknownOperator o))
  /-- faults of parameters -/
  keeps_notAParameter {c : Closure} {p : Expr} (kind : Option String) : callable (.function c) →
    p ∈ c.parameters → Grammar.isParameter p = false →
      Keeps (fun _ => True) (Run.fault (.notAParameter kind) : Run Unit)
  /-- to store the value of an operator, if storing it keeps to the logic -/
  keeps_writeBack {ev : Evaluator} {s : ScopeId} {o : Operator} {left right : Expr} {v : Value} :
    expr (.binary o left right) →
    (∀ t, left.target? = some t → Keeps (fun _ => True) (store ev s t v.truthAsNumber)) →
      Keeps (fun _ => True) (writeBack ev s o left v)
  /-- to call a function, if binding its parameters and evaluating its body keeps to the logic -/
  keeps_callClosure {ev : Evaluator} {caller : ScopeId} {c : Closure} {args : List Value} :
    callable (.function c) → Keeps (Value.AllCallables callable) (enter ev caller c args) →
      Keeps (Value.AllCallables callable) (callClosure ev caller c args)

namespace Logic

variable {α β : Type} {L : Logic} {P Q : α → Prop} {R : β → Prop} {m : Run α}

/-! ## Rules

A property of runs that has these rules has one for each kind of expression, and so holds of every
evaluation. -/

namespace Keeps

theorem pure {a : α} (h : Q a) : L.Keeps Q (Pure.pure a) := L.keeps_pure h

/-- What is said of the value of the first run may be used for the second one. -/
theorem bind {f : α → Run β} (hm : L.Keeps P m) (hf : ∀ a, P a → L.Keeps R (f a)) :
    L.Keeps R (m >>= f) :=
  L.keeps_bind hm hf

theorem mono (hm : L.Keeps P m) (h : ∀ a, P a → Q a) : L.Keeps Q m := by
  rw [← bind_pure m]
  exact hm.bind fun a ha => .pure (h a ha)

theorem outOfFuel : L.Keeps Q (Run.outOfFuel : Run α) := L.keeps_outOfFuel

theorem note (level : Level) (text : Unit → String) :
    L.Keeps (fun _ => True) (Run.note level text) :=
  L.keeps_note level text

theorem calls : L.Keeps (fun _ => True) Run.calls := L.keeps_calls

end Keeps

variable (L)

/-- What holds of a value. -/
abbrev value (v : Value) : Prop := v.AllCallables L.callable

/-- What holds of several values. -/
abbrev values (vs : List Value) : Prop := ∀ v ∈ vs, L.value v

/-- A way to evaluate expressions that keeps to the logic. -/
def Evaluates (ev : Evaluator) : Prop :=
  ∀ e s, L.expr e → L.scope s → L.Keeps L.value (ev e s)

/-- A computation from values, with a result that needs nothing. -/
theorem keeps_ofExcept {x : Except Fault α} (h : Computed x) :
    L.Keeps (fun a => x = .ok a) (Run.ofExcept x) := by
  cases x with
  | ok a => exact .pure rfl
  | error f => exact L.keeps_fault (h f rfl)

end Logic

end Eval

end CommandLanguage
