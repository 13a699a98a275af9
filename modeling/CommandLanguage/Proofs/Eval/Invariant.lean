import CommandLanguage.Proofs.Eval.Preservation
import CommandLanguage.Proofs.Run.Ensures

/-!
# Invariants of evaluation

An `Invariant` is a property of the scopes, together with what it takes of expressions, values and
faults, that single steps keep: writing to a scope, making one, going from an expression to a part
of it, calling a function. `Invariant.logic` is the logic of runs that keep it, whatever the
settings, so evaluation as a whole keeps it, on every way that it can end.
-/

namespace CommandLanguage.Eval

/-- A property of the scopes that every step of evaluation keeps. Its fields are all that has to be
shown of it: the steps that write to scopes or make some, and what is known of the things that are
evaluated, passed and called on the way. -/
structure Invariant where
  /-- of all scopes, at every time -/
  scopes : Scopes → Prop
  /-- of a scope in which something is evaluated -/
  scope : ScopeId → Prop
  /-- of an expression that is evaluated -/
  expr : Expr → Prop
  /-- of a function or command in a value -/
  callable : Value → Prop
  /-- of a fault -/
  fault : Fault → Prop
  /-- what is read -/
  get {σ : Scopes} {s : ScopeId} {name : String} {v : Value} :
    scopes σ → σ.get? s name = some v → v.AllCallables callable
  /-- binding a name in a scope -/
  define {σ : Scopes} {s : ScopeId} {v : Value} (name : String) :
    scopes σ → scope s → v.AllCallables callable → scopes (σ.define s name v)
  /-- assigning to a name -/
  assign {σ : Scopes} {s : ScopeId} {v : Value} (name : String) :
    scopes σ → scope s → v.AllCallables callable → scopes (σ.assign s name v)
  /-- taking a binding away -/
  remove {σ : Scopes} {s : ScopeId} (name : String) :
    scopes σ → scope s → scopes (σ.remove s name).2
  /-- making a scope -/
  extend {σ : Scopes} (s : ScopeId) :
    scopes σ → scope (σ.extend s).1 ∧ scopes (σ.extend s).2
  /-- the parts of an expression -/
  child {e c : Expr} : expr e → c ∈ e.children → expr c
  /-- a function that is defined -/
  function {id : Nat} {name : Option String} {parameters : List Expr} {body : Expr} (s : ScopeId) :
    expr (.function id name parameters body) → callable (.function ⟨id, name, parameters, body, s⟩)
  /-- the parameters of a function that is called -/
  parameter {c : Closure} {p : Expr} : callable (.function c) → p ∈ c.parameters → expr p
  /-- the body of a function that is called -/
  body {c : Closure} : callable (.function c) → expr c.body
  /-- the commands of the program around -/
  host {name : String} : callable (.command (.host name)) → ∀ (c : Settings) (args : List Value),
    (∀ v, c.host name args = .ok v → v.AllCallables callable) ∧
      ∀ f, c.host name args = .error f → fault f
  /-- faults of computations -/
  computed {f : Fault} : f.isAboutShape = false → fault f
  /-- faults of operators between operands -/
  unknownBinary {o : Operator} {left right : Expr} :
    expr (.binary o left right) → o.isBinary = false → fault (.unknownOperator o)
  /-- faults of operators before an operand -/
  unknownUnary {o : Operator} {operand : Expr} :
    expr (.unary o operand) → o.isSign = false → fault (.unknownOperator o)
  /-- faults of parameters -/
  notAParameter {c : Closure} {p : Expr} (kind : Option String) :
    callable (.function c) → p ∈ c.parameters → Grammar.isParameter p = false →
      fault (.notAParameter kind)

namespace Invariant

/-- An invariant of the scopes alone, whatever the expressions and values. Nothing has to be known
of what is evaluated then, nor of the faults that may come up. -/
def ofScopes (scopes : Scopes → Prop) (scope : ScopeId → Prop)
    (define : ∀ {σ s} name v, scopes σ → scope s → scopes (σ.define s name v))
    (assign : ∀ {σ s} name v, scopes σ → scope s → scopes (σ.assign s name v))
    (remove : ∀ {σ s} name, scopes σ → scope s → scopes (σ.remove s name).2)
    (extend : ∀ {σ} s, scopes σ → scope (σ.extend s).1 ∧ scopes (σ.extend s).2) : Invariant where
  scopes := scopes
  scope := scope
  expr _ := True
  callable _ := True
  fault _ := True
  get _ _ := fun _ _ => trivial
  define name h hs _ := define name _ h hs
  assign name h hs _ := assign name _ h hs
  remove := remove
  extend := extend
  child _ _ := trivial
  function _ _ := trivial
  parameter _ _ := trivial
  body _ := trivial
  host _ _ _ := ⟨fun _ _ _ _ => trivial, fun _ _ => trivial⟩
  computed _ := trivial
  unknownBinary _ _ := trivial
  unknownUnary _ _ := trivial
  notAParameter _ _ _ _ := trivial

variable {α : Type} (inv : Invariant)

/-- What holds of a value. -/
abbrev value (v : Value) : Prop := v.AllCallables inv.callable

/-- What holds of several values. -/
abbrev values (vs : List Value) : Prop := ∀ v ∈ vs, inv.value v

/-- A run that keeps the invariant and whose value meets `Q`. -/
abbrev Keeps (Q : α → Prop) (m : Run α) : Prop := Run.Keeps inv.scopes inv.fault Q m

/-- A way to evaluate expressions that keeps the invariant. The parts of evaluation are given one
for the expressions further down, and so the induction on the fuel is made only once. -/
def Evaluates (ev : Evaluator) : Prop :=
  ∀ e s, inv.expr e → inv.scope s → inv.Keeps inv.value (ev e s)

/-! ## The logic of runs that keep it -/

theorem keeps_read (s : ScopeId) (name : String) :
    inv.Keeps (fun v? => ∀ v, v? = some v → inv.value v) (Run.read s name) :=
  Run.Keeps.read (fun _ _ hσ hv => inv.get hσ hv) Value.allCallables_number

/-- A scope that is made may be evaluated in. -/
theorem keeps_extend (s : ScopeId) : inv.Keeps inv.scope (Run.extend s) := by
  intro c w hw
  obtain ⟨hs, hσ⟩ := inv.extend s hw
  exact ⟨hσ, hs⟩

theorem keeps_command {c : Command} (args : List Value) (hc : inv.callable (.command c)) :
    inv.Keeps inv.value (c.run args) := by
  refine Command.keeps_run inv.Keeps inv.callable .pure .bind
    (fun h => .fault (inv.computed (Fault.isAboutShape_of_isComputed h))) Run.Keeps.write
    fun name hname => ?_
  refine .bind .settings fun c' _ => ?_
  rw [hname] at hc
  obtain ⟨hv, hf⟩ := inv.host hc c' args
  exact .ofExcept hv hf

theorem keeps_writeBack {ev : Evaluator} {s : ScopeId} {o : Operator} {left : Expr} {v : Value}
    (hstore : ∀ t, left.target? = some t →
      inv.Keeps (fun _ => True) (store ev s t v.truthAsNumber)) :
    inv.Keeps (fun _ => True) (writeBack ev s o left v) := by
  refine .bind .settings fun c _ => ?_
  split
  · split
    · rename_i t ht
      exact hstore t ht
    · split
      · exact .fault (inv.computed rfl)
      · exact .pure trivial
  · exact .pure trivial

theorem keeps_callClosure {ev : Evaluator} {caller : ScopeId} {c : Closure} {args : List Value}
    (henter : inv.Keeps inv.value (enter ev caller c args)) :
    inv.Keeps inv.value (callClosure ev caller c args) := by
  refine .bind .settings fun settings _ => .bind .calls fun depth _ => ?_
  split
  · refine Run.Keeps.andNote (Run.Keeps.deeper henter) fun ok => ?_
    exact .bind .calls fun _ _ => Run.Keeps.note _ _
  · exact .bind (Run.Keeps.note _ _) fun _ _ => .fault (inv.computed rfl)

/-- Runs that keep the invariant. -/
def logic : Logic where
  Keeps := inv.Keeps
  scope := inv.scope
  expr := inv.expr
  callable := inv.callable
  keeps_pure h := .pure h
  keeps_bind hm hf := .bind hm hf
  keeps_outOfFuel := .outOfFuel
  keeps_note := Run.Keeps.note
  keeps_engine := .engine
  keeps_calls := .calls
  keeps_read := inv.keeps_read
  keeps_define name hs hv := Run.Keeps.modifyScopes fun _ hσ => inv.define name hσ hs hv
  keeps_assign name hs hv := Run.Keeps.modifyScopes fun _ hσ => inv.assign name hσ hs hv
  keeps_remove name hs := Run.Keeps.modifyScopes fun _ hσ => inv.remove name hσ hs
  keeps_extend := inv.keeps_extend
  child := inv.child
  function := inv.function
  parameter := inv.parameter
  body := inv.body
  keeps_command hc _ := inv.keeps_command _ hc
  keeps_fault h := .fault (inv.computed (Fault.isAboutShape_of_isComputed h))
  keeps_unknownBinary he ho := .fault (inv.unknownBinary he ho)
  keeps_unknownUnary he ho := .fault (inv.unknownUnary he ho)
  keeps_notAParameter kind hc hp hno := .fault (inv.notAParameter kind hc hp hno)
  keeps_writeBack _ hstore := inv.keeps_writeBack hstore
  keeps_callClosure _ henter := inv.keeps_callClosure henter

/-! ## Whole runs -/

/-- Evaluation keeps the invariant, however much fuel there is. -/
theorem evaluates_evaluateFrom (fuel : Nat) : inv.Evaluates (evaluateFrom fuel) :=
  inv.logic.evaluates_evaluateFrom fuel

theorem evaluates_evaluate : inv.Evaluates Expr.evaluate := inv.evaluates_evaluateFrom enough

/-- A call from a scope keeps the invariant, whatever is called and however deep it goes. -/
theorem keeps_valueCall {v : Value} (hv : inv.value v) {args : List Value} (ha : inv.values args)
    {caller : ScopeId} (hcaller : inv.scope caller) :
    inv.Keeps inv.value (v.call args caller) :=
  inv.logic.keeps_valueCall hv ha hcaller

/-- A script keeps the invariant, and with it the next one can be run. -/
theorem keeps_program {s : ScopeId} (hs : inv.scope s) {es : List Expr}
    (he : ∀ e ∈ es, inv.expr e) : inv.Keeps inv.value (Program.run es s) :=
  inv.logic.keeps_program hs he

end Invariant

end CommandLanguage.Eval
