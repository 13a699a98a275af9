import CommandLanguage.Text.Quoted
import CommandLanguage.Value.Basic

/-!
# Scopes

Where names have their values. Scopes form a tree: each but a root has a parent, in which names
are looked up that it does not bind itself.

* `Stored` — a value as a scope stores it (`detach`) and hands it out (`attach`);
* `Scopes` — all scopes there are, in a grow-only array, so that a `ScopeId` is a stable index
  and a new scope is an append;
* `owner?` — the nearest scope that binds a name;
* `get?`, `define`, `assign`, `remove` — reading and writing.

A function keeps the scope that it was defined in alive. One that is stored in that same scope must
not, or the scope would never be given up: it is stored without its hold on the scope, and has it
again when it is read.

A parent is always older than its child. Lookups rely on it: they follow a parent only if its
number is smaller.
-/

namespace CommandLanguage

/-- A value as a scope stores it. -/
inductive Stored where
  /-- a value as it is; a function holds the scope it was defined in -/
  | strong (v : Value)
  /-- a function that does not hold the scope it was defined in -/
  | weak (c : Closure)

namespace Stored

/-- How scope `s` stores a value: a function that was defined in `s` does not hold it. -/
def detach (s : ScopeId) : Value → Stored
  | .function c => if c.scope == s then .weak c else .strong (.function c)
  | v => .strong v

/-- What scope `s` hands out for what it stores: a function that does not hold a scope gets `s`. -/
def attach (s : ScopeId) : Stored → Value
  | .strong v => v
  | .weak c => .function { c with scope := s }

/-- A scope hands out what it was given. -/
@[simp] theorem attach_detach (s : ScopeId) (v : Value) : (detach s v).attach s = v := by
  cases v with
  | function c =>
    simp only [detach]
    split
    · rename_i h
      rw [attach, ← eq_of_beq h]
    · rfl
  | _ => rfl

end Stored

/-- A scope. -/
structure Scope where
  /-- the names bound directly in it -/
  stored : Dictionary Stored := []
  /-- the scope around it -/
  parent? : Option ScopeId := none

/-- All scopes. -/
abbrev Scopes := Array Scope

namespace Scopes

/-- A single root. -/
def root : Scopes := #[{}]

/-- Adds a root. -/
def addRoot (σ : Scopes) : ScopeId × Scopes := (σ.size, σ.push {})

/-- Adds a child of a scope. -/
def extend (σ : Scopes) (s : ScopeId) : ScopeId × Scopes :=
  (σ.size, σ.push { parent? := some s })

/-- What a scope stores under the names bound directly in it. -/
def stored (σ : Scopes) (s : ScopeId) : Dictionary Stored := (σ[s]?.map (·.stored)).getD []

/-- The names bound directly in a scope, with their values. -/
def bindings (σ : Scopes) (s : ScopeId) : Dictionary Value := (σ.stored s).mapValues (·.attach s)

/-- The parent of a scope. -/
def parent? (σ : Scopes) (s : ScopeId) : Option ScopeId := σ[s]?.bind (·.parent?)

/-- The nearest scope that binds a name: the given one, its parent, and so on. -/
def owner? (σ : Scopes) (name : String) (s : ScopeId) : Option ScopeId :=
  if (σ.stored s).contains name then some s
  else
    match σ.parent? s with
    | some p => if p < s then owner? σ name p else none
    | none => none
  termination_by s

/-- The value of a name in a scope. -/
def get? (σ : Scopes) (s : ScopeId) (name : String) : Option Value :=
  (σ.owner? name s).bind fun o => ((σ.stored o).get? name).map (·.attach o)

/-- Changes what a scope stores. -/
def modifyStored (σ : Scopes) (s : ScopeId) (f : Dictionary Stored → Dictionary Stored) :
    Scopes :=
  σ.modify s fun scope => { scope with stored := f scope.stored }

/-- Binds a name in the given scope. -/
def define (σ : Scopes) (s : ScopeId) (name : String) (v : Value) : Scopes :=
  σ.modifyStored s (·.insert name (.detach s v))

/-- Gives a name a value where it is bound, or in the given scope if it is not. -/
def assign (σ : Scopes) (s : ScopeId) (name : String) (v : Value) : Scopes :=
  σ.define ((σ.owner? name s).getD s) name v

/-- Takes away the nearest binding of a name; its value is the first component. -/
def remove (σ : Scopes) (s : ScopeId) (name : String) : Option Value × Scopes :=
  match σ.owner? name s with
  | some o => (((σ.stored o).get? name).map (·.attach o), σ.modifyStored o (·.erase name))
  | none => (none, σ)

/-- The names bound directly in a scope, in order of their characters. -/
def names (σ : Scopes) (s : ScopeId) : List String :=
  (σ.stored s).names.mergeSort fun a b => !(b < a)

/-- How a scope is shown in diagnostics. -/
def describe (σ : Scopes) (s : ScopeId) : String :=
  s!"Environment \x7b names: {Text.quoteList (σ.names s)}, " ++
    s!"has_parent: {(σ.parent? s).isSome} \x7d"

/-! ## What is stored and what is bound -/

@[simp] theorem contains_bindings (σ : Scopes) (s : ScopeId) (name : String) :
    (σ.bindings s).contains name = (σ.stored s).contains name :=
  Dictionary.contains_mapValues _ _ _

@[simp] theorem names_bindings (σ : Scopes) (s : ScopeId) :
    (σ.bindings s).names = (σ.stored s).names :=
  Dictionary.names_mapValues _ _

theorem get?_bindings (σ : Scopes) (s : ScopeId) (name : String) :
    (σ.bindings s).get? name = ((σ.stored s).get? name).map (·.attach s) :=
  Dictionary.get?_mapValues _ _ _

/-! ## Scopes and sizes

Nothing but `addRoot` and `extend` makes a scope, and nothing takes one away or moves it. -/

@[simp] theorem size_modifyStored (σ : Scopes) (s : ScopeId)
    (f : Dictionary Stored → Dictionary Stored) : (σ.modifyStored s f).size = σ.size := by
  simp [modifyStored]

@[simp] theorem size_define (σ : Scopes) (s : ScopeId) (name : String) (v : Value) :
    (σ.define s name v).size = σ.size := by simp [define]

@[simp] theorem size_assign (σ : Scopes) (s : ScopeId) (name : String) (v : Value) :
    (σ.assign s name v).size = σ.size := by simp [assign]

@[simp] theorem size_remove (σ : Scopes) (s : ScopeId) (name : String) :
    (σ.remove s name).2.size = σ.size := by
  simp only [remove]
  split <;> simp

end Scopes

end CommandLanguage
