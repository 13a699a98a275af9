import CommandLanguage.Proofs.Scope.Names
import CommandLanguage.Proofs.Value.Callables

/-!
# Functions and commands in scopes

`Scopes.AllCallables p` says that every function and every command that is bound in a scope, at any
depth of a value, has the property `p`. Scopes only hold what is bound in them, so that this is kept
if the values that are bound have the property.
-/

namespace CommandLanguage.Scopes

/-- Scopes in which every function and every command has the property `p`, in whichever scope it is
bound, and however deep it lies in a value. -/
def AllCallables (p : Value → Prop) (σ : Scopes) : Prop :=
  ∀ s, ∀ e ∈ σ.bindings s, e.2.AllCallables p

namespace AllCallables

variable {p : Value → Prop} {σ : Scopes} {s : ScopeId} {name : String} {v : Value}

theorem root : Scopes.root.AllCallables p := by
  intro s e he
  have hnone : Scopes.root.bindings s = [] := by
    cases s <;> rfl
  rw [hnone] at he
  cases he

theorem get (h : σ.AllCallables p) (hv : σ.get? s name = some v) : v.AllCallables p := by
  obtain ⟨o, ho⟩ := exists_mem_of_get? hv
  exact h o _ ho

theorem define (s : ScopeId) (name : String) (h : σ.AllCallables p) (hv : v.AllCallables p) :
    (σ.define s name v).AllCallables p := by
  intro t e he
  rcases mem_bindings_define he with rfl | he
  · exact hv
  · exact h t e he

theorem remove (s : ScopeId) (name : String) (h : σ.AllCallables p) :
    (σ.remove s name).2.AllCallables p :=
  fun t e he => h t e (mem_bindings_remove he)

theorem extend (s : ScopeId) (h : σ.AllCallables p) : (σ.extend s).2.AllCallables p :=
  fun t e he => h t e (mem_bindings_extend he)

end AllCallables

end CommandLanguage.Scopes
