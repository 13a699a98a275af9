import CommandLanguage.Proofs.Eval.Fuel
import CommandLanguage.Proofs.Eval.WriteBack
import CommandLanguage.Proofs.Expr.Shape
import CommandLanguage.Proofs.Reference.Escape

/-!
# Expressions that only look at variables

An expression of literals, variables, elements and operators that store nothing changes nothing, and
what it ends with depends on the variables in it alone. So it ends alike in all worlds in which these
have the same values, whatever else has changed (`Expr.Ends.of_looks`).

Texts between double quotes count if there is no reference in them, and a variable does not count if
it may stand for a random number.
-/

namespace CommandLanguage

/-- Whether a node, apart from its parts, only looks at variables, and at none but those with the
given names. The operators that store are those of a way of writing back. Calls are left out
altogether, as a function may do anything. -/
def Expr.LooksAt (way : WriteBack) (names : List String) : Expr → Prop
  | .number _ | .boolean _ | .null | .array _ | .unary _ _ => True
  | .text t l => l = .quoted .double → Reference.openDollars t.toList = 0
  | .variable n _ | .element n _ _ => n ∈ names ∧ n ≠ Run.randomName
  | .binary o left _ => o.assigns = false ∧ (way = .allOperators → left.target? = none)
  | _ => False

/-- Whether names have the same values in a scope, in two worlds. -/
def World.AgreesOn (s : ScopeId) (names : List String) (w w' : World) : Prop :=
  ∀ n ∈ names, w'.scopes.get? s n = w.scopes.get? s n

namespace Run

variable {α β : Type} {c : Settings} {s : ScopeId} {names : List String} {m : Run α}

/-- A run that changes nothing, and that ends alike in worlds that agree on `names` in `s`. It may
end with a fault, or for want of fuel, as long as it does so in all of these worlds. -/
def Looks (c : Settings) (s : ScopeId) (names : List String) (m : Run α) : Prop :=
  ∀ w w', w.AgreesOn s names w' → ∃ o, m c w = (o, w) ∧ m c w' = (o, w')

namespace Looks

theorem pure (a : α) : Looks c s names (Pure.pure a) := fun _ _ _ => ⟨_, rfl, rfl⟩

theorem outOfFuel : Looks c s names (Run.outOfFuel : Run α) := fun _ _ _ => ⟨_, rfl, rfl⟩

theorem ofExcept (x : Except Fault α) : Looks c s names (Run.ofExcept x) := by
  cases x with
  | ok a => exact pure a
  | error f => exact fun _ _ _ => ⟨_, rfl, rfl⟩

theorem bind {f : α → Run β} (hm : Looks c s names m) (hf : ∀ a, Looks c s names (f a)) :
    Looks c s names (m >>= f) := by
  intro w w' h
  obtain ⟨a | e | _, hw, hw'⟩ := hm w w' h
  · rw [bind_apply hw, bind_apply hw']
    exact hf a w w' h
  · exact ⟨_, bind_fault_apply hw, bind_fault_apply hw'⟩
  · exact ⟨_, bind_outOfFuel_apply hw, bind_outOfFuel_apply hw'⟩

theorem read {n : String} (h : n ∈ names ∧ n ≠ randomName) :
    Looks c s names (Run.read s n) := by
  intro w w' hw
  exact ⟨_, read_of_ne h.2, by rw [read_of_ne h.2, hw n h.1]⟩

end Looks

end Run

namespace Eval

open Run (Looks)

variable {c : Settings} {s : ScopeId} {names : List String} {ev : Evaluator}

theorem looks_values {es : List Expr} (h : ∀ e ∈ es, Looks c s names (ev e s)) :
    Looks c s names (Eval.values ev s es) := by
  induction es with
  | nil => exact .pure []
  | cons e es ih =>
    obtain ⟨he, hes⟩ := List.forall_mem_cons.1 h
    exact .bind he fun _ => .bind (ih hes) fun _ => .pure _

theorem looks_operate {o : Operator} {a : Value} {right : Expr}
    (h : Looks c s names (ev right s)) : Looks c s names (operate ev s o a right) := by
  simp only [operate]
  -- `&&` and `||`, postfix operators, and those that need both operands
  split
  · split
    · exact h
    · exact .pure a
  · split
    · exact .pure a
    · exact h
  · exact .ofExcept _
  · exact .ofExcept _
  · exact .bind h fun b => .ofExcept _

/-- An operator stores nothing if it is not for that, and the settings do not have it store in a
variable on its left. -/
theorem looks_writeBack {o : Operator} {left : Expr} {v : Value} (ho : o.assigns = false)
    (hleft : c.writeBack = .allOperators → left.target? = none) :
    Looks c s names (writeBack ev s o left v) := by
  intro w w' _
  have hnothing (w : World) : writeBack ev s o left v c w = (.value (), w) := by
    cases hway : c.writeBack with
    | assignments =>
      have hstored : ¬isStored c.writeBack o = true := by
        rw [isStored, ho, hway]
        exact Bool.false_ne_true
      rw [writeBack, Run.bind_apply rfl, if_neg hstored]
      rfl
    | allOperators =>
      rw [writeBack_of_target?_eq_none (hleft hway) ho]
      rfl
  exact ⟨_, hnothing w, hnothing w'⟩

/-- One step of an evaluation only looks at variables if its parts do: one case for each kind of
node that may occur. -/
theorem looks_step {fuel : Nat} {e : Expr} (he : e.LooksAt c.writeBack names)
    (hparts : ∀ p ∈ e.children, Looks c s names (ev p s)) :
    Looks c s names (step ev fuel e s) := by
  cases e with
  | number | boolean | null => exact .pure _
  | text t l =>
    simp only [step, text]
    split
    · -- a text in double quotes has nothing to expand
      rw [Reference.expand_of_openDollars (he rfl), pure_bind]
      exact .pure _
    · exact .pure _
  | «variable» n d => exact .bind (.read he) fun _ => .pure _
  | element n d index =>
    have hindex := hparts index List.mem_cons_self
    exact .bind (.read he) fun _ => .bind hindex fun _ => .ofExcept _
  | array items => exact .bind (looks_values hparts) fun _ => .pure _
  | unary o operand => exact .bind (hparts operand List.mem_cons_self) fun _ => .ofExcept _
  | binary o left right =>
    have hleft := hparts left List.mem_cons_self
    have hright := hparts right (List.mem_cons_of_mem _ List.mem_cons_self)
    refine .bind hleft fun a => .bind (looks_operate hright) fun v => ?_
    exact .bind (looks_writeBack he.1 he.2) fun _ => .pure v
  | _ => cases he

/-- So does an evaluation with any fuel, by induction on the fuel. -/
theorem looks_evaluateFrom (fuel : Nat) {e : Expr}
    (he : e.Everywhere (Expr.LooksAt c.writeBack names)) :
    Looks c s names (evaluateFrom fuel e s) := by
  induction fuel generalizing e with
  | zero => exact .outOfFuel
  | succ fuel ih => exact looks_step he.self fun p hp => ih (he.child hp)

end Eval

/-- An expression that only looks at variables changes nothing, and ends alike in all worlds in which
these have the same values. -/
theorem Expr.Ends.of_looks {e : Expr} {s : ScopeId} {c : Settings} {w w' w₁ : World}
    {o : Outcome Value} {names : List String} (h : e.Ends s c w o w₁)
    (he : e.Everywhere (Expr.LooksAt c.writeBack names)) (hw : w.AgreesOn s names w') :
    w₁ = w ∧ e.Ends s c w' o w' := by
  obtain ⟨hend, fuel, hrun⟩ := h
  obtain ⟨o', hsame, hother⟩ := Eval.looks_evaluateFrom fuel he w w' hw
  obtain ⟨rfl, rfl⟩ := Prod.mk.inj (hrun.symm.trans hsame)
  exact ⟨rfl, hend, fuel, hother⟩

end CommandLanguage
