import CommandLanguage.Proofs.Eval.Fuel
import CommandLanguage.Proofs.Scope.Chain

/-!
# Compound assignments to variables

`x += e` stores what `x = x + e` does, but it is another way through evaluation: the operator stores
its own value, with truth values as numbers, while an assignment stores the value of an operator that,
with one of the settings, has stored it before. What comes of arithmetic is a number or a fault, so
that the first makes no difference (`writeBack_number`); and of two assignments in a row the second
stays, so that neither does the other (`Scopes.assign_assign`).
-/

namespace CommandLanguage

/-- What arithmetic computes is a number. -/
theorem Value.exists_number_of_arithmetic {a : Arithmetic} {x y v : Value}
    (h : arithmetic a x y = .ok v) : ∃ n, v = .number n := by
  rcases arithmetic_cases a x y with ⟨n, hn⟩ | hn | hn <;> rw [hn] at h <;> cases h
  exact ⟨n, rfl⟩

namespace Eval

variable {ev ev' : Evaluator} {s : ScopeId} {x : String} {d : Bool} {o : Operator} {a : Arithmetic}
  {e rest : Expr} {c : Settings} {w w' : World} {l v : Value}

theorem eq_of_ofExcept {y : Except Fault Value} (h : Run.ofExcept y c w = (.value v, w')) :
    w' = w ∧ y = .ok v := by
  cases y with
  | ok a =>
    cases h
    exact ⟨rfl, rfl⟩
  | error f => cases h

theorem exists_number_of_operate (h : operate ev s (.arithmetic a) l e c w = (.value v, w')) :
    ∃ n, v = .number n := by
  obtain ⟨b, w₁, -, hb⟩ := Run.exists_of_bind h
  exact Value.exists_number_of_arithmetic (eq_of_ofExcept hb).2

/-- What an operator that assigns computes is stored whatever the setting, since the setting is
about the operators that do not. -/
theorem isStored_of_assigns (ho : o.assigns = true) (way : WriteBack) : isStored way o = true := by
  rw [isStored, ho, Bool.true_or]

/-- A number is written back to a variable as it is, if it is at all. -/
theorem writeBack_number (ev : Evaluator) (s : ScopeId) (o : Operator) (x : String) (d : Bool)
    (n : Float) (c : Settings) (w : World) :
    writeBack ev s o (.variable x d) (.number n) c w =
      (if isStored c.writeBack o then Run.assign s x (.number n) else pure ()) c w := by
  rw [writeBack, Run.bind_apply rfl]
  rfl

/-- To assign a number to a variable, it does not matter if it was written back there before. The
name is then found in the same scope, and the second number takes the place of the first. -/
theorem writeBack_assign_number (ev : Evaluator) (s : ScopeId) (o : Operator) (x : String)
    (d : Bool) (n : Float) :
    (do writeBack ev s o (.variable x d) (.number n); Run.assign s x (.number n)) =
      Run.assign s x (.number n) := by
  funext c w
  have hback := writeBack_number ev s o x d n c w
  cases h : isStored c.writeBack o with
  | true =>
    rw [h, if_pos rfl] at hback
    rw [Run.bind_apply hback]
    simp only [Run.assign, Run.modifyScopes, Scopes.assign_assign]
  | false =>
    rw [h, if_neg Bool.false_ne_true] at hback
    rw [Run.bind_apply hback]

/-- An operator that assigns does to a variable what an assignment of an arithmetic operator does
that computes the same. The variable is read once in both, before the right side is evaluated. -/
theorem binary_variable_eq (ev' : Evaluator) (x : String) (d : Bool) (ho : o.assigns = true)
    (hoperate : ∀ l, operate ev s (.arithmetic a) l e = operate ev s o l rest) :
    (do let v ← binary ev s (.arithmetic a) (.variable x d) e
        store ev' s (.whole x) v
        return v) = binary ev s o (.variable x d) rest := by
  funext c w
  simp only [binary, bind_assoc, pure_bind]
  refine Run.bind_congr rfl fun l w₁ _ => ?_
  rw [← hoperate l]
  refine Run.bind_congr rfl fun v w₂ hv => ?_
  obtain ⟨n, rfl⟩ := exists_number_of_operate hv
  rw [← bind_assoc]
  refine Run.bind_congr ?_ fun _ _ _ => rfl
  calc (do writeBack ev s (.arithmetic a) (.variable x d) (.number n)
           store ev' s (.whole x) (.number n)) c w₂
      = Run.assign s x (.number n) c w₂ :=
        congrFun (congrFun (writeBack_assign_number ev s (.arithmetic a) x d n) c) w₂
    _ = writeBack ev s o (.variable x d) (.number n) c w₂ := by
        rw [writeBack_number, if_pos (isStored_of_assigns ho _)]

end Eval

namespace Expr

open Eval

/-- An operator that assigns has the ends of an assignment of an arithmetic operator that computes
the same from the value of the variable. The assignment is one level higher, so it is evaluated with
one more unit of fuel, and ends do not depend on how much of it there is. -/
theorem sameEnds_of_operate {o : Operator} {a : Arithmetic} {right rest : Expr}
    (ho : o.assigns = true)
    (hoperate : ∀ fuel s l, operate (evaluateFrom (fuel + 1)) s (.arithmetic a) l right =
      operate (evaluateFrom (fuel + 1)) s o l rest) (x : String) (d : Bool) :
    (binary o (.variable x d) rest).SameEnds
      (assign (.variable x d) (binary (.arithmetic a) (.variable x d) right)) := by
  refine sameEnds_of_succ fun n s => ?_
  match n with
  -- with so little fuel, not even the variable is read
  | 0 => rfl
  | 1 => rfl
  | n + 2 => exact binary_variable_eq _ x d ho (hoperate n s)

/-- **Compound assignments to variables are short for assignments.** Whatever the variable, the
right side, the scope, the settings and the world:

* `x op= e` ends just when `x = x op e` does, with the same value or the same fault and in the same
  world: with the same bindings in all scopes, the same output and notes, and the same random numbers
  still to come;
* so do `x++` and `x = x + 1`;
* so do `x--` and `x = x - 1`. -/
theorem sameEnds_compound (x : String) (d : Bool) (right : Expr) :
    let target : Expr := .variable x d
    (∀ a : Arithmetic, (binary (.compound a) target right).SameEnds
      (assign target (binary (.arithmetic a) target right))) ∧
    (binary .increment target right).SameEnds
      (assign target (binary (.arithmetic .add) target (number 1))) ∧
    (binary .decrement target right).SameEnds
      (assign target (binary (.arithmetic .subtract) target (number 1))) := by
  intro target
  refine ⟨fun a => ?_, ?_, ?_⟩
  · exact sameEnds_of_operate (o := .compound a) rfl (fun _ _ _ => rfl) x d
  · exact sameEnds_of_operate (o := .increment) rfl (fun _ _ _ => rfl) x d
  · exact sameEnds_of_operate (o := .decrement) rfl (fun _ _ _ => rfl) x d

end Expr

end CommandLanguage
