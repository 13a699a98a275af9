import CommandLanguage.Proofs.Eval.Invariant
import CommandLanguage.Proofs.Run.Returns
import CommandLanguage.Proofs.Scope.Callables

/-!
# Writing back

One setting makes every operator store its value in a variable on its left, where otherwise only
compound assignments, `++` and `--` do. The setting is looked at in one place of evaluation, so it
only matters to a script that has another operator with a variable on its left, or that comes to
call a function that has one. Functions are values, and the scopes may hold some from before, so
what is asked of the script is asked of every function in the scopes, too.
-/

namespace CommandLanguage

/-- An operator with a variable on its left stores its value there whatever the setting. This is
asked of a single node, and `Everywhere` asks it of all nodes of an expression. -/
def Expr.WritesAlike : Expr → Prop
  | .binary o left _ => left.target?.isSome → o.assigns = true
  | _ => True

/-- A function in which all operators store alike, in the default values of its parameters, too. A
command is one for which the setting makes no difference. -/
def Value.WritesAlike : Value → Prop
  | .function c =>
    (∀ p ∈ c.parameters, p.Everywhere Expr.WritesAlike) ∧ c.body.Everywhere Expr.WritesAlike
  | _ => True

/-- Settings with another way of writing back. -/
def Settings.withWriteBack (c : Settings) (writeBack : WriteBack) : Settings := { c with writeBack }

/-- Commands of the program around that give no other functions than such in which all operators
store alike, if they are given no others. -/
def Settings.HostWritesAlike (c : Settings) : Prop :=
  ∀ name args v, (∀ a ∈ args, a.AllCallables Value.WritesAlike) → c.host name args = .ok v →
    v.AllCallables Value.WritesAlike

namespace Run

variable {α β : Type} {c c' : Settings} {S : Scopes → Prop} {P Q : α → Prop} {R : β → Prop}
  {m : Run α}

/-- In a world whose scopes have `S`, a run is the same with settings `c` and `c'`: it comes to
scopes that have `S`, and to a value that meets `Q` if it comes to one. The invariant is part of it,
since what is called next is found in the scopes. -/
def Agrees (c c' : Settings) (S : Scopes → Prop) (Q : α → Prop) (m : Run α) : Prop :=
  ∀ w, S w.scopes → m c' w = m c w ∧ S (m c w).2.scopes ∧ (m c w).1.Meets (fun _ => True) Q

namespace Agrees

/-- A run that does not look at what is different in the settings. All that is left is that it keeps
the scopes as they have to be. -/
theorem of_keeps (h : m c' = m c) (hm : Keeps S (fun _ => True) Q m) : Agrees c c' S Q m :=
  fun w hw => ⟨by rw [h], hm c w hw⟩

/-- What comes behind a run goes on from the same world with both settings. So the two are the same
step by step. -/
theorem bind {f : α → Run β} (hm : Agrees c c' S P m) (hf : ∀ a, P a → Agrees c c' S R (f a)) :
    Agrees c c' S R (m >>= f) := by
  intro w hw
  obtain ⟨hsame, hσ, hmeets⟩ := hm w hw
  simp only [bind_def, Run.bind]
  rw [hsame]
  -- only a value is gone on with; a fault or a want of fuel is the end of both runs
  rcases hmc : m c w with ⟨a | e | _, w'⟩ <;> rw [hmc] at hσ hmeets
  · exact hf a hmeets w' hσ
  · exact ⟨rfl, hσ, trivial⟩
  · exact ⟨rfl, hσ, trivial⟩

/-- A run that looks at the settings. -/
theorem settings {f : Settings → Run β} (hf : f c' = f c) (h : Agrees c c' S R (f c)) :
    Agrees c c' S R (Run.settings >>= f) := by
  intro w hw
  have hw' := h w hw
  simp only [bind_def, Run.bind, Run.settings]
  rwa [hf]

/-- A computation whose value meets what is asked of it. -/
theorem ofExcept {x : Except Fault α} (h : ∀ a, x = .ok a → Q a) :
    Agrees c c' S Q (Run.ofExcept x) := by
  cases x with
  | ok a => exact of_keeps rfl (.pure (h a rfl))
  | error f => exact of_keeps rfl (.fault trivial)

theorem deeper (hm : Agrees c c' S Q m) : Agrees c c' S Q (Run.deeper m) := by
  intro w hw
  obtain ⟨hsame, hσ, hmeets⟩ := hm { w with calls := w.calls + 1 } hw
  refine ⟨?_, hσ, hmeets⟩
  simp only [Run.deeper, hsame]

theorem andNote {after : Bool → Run Unit} (hm : Agrees c c' S Q m)
    (hsame : ∀ ok, after ok c' = after ok c)
    (hafter : ∀ ok, Keeps S (fun _ => True) (fun _ => True) (after ok)) :
    Agrees c c' S Q (Run.andNote m after) := by
  intro w hw
  obtain ⟨hm', hσ, hmeets⟩ := hm w hw
  refine ⟨by simp only [Run.andNote, hsame, hm'], ?_⟩
  unfold Run.andNote
  rcases hmc : m c w with ⟨a | e | _, w'⟩ <;> rw [hmc] at hσ hmeets
  · exact ⟨(hafter true c w' hσ).1, hmeets⟩
  · exact ⟨(hafter false c w' hσ).1, hmeets⟩
  · exact ⟨hσ, trivial⟩

end Agrees

end Run

namespace Eval

open Run (Agrees)

variable {c c' : Settings} {S : Scopes → Prop} {ev : Evaluator}

/-- What is read depends on the world alone. -/
theorem read_eq_of_settings (s : ScopeId) (name : String) :
    Run.read s name c' = Run.read s name c := by
  funext w
  simp only [Run.read, Run.bind_def, Run.bind, Run.scopes]
  cases w.scopes.get? s name with
  | some v => rfl
  | none =>
    dsimp only
    split <;> rfl

/-- What has no place to store in is left as it is, unless the operator is for storing. -/
theorem writeBack_of_target?_eq_none {s : ScopeId} {o : Operator} {left : Expr} {v : Value}
    (hleft : left.target? = none) (ho : o.assigns = false) :
    writeBack ev s o left v = pure () := by
  funext c w
  rw [writeBack, Run.bind_apply rfl, hleft]
  dsimp only
  rw [ho]
  split <;> rfl

/-- An operator that stores alike does the same in both ways of writing back. Either it is one that
stores anyway, or there is nothing on its left that it could store to. -/
theorem agrees_writeBack {s : ScopeId} {o : Operator} {left right : Expr} {v : Value}
    {one other : WriteBack} (he : (Expr.binary o left right).WritesAlike)
    (hstore : ∀ t, left.target? = some t → Agrees (c.withWriteBack one) (c.withWriteBack other) S
      (fun _ => True) (store ev s t v.truthAsNumber)) :
    Agrees (c.withWriteBack one) (c.withWriteBack other) S (fun _ => True)
      (writeBack ev s o left v) := by
  cases ho : o.assigns with
  | true =>
    -- an assignment stores in both ways
    have hstored (way : WriteBack) : isStored way o = true := by
      rw [isStored, ho, Bool.true_or]
    refine .settings (by rw [hstored, hstored]) ?_
    rw [if_pos (hstored _)]
    split
    · rename_i t ht
      exact hstore t ht
    · rw [if_pos ho]
      exact .of_keeps rfl (.fault trivial)
  | false =>
    -- any other operator has nothing on its left that could be stored to
    have hleft : left.target? = none :=
      Option.not_isSome_iff_eq_none.1 fun h => Bool.false_ne_true (ho.symm.trans (he h))
    rw [writeBack_of_target?_eq_none hleft ho]
    exact .of_keeps rfl (.pure trivial)

/-- How to write back is nothing that a call looks at. -/
theorem agrees_callClosure {caller : ScopeId} {k : Closure} {args : List Value} {Q : Value → Prop}
    {one other : WriteBack} (henter : Agrees (c.withWriteBack one) (c.withWriteBack other) S Q
      (enter ev caller k args)) :
    Agrees (c.withWriteBack one) (c.withWriteBack other) S Q (callClosure ev caller k args) := by
  refine .settings rfl (.bind (.of_keeps rfl .calls) fun depth _ => ?_)
  split
  · exact henter.deeper.andNote (fun _ => rfl) fun _ => .bind .calls fun _ _ => Run.Keeps.note _ _
  · exact .bind (.of_keeps rfl (Run.Keeps.note _ _)) fun _ _ => .of_keeps rfl (.fault trivial)

/-- How to write back is nothing that a command looks at. -/
theorem agrees_command {one other : WriteBack} (hhost : c.HostWritesAlike) {k : Command}
    {args : List Value} (ha : ∀ a ∈ args, a.AllCallables Value.WritesAlike) :
    Agrees (c.withWriteBack one) (c.withWriteBack other) S (Value.AllCallables Value.WritesAlike)
      (k.run args) :=
  Command.keeps_run (Agrees (c.withWriteBack one) (c.withWriteBack other) S) _
    (fun h => .of_keeps rfl (.pure h)) .bind (fun _ => .of_keeps rfl (.fault trivial))
    (fun text => .of_keeps rfl (Run.Keeps.write text))
    fun name _ => .settings rfl (.ofExcept fun v hv => hhost name args v ha hv)

/-- Runs that are the same in both ways of writing back. Nearly all steps do not look at the
settings, and for them there is nothing to show; the others are the ones that were gone through
above. -/
def writingAlike (c : Settings) (hhost : c.HostWritesAlike) (one other : WriteBack) : Logic where
  Keeps := Agrees (c.withWriteBack one) (c.withWriteBack other)
    (Scopes.AllCallables Value.WritesAlike)
  scope _ := True
  expr := Expr.Everywhere Expr.WritesAlike
  callable := Value.WritesAlike
  keeps_pure h := .of_keeps rfl (.pure h)
  keeps_bind := .bind
  keeps_outOfFuel := .of_keeps rfl .outOfFuel
  keeps_note level text := .of_keeps rfl (Run.Keeps.note level text)
  keeps_engine := .of_keeps rfl .engine
  keeps_calls := .of_keeps rfl .calls
  keeps_read s name := .of_keeps (read_eq_of_settings s name)
    (Run.Keeps.read (fun _ _ hσ hv => hσ.get hv) Value.allCallables_number)
  keeps_define name _ hv := .of_keeps rfl (Run.Keeps.modifyScopes fun _ hσ => hσ.define _ name hv)
  keeps_assign name _ hv := .of_keeps rfl (Run.Keeps.modifyScopes fun _ hσ => hσ.define _ name hv)
  keeps_remove name _ := .of_keeps rfl (Run.Keeps.modifyScopes fun _ hσ => hσ.remove _ name)
  keeps_extend s := .of_keeps rfl fun _ _ hw => ⟨hw.extend s, trivial⟩
  child he hc := he.child hc
  function _ he := ⟨fun _ hp => he.child (List.mem_append_left _ hp),
    he.child (List.mem_append_right _ List.mem_cons_self)⟩
  parameter hc hp := hc.1 _ hp
  body hc := hc.2
  keeps_command _ ha := agrees_command hhost ha
  keeps_fault _ := .of_keeps rfl (.fault trivial)
  keeps_unknownBinary _ _ := .of_keeps rfl (.fault trivial)
  keeps_unknownUnary _ _ := .of_keeps rfl (.fault trivial)
  keeps_notAParameter _ _ _ _ := .of_keeps rfl (.fault trivial)
  keeps_writeBack he := agrees_writeBack he.self
  keeps_callClosure _ := agrees_callClosure

end Eval

namespace Program

/-- **The two ways of writing back differ in operators with a variable on their left only.** If all
other operators than compound assignments, `++` and `--` have something else there, in a script and
in every function that is bound when it starts, then it ends with the same value or fault in both
ways, and in the same world: the same bindings in all scopes, the same output and notes, and the
same random numbers still to come. -/
theorem run_withWriteBack (program : List Expr) (s : ScopeId) (c : Settings) (w : World)
    (hprogram : ∀ e ∈ program, e.Everywhere Expr.WritesAlike)
    (hscopes : w.scopes.AllCallables Value.WritesAlike) (hhost : c.HostWritesAlike) :
    run program s (c.withWriteBack .allOperators) w =
      run program s (c.withWriteBack .assignments) w := by
  have hrun := (Eval.writingAlike c hhost .assignments .allOperators).keeps_program
    (s := s) True.intro hprogram
  exact (hrun w hscopes).1

/-- A sum and a compound assignment, in a script and in a function that is there before. -/
theorem run_withWriteBack_bound :
    let grow : Expr := .binary (.compound .add) (.variable "n" false) (.number 1)
    let f : Value := .function ⟨0, some "f", [.variable "n" false], grow, 0⟩
    let sum : Expr := .binary (.arithmetic .add) (.number 1) (.variable "x" true)
    let program : List Expr := [
      .assign (.variable "x" false) (.call (.variable "f" false) [sum]),
      .binary (.compound .multiply) (.variable "x" false) sum]
    let w : World := { scopes := Scopes.root.define 0 "f" f }
    (∀ e ∈ program, e.Everywhere Expr.WritesAlike) ∧
      w.scopes.AllCallables Value.WritesAlike ∧ Settings.HostWritesAlike {} ∧
      run program 0 (({} : Settings).withWriteBack .allOperators) w =
        run program 0 (({} : Settings).withWriteBack .assignments) w := by
  intro grow f sum program w
  have hvariable (n : String) (d : Bool) : (Expr.variable n d).Everywhere Expr.WritesAlike :=
    .leaf trivial rfl
  have hnumber (n : Float) : (Expr.number n).Everywhere Expr.WritesAlike := .leaf trivial rfl
  -- the compound assignment stores in both ways, and the sum has no variable on its left
  have hgrow : grow.Everywhere Expr.WritesAlike :=
    .intro (fun _ => rfl) (by simp [grow, Expr.children, hvariable, hnumber])
  have hsum : sum.Everywhere Expr.WritesAlike :=
    .intro (by intro h; cases h) (by simp [sum, Expr.children, hvariable, hnumber])
  have hcall : (Expr.call (.variable "f" false) [sum]).Everywhere Expr.WritesAlike :=
    .intro trivial (by simp [Expr.children, hvariable, hsum])
  have hprogram : ∀ e ∈ program, e.Everywhere Expr.WritesAlike := by
    refine List.forall_mem_cons.2 ⟨.intro trivial ?_,
      List.forall_mem_singleton.2 (.intro (fun _ => rfl) ?_)⟩
    · simp [Expr.children, hvariable, hcall]
    · simp [Expr.children, hvariable, hsum]
  have hf : f.AllCallables Value.WritesAlike :=
    Value.allCallables_function.2 ⟨by simp [hvariable], hgrow⟩
  have hscopes : w.scopes.AllCallables Value.WritesAlike := .define 0 "f" .root hf
  have hhost : Settings.HostWritesAlike {} := by
    intro _ _ _ _ h
    cases h
  exact ⟨hprogram, hscopes, hhost, run_withWriteBack program 0 {} w hprogram hscopes hhost⟩

end Program

end CommandLanguage
