import CommandLanguage.Proofs.Eval.Invariant
import CommandLanguage.Proofs.Expr.Numbering
import CommandLanguage.Proofs.Grammar.Shape
import CommandLanguage.Proofs.Scope.Callables
import CommandLanguage.Proofs.Session.Exec

/-!
# Well-shaped sessions

Functions outlive the script that defines them, so that what is read is well shaped helps later
scripts only if the functions in scopes are well shaped too. This is the invariant of sessions
here. With it, evaluation never meets an operator or a parameter that it does not know.
-/

namespace CommandLanguage

/-- A function whose parameters and body are as a script that was read has them, or a command that
every session can have. Commands of a program around are left out, since they may fail with any
fault. -/
def Value.IsShaped : Value → Prop
  | .function c =>
    (∀ p ∈ c.parameters, Grammar.isParameter p = true ∧ p.Everywhere Expr.IsWellShaped) ∧
      c.body.Everywhere Expr.IsWellShaped
  | .command c => c ∈ Command.standard
  | _ => True

/-- All functions that are bound, at any depth of a value, are well shaped. A function may be an
element of a list in a map, and is called from there. -/
def Scopes.IsShaped (σ : Scopes) : Prop :=
  ∀ s, ∀ e ∈ σ.bindings s, e.2.AllCallables Value.IsShaped

namespace Scopes

variable {σ : Scopes}

theorem isShaped_define {v : Value} (s : ScopeId) (name : String) (h : σ.IsShaped)
    (hv : v.AllCallables Value.IsShaped) : (σ.define s name v).IsShaped :=
  AllCallables.define s name h hv

theorem isShaped_root : root.IsShaped := AllCallables.root

end Scopes

namespace Eval

/-- Evaluation of what is well shaped keeps functions well shaped, and is never at fault for the
shape of anything. All that is left to show is what `Invariant` asks for: the rest was gone through
for all invariants at once. -/
def shaped : Invariant where
  scopes := Scopes.IsShaped
  scope _ := True
  expr := Expr.Everywhere Expr.IsWellShaped
  callable := Value.IsShaped
  fault f := f.isAboutShape = false
  get hσ hv := Scopes.AllCallables.get hσ hv
  define name hσ _ hv := Scopes.isShaped_define _ name hσ hv
  assign name hσ _ hv := Scopes.isShaped_define _ name hσ hv
  remove name hσ _ := Scopes.AllCallables.remove _ name hσ
  extend s hσ := ⟨trivial, Scopes.AllCallables.extend s hσ⟩
  child he hc := he.child hc
  function s he := by
    refine ⟨fun p hp => ⟨he.self.1 p hp, he.child ?_⟩, he.child ?_⟩
    · exact List.mem_append_left _ hp
    · exact List.mem_append_right _ List.mem_cons_self
  parameter hc hp := (hc.1 _ hp).2
  body hc := hc.2
  host hc := by
    -- commands of the program around are none of the standard ones
    simp [Value.IsShaped, Command.standard] at hc
  computed h := h
  unknownBinary he ho := by
    rw [he.self.1] at ho
    cases ho
  unknownUnary he ho := by
    rw [he.self.1] at ho
    cases ho
  notAParameter _ hc hp hno := by
    rw [(hc.1 _ hp).1] at hno
    cases hno

end Eval

namespace Session

/-- All functions in the scopes of a session are well shaped. A script may call functions that an
earlier one has left there, so its own shape is not enough. -/
def IsShaped (s : Session) : Prop := s.world.scopes.IsShaped

variable {s : Session}

theorem isShaped_bind (name : String) {v : Value} (h : s.IsShaped)
    (hv : v.AllCallables Value.IsShaped) : (s.bind name v).IsShaped :=
  Scopes.isShaped_define rootScope name h hv

/-- Folding steps that keep sessions well shaped. -/
theorem isShaped_foldl {α : Type} {step : Session → α → Session} {as : List α}
    (hstep : ∀ s, IsShaped s → ∀ a ∈ as, (step s a).IsShaped) (h : s.IsShaped) :
    (as.foldl step s).IsShaped := by
  induction as generalizing s with
  | nil => exact h
  | cons a as ih =>
    obtain ⟨ha, has⟩ : (∀ s, IsShaped s → (step s a).IsShaped) ∧
        ∀ s, IsShaped s → ∀ b ∈ as, (step s b).IsShaped :=
      ⟨fun s hs => hstep s hs a List.mem_cons_self,
        fun s hs b hb => hstep s hs b (List.mem_cons_of_mem _ hb)⟩
    exact ih has (ha s h)

/-- A session with standard commands begins well shaped. -/
theorem isShaped_start (settings : Settings) {commands : List Command}
    (hc : ∀ c ∈ commands, c ∈ Command.standard) (texts : List (String × String)) :
    (start settings commands texts).IsShaped := by
  refine isShaped_foldl (fun s hs t _ => isShaped_bind t.1 hs (Value.allCallables_text t.2)) ?_
  refine isShaped_foldl (fun s hs c hmem => isShaped_bind c.name hs ?_) Scopes.isShaped_root
  exact Value.allCallables_command.2 (hc c hmem)

theorem isParsedStatement_of_load {script : String} {n m : Nat} {es : List Expr}
    (h : load script n = .ok (es, m)) : ∀ e ∈ es, e.IsParsedStatement := by
  unfold load at h
  split at h
  · rename_i es' hes
    obtain rfl : (Expr.numberList es' n).1 = es := congrArg Prod.fst (Except.ok.inj h)
    exact Expr.isParsedStatement_numberList (Expr.isParsedStatement_of_parse hes) n
  · cases h

/-- A script that cannot be read is at fault for its text. -/
theorem computed_load (script : String) (n : Nat) : Computed (load script n) := by
  unfold load
  split
  · exact .ok _
  · exact .error rfl

/-- A script leaves a session well shaped, and is not at fault for the shape of anything. A script
that cannot be read does not run, and its fault is about its text. -/
theorem isShaped_eval (script : String) (h : s.IsShaped) :
    (s.eval script).2.IsShaped ∧
      (s.eval script).1.Meets (fun f => f.isAboutShape = false) fun _ => True := by
  unfold eval
  split
  · rename_i program functions hload
    -- what was read is well shaped, so that the run keeps the invariant
    have hrun : Eval.shaped.Keeps (fun _ => True) (runProgram program) := by
      intro c w hw
      have he : ∀ e ∈ program, e.Everywhere Expr.IsWellShaped :=
        fun e he => (isParsedStatement_of_load hload e he).2
      have hprogram : Eval.shaped.Keeps (fun _ => True) (Program.run program rootScope) :=
        (Eval.shaped.keeps_program trivial he).mono fun _ _ => trivial
      exact Run.Ensures.bind (Run.Keeps.note _ _) (fun _ _ => hprogram) c { w with calls := 0 } hw
    exact hrun s.settings s.world h
  · rename_i f hf
    exact ⟨h, Fault.isAboutShape_of_isComputed (computed_load script s.functions f hf)⟩

theorem isShaped_exec (script : String) (h : s.IsShaped) :
    (s.exec script).2.IsShaped ∧
      (s.exec script).1.ending.Meets (fun f => f.isAboutShape = false) fun _ => True := by
  cases hblank : script.isBlankText with
  | true =>
    unfold exec
    rw [if_pos hblank]
    exact ⟨h, trivial⟩
  | false =>
    obtain ⟨hending, hscopes⟩ := exec_of_not_blank (s := s) hblank
    rw [IsShaped, hending, hscopes]
    exact isShaped_eval script h

theorem isShaped_execAll (scripts : List String) (h : s.IsShaped) : (s.execAll scripts).IsShaped :=
  isShaped_foldl (fun _ hs script _ => (isShaped_exec script hs).1) h

/-- **What is read is well shaped, and what is well shaped runs.** A script that can be read is made
of statements that are well shaped at every depth. So whatever scripts a new session has run, with
or without commands, the next one does not end in a fault about an operator or a parameter. -/
theorem wellShaped_of_parse_and_exec :
    (∀ (script : String) (es : List Expr), Expr.parse script = .ok es →
      ∀ e ∈ es, e.IsStatement ∧ e.Everywhere Expr.IsWellShaped) ∧
    ∀ (settings : Settings) (builtins : Bool) (texts : List (String × String))
      (scripts : List String) (script : String) (f : Fault),
      (((start settings (if builtins then Command.standard else []) texts).execAll scripts).exec
        script).1.ending = .fault f →
      (∀ o, f ≠ .unknownOperator o) ∧ ∀ kind, f ≠ .notAParameter kind := by
  refine ⟨fun script es h => Expr.isParsedStatement_of_parse h, ?_⟩
  intro settings builtins texts scripts script f hf
  have hcommands : ∀ c ∈ (if builtins then Command.standard else []), c ∈ Command.standard := by
    cases builtins with
    | true => exact fun _ hc => hc
    | false => exact nofun
  -- all that a session holds is of this shape at the start, and stays so
  have hstart := isShaped_execAll scripts (isShaped_start settings hcommands texts)
  have hmeets := (isShaped_exec script hstart).2
  rw [hf] at hmeets
  refine ⟨fun o ho => ?_, fun kind hkind => ?_⟩
  · rw [ho] at hmeets
    cases hmeets
  · rw [hkind] at hmeets
    cases hmeets

/-- A script with a function, a loop and an `unset`, and a session in which it is run before a
command that there is not. -/
theorem wellShaped_of_parse_and_exec_example :
    (∃ es, Expr.parse "function f(x) { while x { x++; } }; unset y" = .ok es ∧
      ∀ e ∈ es, e.IsStatement ∧ e.Everywhere Expr.IsWellShaped) ∧
    ∃ f, (((start {} [] []).execAll ["function f(x) { while x { x++; } }; unset y"]).exec
        "g").1.ending = .fault f ∧
      (∀ o, f ≠ .unknownOperator o) ∧ ∀ kind, f ≠ .notAParameter kind := by
  constructor
  · cases h : Expr.parse "function f(x) { while x { x++; } }; unset y" with
    | ok es => exact ⟨es, rfl, wellShaped_of_parse_and_exec.1 _ es h⟩
    | error f =>
      have hok : (Expr.parse "function f(x) { while x { x++; } }; unset y").toOption.isSome =
        true := by decide +kernel
      rw [h] at hok
      cases hok
  · cases h : (((start {} [] []).execAll ["function f(x) { while x { x++; } }; unset y"]).exec
        "g").1.ending with
    | fault f => exact ⟨f, rfl, wellShaped_of_parse_and_exec.2 {} false [] _ _ f h⟩
    | _ =>
      have hcode : (((start {} [] []).execAll
        ["function f(x) { while x { x++; } }; unset y"]).exec "g").1.exitCode = 1 := by
          decide +kernel
      rw [Report.exitCode, h] at hcode
      cases hcode

end Session

end CommandLanguage
