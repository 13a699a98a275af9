import CommandLanguage.Proofs.Eval.Arguments
import CommandLanguage.Proofs.Grammar.CallForms
import CommandLanguage.Proofs.Session.Exec

/-!
# The two forms of a call as scripts

A script that is one call does the same in both forms, as a command and with parentheses, unless the
text between the parentheses is an array literal. In that case the values of the arguments are
passed as they are, where a command passes the text of a word and the items of a list, and the forms
agree where each argument passes just its own value.
-/

namespace CommandLanguage

/-- Arguments are expressions without parts. -/
theorem Written.isAtomic_expr (a : Written) : Eval.isAtomic a.expr = true := by
  refine a.atom_cases (P := fun b => Eval.isAtomic b.expr = true) ?_ ?_ ?_ ?_ ?_ ?_ ?_
  all_goals intros; rfl

theorem Written.isAtomic_exprs (as : List Written) :
    ∀ e ∈ as.map Written.expr, Eval.isAtomic e = true := by
  intro e he
  obtain ⟨a, -, rfl⟩ := List.mem_map.1 he
  exact a.isAtomic_expr

/-! ## Numbers of functions

Functions are numbered from where the session stands before a script is run. Calls and their
arguments hold no functions, so that the numbers are not touched. -/

namespace Expr

/-- No function is numbered in an expression without parts. -/
theorem numberFrom_of_isAtomic {e : Expr} (h : Eval.isAtomic e = true) (n : Nat) :
    numberFrom e n = (e, n) := by
  cases e <;> first | rfl | cases h

theorem numberList_of_isAtomic {es : List Expr} (h : ∀ e ∈ es, Eval.isAtomic e = true) (n : Nat) :
    numberList es n = (es, n) := by
  induction es with
  | nil => rfl
  | cons e es ih =>
    obtain ⟨he, hes⟩ := List.forall_mem_cons.1 h
    simp only [numberList, numberFrom_of_isAtomic he, ih hes]

end Expr

theorem Written.numberList_enclosedExprs (as : List Written) (n : Nat) :
    Expr.numberList (Written.enclosedExprs as) n = (Written.enclosedExprs as, n) := by
  have hes := Expr.numberList_of_isAtomic (Written.isAtomic_exprs as) n
  unfold Written.enclosedExprs
  split
  · simp only [Expr.numberList, Expr.numberFrom, hes]
  · exact hes

namespace Callee

variable (f : Callee)

theorem numberList_call {es : List Expr} (h : ∀ n, Expr.numberList es n = (es, n)) (n : Nat) :
    Expr.numberList [.call f.expr es] n = ([.call f.expr es], n) := by
  have hname : Expr.numberFrom f.expr n = (f.expr, n) := rfl
  simp only [Expr.numberList, Expr.numberFrom, hname, h]

theorem isBlankText_append (r : List Char) :
    (String.ofList (f.word.text ++ r)).isBlankText = false := by
  obtain ⟨⟨w, hname⟩, free⟩ := f
  cases w with
  | nil => cases hname
  | cons a w =>
    have hblank := Text.isBlank_of_isNameChar
      (Reference.Name.isNameChar_of_mem ⟨a :: w, hname⟩ List.mem_cons_self)
    simp [String.isBlankText, Text.isBlankText, hblank]

end Callee

namespace Session

variable (f : Callee) {a : Written} {as : List Written}

/-- A script that is read as one call does what the call does, whatever has been noted. The two
forms are two scripts, and the notes about them say how they are written, so they are not the same
at first. -/
theorem exists_eval_call (s : Session) : ∃ notes, ∀ (script : String) (es : List Expr),
    Expr.parse script = .ok [.call f.expr es] → (∀ n, Expr.numberList es n = (es, n)) →
    s.eval script = ({ s with world := { s.world with calls := 0, notes } } : Session).run
      (Expr.evaluate (.call f.expr es) rootScope) := by
  obtain ⟨notes, hrun⟩ := exists_runProgram_call s.settings s.world
  refine ⟨notes, fun script es hparse hnumbers => ?_⟩
  have hload : load script s.functions = .ok ([.call f.expr es], s.functions) := by
    unfold load
    rw [hparse]
    dsimp only
    rw [f.numberList_call hnumbers]
  unfold eval run
  rw [hload]
  dsimp only
  rw [hrun]

/-- **The two forms of a call.** A call with parentheses is read as the command is, but for arguments
that are an array literal. It does what the command does if each argument in such a literal passes
its own value, whatever is called and whatever the session has run before. Where all arguments have
values and no word stands for a random number, the same is passed in no other case. -/
theorem exec_direct (f : Callee) (a : Written) (as : List Written) :
    let es := (a :: as).map Written.expr
    let given := if Written.IsArray (a :: as) then [.array es] else es
    let command := String.ofList (f.command (a :: as))
    let direct := String.ofList (f.direct (a :: as))
    Expr.parse command = .ok [.call f.expr es] ∧
    Expr.parse direct = .ok [.call f.expr given] ∧
    (∀ s : Session,
      (Written.IsArray (a :: as) → ∀ notes, Eval.PassValues Expr.evaluate rootScope s.settings
        { s.world with calls := 0, notes } es) →
      s.exec direct = s.exec command) ∧
    ∀ (c : Settings) (w w' : World) (vs : List Value),
      (∀ e ∈ es, e.bareWord? ≠ some Run.randomName) →
      Eval.values Expr.evaluate rootScope es c w = (.value vs, w') →
      (Eval.arguments Expr.evaluate rootScope given c w =
          Eval.arguments Expr.evaluate rootScope es c w ↔
        (Written.IsArray (a :: as) → Eval.PassValues Expr.evaluate rootScope c w es)) := by
  have hatomic := Written.isAtomic_exprs (a :: as)
  have hcommand := f.parse_command a as
  have hdirect := f.parse_direct (a :: as)
  refine ⟨hcommand, hdirect, fun s h => ?_, fun c w w' vs hfixed hvalues => ?_⟩
  · -- the notes of a script do not depend on the call, so both forms are evaluated in one state
    obtain ⟨notes, heval⟩ := exists_eval_call f s
    refine exec_congr (f.isBlankText_append _) (f.isBlankText_append _) ?_
    rw [heval _ _ hdirect (Written.numberList_enclosedExprs _),
      heval _ _ hcommand (Expr.numberList_of_isAtomic hatomic)]
    refine run_congr ?_
    unfold Written.enclosedExprs
    split
    next harray => exact Expr.evaluate_call_array hatomic (h harray notes)
    next => rfl
  · split
    next harray =>
      rw [Expr.arguments_array_eq_iff hatomic hfixed hvalues]
      exact ⟨fun h _ => h, fun h => h harray⟩
    next hnone => exact ⟨fun _ harray => absurd harray hnone, fun _ => rfl⟩

/-- An unbound word and a text, which pass their values. -/
theorem exec_direct_echo :
    ∃ (f : Callee) (a b : Written),
      let s := start {} [.echo] []
      let es := [a, b].map Written.expr
      let direct := String.ofList (f.direct [a, b])
      let command := String.ofList (f.command [a, b])
      direct = "echo(a, 'b c')" ∧ command = "echo a 'b c'" ∧ Written.IsArray [a, b] ∧
      (∀ notes, Eval.PassValues Expr.evaluate rootScope s.settings
        { s.world with calls := 0, notes } es) ∧
      s.exec direct = s.exec command ∧
      (∀ e ∈ es, e.bareWord? ≠ some Run.randomName) ∧
      Eval.values Expr.evaluate rootScope es s.settings s.world =
        (.value [.text "a", .text "b c"], s.world) ∧
      Eval.arguments Expr.evaluate rootScope [.array es] s.settings s.world =
        Eval.arguments Expr.evaluate rootScope es s.settings s.world := by
  let f : Callee := ⟨⟨"echo".toList, by decide⟩, by decide⟩
  let a : Written := .word ⟨"a".toList, by decide⟩ (by decide)
  let b : Written := .quoted .single "b c".toList (.plain (by decide) (by decide) (by decide)
    (.plain (by decide) (by decide) (by decide) (.plain (by decide) (by decide) (by decide) .nil)))
  let s := start {} [.echo] []
  -- the word is bound to nothing, and so it stands for itself in every world with these scopes
  have hunbound : (s.world.scopes.get? rootScope "a").isNone = true := by decide +kernel
  have ha (w : World) (hw : w.scopes = s.world.scopes) :
      Expr.evaluate a.expr rootScope s.settings w = (.value (.text "a"), w) := by
    refine (congrFun (congrFun (Expr.evaluate_word "a" rootScope) _) w).trans ?_
    exact Eval.readVariable_of_unbound (hw ▸ hunbound) (by decide)
  have hb (w : World) : Expr.evaluate b.expr rootScope s.settings w = (.value (.text "b c"), w) := rfl
  have hpass (w : World) (hw : w.scopes = s.world.scopes) :
      Eval.PassValues Expr.evaluate rootScope s.settings w ([a, b].map Written.expr) := by
    simp only [List.map_cons, List.map_nil, Eval.PassValues, ha w hw, hb]
    exact ⟨rfl, rfl, trivial⟩
  have harray : Written.IsArray [a, b] := by decide +kernel
  have hfixed : ∀ e ∈ [a, b].map Written.expr, e.bareWord? ≠ some Run.randomName := by decide
  have hvalues : Eval.values Expr.evaluate rootScope ([a, b].map Written.expr) s.settings s.world =
      (.value [.text "a", .text "b c"], s.world) := by
    simp only [List.map_cons, List.map_nil, Eval.values]
    rw [Run.bind_apply (ha _ rfl)]
    rfl
  -- both halves of the general statement are used: the one about sessions and the one about what is
  -- passed
  obtain ⟨-, -, hexec, hargs⟩ := exec_direct f a [b]
  have hsame := (hargs s.settings s.world s.world _ hfixed hvalues).2 fun _ => hpass _ rfl
  rw [if_pos harray] at hsame
  exact ⟨f, a, b, by decide +kernel, by decide +kernel, harray, fun notes => hpass _ rfl,
    hexec s fun _ notes => hpass _ rfl, hfixed, hvalues, hsame⟩

/-- In an array literal, a word is looked up. -/
theorem exec_direct_ne_command :
    let s := start {} Command.standard []
    (s.exec "a = \"x\"; echo(a, b)").1.output = "x b\n" ∧
      (s.exec "a = \"x\"; echo a b").1.output = "a b\n" := by
  decide +kernel

end Session

end CommandLanguage
