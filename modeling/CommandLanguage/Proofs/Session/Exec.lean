import CommandLanguage.Proofs.Run.Ensures
import CommandLanguage.Proofs.Run.Returns
import CommandLanguage.Session

/-!
# Running scripts

What `Session.exec` does besides evaluation: it takes the output and may take notes. Neither
changes how a script ends or what is bound.
-/

namespace CommandLanguage

namespace Session

variable {s : Session}

theorem fst_run {α : Type} (m : Run α) : (s.run m).1 = (m s.settings s.world).1 := rfl

theorem run_congr {α : Type} {m m' : Run α} (h : m s.settings s.world = m' s.settings s.world) :
    s.run m = s.run m' := by
  rw [run, h, run]

theorem eval_of_load {script : String} {program : List Expr} {functions : Nat}
    (h : load script s.functions = .ok (program, functions)) :
    s.eval script = ({ s with functions } : Session).run (runProgram program) := by
  unfold eval
  split
  · rename_i h'
    cases h.symm.trans h'
    rfl
  · rename_i h'
    cases h.symm.trans h'

theorem eval_of_load_error {script : String} {f : Fault}
    (h : load script s.functions = .error f) : s.eval script = (.fault f, s) := by
  unfold eval
  rw [h]

/-- Apart from the output, a script that is not blank does what its evaluation does. The output is
handed out and taken from the session, and a note may be taken about a fault. -/
theorem exec_of_not_blank {script : String} (h : script.isBlankText = false) :
    (s.exec script).1.ending = (s.eval script).1 ∧
      (s.exec script).2.world.scopes = (s.eval script).2.world.scopes := by
  unfold exec
  rw [if_neg (by simp [h])]
  obtain ⟨o, s'⟩ := s.eval script
  cases o with
  | value v => exact ⟨rfl, rfl⟩
  | fault f =>
    refine ⟨rfl, ?_⟩
    dsimp only [takeOutput, run]
    exact Run.scopes_note _ _ _ _
  | outOfFuel => exact ⟨rfl, rfl⟩

/-- Scripts that are evaluated alike are run alike, if none of them is blank. What is done besides
evaluation depends on how it ended only. -/
theorem exec_congr {script script' : String} (h : script.isBlankText = false)
    (h' : script'.isBlankText = false) (heval : s.eval script = s.eval script') :
    s.exec script = s.exec script' := by
  unfold exec
  rw [if_neg (by simp [h]), if_neg (by simp [h']), heval]

/-- A script that is one call takes its notes, which do not say what is called, and evaluates the
call. -/
theorem exists_runProgram_call (c : Settings) (w : World) : ∃ notes, ∀ (f : Expr) (es : List Expr),
    runProgram [.call f es] c w =
      Expr.evaluate (.call f es) rootScope c { w with calls := 0, notes } := by
  let kind := "call"
  obtain ⟨notes₁, h₁⟩ := Run.exists_note .debug (fun _ => s!"exec statements={1}") c
    { w with calls := 0 }
  obtain ⟨notes₂, h₂⟩ := Run.exists_note .debug (fun _ => s!"statement kind={kind}") c
    { w with calls := 0, notes := notes₁ }
  refine ⟨notes₂, fun f es => ?_⟩
  have hrun : Program.run [.call f es] rootScope = (do
      Run.note .debug fun _ => s!"statement kind={kind}"
      Expr.evaluate (.call f es) rootScope) := by
    simp only [Program.run, Program.runFrom, bind_pure]
    rfl
  rw [runProgram, Run.note_bind_apply, hrun, Run.note_bind_apply]
  rw [← h₂, ← h₁]
  rfl

/-- The session after several scripts. -/
def execAll (s : Session) (scripts : List String) : Session :=
  scripts.foldl (fun s script => (s.exec script).2) s

end Session

end CommandLanguage
