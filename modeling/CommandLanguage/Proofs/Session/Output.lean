import CommandLanguage.Proofs.Eval.Emission
import CommandLanguage.Proofs.Scope.Chain
import CommandLanguage.Proofs.Session.Exec

/-!
# What a session hands out

A session keeps what scripts write until it is asked for. There are three ways to ask something of
it, and the output is the same whichever is taken when: what it hands out and still keeps in the end,
put together, is what it kept in the beginning and what the commands wrote that were called since.
-/

namespace CommandLanguage

/-- Something that is asked of a session. These are the three ways in which output can be made or
handed out. -/
inductive Request where
  /-- to run a script and hand out the output -/
  | exec (script : String)
  /-- to run a script -/
  | eval (script : String)
  /-- to hand out the output -/
  | takeOutput
  deriving DecidableEq, Repr

namespace Session

variable {s : Session} {ks : List Call}

/-- Does what is asked; the text is what is handed out. -/
def perform (s : Session) : Request → String × Session
  | .exec script => ((s.exec script).1.output, (s.exec script).2)
  | .eval script => ("", (s.eval script).2)
  | .takeOutput => s.takeOutput

/-- Does what is asked, one after the other; the text is all that is handed out. -/
def performAll (s : Session) : List Request → String × Session
  | [] => ("", s)
  | r :: rs =>
    let (text, s) := s.perform r
    let (texts, s) := s.performAll rs
    (text ++ texts, s)

/-- The commands that a script calls. A script that cannot be read calls none, and for one that can
it is the account of its run. -/
inductive CallsFor (s : Session) (script : String) : List Call → Prop
  /-- a script that cannot be read calls none -/
  | unread {f : Fault} : load script s.functions = .error f → CallsFor s script []
  /-- a script that is run -/
  | run {program : List Expr} {functions : Nat} {ks : List Call} :
    load script s.functions = .ok (program, functions) →
      Run.Calls s.settings (runProgram program) s.world ks → CallsFor s script ks

/-- The commands that are called when several things are asked of a session, in their order. A
request starts from the session that those before it leave. -/
inductive CallsForAll : Session → List Request → List Call → Prop
  /-- nothing is asked -/
  | nil (s : Session) : CallsForAll s [] []
  /-- a blank script is not even read -/
  | execBlank {s : Session} {script : String} {rs : List Request} {ks : List Call} :
    script.isBlankText = true → CallsForAll (s.exec script).2 rs ks →
      CallsForAll s (.exec script :: rs) ks
  /-- a script whose output is handed out -/
  | exec {s : Session} {script : String} {rs : List Request} {ks ks' : List Call} :
    script.isBlankText = false → s.CallsFor script ks → CallsForAll (s.exec script).2 rs ks' →
      CallsForAll s (.exec script :: rs) (ks ++ ks')
  /-- a script whose output stays -/
  | eval {s : Session} {script : String} {rs : List Request} {ks ks' : List Call} :
    s.CallsFor script ks → CallsForAll (s.eval script).2 rs ks' →
      CallsForAll s (.eval script :: rs) (ks ++ ks')
  /-- the output is handed out -/
  | takeOutput {s : Session} {rs : List Request} {ks : List Call} :
    CallsForAll s.takeOutput.2 rs ks → CallsForAll s (.takeOutput :: rs) ks

/-! ## Single requests

For each kind of request, an account of the calls that it leads to is put together from those of the
program that it runs. -/

/-- A script appends the texts of its calls to what the session keeps. -/
theorem output_eval {script : String} (h : s.CallsFor script ks) :
    (s.eval script).2.world.output = s.world.output ++ Call.texts ks := by
  cases h with
  | unread hload => rw [eval_of_load_error hload, Call.texts_nil, String.append_empty]
  | run hload hks =>
    rw [eval_of_load hload]
    exact hks.output_eq

/-- Of a script that is not blank, all output is handed out that was kept by then. -/
theorem output_exec {script : String} (h : script.isBlankText = false) :
    (s.exec script).1.output = (s.eval script).2.world.output ∧
      (s.exec script).2.world.output = "" := by
  unfold exec
  rw [if_neg (by simp [h])]
  obtain ⟨o, s'⟩ := s.eval script
  cases o with
  | value v => exact ⟨rfl, rfl⟩
  | fault f =>
    refine ⟨rfl, ?_⟩
    dsimp only [takeOutput, run]
    exact Run.Quiet.note _ _ _ _
  | outOfFuel => exact ⟨rfl, rfl⟩

/-! ## All requests

A session goes on with the world that the last request left, so what is handed out and what is still
kept add up from one request to the next. -/

/-- What the calls wrote is handed out or still kept, in the order in which it was written. The
induction is on the requests, and each of them hands out all, some or nothing of what is kept. -/
theorem CallsForAll.output_eq {rs : List Request} (h : s.CallsForAll rs ks) :
    s.world.output ++ Call.texts ks =
      (s.performAll rs).1 ++ (s.performAll rs).2.world.output := by
  induction h with
  | nil s => simp [performAll]
  | @execBlank s script rs ks hblank _ ih =>
    -- nothing is handed out here: what is in the buffer waits for a later request
    have hexec : s.exec script = ({}, s) := by
      rw [Session.exec, if_pos hblank]
    rw [hexec] at ih
    simpa only [performAll, perform, hexec, String.empty_append] using ih
  | @exec s script rs ks ks' hblank hks _ ih =>
    -- the buffer is handed out with the report, and the session goes on with an empty one
    obtain ⟨htext, hkept⟩ := output_exec (s := s) hblank
    rw [hkept, String.empty_append] at ih
    rw [Call.texts_append, ih, ← String.append_assoc, ← output_eval hks, ← htext,
      ← String.append_assoc]
    rfl
  | @eval s script rs ks ks' hks _ ih =>
    rw [Call.texts_append, ← String.append_assoc, ← output_eval hks, ih]
    simp only [performAll, perform, String.empty_append]
  | @takeOutput s rs ks _ ih =>
    have hkept : s.takeOutput.2.world.output = "" := rfl
    rw [hkept, String.empty_append] at ih
    rw [ih, ← String.append_assoc]
    rfl

end Session

end CommandLanguage
