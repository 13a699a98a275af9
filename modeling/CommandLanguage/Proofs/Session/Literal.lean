import CommandLanguage.Proofs.Session.Exec
import CommandLanguage.Proofs.Token.Literal

/-!
# Texts between double quotes as scripts

Four scans have to agree on what is escaped in a text between double quotes: the one for the normal
form, the one for tokens, the search for references and the removal of backslashes at the end.
`Session.exec_doubleQuoted` says that they do, for every text that is no word with groups in
braces.
-/

namespace CommandLanguage

theorem Expr.evaluate_text (t : String) (l : Literal) :
    (Expr.text t l).evaluate = fun s => Eval.text s t l := rfl

/-- The value of an escaped text between double quotes is the text. -/
theorem Eval.text_escape (s : ScopeId) (v : List Char) :
    Eval.text s (String.ofList (Reference.escape v)) .double =
      pure (.text (String.ofList v)) := by
  simp only [Eval.text, String.toList_ofList, Reference.expand_escape, pure_bind]

namespace Session

theorem runProgram_text (v : List Char) (c : Settings) (w : World) :
    (runProgram [.text (String.ofList (Reference.escape v)) .double] c w).1 =
      .value (.text (String.ofList v)) := by
  simp only [runProgram, Program.run, Program.runFrom, Run.note_bind_apply, Expr.evaluate_text,
    Eval.text_escape, pure_bind]
  rfl

/-- **A text between double quotes is itself.** Whatever a session has run before, a line with a
text between double quotes, escaped as it has to be, ends without a fault and has the text as its
value. -/
theorem exec_doubleQuoted (s : Session) (v : String)
    (h : Braces.isBraceWord v.toList = false) :
    let report := (s.exec (String.ofList (Source.doubleQuoted v.toList))).1
    report.exitCode = 0 ∧ report.value = .text v ∧ report.ending = .value (.text v) := by
  have hblank : (String.ofList (Source.doubleQuoted v.toList)).isBlankText = false := by
    simp [String.isBlankText, Text.isBlankText, Source.doubleQuoted, Text.isBlank]
  have hload : load (String.ofList (Source.doubleQuoted v.toList)) s.functions =
      .ok ([.text (String.ofList (Reference.escape v.toList)) .double], s.functions) := by
    unfold load
    rw [Expr.parse_doubleQuoted h]
    rfl
  have hending : (s.exec (String.ofList (Source.doubleQuoted v.toList))).1.ending =
      .value (.text v) := by
    rw [(exec_of_not_blank hblank).1]
    unfold eval
    simp only [hload, fst_run, runProgram_text, String.ofList_toList]
  exact ⟨by rw [Report.exitCode, hending], by rw [Report.value, hending], hending⟩

/-- A text with a comment sign, a `;`, a reference, a quote, a backslash and a line end. -/
theorem exec_doubleQuoted_signs :
    Braces.isBraceWord "# ; $\x7bx\x7d \" \\ \n".toList = false ∧
      let line := String.ofList (Source.doubleQuoted "# ; $\x7bx\x7d \" \\ \n".toList)
      let report := (({} : Session).exec line).1
      report.exitCode = 0 ∧ report.value = .text "# ; $\x7bx\x7d \" \\ \n" ∧
        report.ending = .value (.text "# ; $\x7bx\x7d \" \\ \n") :=
  ⟨by decide +kernel, exec_doubleQuoted {} _ (by decide +kernel)⟩

end Session

end CommandLanguage
