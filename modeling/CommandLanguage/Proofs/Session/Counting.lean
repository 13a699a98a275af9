import CommandLanguage.Proofs.Scope.Chain
import CommandLanguage.Proofs.Session.CallForms

/-!
# Counting the elements of a list

The items of a list that is given to a command are passed one by one, so that the command `len` has to
tell the items of a list from a value of its own by their number. It does for every list but one with
a single element, of which it gives the size of the element (`Session.exec_len`): of a list with the
text `ab` it says that there are two elements (`Session.exec_len_ne`).
-/

namespace CommandLanguage

namespace Eval

variable {ev : Evaluator} {s : ScopeId} {c : Settings} {w : World}

/-- A variable that holds a list passes the items of the list. This is how arguments are passed to
whatever is called, and a command cannot tell it from items that were written one by one. -/
theorem arguments_list {x : String} {xs : List Value}
    (hev : ev (.variable x true) s = readVariable s x true)
    (hx : w.scopes.get? s x = some (.list xs)) :
    arguments ev s [.variable x true] c w = (.value xs, w) := by
  have hread : readVariable s x true c w = (.value (.list xs), w) := by
    rw [readVariable, Run.bind_apply (Run.read_of_get? hx)]
    rfl
  have hargument : argument ev s (.variable x true) c w = (.value xs, w) := by
    change (do return (← ev (.variable x true) s).spread : Run (List Value)) c w = _
    rw [hev, Run.bind_apply hread]
    rfl
  rw [arguments, Run.bind_apply hargument]
  simp only [arguments, pure_bind, List.append_nil]
  rfl

/-- A command that is given such a variable is run with the items. A `$` before a name is what makes
a list spread in a call. -/
theorem exists_call_list {k : Command} {f x : String} {xs : List Value}
    (hev : ev (.variable x true) s = readVariable s x true)
    (hf : w.scopes.get? s f = some (.command k)) (hx : w.scopes.get? s x = some (.list xs)) :
    ∃ notes, call ev s (.variable f false) [.variable x true] c w =
      k.run xs c { w with notes } :=
  exists_call_command hf (arguments_list hev hx)

end Eval

namespace Command

theorem run_len {xs : List Value} (h : xs.length ≠ 1) :
    run .len xs = pure (.number (Float.ofNat xs.length)) := by
  cases xs with
  | nil => rfl
  | cons v xs =>
    cases xs with
    | nil => exact absurd rfl h
    | cons => rfl

theorem run_len_singleton (v : Value) : run .len [v] = pure (.number (Float.ofNat v.size)) := rfl

end Command

namespace Session

/-- A script that gives a command a variable with a list runs the command with the items. The world
that it runs in has other notes, and the same scopes. -/
theorem ending_exec_list (s : Session) (f : Callee) {x : List Char} (hx : x ≠ [])
    (hname : ∀ c ∈ x, Text.isNameChar c = true) {k : Command} {xs : List Value}
    (hk : s.world.scopes.get? rootScope f.name = some (.command k))
    (hxs : s.world.scopes.get? rootScope (String.ofList x) = some (.list xs)) :
    ∃ w, (s.exec (String.ofList (f.command [.reference x hx hname]))).1.ending =
      (k.run xs s.settings w).1 := by
  let a : Written := .reference x hx hname
  obtain ⟨notes, heval⟩ := exists_eval_call f s
  have hparse := f.parse_command a []
  have hnumbers := Expr.numberList_of_isAtomic (Written.isAtomic_exprs [a])
  obtain ⟨n, hn⟩ := Eval.exists_enough
  have hread : Eval.evaluateFrom (n + 2) (.variable (String.ofList x) true) rootScope =
      Eval.readVariable rootScope (String.ofList x) true := rfl
  obtain ⟨notes', hcall⟩ := Eval.exists_call_list (c := s.settings)
    (w := { s.world with calls := 0, notes }) hread hk hxs
  refine ⟨{ s.world with calls := 0, notes := notes' }, ?_⟩
  have hending := (exec_of_not_blank (s := s) (f.isBlankText_append (Written.blankText [a]))).1
  refine hending.trans ((congrArg Prod.fst (heval _ _ hparse hnumbers)).trans ?_)
  rw [fst_run, Expr.evaluate, hn]
  exact congrArg Prod.fst hcall

/-- The word `len` as a callee. -/
def lenCallee : Callee := ⟨⟨"len".toList, by decide⟩, by decide⟩

/-- What comes of asking for the number of elements of a list. -/
theorem ending_exec_len (s : Session) {x : String} (hx : x ≠ "")
    (hname : ∀ c ∈ x.toList, Text.isNameChar c = true) {xs : List Value}
    (hlen : s.world.scopes.get? rootScope "len" = some (.command .len))
    (hxs : s.world.scopes.get? rootScope x = some (.list xs)) :
    ∃ w, (s.exec ("len $" ++ x)).1.ending = (Command.run .len xs s.settings w).1 := by
  have hne : x.toList ≠ [] := by simpa using hx
  have htext : String.ofList (lenCallee.command [.reference x.toList hne hname]) = "len $" ++ x := by
    rw [← String.toList_inj, String.toList_ofList, String.toList_append]
    simp [Callee.command, Written.blankText, Written.text, lenCallee]
  rw [← String.ofList_toList (s := x)] at hxs
  rw [← htext]
  exact s.ending_exec_list lenCallee hne hname hlen hxs

/-- **The number of elements of a list**, which `len` gives for every list but one with a single
element. Of that one it gives the size of the element, since it is passed the items of the list and
takes a single one for a value of its own. -/
theorem exec_len (s : Session) {x : String} (hx : x ≠ "")
    (hname : ∀ c ∈ x.toList, Text.isNameChar c = true) {xs : List Value}
    (hlen : s.world.scopes.get? rootScope "len" = some (.command .len))
    (hxs : s.world.scopes.get? rootScope x = some (.list xs)) :
    let report := (s.exec ("len $" ++ x)).1
    report.exitCode = 0 ∧
      (xs.length ≠ 1 → report.value = .number (Float.ofNat xs.length)) ∧
      ∀ v, xs = [v] → report.value = .number (Float.ofNat v.size) := by
  intro report
  obtain ⟨w, hending⟩ := s.ending_exec_len hx hname hlen hxs
  have hreport {n : Nat} (h : Command.run .len xs = pure (.number (Float.ofNat n))) :
      report.exitCode = 0 ∧ report.value = .number (Float.ofNat n) := by
    have hvalue : report.ending = .value (.number (Float.ofNat n)) := by
      rw [hending, h]
      rfl
    exact ⟨by rw [Report.exitCode, hvalue], by rw [Report.value, hvalue]⟩
  -- a list of one item is spread into that item, which is then counted
  by_cases hone : xs.length = 1
  · obtain ⟨v, rfl⟩ := List.length_eq_one_iff.1 hone
    obtain ⟨hcode, hvalue⟩ := hreport (Command.run_len_singleton v)
    refine ⟨hcode, fun h => absurd hone h, fun v' hv => ?_⟩
    cases hv
    exact hvalue
  · obtain ⟨hcode, hvalue⟩ := hreport (Command.run_len hone)
    refine ⟨hcode, fun _ => hvalue, fun v hv => ?_⟩
    rw [hv] at hone
    exact absurd rfl hone

/-- A list of a list and a text. -/
theorem exec_len_nested :
    let s := (start {} Command.standard []).bind "xs" (.list [.list [], .text "ab"])
    s.world.scopes.get? rootScope "len" = some (.command .len) ∧
      s.world.scopes.get? rootScope "xs" = some (.list [.list [], .text "ab"]) ∧
      (s.exec "len $xs").1.exitCode = 0 ∧ (s.exec "len $xs").1.value = .number (Float.ofNat 2) := by
  intro s
  have hlen : s.world.scopes.get? rootScope "len" = some (.command .len) := Scopes.get?_of_bound? rfl
  have hxs : s.world.scopes.get? rootScope "xs" = some (.list [.list [], .text "ab"]) :=
    Scopes.get?_of_bound? rfl
  have hname : ∀ c ∈ "xs".toList, Text.isNameChar c = true := List.all_eq_true.1 (by decide)
  obtain ⟨hcode, hcount, -⟩ := exec_len s (by decide) hname hlen hxs
  exact ⟨hlen, hxs, hcode, hcount (by decide)⟩

/-- Of a list with a single text of two characters, two elements are counted. -/
theorem exec_len_ne :
    let xs := [Value.text "ab"]
    let s := (start {} Command.standard []).bind "xs" (.list xs)
    (s.exec "len $xs").1.value ≠ .number (Float.ofNat xs.length) := by
  intro xs s
  have hlen : s.world.scopes.get? rootScope "len" = some (.command .len) := Scopes.get?_of_bound? rfl
  have hxs : s.world.scopes.get? rootScope "xs" = some (.list xs) := Scopes.get?_of_bound? rfl
  have hname : ∀ c ∈ "xs".toList, Text.isNameChar c = true := List.all_eq_true.1 (by decide)
  obtain ⟨w, hending⟩ := s.ending_exec_len (by decide) hname hlen hxs
  have hscript : "len $" ++ "xs" = "len $xs" := by decide
  rw [hscript] at hending
  have hvalue : (s.exec "len $xs").1.value = .number (Float.ofNat 2) := by
    rw [Report.value, hending]
    rfl
  rw [hvalue]
  intro h
  have hnumbers : Float.ofNat 2 = Float.ofNat 1 := Value.number.inj h
  have hdiffer : (Float.ofNat 2 == Float.ofNat 1) = false := by decide +kernel
  rw [hnumbers] at hdiffer
  exact absurd hdiffer (by decide +kernel)

end Session

end CommandLanguage
