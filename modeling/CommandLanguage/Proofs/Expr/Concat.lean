import CommandLanguage.Proofs.Grammar.Concat
import CommandLanguage.Proofs.Source.Concat
import CommandLanguage.Proofs.Token.Passes

/-!
# Scripts, one after the other

Two scripts with a new line between them read as the statements of the first and then those of the
second (`Expr.parse_append`), if the normal form of the first is empty or ends in a `;`. Then nothing
of the first is carried over the new line: not by the normal form, which closes its lines one by one;
not by the tokens, since no token goes on behind a `;`; and not by the grammar, in which a `;` ends a
statement.

The normal form of a script can end in something else although nothing is missing
(`parse_append_ne`): a word such as `in` at the end of a line makes it go on wherever the line begins
with a word such as `if`, also if it is no more than an argument; and so does an opening bracket that
is the last character of a path.
-/

namespace CommandLanguage.Expr

open Source (normalize IsEnded)

theorem exists_run_of_parse {s : String} {es : List Expr} (h : parse s = .ok es) :
    ∃ r, Grammar.run Grammar.program (.ofText (normalize s).toList) = .ok (es, r) := by
  unfold parse parseNormal at h
  cases hrun : Grammar.run Grammar.program (.ofText (normalize s).toList) with
  | error f =>
    rw [hrun] at h
    cases h
  | ok x =>
    obtain ⟨es', r⟩ := x
    rw [hrun] at h
    cases h
    exact ⟨r, rfl⟩

/-- A script that is read is tokens to its end. A fault of the lexer would have been come to, as
nothing is left behind a script. -/
theorem exists_scan_of_run {s : List Char} {es : List Expr} {r : Tokens}
    (h : Grammar.run Grammar.program (.ofText s) = .ok (es, r)) :
    ∃ ts p, Lexer.scan s = ⟨ts, .ok p⟩ := by
  obtain ⟨p, hp⟩ := Grammar.ending_of_program h
  exact ⟨(Lexer.scan s).tokens, p, by rw [← hp]; rfl⟩

theorem parse_of_normalize_eq_nil {s : String} {es : List Expr} (h : parse s = .ok es)
    (hs : normalize s = "") : es = [] := by
  rw [parse, hs] at h
  have hnil : parseNormal "" = .ok [] := rfl
  rw [hnil] at h
  exact (Except.ok.inj h).symm

/-- **The statements of two scripts with a new line between them** are those of the first and then
those of the second, if the normal form of the first is empty or ends in a `;`. -/
theorem parse_append {s t : String} {es es' : List Expr} (h : parse s = .ok es)
    (h' : parse t = .ok es') (hended : IsEnded s) : parse (s ++ "\n" ++ t) = .ok (es ++ es') := by
  obtain ⟨hnil, hsame⟩ | ⟨hnil, hsame⟩ | ⟨hne, happend⟩ := Source.normalize_append hended t
  · -- one of the scripts is blank, and the other is all there is
    rw [parse_of_normalize_eq_nil h hnil, parse, hsame]
    exact h'
  · rw [parse_of_normalize_eq_nil h' hnil, parse, hsame, List.append_nil]
    exact h
  · obtain ⟨r, hr⟩ := exists_run_of_parse h
    obtain ⟨r', hr'⟩ := exists_run_of_parse h'
    obtain ⟨ts, p, hscan⟩ := exists_scan_of_run hr
    obtain ⟨us, q, hscan'⟩ := exists_scan_of_run hr'
    -- the first one ends in a `;`, so its tokens end there too
    have hlast : (normalize s).toList.getLast? = some ';' := by
      cases hc : (normalize s).toList.getLast? with
      | none => exact absurd (by simpa using List.getLast?_eq_none_iff.1 hc) hne
      | some c => rw [hended c hc]
    obtain ⟨hsemicolon, us', p', hjoin, halike⟩ := Lexer.exists_scan_join hscan hlast hscan'
    have htokens : Tokens.ofText (normalize (s ++ "\n" ++ t)).toList =
        { ahead := ts ++ us', ending := .ok p' } := by
      have hlist : (normalize s ++ "\n" ++ normalize t).toList =
          (normalize s).toList ++ '\n' :: (normalize t).toList := by simp
      rw [happend, hlist, Tokens.ofText, hjoin]
    rw [Tokens.ofText, hscan] at hr
    rw [Tokens.ofText, hscan'] at hr'
    have hts : Grammar.IsEnded ts := fun u hu => by
      rw [hu] at hsemicolon
      exact hsemicolon
    -- to the parser, the second script is more tokens behind those of the first
    have hlonger : Grammar.Longer us { ahead := ts, ending := .ok p }
        { ahead := ts ++ us', ending := .ok p' } := ⟨(Token.Alike.refl ts).append halike, p', rfl⟩
    obtain ⟨r'', hr''⟩ := Grammar.program_append hr hts hr' hlonger
    rw [parse, parseNormal, htokens, hr'']
    rfl

theorem exists_parse {s : String} {n : Nat}
    (h : (parse s).toOption.map List.length = some n) : ∃ es, parse s = .ok es ∧ es.length = n := by
  cases hs : parse s with
  | error f =>
    rw [hs] at h
    cases h
  | ok es =>
    rw [hs] at h
    exact ⟨es, rfl, Option.some.inj h⟩

theorem parse_append_loop : ∃ es es', es.length = 2 ∧ es'.length = 1 ∧
    parse ("x = 1 # one\nwhile x < 3 do\necho x\nx++; done" ++ "\n" ++ "echo in") =
      .ok (es ++ es') := by
  obtain ⟨es, hs, hlength⟩ :=
    exists_parse (s := "x = 1 # one\nwhile x < 3 do\necho x\nx++; done") (n := 2) (by decide +kernel)
  obtain ⟨es', ht, hlength'⟩ := exists_parse (s := "echo in") (n := 1) (by decide +kernel)
  exact ⟨es, es', hlength, hlength', parse_append hs ht (by decide +kernel)⟩

/-- An `in` that is an argument is taken for that of a loop, so that the next line goes on with the
arguments. -/
theorem parse_append_ne : ¬∀ (s t : String) (es es' : List Expr), parse s = .ok es →
    parse t = .ok es' → parse (s ++ "\n" ++ t) = .ok (es ++ es') := by
  intro h
  obtain ⟨es, hs, hlength⟩ :=
    exists_parse (s := "if true then echo in") (n := 1) (by decide +kernel)
  obtain ⟨es', ht, hlength'⟩ := exists_parse (s := "echo b") (n := 1) (by decide +kernel)
  obtain ⟨es'', hst, hlength''⟩ :=
    exists_parse (s := "if true then echo in" ++ "\n" ++ "echo b") (n := 1) (by decide +kernel)
  rw [h _ _ _ _ hs ht] at hst
  have hsame := congrArg List.length (Except.ok.inj hst)
  rw [List.length_append] at hsame
  omega

end CommandLanguage.Expr
