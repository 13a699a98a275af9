import CommandLanguage.Proofs.Grammar.Script
import CommandLanguage.Proofs.Reference.Escape
import CommandLanguage.Proofs.Source.Literal

/-!
# Reading a text between double quotes

Between double quotes, escapes for a backslash, a quote and a line end are replaced when tokens are
read. A `$` keeps its backslash, which expansion takes away: the token for a text `v` holds
`Reference.escape v`.
-/

namespace CommandLanguage

namespace Lexer

open Source (doubleQuoted escapeChar)

/-- An escaped character is read as itself, but for a `$`, which keeps its backslash until the text
is expanded. -/
theorem unescaped_escapeChar (c : Char) (s : List Char) :
    unescaped .double (escapeChar c ++ s) = Reference.escape [c] ++ unescaped .double s := by
  -- the four characters that are escaped, and all others
  by_cases hb : c = '\\'
  · subst hb
    rfl
  by_cases hq : c = '"'
  · subst hq
    rfl
  by_cases hn : c = '\n'
  · subst hn
    rfl
  by_cases hd : c = '$'
  · subst hd
    rfl
  rw [Source.escapeChar_of_ne hb hq hn hd, List.singleton_append, unescaped]
  · simp [hd]
  · exact fun _ _ hc => absurd hc hb

/-- What an escaped text stands for is the text with a backslash before every `$`. -/
theorem unescaped_flatMap (v : List Char) :
    unescaped .double (v.flatMap escapeChar) = Reference.escape v := by
  induction v with
  | nil => rfl
  | cons c v ih =>
    rw [List.flatMap_cons, unescaped_escapeChar, ih]
    simp

/-- A text that is no word with groups is read as a text. -/
theorem quotedLexeme_escape {v : List Char} (h : Braces.isBraceWord v = false) :
    quotedLexeme .double (Reference.escape v) =
      .text (String.ofList (Reference.escape v)) .double := by
  simp [quotedLexeme, Braces.isParameterWord_escape, Braces.isBraceWord_escape, h]

/-- The line for a text has two tokens. -/
theorem lexes_doubleQuoted {v : List Char} (hv : Braces.isBraceWord v = false)
    (inner : List Char → Option (List Token)) :
    Lexes inner (doubleQuoted v ++ [';'])
      [.of (.text (String.ofList (Reference.escape v)) .double), .mark ';'] := by
  have hfirst : Gives inner (doubleQuoted v ++ [';']) (.of (quotedLexeme .double _)) [';'] :=
    .quoted (Source.holds_escaped v)
  rw [unescaped_flatMap, quotedLexeme_escape hv] at hfirst
  exact .cons hfirst (.cons (.mark (by decide)) .nil)

end Lexer

/-- A text alone is a script. -/
theorem Expr.parse_doubleQuoted {v : List Char} (hv : Braces.isBraceWord v = false) :
    Expr.parse (String.ofList (Source.doubleQuoted v)) =
      .ok [.text (String.ofList (Reference.escape v)) .double] :=
  let e : Grammar.Term := .atom (.text (String.ofList (Reference.escape v)) .double)
  parse_line (e := e) (Source.isSettled_doubleQuoted v) (Lexer.lexes_doubleQuoted hv _)

end CommandLanguage
