import CommandLanguage.Proofs.Expr.Concat
import CommandLanguage.Proofs.Grammar.Barrier
import CommandLanguage.Proofs.Source.Plain
import CommandLanguage.Proofs.Token.Joined
import CommandLanguage.Proofs.Token.Layout

/-!
# An `if` on one line and on several

The normal form puts a `;` behind a line that does not go on, and an `if` looks for its `else` right
behind its first branch. So the lines of an `if` are read as one line is where no `;` comes between the
first branch and the `else` (`parse_if_lines`):

* with the `else` at the end of the line of the first branch, as there is no `;` within a line;
* with the `else` on a line of its own, if the line before it seems to go on, as one does that ends with
  the word `in`.

Any other line before the `else` gets its `;`, and that is a barrier: the script is not read
(`exists_error_of_readsAs`).

Only the tokens of the normal forms matter for this (`parse_of_readsAs`), and these are put together
from the tokens of the condition and the branches (`readsAs_ifText`).
-/

namespace CommandLanguage

open Token (Alike)

namespace Expr

open Source (normalize isPlain IsPlainLine closeLine endsInHead goesOn ifText)
open Lexer (tokens? ReadsAs isSpace_concat isSpace_singleton)

variable {c a b p d : List Char} {cs as bs ds us vs : List Token} {s s' : String} {es : List Expr}

/-! ## The tokens of an `if` -/

/-- The tokens of an `if` with two branches. -/
def ifTokens (cs as bs : List Token) : List Token :=
  .of (.keyword "if") :: (cs ++ .of (.keyword "then") :: (as ++ .of (.keyword "else") :: bs))

section

variable {x y z : Char} {w : String} (hx : Text.isBlank x = true) (hy : Text.isBlank y = true)
  (hz : Text.isBlank z = true) (hc : tokens? (Text.trimEnd c) = some cs) (hd : ReadsAs d ds)

include hx hy hd in
/-- Blanks at the end of a text do not matter before a reserved word. No token goes on over a blank
that is not quoted, and the word begins a new one. -/
theorem readsAs_trimEnd (hw : Lexeme.isKeyword w = true) (hp : tokens? (Text.trimEnd p) = some us) :
    ReadsAs (p ++ x :: (w.toList ++ y :: d)) (us ++ .of (.keyword w) :: ds) := by
  obtain ⟨u, hu, hblank⟩ := Text.exists_trimEnd_append p
  generalize Text.trimEnd p = q at hp hu
  subst hu
  have h := ReadsAs.reserved hp (isSpace_concat hx (List.all_eq_true.2 hblank)) hw
    (isSpace_singleton hy) hd
  simpa using h

include hx hc hd in
/-- The condition before what comes behind `then`. -/
theorem readsAs_if : ReadsAs ("if ".toList ++ (c ++ " then".toList ++ x :: d))
    (.of (.keyword "if") :: (cs ++ .of (.keyword "then") :: ds)) := by
  have hthen := readsAs_trimEnd Text.isBlank_space hx hd (w := "then") (by decide) hc
  have h := ReadsAs.reserved_cons (w := "if") (by decide) (isSpace_singleton Text.isBlank_space) hthen
  simpa using h

include hx hy hz hc hd

theorem readsAs_ifText (ha : tokens? (Text.trimEnd a) = some as) :
    ReadsAs (ifText x y z c a d) (ifTokens cs as ds) := by
  have helse := readsAs_trimEnd hy hz hd (w := "else") (by decide) ha
  simpa [ifText, ifTokens] using readsAs_if hx hc helse

/-- A `;` behind the first branch is a token of its own. -/
theorem readsAs_ifText_semicolon (ha : tokens? p = some as) :
    ReadsAs (ifText x y z c (p ++ [';']) d) (ifTokens cs (as ++ [.of (.punctuation ';')]) ds) := by
  have hline : Lexer.dropBlanks [y] = [] :=
    Lexer.dropBlanks_of_isBlankText (by simpa [Text.isBlankText] using hy)
  have helse := ReadsAs.reserved_cons (w := "else") (by decide) (isSpace_singleton hz) hd
  have hsemicolon := ReadsAs.semicolon ha (helse.dropped hline)
  simpa [ifText, ifTokens] using readsAs_if hx hc hsemicolon

end

/-! ## Scripts by their tokens

Whether a script is read and as what depends on its tokens up to their places. So scripts of the
same tokens are read alike, however they are laid out. -/

theorem exists_ofText (h : ReadsAs p us) :
    ∃ ts q, Tokens.ofText p = { ahead := ts, ending := .ok q } ∧ Alike ts us := by
  obtain ⟨ts, hts, halike⟩ := h
  obtain ⟨q, hq⟩ := Lexer.exists_scan_iff.2 (Lexer.tokens?_eq_some_iff.1 hts)
  exact ⟨ts, q, by rw [Tokens.ofText, hq], halike⟩

/-- Scripts whose normal forms have the same tokens are the same. The places of the tokens differ,
but what is read does not depend on them; a fault may name one, and so only scripts that are read
are compared. -/
theorem parse_of_readsAs (h : ReadsAs (normalize s).toList us) (h' : ReadsAs (normalize s').toList us)
    (hs : parse s = .ok es) : parse s' = .ok es := by
  obtain ⟨ts, q, htokens, halike⟩ := exists_ofText h
  obtain ⟨ts', q', htokens', halike'⟩ := exists_ofText h'
  obtain ⟨r, hr⟩ := exists_run_of_parse hs
  rw [htokens] at hr
  have hlonger : Grammar.Longer [] { ahead := ts, ending := .ok q } { ahead := ts', ending := .ok q' } :=
    ⟨by rw [List.append_nil]; exact halike'.trans halike.symm, q', rfl⟩
  obtain ⟨r', hr'⟩ := Grammar.run_program_alike hr hlonger
  rw [parse, parseNormal, htokens', hr']
  rfl

/-- A script with a barrier in its tokens is not read. Whatever stands before the `;` and behind the
`else` makes no difference, as long as no body of a loop begins there. -/
theorem exists_error_of_readsAs
    (h : ReadsAs (normalize s).toList (us ++ .of (.punctuation ';') :: .of (.keyword "else") :: vs))
    (hvs : ∀ t ∈ vs, t.opensBody = false) : ∃ f, parse s = .error f := by
  obtain ⟨ts, q, htokens, halike⟩ := exists_ofText h
  obtain ⟨us', ts', rfl, -, hts⟩ := halike.exists_append
  obtain ⟨t, ts', rfl, ht, hts⟩ := hts.exists_cons
  obtain ⟨u, vs', rfl, hu, hvs'⟩ := hts.exists_cons
  obtain ⟨p, rfl⟩ := Alike.exists_plain ht
  obtain ⟨p', rfl⟩ := Alike.exists_plain hu
  let B : Grammar.Barrier := {
    semicolon := p
    other := p'
    behind := vs'
    closed := Token.opensBody_of_alike hvs' hvs }
  obtain ⟨f, hf⟩ := Grammar.run_program_of_barrier (B := B)
    (s := { ahead := us' ++ B.tokens, ending := .ok q }) (List.suffix_append us' B.tokens)
  refine ⟨f, ?_⟩
  rw [parse, parseNormal, htokens]
  change (Grammar.run Grammar.program { ahead := us' ++ B.tokens, ending := .ok q }).map Prod.fst = _
  rw [hf]
  rfl

/-! ## Conditions and commands -/

/-- A text on one line, without quotes, braces, `;` and `#`, that is read on its own. So it has the
same tokens on whichever line it stands, and nothing in it is changed by the normal form. -/
structure IsPhrase (s : List Char) : Prop where
  /-- it has none of these characters in it -/
  plain : ∀ c ∈ s, isPlain c = true
  /-- but for blanks at its end, it is tokens to its end, and it is not blank -/
  reads : ∃ ts, tokens? (Text.trimEnd s) = some ts ∧ ts ≠ []

theorem IsPhrase.of_all (hplain : p.all isPlain = true)
    (hreads : (tokens? (Text.trimEnd p)).any (!·.isEmpty) = true) : IsPhrase p where
  plain := List.all_eq_true.1 hplain
  reads := by simpa [Option.any_eq_true] using hreads

theorem IsPhrase.isPlainLine (h : IsPhrase p) : IsPlainLine p where
  plain := h.plain
  filled := by
    refine Bool.eq_false_iff.2 fun hblank => ?_
    obtain ⟨ts, hts, hne⟩ := h.reads
    rw [← Text.isBlankText_trimEnd] at hblank
    exact hne ((Lexer.tokens?_eq_some_iff.1 hts).eq_nil (Lexer.dropBlanks_of_isBlankText hblank))

/-- A phrase without the word that begins the body of a loop. In commands that word ends the
arguments. -/
structure IsCommand (s : List Char) : Prop extends IsPhrase s where
  /-- there is no `do` -/
  loops : ∀ ts, tokens? (Text.trimEnd s) = some ts → ∀ t ∈ ts, t.isKeyword "do" = false

theorem IsCommand.of_all (h : IsPhrase p)
    (hloops : (tokens? (Text.trimEnd p)).all (·.all (!·.isKeyword "do")) = true) : IsCommand p where
  toIsPhrase := h
  loops ts hts t ht := by
    rw [hts] at hloops
    simpa using List.all_eq_true.1 hloops t ht

/-- The last line of a normal form, closed or not. If it is closed then its `;` is one more token,
and that is no body of a loop either. -/
theorem IsCommand.exists_readsAs (h : IsCommand p) (wasOpen : Bool) :
    ∃ ds, ReadsAs (closeLine wasOpen (Text.trimEnd p)) ds ∧ ∀ t ∈ ds, t.opensBody = false := by
  obtain ⟨ts, hts, -⟩ := h.reads
  have hbrace : '\x7b' ∉ Text.trimEnd p := fun hmem => by
    cases h.plain _ (Text.mem_of_mem_trimEnd hmem)
  have hopens : ∀ t ∈ ts, t.opensBody = false := by
    intro t ht
    have hlayout : Lexer.Layout [] (Text.trimEnd p) ts := (Lexer.tokens?_eq_some_iff.1 hts).layout rfl
    rw [Token.opensBody, h.loops ts hts t ht, Bool.false_or, Bool.eq_false_iff]
    exact fun hbracket => hbrace (hlayout.mem_of_isPunctuation ht hbracket)
  unfold closeLine
  split
  · exact ⟨ts, .of_tokens? hts, hopens⟩
  · have hnil : ReadsAs [] [] := .of_tokens? rfl
    refine ⟨_, .semicolon hts hnil, List.forall_mem_append.2 ⟨hopens, ?_⟩⟩
    exact List.forall_mem_singleton.2 rfl

/-! ## The lines of an `if` -/

/-- An `if` on one line. -/
def ifOneLine (c a b : String) : String := s!"if {c} then {a} else {b}"

/-- An `if` on three lines, with the `else` at the end of the second one. -/
def ifThreeLines (c a b : String) : String := s!"if {c} then\n{a} else\n{b}"

/-- An `if` on four lines, with the `else` on a line of its own. -/
def ifFourLines (c a b : String) : String := s!"if {c} then\n{a}\nelse\n{b}"

section

variable {c a b : String} (hc : IsPhrase c.toList) (ha : IsPhrase a.toList) (hb : IsPhrase b.toList)
  (hcs : tokens? (Text.trimEnd c.toList) = some cs) (has : tokens? (Text.trimEnd a.toList) = some as)
  (hbs : ReadsAs (closeLine true (Text.trimEnd b.toList)) bs)

include hc ha hb hcs has hbs

theorem readsAs_oneLine :
    ReadsAs (normalize (ifOneLine c a b)).toList (ifTokens cs as bs) := by
  have htext : ifOneLine c a b =
      String.ofList (ifText ' ' ' ' ' ' c.toList a.toList b.toList) := by
    simp [← String.toList_inj, ifText, ifOneLine, toString]
  rw [htext, Source.normalize_oneLine hc.isPlainLine ha.isPlainLine hb.isPlainLine, String.toList_ofList]
  exact readsAs_ifText rfl rfl rfl hcs hbs has

theorem readsAs_threeLines :
    ReadsAs (normalize (ifThreeLines c a b)).toList (ifTokens cs as bs) := by
  have htext : ifThreeLines c a b =
      String.ofList (ifText '\n' ' ' '\n' c.toList a.toList b.toList) := by
    simp [← String.toList_inj, ifText, ifThreeLines, toString]
  rw [htext, Source.normalize_threeLines hc.isPlainLine ha.isPlainLine hb.isPlainLine, String.toList_ofList]
  exact readsAs_ifText rfl rfl rfl hcs hbs has

/-- On four lines, the first branch has the `;` of its line, unless the line goes on. -/
theorem readsAs_fourLines :
    ReadsAs (normalize (ifFourLines c a b)).toList
      (ifTokens cs (if endsInHead a.toList true || goesOn a.toList then as
        else as ++ [.of (.punctuation ';')]) bs) := by
  have htext : ifFourLines c a b =
      String.ofList (ifText '\n' '\n' '\n' c.toList a.toList b.toList) := by
    simp [← String.toList_inj, ifText, ifFourLines, toString]
  rw [htext, Source.normalize_fourLines hc.isPlainLine ha.isPlainLine hb.isPlainLine, String.toList_ofList,
    Source.closeLine_trimEnd a.toList]
  split
  · exact readsAs_ifText rfl rfl rfl hcs hbs (by rw [Text.trimEnd_trimEnd]; exact has)
  · exact readsAs_ifText_semicolon rfl rfl rfl hcs hbs has

end

/-- **An `if` on several lines** is the same as on one line if the `else` stands on the line of the first
branch. On a line of its own the `else` is only found if the line before it goes on: otherwise that line
gets a `;`, and none is allowed before an `else`. -/
theorem parse_if_lines {c a b : String} (hc : IsPhrase c.toList) (ha : IsPhrase a.toList)
    (hb : IsCommand b.toList) :
    (∀ es, parse (ifThreeLines c a b) = .ok es ↔ parse (ifOneLine c a b) = .ok es) ∧
    ((endsInHead a.toList true || goesOn a.toList) = true → ∀ es,
      parse (ifFourLines c a b) = .ok es ↔ parse (ifOneLine c a b) = .ok es) ∧
    ((endsInHead a.toList true || goesOn a.toList) = false →
      ∃ f, parse (ifFourLines c a b) = .error f) := by
  obtain ⟨cs, hcs, -⟩ := hc.reads
  obtain ⟨as, has, -⟩ := ha.reads
  obtain ⟨bs, hbs, hopens⟩ := hb.exists_readsAs true
  have hone := readsAs_oneLine hc ha hb.toIsPhrase hcs has hbs
  have hthree := readsAs_threeLines hc ha hb.toIsPhrase hcs has hbs
  have hfour := readsAs_fourLines hc ha hb.toIsPhrase hcs has hbs
  refine ⟨fun es => ⟨parse_of_readsAs hthree hone, parse_of_readsAs hone hthree⟩, ?_, ?_⟩
  · intro hgoes es
    rw [if_pos hgoes] at hfour
    exact ⟨parse_of_readsAs hfour hone, parse_of_readsAs hone hfour⟩
  · intro hends
    -- the line before `else` has got a `;`, at which the statement ends
    rw [if_neg (Bool.eq_false_iff.1 hends)] at hfour
    have hbarrier : ReadsAs (normalize (ifFourLines c a b)).toList
        ((.of (.keyword "if") :: (cs ++ .of (.keyword "then") :: as)) ++
          .of (.punctuation ';') :: .of (.keyword "else") :: bs) := by
      simpa [ifTokens] using hfour
    exact exists_error_of_readsAs hbarrier hopens

theorem parse_if_lines_echo :
    (∃ es, es.length = 1 ∧ parse (ifOneLine "true" "echo 1" "echo 2") = .ok es ∧
      parse (ifThreeLines "true" "echo 1" "echo 2") = .ok es) ∧
    (∃ es, es.length = 1 ∧ parse (ifOneLine "true" "echo in" "echo 2") = .ok es ∧
      parse (ifFourLines "true" "echo in" "echo 2") = .ok es) ∧
    ∃ f, parse (ifFourLines "true" "echo 1" "echo 2") = .error f := by
  have hc : IsPhrase "true".toList := .of_all (by decide) (by decide +kernel)
  have hin : IsPhrase "echo in".toList := .of_all (by decide) (by decide +kernel)
  have ha : IsPhrase "echo 1".toList := .of_all (by decide) (by decide +kernel)
  have hb : IsCommand "echo 2".toList := .of_all (.of_all (by decide) (by decide +kernel)) (by decide +kernel)
  obtain ⟨es, hes, hlength⟩ :=
    exists_parse (s := ifOneLine "true" "echo 1" "echo 2") (n := 1) (by decide +kernel)
  obtain ⟨es', hes', hlength'⟩ :=
    exists_parse (s := ifOneLine "true" "echo in" "echo 2") (n := 1) (by decide +kernel)
  obtain ⟨hthree, -, herror⟩ := parse_if_lines hc ha hb
  obtain ⟨-, hfour, -⟩ := parse_if_lines hc hin hb
  exact ⟨⟨es, hlength, hes, (hthree es).2 hes⟩,
    ⟨es', hlength', hes', (hfour (by decide +kernel) es').2 hes'⟩, herror (by decide +kernel)⟩

/-- Whether a script is one `if` that has a call in either branch. -/
def isChoice : List Expr → Bool
  | [.ifThenElse _ (.call _ _) (.call _ _)] => true
  | _ => false

theorem exists_of_isChoice {es : List Expr} (h : isChoice es = true) :
    ∃ e f as g bs, es = [.ifThenElse e (.call f as) (.call g bs)] := by
  unfold isChoice at h
  split at h
  · exact ⟨_, _, _, _, _, rfl⟩
  · cases h

/-- The `;` that ends the line of the first call ends the `if` as well. -/
theorem parse_if_lines_ne : ¬∀ (c a b : String) (e f g : Expr) (as bs : List Expr),
    (∀ x ∈ c.toList ++ a.toList ++ b.toList, isPlain x = true) →
    parse (ifOneLine c a b) = .ok [.ifThenElse e (.call f as) (.call g bs)] →
      parse (ifFourLines c a b) = .ok [.ifThenElse e (.call f as) (.call g bs)] := by
  intro h
  have hplain : ∀ x ∈ "true".toList ++ "echo 1".toList ++ "echo 2".toList, isPlain x = true :=
    List.all_eq_true.1 (by decide)
  have hone : (parse (ifOneLine "true" "echo 1" "echo 2")).toOption.any isChoice = true := by
    decide +kernel
  have hfour : (parse (ifFourLines "true" "echo 1" "echo 2")).toOption.isNone = true := by
    decide +kernel
  cases hparse : parse (ifOneLine "true" "echo 1" "echo 2") with
  | error f =>
    rw [hparse] at hone
    cases hone
  | ok es =>
    rw [hparse] at hone
    obtain ⟨e, f, as, g, bs, rfl⟩ := exists_of_isChoice hone
    rw [h _ _ _ e f g as bs hplain hparse] at hfour
    cases hfour

end Expr

end CommandLanguage
