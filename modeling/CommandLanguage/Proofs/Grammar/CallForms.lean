import CommandLanguage.Proofs.Grammar.Script
import CommandLanguage.Proofs.Token.Arguments

/-!
# The two forms of a call

A call is written as a command, `name argument …`, or with parentheses, `name(argument, …)`. Both
are read as the same call, unless the text between the parentheses is an array literal, which is
then the only argument.
-/

namespace CommandLanguage

open Grammar (Atom Term)
open Lexer
open Text (isNameChar isBlank)

/-! ## Arguments in lines

What the normal form of a line and its tokens depend on is said of each argument alone and then of
several, with blanks or with commas between them. -/

namespace Written

open Source (isOrdinary endsLine)

variable {as : List Written}

/-- A bare character is none that quotes or comments begin with, so a scan for them passes it by. -/
theorem isOrdinary_of_isBare {c : Char} (h : isBare c = true) : isOrdinary c = true := by
  rw [isOrdinary, Text.contains_eq_false h (by decide)]
  rfl

/-- A bare character may stand last in a line that ends a statement. -/
theorem endsLine_of_isBare {c : Char} (h : isBare c = true) : endsLine c = true := by
  have hblank : isBlank c = false := by
    simp only [isBare, Bool.or_eq_true, beq_iff_eq] at h
    obtain (h | rfl) | rfl := h
    · exact Text.isBlank_of_isNameChar h
    · rfl
    · rfl
  rw [endsLine, hblank, Text.contains_eq_false h (by decide)]
  rfl

/-- An argument leaves a scan for quotes where it was: it has no quote in it, or a pair of them
around what does not close it. -/
theorem passes_text (a : Written) : Quotes.Passes {} a.text {} := by
  rcases a.bare_or_quoted with hbare | ⟨q, s, holds, htext⟩
  · exact .of_forall fun c hc => isOrdinary_of_isBare (hbare c hc)
  · rw [htext]
    exact holds.passes_enclose

/-- An argument stands in one line. -/
theorem newline_not_mem_text (a : Written) : '\n' ∉ a.text := by
  rcases a.bare_or_quoted with hbare | ⟨q, s, holds, htext⟩
  · intro h
    cases hbare '\n' h
  · rw [htext]
    exact holds.newline_not_mem_enclose

/-- No argument is empty: the empty text has its quotes. -/
theorem text_ne_nil (a : Written) : a.text ≠ [] := by
  cases a with
  | word n free =>
    intro h
    have hname := n.isName
    rw [show n.text = [] from h] at hname
    cases hname
  | number whole fraction ne_nil _ _ =>
    simp only [text, numberText]
    split <;> simp [ne_nil]
  | _ => exact List.cons_ne_nil _ _

/-- A line that ends in an argument ends a statement. -/
theorem exists_getLast?_text (a : Written) : ∃ c, a.text.getLast? = some c ∧ endsLine c = true := by
  rcases a.bare_or_quoted with hbare | ⟨q, s, holds, htext⟩
  · exact ⟨a.text.getLast a.text_ne_nil, List.getLast?_eq_some_getLast _,
      endsLine_of_isBare (hbare _ (List.getLast_mem _))⟩
  · refine ⟨q.char, ?_, by cases q <;> decide⟩
    rw [htext, Quote.enclose, ← List.cons_append, List.getLast?_concat]

/-- Arguments with blanks between them leave a scan for quotes where it was. -/
theorem passes_blankText (as : List Written) : Quotes.Passes {} (blankText as) {} := by
  induction as with
  | nil => exact .nil {}
  | cons a as ih => exact .ordinary (by decide) (a.passes_text.append ih)

/-- Arguments with commas between them leave a scan for quotes where it was. -/
theorem passes_commaText (as : List Written) : Quotes.Passes {} (commaText as) {} := by
  induction as with
  | nil => exact .nil {}
  | cons a as ih =>
    cases as with
    | nil => exact a.passes_text
    | cons b as =>
      exact a.passes_text.append (.ordinary (by decide) (.ordinary (by decide) ih))

/-- The arguments of a command stand in one line. -/
theorem newline_not_mem_blankText (as : List Written) : '\n' ∉ blankText as := by
  simp [blankText, newline_not_mem_text]

/-- The arguments between parentheses stand in one line. -/
theorem newline_not_mem_commaText (as : List Written) : '\n' ∉ commaText as := by
  induction as with
  | nil => exact List.not_mem_nil
  | cons a as ih =>
    cases as with
    | nil => exact a.newline_not_mem_text
    | cons b as => simp [commaText, newline_not_mem_text, ih]

/-- A command that has arguments ends as the last of them does. -/
theorem exists_getLast?_blankText (s : List Char) (a : Written) (as : List Written) :
    ∃ c, (s ++ blankText (a :: as)).getLast? = some c ∧ endsLine c = true := by
  induction as generalizing s a with
  | nil =>
    obtain ⟨c, hc, hends⟩ := a.exists_getLast?_text
    refine ⟨c, ?_, hends⟩
    simp [blankText, List.getLast?_append, List.getLast?_cons, hc]
  | cons b as ih =>
    have htext : s ++ blankText (a :: b :: as) = (s ++ ' ' :: a.text) ++ blankText (b :: as) := by
      simp [blankText]
    rw [htext]
    exact ih _ b

/-- Arguments stand for values. -/
theorem value_eq (a : Written) (self : Nat → Grammar.Parse Expr) :
    Grammar.value self a.token = .ok a.expr := by
  refine a.atom_cases (P := fun b => Grammar.value self b.token = .ok b.expr) ?_ ?_ ?_ ?_ ?_ ?_ ?_
  all_goals intros; rfl

/-- Arguments stand for values one by one, as the items of an array literal do. -/
theorem values_eq (as : List Written) (self : Nat → Grammar.Parse Expr) :
    Grammar.values self (as.map token) = .ok (as.map expr) := by
  induction as with
  | nil => rfl
  | cons a as ih =>
    rw [List.map_cons, Grammar.values, a.value_eq, ih]
    rfl

/-- An array literal of arguments. -/
def arrayAtom (as : List Written) : Atom where
  token := .array (as.map token) default
  expr := .array (as.map expr)
  value_eq := by
    rw [Grammar.value, values_eq]
    rfl

/-- Arguments as terms, and the expressions that they stand for. -/
theorem exprs_eq (as : List Written) : Term.exprs (as.map fun a => .atom a.atom) = as.map expr := by
  induction as with
  | nil => rfl
  | cons a as ih =>
    rw [List.map_cons, Term.exprs, ih]
    rfl

/-- What arguments between parentheses are read as. -/
def enclosedExprs (as : List Written) : List Expr :=
  if IsArray as then [.array (as.map expr)] else as.map expr

end Written

/-! ## Calls in lines -/

/-- A word that a call can begin with: one that is not reserved and no truth value. -/
structure Callee where
  /-- the word -/
  word : Reference.Name
  /-- it is read as a word -/
  free : wordLexeme? (String.ofList word.text) = none

namespace Callee

variable (f : Callee)

/-- The name to look up. -/
def name : String := String.ofList f.word.text

/-- The expression that a callee stands for. -/
def expr : Expr := .variable f.name false

/-- A call as a command. -/
def command (as : List Written) : List Char := f.word.text ++ Written.blankText as

/-- A call with parentheses. -/
def direct (as : List Written) : List Char := f.word.text ++ '(' :: (Written.commaText as ++ [')'])

/-- A callee gives the token of a word, since it is not reserved and nothing that would belong to it
follows. -/
theorem gives_word {inner : List Char → Option (List Token)} {r : List Char}
    (hr : isEnd r = true) : Gives inner (f.word.text ++ r) (.word f.name) r := by
  have hfirst : Gives inner (f.word.text ++ r) _ r := .word f.word hr
  rwa [wordLexeme, f.free] at hfirst

/-- The first word of a line that begins with a callee. -/
theorem exists_words_eq_cons (r : List Char) : ∃ ws,
    Text.words (f.word.text ++ r) = (f.word.text ++ r.takeWhile (!isBlank ·)) :: ws := by
  obtain ⟨⟨w, hname⟩, free⟩ := f
  cases w with
  | nil => cases hname
  | cons a w =>
    have hblank : ∀ c ∈ a :: w, isBlank c = false := fun c hc =>
      Text.isBlank_of_isNameChar (Reference.Name.isNameChar_of_mem ⟨a :: w, hname⟩ hc)
    obtain ⟨ws, hws⟩ := Text.exists_words_eq_cons (hblank a List.mem_cons_self) (w ++ r)
    refine ⟨ws, ?_⟩
    rw [List.cons_append, hws, List.takeWhile_append_of_pos fun c hc => by
      rw [hblank c (List.mem_cons_of_mem a hc)]; rfl]
    rfl

/-- A callee has no quote in it. -/
theorem passes_word : Quotes.Passes {} f.word.text {} :=
  .of_forall fun _ hc => Written.isOrdinary_of_isBare (by
    simp [Written.isBare, f.word.isNameChar_of_mem hc])

/-- A callee stands in one line. -/
theorem newline_not_mem_word : '\n' ∉ f.word.text :=
  fun h => absurd rfl (f.word.ne_of_mem h (by decide))

/-- A callee is no reserved word, so that no control statement begins with it. -/
theorem not_headWord : Source.headWords.contains f.name = false := by
  have hreserved : ∀ e ∈ Source.headWords, wordLexeme? e ≠ none := by decide
  rw [List.contains_eq_any_beq, List.any_eq_false]
  intro e he hbeq
  obtain rfl := eq_of_beq hbeq
  exact hreserved _ he f.free

/-- A line with a command needs nothing done to it: no quote is open at its end, no control
statement goes on behind it, and its last character ends a statement. -/
theorem isSettled_command (a : Written) (as : List Written) :
    Source.IsSettled (f.command (a :: as)) where
  passes := f.passes_word.append (Written.passes_blankText _)
  newline := by
    simp [command, f.newline_not_mem_word, Written.newline_not_mem_blankText]
  last := Written.exists_getLast?_blankText _ a as
  first := by
    obtain ⟨ws, hws⟩ := f.exists_words_eq_cons (Written.blankText (a :: as))
    have hnone : (Written.blankText (a :: as)).takeWhile (!isBlank ·) = [] := rfl
    rw [command, hws, hnone, List.append_nil]
    exact f.not_headWord

/-- A line with a call in parentheses needs nothing done to it. Its last character is the `)`. -/
theorem isSettled_direct (as : List Written) : Source.IsSettled (f.direct as) where
  passes := f.passes_word.append <| .ordinary (by decide) <|
    (Written.passes_commaText as).append (.ordinary (by decide) (.nil {}))
  newline := by
    simp [direct, f.newline_not_mem_word, Written.newline_not_mem_commaText]
  last := ⟨')', by simp [direct, List.getLast?_append, List.getLast?_cons], by decide⟩
  first := by
    obtain ⟨ws, hws⟩ := f.exists_words_eq_cons ('(' :: (Written.commaText as ++ [')']))
    rw [direct, hws]
    exact Source.not_headWord (c := '(') (by simp [isBlank]) (by decide)

/-! ## How they are read

From the text of a call to its tokens, and from these to the tree, which is where the two forms come
together again. -/

/-- The tokens of a command: its name, one token for each argument, and the `;` that ends it. -/
theorem lexes_command {inner : List Char → Option (List Token)} (as : List Written) :
    Lexes inner (f.command as ++ [';']) (.word f.name :: (as.map Written.token ++ [.mark ';'])) := by
  have hend : isEnd (Written.blankText as ++ [';']) = true := by cases as <;> rfl
  rw [command, List.append_assoc]
  exact .cons (f.gives_word hend) (Written.lexes_blankText rfl (.cons (.mark (by decide)) .nil))

/-- **A command is read as a call** of its name with the arguments that are written. -/
theorem parse_command (a : Written) (as : List Written) :
    Expr.parse (String.ofList (f.command (a :: as))) =
      .ok [.call f.expr ((a :: as).map Written.expr)] := by
  let e : Term := .command f.name a.atom.argument (as.map fun a => a.atom.argument)
  have htokens : e.tokens = .word f.name :: (a :: as).map Written.token := by
    simp only [e, Term.tokens, List.map_map]
    rfl
  have hexpr : e.expr = .call f.expr ((a :: as).map Written.expr) := by
    simp only [e, Term.expr, List.map_map]
    rfl
  refine (Expr.parse_line (e := e) (f.isSettled_command a as) ?_).trans (by rw [hexpr]; rfl)
  rw [htokens]
  exact f.lexes_command (a :: as)

/-- **A call with parentheses is read as a call**, but of a single argument where what stands
between them is an array literal. The lexer looks for that first, before anything knows of a
call. -/
theorem parse_direct (as : List Written) : Expr.parse (String.ofList (f.direct as)) =
    .ok [.call f.expr (Written.enclosedExprs as)] := by
  have htext : f.direct as ++ [';'] =
      f.word.text ++ '(' :: (Written.commaText as ++ [')', ';']) := by
    simp [direct]
  obtain ⟨depth, hdepth⟩ : ∃ d, (f.direct as ++ [';']).length = d + 1 := ⟨_, List.length_append⟩
  unfold Written.enclosedExprs
  split
  -- the parentheses are gone already in the tokens: what is read is a command with one argument
  next harray =>
    let e : Term := .command f.name (Written.arrayAtom as).argument []
    refine Expr.parse_line (e := e) (f.isSettled_direct as) ?_
    rw [hdepth, htext]
    exact .cons (f.gives_word rfl)
      (.cons (Written.gives_array harray) (.cons (.mark (by decide)) .nil))
  next hnone =>
    let e : Term := .call f.name (as.map fun a => .atom a.atom)
    have htokens : e.tokens ++ [.mark ';'] = .word f.name :: .mark '(' ::
        (Written.commaTokens as ++ [.mark ')', .mark ';']) := by
      simp [e, Term.tokens, Written.commaTokens]
    have hexpr : e.expr = .call f.expr (as.map Written.expr) := by
      rw [← Written.exprs_eq]
      rfl
    refine (Expr.parse_line (e := e) (f.isSettled_direct as) ?_).trans (by rw [hexpr]; rfl)
    rw [hdepth, htext, htokens]
    exact .cons (f.gives_word rfl) (.cons (Written.gives_parenthesis hnone)
      (Written.lexes_commaText rfl (.cons (.mark (by decide)) (.cons (.mark (by decide)) .nil))))

end Callee

end CommandLanguage
