import CommandLanguage.Proofs.Source.Stable

/-!
# No code is lost

What the normal form does to the content of a line is little: double quotes are put in, a `;` may be
put at the end, and `;` that are neither quoted nor escaped may go. All else stays where it is, so that
without `;` and double quotes the lines of a script and those of its normal form are the same, but for
blank ones.

* `Source.Edited` — a line, marked as quoted or not, and what may become of it;
* `Source.EditedLines` — the same of lines, of which blank ones may go;
* `Source.bare` — a line without `;` and double quotes;
* `bare_normalize` — the lines of a script and of its normal form.
-/

namespace CommandLanguage.Source

variable {q : Quotes} {c : Char} {m : List (Char × Bool)} {s t u w : List Char}

/-! ## Edits of a line

Marks go with the characters, since the same character may be quoted in one place and not in
another. -/

/-- What may become of a line, each character of which is marked as quoted or not. There is no rule
for a quoted character that goes, nor for any other character that is put in. -/
inductive Edited : List (Char × Bool) → List Char → Prop where
  /-- nothing is left -/
  | nil : Edited [] []
  /-- a `;` is put at the end -/
  | ended : Edited [] [';']
  /-- a character stays -/
  | keep {c : Char} {b : Bool} {m : List (Char × Bool)} {t : List Char} (rest : Edited m t) :
    Edited ((c, b) :: m) (c :: t)
  /-- a double quote is put in -/
  | quote {m : List (Char × Bool)} {t : List Char} (rest : Edited m t) : Edited m ('"' :: t)
  /-- a `;` goes that is not quoted -/
  | drop {m : List (Char × Bool)} {t : List Char} (rest : Edited m t) : Edited ((';', false) :: m) t

/-- A line may stay as it is. -/
theorem Edited.mark (q : Quotes) (s : List Char) : Edited (q.mark s) s := by
  induction s generalizing q with
  | nil => exact .nil
  | cons c s ih => exact .keep (ih _)

/-- The same of lines, of which blank ones may go. Whether a line is blank is asked of what became
of it, since a line may hold nothing but `;`. -/
inductive EditedLines : List (List Char) → List (List Char) → Prop where
  /-- no lines -/
  | nil : EditedLines [] []
  /-- a text in which nothing is left has one line -/
  | empty : EditedLines [] [[]]
  /-- a line stays -/
  | keep {l l' : List Char} {ls ls' : List (List Char)} (line : Edited (Quotes.mark {} l) l')
    (rest : EditedLines ls ls') : EditedLines (l :: ls) (l' :: ls')
  /-- a line goes of which only blanks are left -/
  | drop {l l' : List Char} {ls ls' : List (List Char)} (line : Edited (Quotes.mark {} l) l')
    (blank : Text.isBlankText l' = true) (rest : EditedLines ls ls') : EditedLines (l :: ls) ls'

theorem EditedLines.empty_of_nil {ls : List (List Char)} (h : EditedLines ls []) :
    EditedLines ls [[]] := by
  generalize hnil : ([] : List (List Char)) = ls' at h
  induction h with
  | nil => exact .empty
  | empty => cases hnil
  | keep => cases hnil
  | drop line hblank _ ih => exact .drop line hblank (ih hnil)

/-! ## What edits leave alone -/

/-- A line without `;` and double quotes. What is left of it is the same for a line and for anything
that it may become. -/
def bare (s : List Char) : List Char := s.filter fun c => c != ';' && c != '"'

/-- Lines without `;` and double quotes, those left out that are blank then. A line that held
nothing else is blank then, too, whether it was left out before or not. -/
def bareLines (ls : List (List Char)) : List (List Char) :=
  (ls.map bare).filter (!Text.isBlankText ·)

theorem Edited.bare_eq (h : Edited m t) : bare t = bare (m.map Prod.fst) := by
  induction h with
  | nil => rfl
  | ended => rfl
  | keep _ ih => simp only [bare, List.map_cons, List.filter_cons] at ih ⊢; rw [ih]
  | quote _ ih => exact ih
  | drop _ ih => exact ih

theorem isBlankText_bare (h : Text.isBlankText s = true) : Text.isBlankText (bare s) = true :=
  List.all_eq_true.2 fun c hc => List.all_eq_true.1 h c (List.mem_filter.1 hc).1

/-- A line that is blank counts for nothing. -/
theorem bareLines_cons_of_blank (h : Text.isBlankText (bare s) = true) (ls : List (List Char)) :
    bareLines (s :: ls) = bareLines ls := by
  simp [bareLines, h]

theorem bareLines_cons (s : List Char) (ls : List (List Char)) :
    bareLines (s :: ls) = ([bare s].filter (!Text.isBlankText ·)) ++ bareLines ls := by
  rw [bareLines, List.map_cons, ← List.singleton_append, List.filter_append, ← bareLines]

theorem EditedLines.bareLines_eq {ls ls' : List (List Char)} (h : EditedLines ls ls') :
    bareLines ls = bareLines ls' := by
  induction h with
  | nil => rfl
  | empty => rfl
  | keep line _ ih =>
    have hbare := line.bare_eq
    rw [Quotes.map_fst_mark] at hbare
    rw [bareLines_cons, bareLines_cons, ih, hbare]
  | drop line hblank _ ih =>
    have hbare := line.bare_eq
    rw [Quotes.map_fst_mark] at hbare
    rw [bareLines_cons_of_blank (by rw [← hbare]; exact isBlankText_bare hblank), ih]

/-! ## Dropping statements from a line

The words of the line have been quoted already when this is done, so it is the quoted text that is
scanned, while the marks are those of the line before. -/

/-- What is quoted stays when statements are dropped, whatever is done to the rest. The scan for
quotes goes on as it did over the line. -/
theorem edited_of_quoted (h : (q.feed c).1 = true) {parens : Nat}
    (hrest : ∀ parens last, Edited m (dropBlankStatementsFrom (q.feed c).2 parens last u))
    (last : Option Char) :
    Edited ((c, true) :: m) (dropBlankStatementsFrom q parens last (c :: u)) := by
  rw [dropBlankStatementsFrom]
  dsimp only
  rw [if_pos h]
  exact .keep (hrest _ _)

/-- What is not quoted stays, or is a `;` and may go. Which of the two it is depends on the
parentheses and on what came before, and neither matters here. -/
theorem edited_of_not_quoted (h : Quotes.feed {} c = (false, {}))
    (hrest : ∀ parens last, Edited m (dropBlankStatementsFrom {} parens last u)) (parens : Nat)
    (last : Option Char) :
    Edited ((c, false) :: m) (dropBlankStatementsFrom {} parens last (c :: u)) := by
  rw [dropBlankStatementsFrom, h]
  dsimp only
  rw [if_neg Bool.false_ne_true]
  split
  · rename_i hdrop
    obtain rfl : c = ';' := by
      simp only [Bool.and_eq_true, beq_iff_eq] at hdrop
      exact hdrop.1.1
    exact .drop (hrest _ _)
  · exact .keep (hrest _ _)

/-- A `;` at the end is one that was put there, or it is gone. -/
theorem edited_ended (hu : u = [] ∨ u = [';']) (q : Quotes) (parens : Nat) (last : Option Char) :
    Edited [] (dropBlankStatementsFrom q parens last u) := by
  rcases hu with rfl | rfl
  · exact .nil
  · rcases dropBlankStatementsFrom_semicolon q parens last with h | ⟨h, -⟩ <;> rw [h]
    · exact .ended
    · exact .nil

/-! ## Words -/

theorem feed_of_not_isQuoting (h : isQuoting c = false) : Quotes.feed {} c = (false, {}) :=
  (quotes_eq_of_not_quoted (by simp [h])).2

/-- Outside of quotes, a scan passes a word as it is, and none of its characters is marked as
quoted. -/
theorem mark_append_of_not_isQuoting (hw : ∀ c ∈ w, isQuoting c = false) (s : List Char) :
    Quotes.mark {} (w ++ s) = w.map (·, false) ++ Quotes.mark {} s := by
  induction w with
  | nil => rfl
  | cons c w ih =>
    obtain ⟨hc, hw⟩ := List.forall_mem_cons.1 hw
    rw [List.cons_append, Quotes.mark, feed_of_not_isQuoting hc, ih hw]
    rfl

theorem Edited.append_left (w : List Char) (h : Edited m t) :
    Edited (w.map (·, false) ++ m) (w ++ t) := by
  induction w with
  | nil => exact h
  | cons c w ih => exact .keep ih

/-- No statements are dropped from a word between double quotes. -/
theorem dropBlankStatementsFrom_double (hw : ∀ c ∈ w, isQuoting c = false) (parens : Nat)
    (last : Option Char) :
    dropBlankStatementsFrom { within := some .double } parens last (w ++ '"' :: u) =
      w ++ '"' :: dropBlankStatementsFrom {} parens (some '"') u := by
  induction w generalizing last with
  | nil =>
    have hfeed : Quotes.feed { within := some .double } '"' = (true, {}) := by decide
    simp [dropBlankStatementsFrom, hfeed]
  | cons c w ih =>
    obtain ⟨hc, hw⟩ := List.forall_mem_cons.1 hw
    have hfeed : Quotes.feed { within := some .double } c = (true, { within := some .double }) := by
      have hbackslash : '\\' ≠ c := Text.ne_of_kind (by decide) hc
      have hquote : '"' ≠ c := Text.ne_of_kind (by decide) hc
      simp [Quotes.feed, Quote.char, hbackslash.symm, hquote.symm]
    rw [List.cons_append, dropBlankStatementsFrom, hfeed]
    dsimp only
    rw [if_pos rfl, ih hw, List.cons_append]

/-- A word without quotes may lose some of its `;`. This happens only between braces, for outside of
them a `;` is no part of a word. -/
theorem edited_append (hw : ∀ c ∈ w, isQuoting c = false)
    (hrest : ∀ parens last, Edited m (dropBlankStatementsFrom {} parens last u)) (parens : Nat)
    (last : Option Char) :
    Edited (w.map (·, false) ++ m) (dropBlankStatementsFrom {} parens last (w ++ u)) := by
  induction w generalizing parens last with
  | nil => exact hrest parens last
  | cons c w ih =>
    obtain ⟨hc, hw⟩ := List.forall_mem_cons.1 hw
    exact edited_of_not_quoted (feed_of_not_isQuoting hc) (ih hw) parens last

/-- A word is put between double quotes as a whole, or is left as it is. If it is put between
quotes, both of them are put in and nothing is dropped from it. -/
theorem edited_word (hw : ∀ c ∈ w, isQuoting c = false)
    (hrest : ∀ parens last, Edited (Quotes.mark {} s) (dropBlankStatementsFrom {} parens last u))
    (parens : Nat) (last : Option Char) :
    Edited (Quotes.mark {} (w ++ s)) (dropBlankStatementsFrom {} parens last (quoteWord w ++ u)) := by
  rw [mark_append_of_not_isQuoting hw, quoteWord]
  split
  · have hfeed : Quotes.feed {} '"' = (true, { within := some .double }) := by decide
    rw [List.append_assoc, List.cons_append, dropBlankStatementsFrom, hfeed]
    dsimp only
    rw [if_pos rfl, List.singleton_append, dropBlankStatementsFrom_double hw]
    exact .quote ((Edited.quote (hrest _ _)).append_left w)
  · exact edited_append hw hrest parens last

/-! ## Lines -/

/-- What becomes of a text when its words are quoted, it is ended or not, and statements without
content are dropped. The induction is on the scan for words, which takes a whole word at a time; the
statements are dropped from what it has made of the text. -/
theorem edited_quoteWordsFrom (hu : u = [] ∨ u = [';']) (q : Quotes) (s : List Char) (parens : Nat)
    (last : Option Char) :
    Edited (q.mark s) (dropBlankStatementsFrom q parens last (quoteWordsFrom q s ++ u)) := by
  induction q, s using quoteWordsFrom.induct generalizing parens last with
  | case1 q =>
    rw [quoteWordsFrom]
    exact edited_ended hu q parens last
  | case2 q c r hquoted ih =>
    have hfeed : (q.feed c).1 = true := by rw [Quotes.feed_fst, hquoted]
    rw [quoteWordsFrom_quoted hquoted, Quotes.mark, hfeed]
    exact edited_of_quoted hfeed ih last
  | case3 q c r hquoted hdelimiter ih =>
    obtain ⟨rfl, hfeed⟩ := quotes_eq_of_not_quoted hquoted
    rw [quoteWordsFrom_delimiter hquoted hdelimiter, Quotes.mark, hfeed]
    exact edited_of_not_quoted hfeed ih parens last
  | case4 q c r hquoted hdelimiter tail ih =>
    obtain ⟨rfl, hfeed⟩ := quotes_eq_of_not_quoted hquoted
    have happend : c :: r = (c :: tail.1) ++ tail.2 := congrArg (c :: ·)
      (splitWord_append (braceDepth 0 c) (parameterDepth 0 c r) r).symm
    -- a word holds no quotes, so it may be put between two as a whole
    have hword : ∀ d ∈ c :: tail.1, isQuoting d = false := by
      refine List.forall_mem_cons.2 ⟨?_, fun d hd => isQuoting_of_mem_splitWord hd⟩
      exact (Bool.or_eq_false_iff.1 (Bool.eq_false_iff.2 hquoted)).2
    rw [quoteWordsFrom_word hquoted hdelimiter, happend, List.append_assoc]
    exact edited_word hword ih parens last

theorem edited_line (wasOpen : Bool) (s : List Char) : Edited (Quotes.mark {} (content s))
    (dropBlankStatements (closeLine wasOpen (cleanLine s))) := by
  rw [closeLine, cleanLine_eq, quoteWords, dropBlankStatements]
  split
  · have h := edited_quoteWordsFrom (.inl rfl) {} (content s) 0 none
    rwa [List.append_nil] at h
  · exact edited_quoteWordsFrom (.inr rfl) {} (content s) 0 none

/-- A line has a normal form that it was edited to, or it was edited to a blank text, and then it is
left out. -/
theorem editedLines_normalizeLine (wasOpen : Bool) (s : List Char) {ls ls' : List (List Char)}
    (hrest : EditedLines ls ls') :
    EditedLines (content s :: ls) ((normalizeLine wasOpen s).1.toList ++ ls') := by
  by_cases hblank : Text.isBlankText (cleanLine s) = true
  · have hnone : (normalizeLine wasOpen s).1 = none := by simp [normalizeLine, hblank]
    have hcontent : cleanLine s = content s := by
      rw [cleanLine_eq] at hblank ⊢
      refine (enclosed_quoteWordsFrom {} (content s)).eq_or.resolve_right ?_
      rintro ⟨a, c, r, u, -, -, hquote⟩
      rw [quoteWords, hquote] at hblank
      exact absurd (List.all_eq_true.1 hblank '"' (by simp)) (by decide)
    rw [hcontent] at hblank
    rw [hnone]
    exact .drop (.mark {} (content s)) hblank hrest
  · rw [normalizeLine_of_not_blank (Bool.eq_false_iff.2 hblank)]
    dsimp only
    split
    · rename_i hnothing
      exact .drop (edited_line wasOpen s) hnothing hrest
    · exact .keep (edited_line wasOpen s) hrest

/-- From line to line only one thing is carried, and it decides no more than whether a `;` is put at
the end. -/
theorem editedLines_normalizeLines (wasOpen : Bool) (ls : List (List Char)) :
    EditedLines (ls.map content) (normalizeLines wasOpen ls) := by
  induction ls generalizing wasOpen with
  | nil => exact .nil
  | cons s ls ih => exact editedLines_normalizeLine wasOpen s (ih _)

/-- **No code is lost on the way to the normal form.** Without `;` and double quotes, the contents of
the lines of a script are the lines of its normal form, but for blank ones; and no `;` that is quoted
or escaped is taken from a line, nor more than one put to it, which comes last. -/
theorem bare_normalize (x : String) :
    bareLines ((Text.lines x.toList).map content) = bareLines (Text.lines (normalize x).toList) ∧
      EditedLines ((Text.lines x.toList).map content) (Text.lines (normalize x).toList) := by
  have hedited : EditedLines ((Text.lines x.toList).map content)
      (Text.lines (normalize x).toList) := by
    have h := editedLines_normalizeLines false (Text.lines x.toList)
    rw [normalize, String.toList_ofList]
    by_cases hnil : normalizeLines false (Text.lines x.toList) = []
    · rw [hnil] at h ⊢
      exact h.empty_of_nil
    · rwa [Text.lines_intercalate hnil fun l hl =>
        (isTidy_of_mem_normalizeLines (fun s hs => Text.newline_not_mem_of_mem_lines hs) hl).newline]
  exact ⟨hedited.bareLines_eq, hedited⟩

end CommandLanguage.Source
