import CommandLanguage.Proofs.Source.Quoted

/-!
# Lines in normal form

A line is settled (`Source.IsSettled`) if nothing in it is taken for anything, and it neither goes
on nor begins a control statement. Its normal form is the line itself with a `;` behind it.
-/

namespace CommandLanguage

/-! ## Words, lines and ends -/

namespace Text

/-- A text without cuts is one piece, which is what a single line is among the lines of a text. -/
theorem pieces_of_forall {cut : Char → Bool} {s : List Char} (h : ∀ c ∈ s, cut c = false) :
    pieces cut s = [s] := by
  induction s with
  | nil => rfl
  | cons c r ih =>
    obtain ⟨hc, hr⟩ := List.forall_mem_cons.1 h
    simp only [pieces, hc, ih hr]

/-- The first piece ends at the first cut. -/
theorem exists_pieces_eq_cons (cut : Char → Bool) (s : List Char) :
    ∃ ps, pieces cut s = s.takeWhile (!cut ·) :: ps := by
  induction s with
  | nil => exact ⟨[], rfl⟩
  | cons c r ih =>
    obtain ⟨ps, hps⟩ := ih
    simp only [pieces, hps, List.takeWhile_cons]
    cases cut c <;> exact ⟨_, rfl⟩

/-- A text that does not begin with a blank begins with its first word. What comes behind does not
matter to whether it begins a control statement. -/
theorem exists_words_eq_cons {c : Char} (h : isBlank c = false) (r : List Char) :
    ∃ ws, words (c :: r) = (c :: r.takeWhile (!isBlank ·)) :: ws := by
  obtain ⟨ps, hps⟩ := exists_pieces_eq_cons isBlank (c :: r)
  have hhead : (c :: r).takeWhile (!isBlank ·) = c :: r.takeWhile (!isBlank ·) := by simp [h]
  exact ⟨_, by rw [words, hps, hhead]; rfl⟩

/-- There is nothing to trim after a character that is not blank. -/
theorem trimEnd_of_getLast? {s : List Char} {c : Char} (hs : s.getLast? = some c)
    (hc : isBlank c = false) : trimEnd s = s := by
  obtain ⟨s, rfl⟩ := List.getLast?_eq_some_iff.1 hs
  simp [trimEnd, hc]

/-- A text that is not empty and ends another one ends in the same character. -/
theorem getLast?_of_suffix {s t : List Char} (h : t <:+ s) (ht : t ≠ []) :
    t.getLast? = s.getLast? := by
  obtain ⟨p, rfl⟩ := h
  rw [List.getLast?_append, List.getLast?_eq_some_getLast ht]
  rfl

end Text

namespace Source

/-- Whether a line that ends in the character ends a statement. The characters left out are those
that a line goes on behind, and the backslash, which would take the `;` along. -/
def endsLine (c : Char) : Bool := !Text.isBlank c && !"\x7b(,;&|\\".toList.contains c

/-- A line that the normal form leaves as it is, but for a `;` at its end. -/
structure IsSettled (s : List Char) : Prop where
  /-- nothing in it is taken for anything -/
  passes : Quotes.Passes {} s {}
  /-- it is one line -/
  newline : '\n' ∉ s
  /-- it does not go on -/
  last : ∃ c, s.getLast? = some c ∧ endsLine c = true
  /-- it begins no control statement -/
  first : headWords.contains (((Text.words s).map String.ofList).headD "") = false

namespace IsSettled

variable {s : List Char} (h : IsSettled s)
include h

theorem trimEnd_eq : Text.trimEnd s = s := by
  obtain ⟨c, hc, hends⟩ := h.last
  obtain ⟨hblank, -⟩ := Bool.and_eq_true_iff.1 hends
  exact Text.trimEnd_of_getLast? hc (Bool.not_eq_true' _ ▸ hblank)

theorem isBlankText_append (t : List Char) : Text.isBlankText (s ++ t) = false := by
  obtain ⟨c, hc, hends⟩ := h.last
  obtain ⟨hblank, -⟩ := Bool.and_eq_true_iff.1 hends
  simp only [Text.isBlankText, List.all_append, Bool.and_eq_false_iff]
  exact .inl (List.all_eq_false.2 ⟨c, List.mem_of_getLast? hc, by simpa using hblank⟩)

theorem cleanLine_eq : cleanLine s = s := by
  have hcomment : stripComment s = s := stripCommentFrom_of_passes h.passes none
  have hwords : quoteWords s = s := quoteWordsFrom_of_passes h.passes
  simp only [cleanLine, h.trimEnd_eq, hcomment, hwords]

theorem endsInHead_eq : endsInHead s false = false := by
  simp only [endsInHead, h.trimEnd_eq, lastSegment_of_passes h.passes, h.first, Bool.false_and,
    Bool.or_false]

theorem goesOn_eq : goesOn s = false := by
  obtain ⟨c, hc, hends⟩ := h.last
  rw [goesOn, h.trimEnd_eq, List.any_eq_false]
  intro e he hsuffix
  -- an ending would end in the same character, and none ends a line
  have hopen : ∀ e ∈ openEndings, e.toList ≠ [] ∧ e.toList.getLast?.any endsLine = false := by
    decide
  obtain ⟨hne, hlast⟩ := hopen e he
  rw [Text.getLast?_of_suffix (List.isSuffixOf_iff_suffix.1 hsuffix) hne, hc] at hlast
  rw [Option.any_some, hends] at hlast
  cases hlast

theorem dropBlankStatements_eq : dropBlankStatements (s ++ [';']) = s ++ [';'] := by
  obtain ⟨c, hc, hends⟩ := h.last
  obtain ⟨parens, last, hlast, hdrop⟩ := exists_dropBlankStatementsFrom h.passes 0 none
  obtain ⟨hblank, -⟩ := Bool.and_eq_true_iff.1 hends
  rw [dropBlankStatements, hdrop, hlast c (by rw [hc]; rfl) (by simpa using hblank)]
  simp [dropBlankStatementsFrom, Quotes.feed, Quote.ofChar?,
    Text.ne_of_kind hends (show endsLine ';' = false by decide),
    Text.ne_of_kind hends (show endsLine '\x7b' = false by decide)]

theorem normalizeLine_eq : normalizeLine false s = (some (s ++ [';']), false) := by
  have hblank := h.isBlankText_append []
  rw [List.append_nil] at hblank
  simp [normalizeLine, h.cleanLine_eq, hblank, h.isBlankText_append, h.endsInHead_eq, h.goesOn_eq,
    h.dropBlankStatements_eq]

/-- A settled line gets a `;` at its end, and this is all that becomes of it. So what is read of the
line is read of the text itself. -/
theorem normalize_eq : normalize (String.ofList s) = String.ofList (s ++ [';']) := by
  have hlines : Text.lines s = [s] := by
    refine Text.pieces_of_forall fun c hc => ?_
    simp only [beq_eq_false_iff_ne]
    rintro rfl
    exact h.newline hc
  rw [normalize, String.toList_ofList, hlines, normalizeLines, h.normalizeLine_eq]
  simp [normalizeLines, List.intercalate]

end IsSettled

/-- A word with a character that is no letter begins no control statement. -/
theorem not_headWord {w : List Char} {c : Char} (hw : c ∈ w) (hc : c.isAlpha = false) :
    headWords.contains (String.ofList w) = false := by
  have hletters : ∀ e ∈ headWords, e.toList.all Char.isAlpha = true := by decide
  rw [List.contains_eq_any_beq, List.any_eq_false]
  intro e he hbeq
  have hall := hletters e he
  rw [← eq_of_beq hbeq, String.toList_ofList, List.all_eq_true] at hall
  rw [hall c hw] at hc
  cases hc

end Source

end CommandLanguage
