import CommandLanguage.Proofs.Source.Settled
import CommandLanguage.Proofs.Source.Word

/-!
# Normal forms of normal forms

To bring a normal form into normal form changes it in three cases only: a line ends in a blank, which
is trimmed then; a line has a comment, which could not be seen as long as a word with a `${` was not
quoted; or a line does not go on and ends in no `;`, as the one that stood there was dropped. Of the
other things that are done to a line, the quoting of words and the dropping of statements without
content, nothing is left to do after the first time.

* `Source.IsTidy` — what is so of every line of a normal form;
* `Source.AreNormal` — lines of which none is in one of these cases;
* `normalize_normalize_iff` — a normal form is its own normal form if and only if its lines are
  normal.
-/

namespace CommandLanguage

/-! ## Lines and ends -/

namespace Text

/-- What is trimmed is blank. -/
theorem exists_trimEnd_append (s : List Char) :
    ∃ t, s = trimEnd s ++ t ∧ ∀ c ∈ t, isBlank c = true := by
  refine ⟨(s.reverse.takeWhile isBlank).reverse, ?_, fun c hc => ?_⟩
  · rw [trimEnd, ← List.reverse_append, List.takeWhile_append_dropWhile, List.reverse_reverse]
  · exact List.all_eq_true.1 List.all_takeWhile c (List.mem_reverse.1 hc)

/-- There is nothing to trim if the last character is not blank, and only then. -/
theorem trimEnd_eq_self_iff {s : List Char} :
    trimEnd s = s ↔ ∀ c, s.getLast? = some c → isBlank c = false := by
  constructor
  · intro h c hc
    obtain ⟨s, rfl⟩ := List.getLast?_eq_some_iff.1 hc
    refine Bool.eq_false_iff.2 fun hblank => ?_
    have hlength := congrArg List.length h
    have hle := (List.dropWhile_sublist (l := s.reverse) isBlank).length_le
    simp only [trimEnd, List.reverse_append, List.reverse_singleton, List.singleton_append,
      List.dropWhile_cons_of_pos hblank, List.length_reverse, List.length_append,
      List.length_singleton] at hlength hle
    omega
  · intro h
    cases hs : s.getLast? with
    | none =>
      rw [List.getLast?_eq_none_iff.1 hs]
      rfl
    | some c => exact trimEnd_of_getLast? hs (h c hs)

theorem trimEnd_trimEnd (s : List Char) : trimEnd (trimEnd s) = trimEnd s := by
  refine trimEnd_eq_self_iff.2 fun c hc => ?_
  rw [trimEnd, List.getLast?_reverse] at hc
  have hhead := List.head?_dropWhile_not isBlank s.reverse
  rw [hc] at hhead
  exact hhead

/-- The pieces of a text that is cut in one place are those of both parts. This is how lines, which
are cut at their ends, are told apart after they were joined. -/
theorem pieces_append_cons {cut : Char → Bool} {c : Char} (hc : cut c = true) (s t : List Char) :
    pieces cut (s ++ c :: t) = pieces cut s ++ pieces cut t := by
  induction s with
  | nil => simp [pieces, hc]
  | cons d s ih =>
    simp only [List.cons_append, pieces, ih]
    cases cut d with
    | true => rfl
    | false =>
      cases hs : pieces cut s with
      | nil => exact absurd hs (pieces_ne_nil cut s)
      | cons p ps => rfl

/-- There are no cuts in pieces. -/
theorem cut_of_mem_pieces {cut : Char → Bool} {s p : List Char} (hp : p ∈ pieces cut s) :
    ∀ c ∈ p, cut c = false := by
  induction s generalizing p with
  | nil =>
    rw [List.mem_singleton.1 hp]
    exact nofun
  | cons d s ih =>
    unfold pieces at hp
    split at hp
    · rcases List.mem_cons.1 hp with rfl | hp
      · exact nofun
      · exact ih hp
    · rename_i hempty
      exact absurd hempty (pieces_ne_nil cut s)
    · rename_i hd hpieces
      rw [hpieces] at ih
      rcases List.mem_cons.1 hp with rfl | hp
      · exact List.forall_mem_cons.2 ⟨hd, ih List.mem_cons_self⟩
      · exact ih (List.mem_cons_of_mem _ hp)

theorem newline_not_mem_of_mem_lines {s l : List Char} (hl : l ∈ lines s) : '\n' ∉ l := by
  intro hn
  exact absurd (cut_of_mem_pieces hl '\n' hn) (by simp)

/-- Lines that are joined are the lines of the text, as long as there is at least one and none of
them has an end of a line in it. -/
theorem lines_intercalate {ls : List (List Char)} (hne : ls ≠ []) (h : ∀ l ∈ ls, '\n' ∉ l) :
    lines (['\n'].intercalate ls) = ls := by
  have hline {l : List Char} (hl : '\n' ∉ l) : lines l = [l] :=
    pieces_of_forall fun c hc => beq_eq_false_iff_ne.2 fun hn => hl (hn ▸ hc)
  induction ls with
  | nil => exact absurd rfl hne
  | cons l ls ih =>
    obtain ⟨hl, hls⟩ := List.forall_mem_cons.1 h
    cases ls with
    | nil => simpa [List.intercalate] using hline hl
    | cons l' ls =>
      have hjoin : ['\n'].intercalate (l :: l' :: ls) = l ++ '\n' :: ['\n'].intercalate (l' :: ls) :=
        by simp [List.intercalate]
      have hlast := ih (List.cons_ne_nil _ _) hls
      rw [hjoin, lines, pieces_append_cons rfl, ← lines, ← lines, hline hl, hlast]
      rfl

end Text

namespace Source

variable {q : Quotes} {parens : Nat} {last : Option Char} {c : Char} {s t l : List Char}

/-! ## Statements without content

To drop them takes nothing but `;` from a line, and from what is left nothing more is taken the
second time. -/

theorem dropBlankStatementsFrom_sublist (q : Quotes) (parens : Nat) (last : Option Char)
    (s : List Char) : (dropBlankStatementsFrom q parens last s).Sublist s := by
  induction s generalizing q parens last with
  | nil => exact .slnil
  | cons c r ih =>
    rw [dropBlankStatementsFrom]
    dsimp only
    split
    · exact (ih _ _ _).cons_cons c
    · split
      · exact (ih _ _ _).cons c
      · exact (ih _ _ _).cons_cons c

/-- Nothing is left to drop after statements without content were dropped. Both runs see the same
quotes and the same parentheses, and the same last character before each `;` that is left. -/
theorem dropBlankStatementsFrom_dropBlankStatementsFrom (q : Quotes) (parens : Nat)
    (last : Option Char) (s : List Char) :
    dropBlankStatementsFrom q parens last (dropBlankStatementsFrom q parens last s) =
      dropBlankStatementsFrom q parens last s := by
  induction s generalizing q parens last with
  | nil => rfl
  | cons c r ih =>
    by_cases hquoted : (q.feed c).1 = true
    · simp [dropBlankStatementsFrom, hquoted, ih]
    · obtain ⟨rfl, hfeed⟩ := Quotes.feed_of_fst_eq_false (Bool.eq_false_iff.2 hquoted)
      by_cases hdrop : (c == ';' && parens == 0 && last.all fun l => l == ';' || l == '\x7b') = true
      · simp only [dropBlankStatementsFrom, hfeed, hdrop, if_true, Bool.false_eq_true, if_false, ih]
      · simp only [dropBlankStatementsFrom, hfeed, hdrop, Bool.false_eq_true, if_false, ih]

/-- A `;` at the end stays, or there was nothing to end. These are the two ways in which a line can
be closed. -/
theorem dropBlankStatementsFrom_semicolon (q : Quotes) (parens : Nat) (last : Option Char) :
    dropBlankStatementsFrom q parens last [';'] = [';'] ∨
      dropBlankStatementsFrom q parens last [';'] = [] ∧
        last.all (fun l => l == ';' || l == '\x7b') = true := by
  rw [dropBlankStatementsFrom]
  dsimp only
  split
  · exact .inl rfl
  · split
    · rename_i hdrop
      exact .inr ⟨rfl, (Bool.and_eq_true_iff.1 hdrop).2⟩
    · exact .inl rfl

/-- If nothing is dropped from a text, nothing is dropped from its first part, whatever comes after
it; and the last character of that part is known if it is not blank. -/
theorem exists_dropBlankStatementsFrom_append
    (h : dropBlankStatementsFrom q parens last (s ++ t) = s ++ t) :
    ∃ q' parens' last', (∀ c, s.getLast?.or last = some c → Text.isBlank c = false →
        last' = some c) ∧
      ∀ u, dropBlankStatementsFrom q parens last (s ++ u) =
        s ++ dropBlankStatementsFrom q' parens' last' u := by
  induction s generalizing q parens last with
  | nil => exact ⟨q, parens, last, fun c hc _ => hc, fun _ => rfl⟩
  | cons c s ih =>
    have hlast {last : Option Char} {d : Char} (hd : (c :: s).getLast?.or last = some d)
        {last' : Option Char} (hc : s = [] → c = d → last' = some d) :
        s.getLast?.or last' = some d := by
      rw [List.getLast?_cons] at hd
      cases hs : s.getLast? with
      | none => exact hc (List.getLast?_eq_none_iff.1 hs) (by simpa [hs] using hd)
      | some e => simpa [hs] using hd
    rw [List.cons_append, dropBlankStatementsFrom] at h
    dsimp only at h
    split at h
    · rename_i hquoted
      obtain ⟨q', parens', last', hends, hdrop⟩ := ih ((List.cons_inj_right c).1 h)
      refine ⟨q', parens', last', fun d hd => hends d (hlast hd fun _ hc => congrArg some hc),
        fun u => ?_⟩
      simp only [List.cons_append, dropBlankStatementsFrom, hquoted, if_true, hdrop]
    · rename_i hquoted
      split at h
      · -- dropping something would leave too little
        have hlength := congrArg List.length h
        have hle := (dropBlankStatementsFrom_sublist (q.feed c).2 parens last (s ++ t)).length_le
        rw [List.length_cons] at hlength
        omega
      · rename_i hkeep
        obtain ⟨q', parens', last', hends, hdrop⟩ := ih ((List.cons_inj_right c).1 h)
        refine ⟨q', parens', last', fun d hd hblank => hends d (hlast hd fun _ hc => ?_) hblank,
          fun u => ?_⟩
        · rw [hc, hblank]
          rfl
        · simp only [List.cons_append, dropBlankStatementsFrom, hquoted, hkeep, hdrop,
            Bool.false_eq_true, if_false]

/-! ## Comments and quotes

A comment that was not seen the first time can be seen the second time, since quotes were put in
around a word before it. That is why the second run may take something off. -/

/-- A line is what is left without its comment, and the comment. So to show that a line has none, it
is enough to show that nothing begins with its sign. -/
theorem exists_stripCommentFrom_append (q : Quotes) (depth : Nat) (before : Option Char)
    (s : List Char) :
    ∃ t, s = stripCommentFrom q depth before s ++ t ∧ ∀ c, t.head? = some c → c = '#' := by
  induction s generalizing q depth before with
  | nil => exact ⟨[], rfl, nofun⟩
  | cons c r ih =>
    have hkeep (q : Quotes) (depth : Nat) : ∃ t, c :: r =
        (c :: stripCommentFrom q depth (some c) r) ++ t ∧ ∀ c, t.head? = some c → c = '#' := by
      obtain ⟨t, ht, hhead⟩ := ih q depth (some c)
      exact ⟨t, by rw [List.cons_append, ← ht], hhead⟩
    rw [stripCommentFrom]
    dsimp only
    split
    · exact hkeep _ _
    · split
      · exact hkeep _ _
      · split
        · exact hkeep _ _
        · split
          · -- all that is behind the `#` is cut off
            rename_i hcomment
            simp only [Bool.and_eq_true, beq_iff_eq] at hcomment
            exact ⟨c :: r, rfl, fun d hd => (Option.some.inj hd).symm.trans hcomment.1.1⟩
          · exact hkeep _ _

/-- A text is another one with some words of it between double quotes. This is all that is needed of
the quoting of words here: where the quotes are put does not matter to what stands between them. -/
inductive Enclosed : List Char → List Char → Prop where
  /-- nothing is left -/
  | nil : Enclosed [] []
  /-- a character stays -/
  | keep {c : Char} {s t : List Char} (rest : Enclosed s t) : Enclosed (c :: s) (c :: t)
  /-- a word is put between quotes -/
  | word {c : Char} {w s t : List Char} (first : c ≠ '"') (rest : Enclosed s t) :
    Enclosed (c :: w ++ s) ('"' :: (c :: w ++ '"' :: t))

namespace Enclosed

theorem append_left (w : List Char) (h : Enclosed s t) : Enclosed (w ++ s) (w ++ t) := by
  induction w with
  | nil => exact h
  | cons c w ih => exact .keep ih

/-- Nothing is put in but quotes. -/
theorem mem (h : Enclosed s t) (hc : c ∈ t) : c = '"' ∨ c ∈ s := by
  induction h with
  | nil => exact .inr hc
  | @keep d s t _ ih =>
    rcases List.mem_cons.1 hc with rfl | hc
    · exact .inr List.mem_cons_self
    · exact (ih hc).imp_right (List.mem_cons_of_mem d)
  | @word d w s t _ _ ih =>
    rcases List.mem_cons.1 hc with rfl | hc
    · exact .inl rfl
    rcases List.mem_append.1 hc with hc | hc
    · exact .inr (List.mem_append_left s hc)
    rcases List.mem_cons.1 hc with rfl | hc
    · exact .inl rfl
    · exact (ih hc).imp_right (List.mem_append_right (d :: w))

/-- A text ends as it ended, or with a quote, neither of which is a blank that was not there
before. -/
theorem getLast? (h : Enclosed s t) : t.getLast? = s.getLast? ∨ t.getLast? = some '"' := by
  induction h with
  | nil => exact .inl rfl
  | keep _ ih =>
    rw [List.getLast?_cons, List.getLast?_cons]
    rcases ih with h | h <;> rw [h]
    · exact .inl rfl
    · exact .inr rfl
  | @word c w s t _ _ ih =>
    rw [List.getLast?_cons, List.getLast?_append, List.getLast?_append, List.getLast?_cons]
    rcases ih with h | h <;> rw [h]
    · -- a quote is last if nothing follows the word
      cases hs : s.getLast? <;> simp
    · simp

/-- The first thing that changes is that a quote is put in. Up to there both texts are the same, so
what is decided before a word is decided alike for both. -/
theorem eq_or (h : Enclosed s t) :
    t = s ∨ ∃ a c r u, s = a ++ c :: r ∧ c ≠ '"' ∧ t = a ++ '"' :: u := by
  induction h with
  | nil => exact .inl rfl
  | @keep c s t _ ih =>
    obtain rfl | ⟨a, d, r, u, rfl, hd, rfl⟩ := ih
    · exact .inl rfl
    · exact .inr ⟨c :: a, d, r, u, rfl, hd, rfl⟩
  | @word c w s t hc _ _ => exact .inr ⟨[], c, w ++ s, c :: w ++ '"' :: t, rfl, hc, rfl⟩

end Enclosed

theorem enclosed_quoteWordsFrom (q : Quotes) (s : List Char) :
    Enclosed s (quoteWordsFrom q s) := by
  induction q, s using quoteWordsFrom.induct with
  | case1 =>
    rw [quoteWordsFrom]
    exact .nil
  | case2 q c r hquoted ih =>
    rw [quoteWordsFrom_quoted hquoted]
    exact .keep ih
  | case3 q c r hquoted hdelimiter ih =>
    rw [quoteWordsFrom_delimiter hquoted hdelimiter]
    exact .keep ih
  | case4 q c r hquoted hdelimiter tail ih =>
    have happend : c :: tail.1 ++ tail.2 = c :: r := congrArg (c :: ·)
      (splitWord_append (braceDepth 0 c) (parameterDepth 0 c r) r)
    rw [quoteWordsFrom_word hquoted hdelimiter, ← happend]
    change Enclosed (c :: tail.1 ++ tail.2) (quoteWord (c :: tail.1) ++ quoteWordsFrom q tail.2)
    unfold quoteWord
    split
    · -- a word in quotes does not begin with a quote itself
      have hc : c ≠ '"' := by
        rintro rfl
        exact hquoted (by simp [isQuoting, Quote.ofChar?])
      rw [List.append_assoc]
      exact .word hc ih
    · exact ih.append_left _

/-! ## Lines of a normal form -/

/-- What is so of every line of a normal form, whatever script it comes from. It is not enough for
the line to be its own normal form: for that it has to be normal (`IsNormalLine`), too. -/
structure IsTidy (l : List Char) : Prop where
  /-- it is not blank -/
  notBlank : Text.isBlankText l = false
  /-- it is one line -/
  newline : '\n' ∉ l
  /-- the words in it that need quotes have them -/
  words : quoteWords l = l
  /-- there are no statements without content in it -/
  statements : dropBlankStatements l = l

/-- A line without its comment and the blanks at its end. It is what the quoting of words starts
from. -/
def content (s : List Char) : List Char := Text.trimEnd (stripComment (Text.trimEnd s))

/-- After quoting words there is nothing to trim if there was nothing before: a line ends in a quote
or as it ended. -/
theorem cleanLine_eq (s : List Char) : cleanLine s = quoteWords (content s) := by
  refine Text.trimEnd_eq_self_iff.2 fun c hc => ?_
  rcases (enclosed_quoteWordsFrom {} (content s)).getLast? with h | h
  · exact Text.trimEnd_eq_self_iff.1 (Text.trimEnd_trimEnd _) c (h.symm.trans hc)
  · obtain rfl : '"' = c := Option.some.inj (h.symm.trans hc)
    decide

theorem quoteWords_cleanLine (s : List Char) : quoteWords (cleanLine s) = cleanLine s := by
  rw [cleanLine_eq]
  exact quoteWordsFrom_quoteWordsFrom {} _

/-- A line is its content, and what begins with the sign of a comment or a blank. So the two can be
told apart by the first character of what comes off. -/
theorem exists_content_append (s : List Char) :
    ∃ t, s = content s ++ t ∧ ∀ c, t.head? = some c → c = '#' ∨ Text.isBlank c = true := by
  obtain ⟨t, ht, hblank⟩ := Text.exists_trimEnd_append s
  obtain ⟨u, hu, hcomment⟩ := exists_stripCommentFrom_append {} 0 none (Text.trimEnd s)
  obtain ⟨v, hv, hblank'⟩ := Text.exists_trimEnd_append (stripComment (Text.trimEnd s))
  refine ⟨v ++ (u ++ t), ?_, fun c hc => ?_⟩
  · rw [content, ← List.append_assoc, ← hv, ← List.append_assoc, stripComment, ← hu, ← ht]
  · rw [List.head?_append, List.head?_append] at hc
    rcases Option.or_eq_some_iff.1 hc with hv | ⟨-, hc⟩
    · exact .inr (hblank' c (List.mem_of_head? hv))
    rcases Option.or_eq_some_iff.1 hc with hu | ⟨-, ht⟩
    · exact .inl (hcomment c hu)
    · exact .inr (hblank c (List.mem_of_head? ht))

theorem content_eq_self_iff {s : List Char} :
    content s = s ↔ Text.trimEnd s = s ∧ stripComment s = s := by
  constructor
  · intro h
    obtain ⟨t, ht, -⟩ := Text.exists_trimEnd_append s
    obtain ⟨u, hu, -⟩ := exists_stripCommentFrom_append {} 0 none (Text.trimEnd s)
    obtain ⟨v, hv, -⟩ := Text.exists_trimEnd_append (stripComment (Text.trimEnd s))
    -- nothing comes off, as the line would be shorter then
    have hs := congrArg List.length ht
    have htrim := congrArg List.length hu
    have hstrip := congrArg List.length hv
    rw [← stripComment] at htrim
    rw [← content, h] at hstrip
    simp only [List.length_append] at hs htrim hstrip
    have ht0 : t = [] := List.length_eq_zero_iff.1 (by omega)
    have hu0 : u = [] := List.length_eq_zero_iff.1 (by omega)
    rw [ht0, List.append_nil] at ht
    rw [hu0, List.append_nil, ← ht] at hu
    exact ⟨ht.symm, hu.symm⟩
  · rintro ⟨htrim, hstrip⟩
    rw [content, htrim, hstrip, htrim]

/-- A line with a `;` at its end, if it does not go on. -/
def closeLine (wasOpen : Bool) (s : List Char) : List Char :=
  if endsInHead s wasOpen || goesOn s then s else s ++ [';']

theorem normalizeLine_of_not_blank {wasOpen : Bool} (h : Text.isBlankText (cleanLine s) = false) :
    normalizeLine wasOpen s =
      (if Text.isBlankText (dropBlankStatements (closeLine wasOpen (cleanLine s))) then none
        else some (dropBlankStatements (closeLine wasOpen (cleanLine s))),
      endsInHead (cleanLine s) wasOpen) := by
  unfold normalizeLine
  dsimp only
  rw [if_neg (by rw [h]; exact Bool.false_ne_true)]
  rfl

/-- Only a line with something in it has a normal form, and it is the closed line without its
statements that have no content. -/
theorem eq_of_normalizeLine {wasOpen : Bool} (h : (normalizeLine wasOpen s).1 = some l) :
    Text.isBlankText (cleanLine s) = false ∧ Text.isBlankText l = false ∧
      l = dropBlankStatements (closeLine wasOpen (cleanLine s)) := by
  by_cases hblank : Text.isBlankText (cleanLine s) = true
  · simp [normalizeLine, hblank] at h
  · have hblank := Bool.eq_false_iff.2 hblank
    rw [normalizeLine_of_not_blank hblank] at h
    dsimp only at h
    split at h
    · cases h
    · rename_i hl
      have heq := Option.some.inj h
      rw [heq] at hl
      exact ⟨hblank, Bool.eq_false_iff.2 hl, heq.symm⟩

/-- The quotes of words stay as they are when a line is closed and loses statements without content.
Here `Sheds` comes in, in both directions: closing puts a `;` in, and dropping takes some away. -/
theorem quoteWords_dropBlankStatements (wasOpen : Bool) (h : quoteWords s = s) :
    quoteWords (dropBlankStatements (closeLine wasOpen s)) =
      dropBlankStatements (closeLine wasOpen s) := by
  have hclosed : quoteWords (closeLine wasOpen s) = closeLine wasOpen s := by
    unfold closeLine
    split
    · exact h
    · have hsheds : Sheds {} none (s ++ [';']) s := .append_semicolon s
      exact (quoteWordsFrom_eq_iff_of_sheds hsheds).2 h
  exact (quoteWordsFrom_eq_iff_of_sheds
    (Sheds.dropBlankStatementsFrom 0 (.inl (rfl : none = none)))).1 hclosed

/-- The normal form of a line is tidy: the words are quoted before anything is dropped, and both are
done once and for all. -/
theorem isTidy_of_normalizeLine {wasOpen : Bool} (hs : '\n' ∉ s)
    (h : (normalizeLine wasOpen s).1 = some l) : IsTidy l := by
  obtain ⟨-, hblank, hl⟩ := eq_of_normalizeLine h
  have hwords := quoteWords_dropBlankStatements wasOpen (quoteWords_cleanLine s)
  have hstatements := dropBlankStatementsFrom_dropBlankStatementsFrom {} 0 none
    (closeLine wasOpen (cleanLine s))
  rw [← dropBlankStatements, ← dropBlankStatements, ← hl] at hstatements
  rw [← hl] at hwords
  refine ⟨hblank, fun hn => ?_, hwords, hstatements⟩
  rw [hl] at hn
  have hclosed := (dropBlankStatementsFrom_sublist _ _ _ _).mem hn
  have hclean : '\n' ∈ cleanLine s := by
    unfold closeLine at hclosed
    split at hclosed
    · exact hclosed
    · simpa using hclosed
  -- a line end would have to be one of the quotes that were put in, or be there before
  rw [cleanLine_eq] at hclean
  obtain hquote | hcontent := (enclosed_quoteWordsFrom {} _).mem hclean
  · exact absurd hquote (by decide)
  · obtain ⟨t, ht, -⟩ := exists_content_append s
    rw [ht] at hs
    exact hs (List.mem_append_left t hcontent)

theorem isTidy_of_mem_normalizeLines {wasOpen : Bool} {ls : List (List Char)}
    (hls : ∀ s ∈ ls, '\n' ∉ s) (h : l ∈ normalizeLines wasOpen ls) : IsTidy l := by
  induction ls generalizing wasOpen with
  | nil => cases h
  | cons s ls ih =>
    obtain ⟨hs, hls⟩ := List.forall_mem_cons.1 hls
    rcases List.mem_append.1 h with h | h
    · exact isTidy_of_normalizeLine hs (Option.mem_toList.1 h)
    · exact ih hls h

/-! ## Lines that are their own normal form

Of a tidy line it is known what the second run does to it: it may trim it, take a comment off, or
put a `;` behind it. None of these can make up for another. -/

/-- A line that is neither trimmed nor has a comment, and that goes on or ends in a `;`. Whether it
goes on may depend on the lines before it, if one of them left the head of a control statement
open. -/
structure IsNormalLine (wasOpen : Bool) (l : List Char) : Prop where
  /-- it does not end in a blank -/
  trimmed : Text.trimEnd l = l
  /-- it has no comment -/
  bare : stripComment l = l
  /-- it goes on, or ends in a `;` -/
  closed : (endsInHead l wasOpen || goesOn l) = true

instance (wasOpen : Bool) (l : List Char) : Decidable (IsNormalLine wasOpen l) :=
  decidable_of_iff (Text.trimEnd l = l ∧ stripComment l = l ∧
      (endsInHead l wasOpen || goesOn l) = true)
    ⟨fun h => ⟨h.1, h.2.1, h.2.2⟩, fun h => ⟨h.1, h.2, h.3⟩⟩

/-- Lines that are neither trimmed nor have comments, and that go on or end in a `;`. Whether a line
stops inside of the head of a control statement is carried from line to line. -/
inductive AreNormal : Bool → List (List Char) → Prop where
  /-- no lines -/
  | nil {wasOpen : Bool} : AreNormal wasOpen []
  /-- one more line -/
  | cons {wasOpen : Bool} {l : List Char} {ls : List (List Char)} (line : IsNormalLine wasOpen l)
      (rest : AreNormal (endsInHead l wasOpen) ls) : AreNormal wasOpen (l :: ls)

theorem normalizeLine_of_isNormalLine {wasOpen : Bool} (ht : IsTidy l) (h : IsNormalLine wasOpen l) :
    normalizeLine wasOpen l = (some l, endsInHead l wasOpen) := by
  have hclean : cleanLine l = l := by
    rw [cleanLine_eq, content_eq_self_iff.2 ⟨h.trimmed, h.bare⟩, ht.words]
  have hclose : closeLine wasOpen l = l := if_pos h.closed
  rw [normalizeLine_of_not_blank (by rw [hclean]; exact ht.notBlank), hclean, hclose, ht.statements,
    ht.notBlank]
  rfl

/-- A line is its own content if it is its own normal form. -/
theorem content_of_normalizeLine {wasOpen : Bool} (ht : IsTidy l)
    (h : (normalizeLine wasOpen l).1 = some l) : content l = l := by
  obtain ⟨-, -, hl⟩ := eq_of_normalizeLine h
  obtain ⟨rest, happend, hhead⟩ := exists_content_append l
  have hfixed : dropBlankStatementsFrom {} 0 none (content l ++ rest) = content l ++ rest := by
    rw [← happend]
    exact ht.statements
  rw [cleanLine_eq] at hl
  obtain hsame | ⟨a, c, r, u, hcontent, hc, hquote⟩ :=
    (enclosed_quoteWordsFrom {} (content l)).eq_or
  · -- no words are quoted, so that a `;` at the end is the only thing that can be there anew
    obtain ⟨q', parens', last', -, hdrop⟩ := exists_dropBlankStatementsFrom_append hfixed
    rw [quoteWords, hsame, dropBlankStatements, closeLine] at hl
    split at hl
    · have hnil := hdrop []
      rw [List.append_nil, dropBlankStatementsFrom, List.append_nil] at hnil
      exact hnil.symm.trans hl.symm
    · rw [hdrop] at hl
      have hrest : rest = dropBlankStatementsFrom q' parens' last' [';'] :=
        List.append_cancel_left (happend.symm.trans hl)
      rcases dropBlankStatementsFrom_semicolon q' parens' last' with hsome | ⟨hnone, -⟩
      · rw [hrest, hsome] at hhead
        rcases hhead ';' rfl with h | h <;> exact absurd h (by decide)
      · rw [hnone, List.append_nil] at hl
        exact hl.symm
  · -- the line would have a quote where it has none
    rw [hcontent, List.append_assoc] at hfixed
    obtain ⟨q', parens', last', -, hdrop⟩ := exists_dropBlankStatementsFrom_append hfixed
    have hkeep (v : List Char) : ∃ v', dropBlankStatements (a ++ '"' :: v) = a ++ '"' :: v' := by
      rw [dropBlankStatements, hdrop, dropBlankStatementsFrom]
      dsimp only
      split
      · exact ⟨_, rfl⟩
      · rw [if_neg (by simp)]
        exact ⟨_, rfl⟩
    obtain ⟨v, hv⟩ : ∃ v, closeLine wasOpen (quoteWords (content l)) = a ++ '"' :: v := by
      rw [quoteWords, hquote, closeLine]
      split
      · exact ⟨u, rfl⟩
      · exact ⟨u ++ [';'], by simp⟩
    obtain ⟨v', hv'⟩ := hkeep v
    rw [hv, hv', happend, hcontent, List.append_assoc] at hl
    exact absurd (List.cons.inj (List.append_cancel_left hl)).1 hc

/-- A line that ends in a `;` or an opening brace goes on. -/
theorem goesOn_of_getLast? (htrim : Text.trimEnd l = l) (hl : l.getLast? = some c)
    (hc : (c == ';' || c == '\x7b') = true) : goesOn l = true := by
  obtain ⟨s, rfl⟩ := List.getLast?_eq_some_iff.1 hl
  rw [goesOn, htrim, List.any_eq_true]
  rcases Bool.or_eq_true _ _ ▸ hc with h | h
  · exact ⟨";", by decide, by rw [eq_of_beq h]; exact List.isSuffixOf_iff_suffix.2 ⟨s, rfl⟩⟩
  · exact ⟨"\x7b", by decide, by rw [eq_of_beq h]; exact List.isSuffixOf_iff_suffix.2 ⟨s, rfl⟩⟩

/-- A line that has its content only, and would lose a `;` at its end, goes on. Where a `;` ends
nothing there is another one before it, or an opening brace. -/
theorem goesOn_of_dropBlankStatements (ht : IsTidy l) (htrim : Text.trimEnd l = l)
    (h : dropBlankStatements (l ++ [';']) = l) : goesOn l = true := by
  have hfixed : dropBlankStatementsFrom {} 0 none (l ++ []) = l ++ [] := by
    rw [List.append_nil]
    exact ht.statements
  obtain ⟨q, parens, last, hlast, hdrop⟩ := exists_dropBlankStatementsFrom_append hfixed
  obtain ⟨c, hc⟩ : ∃ c, l.getLast? = some c := by
    cases hl : l.getLast? with
    | some c => exact ⟨c, rfl⟩
    | none =>
      have hblank := ht.notBlank
      rw [List.getLast?_eq_none_iff.1 hl] at hblank
      cases hblank
  have hcblank := Text.trimEnd_eq_self_iff.1 htrim c hc
  rw [dropBlankStatements, hdrop, hlast c (by rw [hc]; rfl) hcblank] at h
  rcases dropBlankStatementsFrom_semicolon q parens (some c) with hsome | ⟨-, hopen⟩
  · rw [hsome] at h
    exact absurd (congrArg List.length h) (by simp)
  · exact goesOn_of_getLast? htrim hc hopen

/-- A line of a normal form is its own normal form if and only if it is normal. If it is its own
normal form then nothing may come off and nothing be put behind it, and this is what it says. -/
theorem normalizeLine_eq_iff {wasOpen : Bool} (ht : IsTidy l) :
    (normalizeLine wasOpen l).1 = some l ↔ IsNormalLine wasOpen l := by
  constructor
  · intro h
    have hcontent := content_of_normalizeLine ht h
    obtain ⟨htrim, hbare⟩ := content_eq_self_iff.1 hcontent
    refine ⟨htrim, hbare, ?_⟩
    obtain ⟨-, -, hl⟩ := eq_of_normalizeLine h
    rw [cleanLine_eq, hcontent, ht.words, closeLine] at hl
    split at hl
    · assumption
    · rw [goesOn_of_dropBlankStatements ht htrim hl.symm, Bool.or_true]
  · intro h
    rw [normalizeLine_of_isNormalLine ht h]

theorem length_normalizeLines_le (wasOpen : Bool) (ls : List (List Char)) :
    (normalizeLines wasOpen ls).length ≤ ls.length := by
  induction ls generalizing wasOpen with
  | nil => exact Nat.le_refl 0
  | cons s ls ih =>
    have hline := Option.length_toList_le (o := (normalizeLine wasOpen s).1)
    have hlines := ih (normalizeLine wasOpen s).2
    simp only [normalizeLines, List.length_append, List.length_cons]
    omega

/-- Lines of a normal form are their own normal form if and only if they are normal. None may be
left out then, since there would be fewer lines. -/
theorem normalizeLines_eq_iff {wasOpen : Bool} {ls : List (List Char)} (h : ∀ l ∈ ls, IsTidy l) :
    normalizeLines wasOpen ls = ls ↔ AreNormal wasOpen ls := by
  induction ls generalizing wasOpen with
  | nil => exact ⟨fun _ => .nil, fun _ => rfl⟩
  | cons l ls ih =>
    obtain ⟨hl, hls⟩ := List.forall_mem_cons.1 h
    constructor
    · intro hsame
      rw [normalizeLines] at hsame
      dsimp only at hsame
      cases hline : (normalizeLine wasOpen l).1 with
      | none =>
        -- a line that goes leaves too few
        rw [hline] at hsame
        have hlength := congrArg List.length hsame
        have hle := length_normalizeLines_le (normalizeLine wasOpen l).2 ls
        simp only [Option.toList_none, List.nil_append, List.length_cons] at hlength
        omega
      | some l' =>
        rw [hline] at hsame
        obtain ⟨rfl, hrest⟩ := List.cons.inj hsame
        have hnormal := (normalizeLine_eq_iff hl).1 hline
        rw [normalizeLine_of_isNormalLine hl hnormal] at hrest
        dsimp only at hrest
        exact .cons hnormal ((ih hls).1 hrest)
    · intro hnormal
      cases hnormal with
      | cons hline hrest =>
        rw [normalizeLines, normalizeLine_of_isNormalLine hl hline]
        dsimp only
        rw [(ih hls).2 hrest]
        rfl

/-- Tidy lines are not empty, so that something is left of them when they are joined. No lines at
all are joined to the same text as a single empty one. -/
theorem intercalate_ne_nil {ls : List (List Char)} (h : ∀ l ∈ ls, IsTidy l) (hne : ls ≠ []) :
    ['\n'].intercalate ls ≠ [] := by
  intro hempty
  have hlines := Text.lines_intercalate hne fun l hl => (h l hl).newline
  rw [hempty] at hlines
  have hnil : [] ∈ ls := by
    rw [← hlines]
    exact List.mem_cons_self
  cases (h [] hnil).notBlank

/-- Tidy lines can be told from the text that they make up. -/
theorem eq_of_intercalate_eq {ls ms : List (List Char)} (hls : ∀ l ∈ ls, IsTidy l)
    (hms : ∀ l ∈ ms, IsTidy l) (h : ['\n'].intercalate ls = ['\n'].intercalate ms) : ls = ms := by
  by_cases hl : ls = []
  · subst hl
    by_cases hm : ms = []
    · exact hm.symm
    · exact absurd h.symm (intercalate_ne_nil hms hm)
  · have hm : ms ≠ [] := by
      rintro rfl
      exact intercalate_ne_nil hls hl h
    rw [← Text.lines_intercalate hl fun l hl => (hls l hl).newline, h,
      Text.lines_intercalate hm fun l hl => (hms l hl).newline]

theorem normalizeLines_empty (wasOpen : Bool) : normalizeLines wasOpen [[]] = [] := by
  have hclean : cleanLine [] = [] := by
    rw [cleanLine_eq, quoteWords, show content [] = [] from rfl, quoteWordsFrom]
  simp [normalizeLines, normalizeLine, hclean, Text.isBlankText]

/-- **A normal form is its own normal form if and only if its lines are normal**: none of them ends
in a blank or has a comment, and each of them goes on or ends in a `;`. -/
theorem normalize_normalize_iff (x : String) :
    normalize (normalize x) = normalize x ↔
      AreNormal false (normalizeLines false (Text.lines x.toList)) := by
  have hnewline : ∀ s ∈ Text.lines x.toList, '\n' ∉ s :=
    fun _ hs => Text.newline_not_mem_of_mem_lines hs
  have htidy : ∀ l ∈ normalizeLines false (Text.lines x.toList), IsTidy l :=
    fun _ hl => isTidy_of_mem_normalizeLines hnewline hl
  rw [← normalizeLines_eq_iff htidy]
  simp only [normalize, String.toList_ofList, String.ofList_inj]
  generalize normalizeLines false (Text.lines x.toList) = ls at htidy
  by_cases hls : ls = []
  · subst hls
    have hnone : normalizeLines false (Text.lines (['\n'].intercalate [])) = [] :=
      normalizeLines_empty false
    rw [hnone]
    exact ⟨fun _ => rfl, fun _ => rfl⟩
  · rw [Text.lines_intercalate hls fun l hl => (htidy l hl).newline]
    refine ⟨fun h => eq_of_intercalate_eq (fun l hl => ?_) htidy h, fun h => by rw [h]⟩
    exact isTidy_of_mem_normalizeLines (fun s hs => (htidy s hs).newline) hl

/-- The first `;` leaves a blank before the second one, and that one ends nothing: dropping it leaves
a line that ends in a blank. -/
theorem normalize_normalize_ne : normalize (normalize "a; ;") ≠ normalize "a; ;" := by
  decide +kernel

end Source

end CommandLanguage
