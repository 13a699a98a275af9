import CommandLanguage.Source.Normal

/-!
# What is quoted is left alone

`Quotes.Passes q s q'` says that a scan which begins at `q` finds all of the text `s` quoted or
ordinary, and ends at `q'`. Each step of the normal form that looks at single characters passes such
a text on as it is: nothing in it begins a comment or a group, or ends a segment or a statement.
-/

namespace CommandLanguage

theorem Quote.backslash_ne_char (q : Quote) : '\\' ≠ q.char := by cases q <;> decide

namespace Source

/-- Whether a character means nothing to the normal form even outside of quotes. -/
def isOrdinary (c : Char) : Bool := !"#;\x7b\x7d\\'\"`".toList.contains c

theorem isQuoting_of_isOrdinary {c : Char} (h : isOrdinary c = true) : isQuoting c = false := by
  have hquote : Quote.ofChar? c = none := by
    unfold Quote.ofChar?
    split <;> first | rfl | exact absurd rfl (Text.ne_of_kind h (by decide))
  simp [isQuoting, hquote, Text.ne_of_kind h (show isOrdinary '\\' = false by decide)]

end Source

namespace Quotes

open Source (isOrdinary)

/-- A character is quoted between quotes, after a backslash, or if it is a quote or backslash. So
the quotes around a text count as quoted themselves. -/
theorem feed_fst (q : Quotes) (c : Char) :
    (q.feed c).1 = (q.within.isSome || q.escaped || Source.isQuoting c) := by
  obtain ⟨within, escaped⟩ := q
  unfold feed Source.isQuoting
  cases escaped with
  | true => simp
  | false =>
    cases within with
    | some k => by_cases h : c = '\\' ∧ k = .double <;> simp [h]
    | none => cases Quote.ofChar? c <;> by_cases h : c = '\\' <;> simp [h]

/-- An ordinary character leaves a scan outside of quotes where it is. -/
theorem feed_of_isOrdinary {c : Char} (h : isOrdinary c = true) :
    feed {} c = (false, {}) := by
  have hquoting := Source.isQuoting_of_isOrdinary h
  simp only [Source.isQuoting, Bool.or_eq_false_iff, beq_eq_false_iff_ne, Option.isSome_eq_false_iff,
    Option.isNone_iff_eq_none] at hquoting
  simp [feed, hquoting]

/-- All of a text is quoted or ordinary, scanned from one state to another. The state is handed on,
so that texts of this kind can be put one behind the other. -/
inductive Passes : Quotes → List Char → Quotes → Prop where
  /-- nothing is scanned -/
  | nil (q : Quotes) : Passes q [] q
  /-- a quoted character comes first -/
  | quoted {q q' : Quotes} {c : Char} {r : List Char} (h : (q.feed c).1 = true)
      (rest : Passes (q.feed c).2 r q') : Passes q (c :: r) q'
  /-- an ordinary character comes first, outside of quotes -/
  | ordinary {q' : Quotes} {c : Char} {r : List Char} (h : isOrdinary c = true)
      (rest : Passes {} r q') : Passes {} (c :: r) q'

namespace Passes

variable {q q' q'' : Quotes} {c : Char} {s t r : List Char}

theorem append (hs : Passes q s q') (ht : Passes q' t q'') : Passes q (s ++ t) q'' := by
  induction hs with
  | nil => exact ht
  | quoted h _ ih => exact .quoted h (ih ht)
  | ordinary h _ ih => exact .ordinary h (ih ht)

/-- Nothing is quoted in a text of ordinary characters. -/
theorem of_forall (h : ∀ c ∈ s, isOrdinary c = true) : Passes {} s {} := by
  induction s with
  | nil => exact .nil {}
  | cons c s ih =>
    obtain ⟨hc, hs⟩ := List.forall_mem_cons.1 h
    exact .ordinary hc (ih hs)

/-- Outside of quotes, a character that is not quoted is ordinary, and the scan stands outside of
quotes behind it, too. -/
theorem cons_inv (h : Passes {} (c :: r) q') (hc : Source.isQuoting c = false) :
    isOrdinary c = true ∧ Passes {} r q' := by
  cases h with
  | quoted h _ =>
    rw [feed_fst, hc] at h
    cases h
  | ordinary h hr => exact ⟨h, hr⟩

/-- Outside of quotes, no group begins. -/
theorem head?_ne_brace (h : Passes {} r q') : r.head? ≠ some '\x7b' := by
  intro hhead
  obtain ⟨r, rfl⟩ := List.head?_eq_some_iff.1 hhead
  exact Bool.false_ne_true (h.cons_inv rfl).1

/-- What is not marked as quoted is ordinary. -/
theorem mark (h : Passes q s q') : ∀ m ∈ q.mark s, m.2 = true ∨ isOrdinary m.1 = true := by
  induction h with
  | nil => exact nofun
  | quoted h _ ih => exact List.forall_mem_cons.2 ⟨.inl h, ih⟩
  | ordinary h _ ih =>
    rw [Quotes.mark, feed_of_isOrdinary h]
    exact List.forall_mem_cons.2 ⟨.inr h, ih⟩

end Passes

end Quotes

/-! ## Texts between quotes -/

namespace Quote

/-- A text that can stand between quotes of a kind, on one line: the quote itself only stands in it
between double quotes, after a backslash. A backslash is never left without the character that it
takes along. -/
inductive Holds (q : Quote) : List Char → Prop where
  /-- no text -/
  | nil : Holds q []
  /-- a character for itself comes first -/
  | plain {c : Char} {r : List Char} (quote : c ≠ q.char) (backslash : c ≠ '\\') (newline : c ≠ '\n')
      (rest : Holds q r) : Holds q (c :: r)
  /-- a backslash with the character after it comes first -/
  | escaped {c : Char} {r : List Char} (quote : q = .double ∨ c ≠ q.char) (newline : c ≠ '\n')
      (rest : Holds q r) : Holds q ('\\' :: c :: r)

/-- A text between quotes. -/
def enclose (q : Quote) (s : List Char) : List Char := q.char :: (s ++ [q.char])

namespace Holds

variable {q : Quote} {s t : List Char}

theorem append (hs : q.Holds s) (ht : q.Holds t) : q.Holds (s ++ t) := by
  induction hs with
  | nil => exact ht
  | plain hquote hbackslash hnewline _ ih => exact .plain hquote hbackslash hnewline ih
  | escaped hquote hnewline _ ih => exact .escaped hquote hnewline ih

theorem newline_not_mem (h : q.Holds s) : '\n' ∉ s := by
  induction h with
  | nil => exact List.not_mem_nil
  | plain _ _ hnewline _ ih => simp [Ne.symm hnewline, ih]
  | escaped _ hnewline _ ih => simp [Ne.symm hnewline, ih]

/-- Between its quotes a text is quoted, and the scan stands between them at its end. Whatever the
text is about is hidden from all that looks at single characters. -/
theorem passes (h : q.Holds s) :
    Quotes.Passes { within := some q } s { within := some q } := by
  induction h with
  | nil => exact .nil _
  | @plain c r hquote hbackslash _ _ ih =>
    have hfeed : Quotes.feed { within := some q } c = (true, { within := some q }) := by
      simp [Quotes.feed, hquote, hbackslash]
    exact .quoted (by rw [hfeed]) (by rw [hfeed]; exact ih)
  | @escaped c r hquote _ _ ih =>
    by_cases hq : q = .double
    · subst hq
      exact .quoted rfl (.quoted rfl ih)
    · -- other quotes know no escapes, so that the backslash stands for itself
      have hc := hquote.resolve_left hq
      have hfeed {d : Char} (hd : d ≠ q.char) :
          Quotes.feed { within := some q } d = (true, { within := some q }) := by
        simp [Quotes.feed, hd, hq]
      refine .quoted (by rw [hfeed q.backslash_ne_char]) ?_
      rw [hfeed q.backslash_ne_char]
      exact .quoted (by rw [hfeed hc]) (by rw [hfeed hc]; exact ih)

/-- From its opening quote to the closing one, a text is quoted. -/
theorem passes_enclose (h : q.Holds s) : Quotes.Passes {} (q.enclose s) {} := by
  have hopen : Quotes.feed {} q.char = (true, { within := some q }) := by cases q <;> rfl
  have hclose : Quotes.feed { within := some q } q.char = (true, {}) := by cases q <;> rfl
  refine .quoted (by rw [hopen]) ?_
  rw [hopen]
  refine h.passes.append (.quoted (by rw [hclose]) ?_)
  rw [hclose]
  exact .nil {}

theorem newline_not_mem_enclose (h : q.Holds s) : '\n' ∉ q.enclose s := by
  have hchar : '\n' ≠ q.char := by cases q <;> decide
  simp [enclose, hchar, h.newline_not_mem]

end Holds

end Quote

/-! ## Texts without groups -/

namespace Braces

variable {s : List Char}

theorem isParameterWord_of_not_mem (h : '\x7b' ∉ s) : isParameterWord s = false := by
  unfold isParameterWord
  split
  · exact absurd (List.mem_cons_of_mem _ List.mem_cons_self) h
  · rfl

theorem holdsParameter_of_not_mem (h : '\x7b' ∉ s) : holdsParameter s = false := by
  induction s with
  | nil => rfl
  | cons c r ih =>
    obtain ⟨-, hr⟩ := not_or.1 (mt List.mem_cons.2 h)
    unfold holdsParameter
    rw [ih hr, Bool.or_false]
    split
    · exact absurd List.mem_cons_self hr
    · rfl

theorem holdsExpandable_of_not_mem (h : '\x7b' ∉ s) (before : Option Char) :
    holdsExpandable 0 before s = false := by
  induction s generalizing before with
  | nil => rfl
  | cons c r ih =>
    obtain ⟨hc, hr⟩ := not_or.1 (mt List.mem_cons.2 h)
    simp [holdsExpandable, Ne.symm hc, ih hr]

end Braces

/-! ## The steps of the normal form

Each step goes through a text by the same scan for quotes, so the induction is on `Passes` for each
of them. -/

namespace Source

variable {q q' : Quotes} {s : List Char}

theorem stripCommentFrom_of_passes (h : q.Passes s q') (before : Option Char) :
    stripCommentFrom q 0 before s = s := by
  induction h generalizing before with
  | nil => rfl
  | quoted h _ ih => simp only [stripCommentFrom, h, if_true, ih]
  | ordinary h hr ih =>
    simp [stripCommentFrom, Quotes.feed_of_isOrdinary h, hr.head?_ne_brace,
      Text.ne_of_kind h (show isOrdinary '#' = false by decide), ih]

/-- A word without groups needs no quotes. Words are only put between quotes for the sake of the
braces in them. -/
theorem quoteWord_of_not_mem (h : '\x7b' ∉ s) : quoteWord s = s := by
  simp [quoteWord, needsQuotes, Braces.isBraceWord, Braces.isParameterWord_of_not_mem h,
    Braces.holdsParameter_of_not_mem h, Braces.holdsExpandable_of_not_mem h]

/-- Outside of quotes, no brace is open after an ordinary character. -/
theorem depths_of_isOrdinary {c : Char} {r : List Char} (h : isOrdinary c = true)
    (hr : r.head? ≠ some '\x7b') : braceDepth 0 c = 0 ∧ parameterDepth 0 c r = 0 := by
  simp [braceDepth, parameterDepth, hr,
    Text.ne_of_kind h (show isOrdinary '\x7b' = false by decide),
    Text.ne_of_kind h (show isOrdinary '\x7d' = false by decide)]

/-- Outside of quotes, a word has no groups, and what follows it passes. The word ends at the first
quote at the latest, so it is made of ordinary characters. -/
theorem splitWord_of_passes (h : Quotes.Passes {} s q') :
    '\x7b' ∉ (splitWord 0 0 s).1 ∧ Quotes.Passes {} (splitWord 0 0 s).2 q' := by
  induction s with
  | nil => exact ⟨List.not_mem_nil, h⟩
  | cons c r ih =>
    unfold splitWord
    split
    next => exact ⟨List.not_mem_nil, h⟩
    next hword =>
      obtain ⟨hquoting, -⟩ := Bool.or_eq_false_iff.1 (Bool.eq_false_iff.2 hword)
      obtain ⟨hc, hr⟩ := h.cons_inv hquoting
      obtain ⟨hbraces, hparameters⟩ := depths_of_isOrdinary hc hr.head?_ne_brace
      rw [hbraces, hparameters]
      obtain ⟨hmem, hrest⟩ := ih hr
      have hne := Text.ne_of_kind hc (show isOrdinary '\x7b' = false by decide)
      exact ⟨by simp [hmem, hne.symm], hrest⟩

theorem quoteWordsFrom_of_passes (h : q.Passes s q') : quoteWordsFrom q s = s := by
  induction q, s using quoteWordsFrom.induct generalizing q' with
  | case1 => rw [quoteWordsFrom]
  | case2 q c r hquoted ih =>
    rw [quoteWordsFrom, if_pos hquoted]
    cases h with
    | quoted _ hr => rw [ih hr]
    | ordinary hc hr =>
      rw [Quotes.feed_of_isOrdinary hc] at ih ⊢
      rw [ih hr]
  | case3 q c r hquoted hdelimiter ih =>
    rw [quoteWordsFrom, if_neg hquoted, if_pos hdelimiter]
    cases h with
    | quoted hc hr => exact absurd (Quotes.feed_fst q c ▸ hc) hquoted
    | ordinary _ hr => rw [ih hr]
  | case4 q c r hquoted hdelimiter tail =>
    rename_i ih
    cases h with
    | quoted hc hr => exact absurd (Quotes.feed_fst q c ▸ hc) hquoted
    | ordinary hc hr =>
      -- a word of ordinary characters has no groups, so it is not put between quotes
      obtain ⟨hbraces, hparameters⟩ := depths_of_isOrdinary hc hr.head?_ne_brace
      obtain ⟨hmem, hrest⟩ := splitWord_of_passes hr
      have hne := Text.ne_of_kind hc (show isOrdinary '\x7b' = false by decide)
      simp only [tail, hbraces, hparameters] at ih
      rw [quoteWordsFrom, if_neg hquoted, if_neg hdelimiter, hbraces, hparameters]
      dsimp only
      rw [ih hrest, quoteWord_of_not_mem (by simp [hmem, hne.symm]), List.cons_append,
        splitWord_append]

/-- How far into parentheses a text leads does not matter after it; if it ends in a character that
is not blank, what came before it does not matter either. Nothing is dropped from the text itself,
as no `;` in it is seen. -/
theorem exists_dropBlankStatementsFrom (h : q.Passes s q') (parens : Nat) (last : Option Char) :
    ∃ parens' last', (∀ c, s.getLast?.or last = some c → Text.isBlank c = false → last' = some c) ∧
      ∀ t, dropBlankStatementsFrom q parens last (s ++ t) =
        s ++ dropBlankStatementsFrom q' parens' last' t := by
  induction h generalizing parens last with
  | nil => exact ⟨parens, last, fun c hc _ => hc, fun _ => rfl⟩
  | @quoted q q' c r h _ ih =>
    obtain ⟨parens', last', hlast, hdrop⟩ := ih parens (some c)
    refine ⟨parens', last', fun d hd => hlast d ?_, fun t => ?_⟩
    · rw [← hd, List.getLast?_cons]
      cases r.getLast? <;> rfl
    · simp only [List.cons_append, dropBlankStatementsFrom, h, if_true, hdrop]
  | @ordinary q' c r h _ ih =>
    -- outside of quotes there is no `;` that could be dropped
    have hsemicolon := Text.ne_of_kind h (show isOrdinary ';' = false by decide)
    obtain ⟨parens', last', hlast, hdrop⟩ :=
      ih (if c == '(' then parens + 1 else if c == ')' then parens - 1 else parens)
        (if Text.isBlank c then last else some c)
    refine ⟨parens', last', fun d hd hblank => hlast d ?_ hblank, fun t => ?_⟩
    · rw [List.getLast?_cons] at hd
      cases hr : r.getLast? with
      | none =>
        obtain rfl : c = d := by simpa [hr] using hd
        simp [hblank]
      | some e => simpa [hr] using hd
    · simp only [List.cons_append, dropBlankStatementsFrom, Quotes.feed_of_isOrdinary h,
        beq_eq_false_iff_ne.2 hsemicolon, Bool.false_and, Bool.false_eq_true, if_false, hdrop]

/-- Nothing separates the segments of a text in which all is quoted or ordinary. -/
theorem lastSegment_of_passes (h : Quotes.Passes {} s q') : lastSegment s = (s, false) := by
  have hsplit : ∀ m ∈ (Quotes.mark {} s).reverse, (!m.2 && isSeparator m.1) = false := by
    intro m hm
    rcases h.mark m (List.mem_reverse.1 hm) with hquoted | hordinary
    · rw [hquoted]
      rfl
    · have hseparator : isSeparator m.1 = false := by
        simp [isSeparator, Text.ne_of_kind hordinary (show isOrdinary ';' = false by decide),
          Text.ne_of_kind hordinary (show isOrdinary '\x7b' = false by decide),
          Text.ne_of_kind hordinary (show isOrdinary '\x7d' = false by decide)]
      rw [hseparator, Bool.and_false]
  have hall : (Quotes.mark {} s).reverse.takeWhile (fun m => !(!m.2 && isSeparator m.1)) =
      (Quotes.mark {} s).reverse := by
    rw [← List.append_nil (Quotes.mark {} s).reverse, List.takeWhile_append_of_pos fun m hm => by
      rw [hsplit m hm]; rfl]
    rfl
  have hany : (Quotes.mark {} s).reverse.any (fun m => !m.2 && isSeparator m.1) = false :=
    List.any_eq_false.2 fun m hm => by simp [hsplit m hm]
  simp only [lastSegment, hall, hany, List.reverse_reverse, Quotes.map_fst_mark]

end Source

end CommandLanguage
