import CommandLanguage.Proofs.Source.Semicolon

/-!
# Words stay quoted

A word that was put between double quotes is left alone from then on, and one that needed no quotes
needs none later: `quoteWordsFrom_quoteWordsFrom`. Nor does it need any if `;` come or go at places
where they separate nothing (`quoteWordsFrom_eq_iff_of_sheds`).
-/

namespace CommandLanguage.Source

variable {depth parameters : Nat} {q : Quotes} {c : Char} {r s t : List Char}

/-! ## Words -/

theorem parameterDepth_congr (h : (c == '$' && s.head? == some '\x7b') =
    (c == '$' && t.head? == some '\x7b')) (parameters : Nat) :
    parameterDepth parameters c s = parameterDepth parameters c t := by
  simp only [parameterDepth, h]

/-- What ends a word is no part of one outside of it, either. So a word that was split off is never
followed by something that another word could begin with. -/
theorem isQuoting_or_isDelimiter_of_endsWord (h : endsWord depth parameters c = true) :
    (isQuoting c || isDelimiter c) = true := by
  simp only [endsWord, isDelimiter, Bool.or_eq_true] at h ⊢
  split at h
  · simpa using h
  · simp only [Bool.and_eq_true] at h
    rcases h with h | ⟨-, h⟩
    · exact .inl h
    · exact .inr (.inl h)

/-- A word is followed by what ends it. -/
theorem endsWord_of_splitWord (h : (splitWord depth parameters s).2 = c :: r) :
    (isQuoting c || isDelimiter c) = true := by
  induction s generalizing depth parameters with
  | nil => cases h
  | cons d s ih =>
    rw [splitWord] at h
    split at h
    · rename_i hends
      cases h
      exact isQuoting_or_isDelimiter_of_endsWord hends
    · exact ih h

/-- Nothing in a word is quoted: a quote or a backslash ends the word, even between braces. -/
theorem isQuoting_of_mem_splitWord (h : c ∈ (splitWord depth parameters s).1) :
    isQuoting c = false := by
  induction s generalizing depth parameters with
  | nil => cases h
  | cons d s ih =>
    rw [splitWord] at h
    split at h
    · cases h
    · rename_i hends
      rcases List.mem_cons.1 h with rfl | h
      · exact (Bool.or_eq_false_iff.1 (Bool.eq_false_iff.2 hends)).1
      · exact ih h

/-- A text begins as before if what follows a word in it does. It is the word that it begins with,
or what follows an empty one. -/
theorem head?_splitWord_append (h : t.head? = (splitWord depth parameters s).2.head?) :
    ((splitWord depth parameters s).1 ++ t).head? = s.head? := by
  have happend := congrArg List.head? (splitWord_append depth parameters s)
  rw [List.head?_append] at happend ⊢
  rw [h, happend]

/-- Of what follows a word, only the first character matters to it. That one decides whether the
word ends there and whether a `$` at its end opens a group. -/
theorem splitWord_append_of_head? (h : t.head? = (splitWord depth parameters s).2.head?) :
    splitWord depth parameters ((splitWord depth parameters s).1 ++ t) =
      ((splitWord depth parameters s).1, t) := by
  induction s generalizing depth parameters with
  | nil =>
    rw [List.head?_eq_none_iff.1 h]
    rfl
  | cons c s ih =>
    rw [splitWord] at h ⊢
    by_cases hends : endsWord depth parameters c = true
    · rw [if_pos hends] at h ⊢
      obtain ⟨t, rfl⟩ := List.head?_eq_some_iff.1 h
      rw [List.nil_append, splitWord, if_pos hends]
    · rw [if_neg hends] at h ⊢
      dsimp only at h ⊢
      rw [List.cons_append, splitWord, if_neg hends,
        parameterDepth_congr (t := s) (by rw [head?_splitWord_append h]), ih h]

/-! ## Quoting twice

A word is told by the character that it begins with and ends at one that it cannot hold, so what is
split off the second time is what was split off the first time. -/

/-- What is quoted already is left as it is, and the scan goes on behind it. -/
theorem quoteWordsFrom_quoted (h : (q.within.isSome || q.escaped || isQuoting c) = true)
    (r : List Char) : quoteWordsFrom q (c :: r) = c :: quoteWordsFrom (q.feed c).2 r := by
  rw [quoteWordsFrom, if_pos h]

/-- Between double quotes, a text without quotes and backslashes is left alone. Such is a word that
was put there, so that the second run passes it. -/
theorem quoteWordsFrom_double (h : ∀ c ∈ s, isQuoting c = false) :
    quoteWordsFrom { within := some .double } (s ++ '"' :: t) =
      s ++ '"' :: quoteWordsFrom {} t := by
  induction s with
  | nil => exact quoteWordsFrom_quoted rfl t
  | cons c s ih =>
    obtain ⟨hc, hs⟩ := List.forall_mem_cons.1 h
    have hfeed : Quotes.feed { within := some .double } c =
        (true, { within := some .double }) := by
      have hbackslash : '\\' ≠ c := Text.ne_of_kind (by decide) hc
      have hquote : '"' ≠ c := Text.ne_of_kind (by decide) hc
      simp [Quotes.feed, Quote.char, hbackslash.symm, hquote.symm]
    rw [List.cons_append, quoteWordsFrom_quoted rfl, hfeed, ih hs]
    rfl

/-- What ends a word is still there when the words are quoted. -/
theorem head?_quoteWordsFrom (h : (isQuoting c || isDelimiter c) = true) :
    (quoteWordsFrom q (c :: r)).head? = some c := by
  rw [quoteWordsFrom]
  split
  · rfl
  · rename_i hquoted
    rw [if_pos]
    · rfl
    · simp only [Bool.or_eq_true, not_or] at hquoted h
      exact h.resolve_left hquoted.2

/-- What follows a word begins as before when the words are quoted. -/
theorem head?_quoteWordsFrom_splitWord :
    (quoteWordsFrom q (splitWord depth parameters s).2).head? =
      (splitWord depth parameters s).2.head? := by
  cases hrest : (splitWord depth parameters s).2 with
  | nil => rw [quoteWordsFrom]
  | cons c r =>
    rw [head?_quoteWordsFrom (endsWord_of_splitWord hrest)]
    rfl

/-- Outside of quotes, a word comes first if a character is neither quoting nor a delimiter. It is
quoted as a whole or left as a whole, and the scan goes on behind it as if nothing had come
before. -/
theorem quoteWordsFrom_word (hquoted : ¬(q.within.isSome || q.escaped || isQuoting c) = true)
    (hdelimiter : ¬isDelimiter c = true) :
    quoteWordsFrom q (c :: r) =
      quoteWord (c :: (splitWord (braceDepth 0 c) (parameterDepth 0 c r) r).1) ++
        quoteWordsFrom q (splitWord (braceDepth 0 c) (parameterDepth 0 c r) r).2 := by
  rw [quoteWordsFrom, if_neg hquoted, if_neg hdelimiter]

theorem quotes_eq_of_not_quoted (h : ¬(q.within.isSome || q.escaped || isQuoting c) = true) :
    q = {} ∧ q.feed c = (false, {}) :=
  Quotes.feed_of_fst_eq_false (by rw [Quotes.feed_fst]; exact Bool.eq_false_iff.2 h)

/-- Quoting the words of a line a second time changes nothing. The induction is on the first run: a
word that it put between quotes is passed by the second one, and one that it left is split off again
and needs no quotes. -/
theorem quoteWordsFrom_quoteWordsFrom (q : Quotes) (s : List Char) :
    quoteWordsFrom q (quoteWordsFrom q s) = quoteWordsFrom q s := by
  induction q, s using quoteWordsFrom.induct with
  | case1 => rw [quoteWordsFrom, quoteWordsFrom]
  | case2 q c r hquoted ih => rw [quoteWordsFrom, if_pos hquoted, quoteWordsFrom, if_pos hquoted, ih]
  | case3 q c r hquoted hdelimiter ih =>
    rw [quoteWordsFrom, if_neg hquoted, if_pos hdelimiter, quoteWordsFrom, if_neg hquoted,
      if_pos hdelimiter, ih]
  | case4 q c r hquoted hdelimiter tail ih =>
    obtain ⟨rfl, -⟩ := quotes_eq_of_not_quoted hquoted
    rw [quoteWordsFrom_word hquoted hdelimiter]
    change quoteWordsFrom {} (quoteWord (c :: tail.1) ++ quoteWordsFrom {} tail.2) =
      quoteWord (c :: tail.1) ++ quoteWordsFrom {} tail.2
    by_cases hneeds : needsQuotes (c :: tail.1) = true
    · have hword : ∀ d ∈ c :: tail.1, isQuoting d = false := by
        refine List.forall_mem_cons.2 ⟨?_, fun d hd => isQuoting_of_mem_splitWord hd⟩
        simpa using hquoted
      have hquote : quoteWord (c :: tail.1) ++ quoteWordsFrom {} tail.2 =
          '"' :: (c :: tail.1 ++ '"' :: quoteWordsFrom {} tail.2) := by
        rw [quoteWord, if_pos hneeds, List.append_assoc]
        rfl
      rw [hquote, quoteWordsFrom_quoted rfl]
      change '"' :: quoteWordsFrom { within := some .double } _ = _
      rw [quoteWordsFrom_double hword, ih]
    · -- what follows begins as before, so that the word is split off as before
      have hhead : (quoteWordsFrom {} tail.2).head? = tail.2.head? := head?_quoteWordsFrom_splitWord
      have hbegin : (tail.1 ++ quoteWordsFrom {} tail.2).head? = r.head? :=
        head?_splitWord_append hhead
      have hsplit := splitWord_append_of_head? hhead
      rw [quoteWord, if_neg hneeds, List.cons_append, quoteWordsFrom_word hquoted hdelimiter,
        parameterDepth_congr (t := r) (by rw [hbegin]), hsplit]
      dsimp only
      rw [ih, quoteWord, if_neg hneeds]
      rfl

/-- A line whose first word needs no quotes is left alone if the rest of it is. The quotes of a word
would make it longer, so the line cannot come out the same by accident. -/
theorem quoteWordsFrom_word_eq_iff (hquoted : ¬(q.within.isSome || q.escaped || isQuoting c) = true)
    (hdelimiter : ¬isDelimiter c = true) :
    quoteWordsFrom q (c :: r) = c :: r ↔
      needsQuotes (c :: (splitWord (braceDepth 0 c) (parameterDepth 0 c r) r).1) = false ∧
        quoteWordsFrom q (splitWord (braceDepth 0 c) (parameterDepth 0 c r) r).2 =
          (splitWord (braceDepth 0 c) (parameterDepth 0 c r) r).2 := by
  rw [quoteWordsFrom_word hquoted hdelimiter, quoteWord]
  have happend := splitWord_append (braceDepth 0 c) (parameterDepth 0 c r) r
  by_cases hneeds : needsQuotes (c :: (splitWord (braceDepth 0 c) (parameterDepth 0 c r) r).1) = true
  · have hc : '"' ≠ c := by
      rintro rfl
      exact hquoted (by simp [isQuoting, Quote.ofChar?])
    simp [hneeds, hc]
  · rw [if_neg hneeds, Bool.eq_false_iff.2 hneeds]
    generalize splitWord (braceDepth 0 c) (parameterDepth 0 c r) r = tail at happend
    rw [← happend]
    simp

/-! ## Semicolons that separate nothing -/

/-- Outside of braces, a word has no character that makes a `;` after it useless: a blank or a `;`
ends the word, and an opening brace goes further in. -/
theorem endsNothing_of_not_endsWord (h : ¬endsWord depth parameters c = true)
    (hdepth : braceDepth depth c = 0) : endsNothing c = false := by
  simp only [endsWord, Bool.or_eq_true, not_or] at h
  have hbrace : c ≠ '\x7b' := by
    rintro rfl
    simp [braceDepth] at hdepth
  by_cases hclose : c = '\x7d'
  · subst hclose
    decide
  · have hzero : depth = 0 := by simpa [braceDepth, hbrace, hclose] using hdepth
    have hdelimiter : ¬isDelimiter c = true := by simpa [hzero] using h.2
    simp only [isDelimiter, Bool.or_eq_true, not_or] at hdelimiter
    have hsemicolon : c ≠ ';' := by
      rintro rfl
      exact hdelimiter.2 (by decide)
    simp [endsNothing, hbrace, hsemicolon, hdelimiter.1]

/-- A `$` stands before a group as before. -/
theorem Sheds.parameterDepth (h : Sheds q (some c) s t) (parameters : Nat) :
    parameterDepth parameters c t = parameterDepth parameters c s := by
  refine parameterDepth_congr ?_ parameters
  by_cases hc : c = '$'
  · subst hc
    rw [h.head?_beq (by decide) (by decide)]
  · rw [beq_eq_false_iff_ne.2 hc, Bool.false_and, Bool.false_and]

/-- If a line only loses useless `;`, so does a word in it, and so does what follows the word. A `;`
ends a word unless it stands between braces, and one that ends the word is found in both lines or
has nothing before it that could be a word. -/
theorem Sheds.splitWord (parameters : Nat) {before : Option Char} (h : Sheds {} before s t)
    (hbefore : depth = 0 → before.all endsNothing = false) :
    Sheds {} before (splitWord depth parameters s).1 (splitWord depth parameters t).1 ∧
      ∃ before', Sheds {} before' (splitWord depth parameters s).2
        (splitWord depth parameters t).2 := by
  induction s generalizing depth parameters before t with
  | nil =>
    cases h
    exact ⟨.nil, before, .nil⟩
  | cons c s ih =>
    cases h with
    | @keep _ _ _ _ t rest =>
      rw [Source.splitWord, Source.splitWord]
      by_cases hends : endsWord depth parameters c = true
      · rw [if_pos hends, if_pos hends]
        exact ⟨.nil, before, .keep rest⟩
      · rw [if_neg hends, if_neg hends]
        have hquoting : isQuoting c = false :=
          (Bool.or_eq_false_iff.1 (Bool.eq_false_iff.2 hends)).1
        obtain ⟨-, hfeed⟩ : (Quotes.mk none false) = {} ∧ Quotes.feed {} c = (false, {}) :=
          Quotes.feed_of_fst_eq_false (by rw [Quotes.feed_fst, hquoting]; rfl)
        rw [hfeed] at rest
        rw [rest.parameterDepth]
        obtain ⟨hword, hrest⟩ := ih _ rest fun hdepth => endsNothing_of_not_endsWord hends hdepth
        exact ⟨.keep (by rw [hfeed]; exact hword), hrest⟩
    | drop hunquoted huseless rest =>
      -- only between braces can a useless `;` be part of a word
      have hdepth : depth ≠ 0 := by
        intro hdepth
        rw [hbefore hdepth] at huseless
        cases huseless
      have hends : ¬endsWord depth parameters ';' = true := by
        simp [endsWord, hdepth, isQuoting, Quote.ofChar?, show Text.isBlank ';' = false by decide]
      obtain ⟨hword, hrest⟩ := ih parameters rest fun h : depth = 0 => absurd h hdepth
      rw [Source.splitWord, if_neg hends]
      exact ⟨.drop hunquoted huseless hword, hrest⟩
    | last =>
      by_cases hends : endsWord depth parameters ';' = true
      · simp only [Source.splitWord, hends, if_true]
        exact ⟨.nil, before, .last⟩
      · simp only [Source.splitWord, hends, if_false, Bool.false_eq_true]
        exact ⟨.last, before, .nil⟩

theorem quoteWordsFrom_delimiter (hquoted : ¬(q.within.isSome || q.escaped || isQuoting c) = true)
    (hdelimiter : isDelimiter c = true) (r : List Char) :
    quoteWordsFrom q (c :: r) = c :: quoteWordsFrom q r := by
  rw [quoteWordsFrom, if_neg hquoted, if_pos hdelimiter]

/-- Whether the words of a line are as they should be is no matter of useless `;`. So the order in
which words are quoted and statements without content are dropped does not matter. -/
theorem quoteWordsFrom_eq_iff_of_sheds {before : Option Char} (h : Sheds q before s t) :
    quoteWordsFrom q s = s ↔ quoteWordsFrom q t = t := by
  induction q, s using quoteWordsFrom.induct generalizing before t with
  | case1 =>
    cases h
    exact Iff.rfl
  | case2 q c r hquoted ih =>
    cases h with
    | keep rest =>
      -- between quotes every character is kept, on both sides
      rw [quoteWordsFrom_quoted hquoted, quoteWordsFrom_quoted hquoted, List.cons_inj_right,
        List.cons_inj_right, ih rest]
    | drop hunquoted _ _ =>
      -- nothing is dropped between quotes
      rw [Quotes.feed_fst, hquoted] at hunquoted
      cases hunquoted
    | last =>
      rw [quoteWordsFrom_quoted hquoted, quoteWordsFrom, quoteWordsFrom]
      simp only
  | case3 q c r hquoted hdelimiter ih =>
    obtain ⟨rfl, hfeed⟩ := quotes_eq_of_not_quoted hquoted
    rw [quoteWordsFrom_delimiter hquoted hdelimiter, List.cons_inj_right]
    cases h with
    | keep rest =>
      rw [hfeed] at rest
      rw [quoteWordsFrom_delimiter hquoted hdelimiter, List.cons_inj_right, ih rest]
    | drop _ _ rest => exact ih rest
    | last => exact Iff.rfl
  | case4 q c r hquoted hdelimiter tail =>
    rename_i ih
    obtain ⟨rfl, hfeed⟩ := quotes_eq_of_not_quoted hquoted
    -- a word begins here, so the character is no `;` and is itself not dropped
    have hsemicolon : c ≠ ';' := by
      rintro rfl
      exact hdelimiter (by decide)
    cases h with
    | @keep _ _ _ _ t rest =>
      rw [hfeed] at rest
      have hends : ¬endsWord 0 0 c = true := by
        simp only [Bool.or_eq_true, not_or] at hquoted
        simp [endsWord, hquoted.2, hdelimiter]
      -- the word ends at the same character in both texts, and what is dropped lies behind it or
      -- changes nothing about its quotes
      obtain ⟨hword, before', htail⟩ := rest.splitWord (parameterDepth 0 c r)
        fun hdepth => endsNothing_of_not_endsWord hends hdepth
      have hkeep : Sheds {} none (c :: (splitWord (braceDepth 0 c) (parameterDepth 0 c r) r).1)
          (c :: (splitWord (braceDepth 0 c) (parameterDepth 0 c r) t).1) :=
        .keep (by rw [hfeed]; exact hword)
      rw [quoteWordsFrom_word_eq_iff hquoted hdelimiter,
        quoteWordsFrom_word_eq_iff hquoted hdelimiter, rest.parameterDepth, hkeep.needsQuotes]
      exact and_congr_right fun _ => ih htail
    | drop _ _ _ => exact absurd rfl hsemicolon
    | last => exact absurd rfl hsemicolon

end CommandLanguage.Source
