import CommandLanguage.Proofs.Brace.Matching
import CommandLanguage.Proofs.Reference.Pass
import CommandLanguage.Brace.Expand
import CommandLanguage.Source.Normal
import CommandLanguage.Token.Lexer

/-!
# Who looks for a closing brace

Groups in braces are searched for when a word is put between quotes, when a quoted text is read, when
references are replaced and when a word is cut at its first group. Each of these goes through its text by
index and starts a search wherever it has seen an opening brace. The definitions here do the same with
`search`, so that a fault of any search that they start is theirs.

They agree with the definitions that go through the text itself (`holdsParameterAt_eq`,
`isParameterWordAt_eq`, `holdsExpandableAt_eq`, `segmentsAt_eq`, `firstGroupAt_eq`). Hence no search is ever
started at another character than an opening brace, whatever the text. Every lemma is about any index, with
the rest of the text from there on (`List.drop`) on the other side.

* `search_exact` — where a search ends, what lies in between, and that none has a fault.
-/

namespace CommandLanguage

namespace Braces

/-- The character before an index. -/
def before? (s : List Char) : Nat → Option Char
  | 0 => none
  | i + 1 => s[i]?

/-! ## Words that hold a group -/

/-- Whether there is a `${…}` from an index on whose brace is closed. Behind a brace that is not
closed the search goes on, as there may be a closed one further inside. -/
def holdsParameterAt (s : List Char) (i : Nat) : Except Misuse Bool :=
  if i < s.length then
    if s[i]? == some '$' && s[i + 1]? == some '\x7b' then
      match search s (i + 1) with
      | .error f => .error f
      | .ok (some _) => .ok true
      | .ok none => holdsParameterAt s (i + 1)
    else holdsParameterAt s (i + 1)
  else .ok false
  termination_by s.length - i

/-- Whether a text is exactly one `${…}`. -/
def isParameterWordAt (s : List Char) : Except Misuse Bool :=
  if s.length < 3 || s[0]? != some '$' || s[1]? != some '\x7b' then .ok false
  else (search s 1).map (· == some (s.length - 1))

/-- Whether one of the outermost groups from an index on is expandable. Behind a group it goes on at
the index after its closing brace, and it gives up at a brace that is not closed. -/
def holdsExpandableAt (s : List Char) (i : Nat) : Except Misuse Bool :=
  if i < s.length then
    if s[i]? == some '\x7b' then
      match h : search s i with
      | .error f => .error f
      | .ok none => .ok false
      | .ok (some close) =>
        have := lt_of_search h
        if before? s i != some '$' && isExpandable 0 ((s.drop (i + 1)).take (close - (i + 1))) then
          .ok true
        else holdsExpandableAt s (close + 1)
    else holdsExpandableAt s (i + 1)
  else .ok false
  termination_by s.length - i

/-- Whether a word stands for several texts. -/
def isBraceWordAt (s : List Char) : Except Misuse Bool :=
  if s.isEmpty || s.any Text.isBlank then .ok false else holdsExpandableAt s 0

section

variable {s : List Char} {i : Nat}

/-- A text from an index within it on begins with the character there. This is how going through a
text by index and going through the text itself are compared. -/
theorem exists_drop_of_lt (h : i < s.length) : ∃ c, s[i]? = some c ∧ s.drop i = c :: s.drop (i + 1) :=
  ⟨s[i], List.getElem?_eq_getElem h, List.drop_eq_getElem_cons h⟩

theorem drop_of_not_lt (h : ¬ i < s.length) : s.drop i = [] :=
  List.drop_eq_nil_of_le (Nat.le_of_not_lt h)

/-- The text behind what a search finds. -/
theorem drop_add_succ (n : Nat) : s.drop (i + 1 + n + 1) = (s.drop (i + 1)).drop (n + 1) := by
  rw [List.drop_drop, Nat.add_assoc (i + 1)]

theorem holdsParameterAt_eq (s : List Char) (i : Nat) :
    holdsParameterAt s i = .ok (holdsParameter (s.drop i)) := by
  fun_induction holdsParameterAt s i with
  | case1 i h hc f hf =>
    exact absurd hf (search_ne_error (by simp_all) f)
  | case2 i h hc close hclose =>
    obtain ⟨hdollar, hopen⟩ : s[i]? = some '$' ∧ s[i + 1]? = some '\x7b' := by simpa using hc
    obtain ⟨n, hn, -⟩ := exists_of_search hopen hclose
    rw [exists_drop hdollar, exists_drop hopen, holdsParameter_cons]
    simp [closing?, hn]
  | case3 i h hc hnone ih =>
    obtain ⟨hdollar, hopen⟩ : s[i]? = some '$' ∧ s[i + 1]? = some '\x7b' := by simpa using hc
    -- the brace is not closed, but one behind it may be
    have hn := closing?_of_search hopen hnone
    rw [ih, exists_drop hdollar, holdsParameter_cons, exists_drop hopen]
    simp [closing?, hn]
  | case4 i h hc ih =>
    obtain ⟨c, hget, hdrop⟩ := exists_drop_of_lt h
    rw [ih, hdrop, holdsParameter_cons, List.head?_drop]
    rw [hget] at hc
    by_cases hdollar : c = '$'
    · have hopen : (s[i + 1]? == some '\x7b') = false := by simpa [hdollar] using hc
      simp [hopen]
    · simp [hdollar]
  | case5 i h => rw [drop_of_not_lt h, holdsParameter]

theorem isParameterWordAt_eq (s : List Char) : isParameterWordAt s = .ok (isParameterWord s) := by
  unfold isParameterWordAt isParameterWord
  split
  · rename_i h
    split
    · rename_i body
      cases body with
      | nil => rfl
      | cons c body =>
        have hshort : body.length + 1 + 1 + 1 < 3 := by simpa using h
        omega
    · rfl
  · rename_i h
    match s, h with
    | [], h => simp at h
    | [_], h => simp at h
    | a :: b :: body, h =>
      obtain ⟨⟨hlength, rfl⟩, rfl⟩ : (1 ≤ body.length ∧ a = '$') ∧ b = '\x7b' := by simpa using h
      -- the closing brace is the last character if nothing is left behind it
      rw [search_eq_ok rfl, matching?]
      cases hn : closing? 1 body with
      | none => simp [hn, Except.map]
      | some n =>
        simp only [List.drop_succ_cons, List.drop_zero, hn, Option.map_some, Except.map,
          List.length_cons, Option.some_beq_some]
        congr 1
        rw [Bool.eq_iff_iff, beq_iff_eq, beq_iff_eq]
        omega

theorem holdsExpandableAt_eq (s : List Char) (i : Nat) :
    holdsExpandableAt s i = .ok (holdsExpandable 0 (before? s i) (s.drop i)) := by
  fun_induction holdsExpandableAt s i with
  | case1 i h hc f hf =>
    exact absurd hf (search_ne_error (beq_iff_eq.1 hc) f)
  | case2 i h hc hnone =>
    have hn := closing?_of_search (beq_iff_eq.1 hc) hnone
    rw [exists_drop (beq_iff_eq.1 hc), holdsExpandable_brace, hn]
  | case3 i h hc close hclose _ hexpands =>
    obtain ⟨n, hn, rfl⟩ := exists_of_search (beq_iff_eq.1 hc) hclose
    rw [Nat.add_sub_cancel_left] at hexpands
    rw [exists_drop (beq_iff_eq.1 hc), holdsExpandable_brace, hn]
    simp only [hexpands, Bool.true_or]
  | case4 i h hc close hclose _ hexpands ih =>
    obtain ⟨n, hn, rfl⟩ := exists_of_search (beq_iff_eq.1 hc) hclose
    rw [Nat.add_sub_cancel_left, Bool.not_eq_true] at hexpands
    -- what the search goes on from has the closing brace before it
    have hbefore : before? s (i + 1 + n + 1) = some '\x7d' := by
      rw [before?, ← List.getElem?_drop]
      exact getElem?_closing? hn
    rw [ih, exists_drop (beq_iff_eq.1 hc), holdsExpandable_brace, hn, hbefore, drop_add_succ]
    simp only [hexpands, Bool.false_or]
  | case5 i h hc ih =>
    obtain ⟨c, hget, hdrop⟩ := exists_drop_of_lt h
    have hne : c ≠ '\x7b' := by simpa [hget] using hc
    rw [ih, hdrop, holdsExpandable_of_ne hne, before?, hget]
  | case6 i h => rw [drop_of_not_lt h, holdsExpandable]

theorem isBraceWordAt_eq (s : List Char) : isBraceWordAt s = .ok (isBraceWord s) := by
  unfold isBraceWordAt isBraceWord
  split
  · rename_i h
    rcases Bool.or_eq_true_iff.1 h with h | h <;> simp [h]
  · rename_i h
    rw [Bool.or_eq_true, not_or, Bool.not_eq_true, Bool.not_eq_true] at h
    rw [holdsExpandableAt_eq, h.1, h.2]
    rfl

end

end Braces

namespace Source

/-- Whether a word is put between double quotes. -/
def needsQuotesAt (word : List Char) : Except Braces.Misuse Bool := do
  if ← Braces.isParameterWordAt word then return true
  if ← Braces.holdsParameterAt word 0 then return true
  Braces.isBraceWordAt word

theorem needsQuotesAt_eq (word : List Char) : needsQuotesAt word = .ok (needsQuotes word) := by
  rw [needsQuotesAt, Braces.isParameterWordAt_eq, Braces.holdsParameterAt_eq,
    Braces.isBraceWordAt_eq, List.drop_zero, needsQuotes]
  cases Braces.isParameterWord word <;> cases Braces.holdsParameter word <;> rfl

end Source

namespace Lexer

/-- What a quoted text is read as. -/
def quotedLexemeAt (q : Quote) (value : List Char) : Except Braces.Misuse Lexeme := do
  if q == .double then
    if ← Braces.isParameterWordAt value then return .parameter (String.ofList value)
    if ← Braces.isBraceWordAt value then return .braces (String.ofList value)
  return .text (String.ofList value) (.quoted q)

theorem quotedLexemeAt_eq (q : Quote) (value : List Char) :
    quotedLexemeAt q value = .ok (quotedLexeme q value) := by
  rw [quotedLexemeAt, Braces.isParameterWordAt_eq, Braces.isBraceWordAt_eq, quotedLexeme]
  cases q == .double <;> cases Braces.isParameterWord value <;>
    cases Braces.isBraceWord value <;> rfl

end Lexer

namespace Reference

/-- The groups of a text from an index on and what stands between them. A `$` behind a backslash is
passed together with it, so that no search is started behind it. -/
def segmentsAt (s : List Char) (i : Nat) : Except Braces.Misuse (List Segment) :=
  if hlt : i < s.length then
    if s[i] == '\\' && s[i + 1]? == some '$' then
      (segmentsAt s (i + 2)).map (.literal ['\\', '$'] :: ·)
    else if s[i] == '$' && s[i + 1]? == some '\x7b' then
      match h : Braces.search s (i + 1) with
      | .error f => .error f
      | .ok (some close) =>
        have := Braces.lt_of_search h
        (segmentsAt s (close + 1)).map (.group ((s.drop (i + 2)).take (close - (i + 2))) :: ·)
      | .ok none => (segmentsAt s (i + 1)).map (.literal ['$'] :: ·)
    else (segmentsAt s (i + 1)).map (.literal [s[i]] :: ·)
  else .ok []
  termination_by s.length - i

/-- A group that is closed is a part of its own. -/
theorem segments_of_splitGroup? {r body rest : List Char}
    (h : Braces.splitGroup? r = some (body, rest)) :
    segments ('$' :: '\x7b' :: r) = .group body :: segments rest := by
  have htext := Braces.append_of_splitGroup? h
  rw [← htext] at h ⊢
  simpa [Segment.text] using segments_group_of_splitGroup? h

/-- A group that is not closed is no part of its own. -/
theorem segments_of_splitGroup?_eq_none {r : List Char} (h : Braces.splitGroup? r = none) :
    segments ('$' :: '\x7b' :: r) = .literal ['$'] :: segments ('\x7b' :: r) := by
  rw [segments.eq_def]
  simp only
  split
  · rename_i heq
    cases h.symm.trans heq
  · rfl

open Braces (exists_drop search_ne_error exists_of_search closing?_of_search drop_of_not_lt
  drop_add_succ) in
theorem segmentsAt_eq (s : List Char) (i : Nat) : segmentsAt s i = .ok (segments (s.drop i)) := by
  fun_induction segmentsAt s i with
  | case1 i h hc ih =>
    obtain ⟨hback, hdollar⟩ : s[i] = '\\' ∧ s[i + 1]? = some '$' := by simpa using hc
    rw [ih, List.drop_eq_getElem_cons h, hback, exists_drop hdollar, segments]
    rfl
  | case2 i h _ hc f hf =>
    obtain ⟨-, hopen⟩ : s[i] = '$' ∧ s[i + 1]? = some '\x7b' := by simpa using hc
    exact absurd hf (search_ne_error hopen f)
  | case3 i h _ hc close hclose _ ih =>
    obtain ⟨hdollar, hopen⟩ : s[i] = '$' ∧ s[i + 1]? = some '\x7b' := by simpa using hc
    obtain ⟨n, hn, rfl⟩ := exists_of_search hopen hclose
    have hsplit : Braces.splitGroup? (s.drop (i + 1 + 1)) =
        some ((s.drop (i + 1 + 1)).take n, (s.drop (i + 1 + 1)).drop (n + 1)) := by
      rw [Braces.splitGroup?, hn]
      rfl
    rw [ih, List.drop_eq_getElem_cons h, hdollar, exists_drop hopen, segments_of_splitGroup? hsplit,
      Nat.add_sub_cancel_left, drop_add_succ]
    rfl
  | case4 i h _ hc hnone ih =>
    obtain ⟨hdollar, hopen⟩ : s[i] = '$' ∧ s[i + 1]? = some '\x7b' := by simpa using hc
    have hn := closing?_of_search hopen hnone
    have hsplit : Braces.splitGroup? (s.drop (i + 1 + 1)) = none := by
      rw [Braces.splitGroup?, hn]
      rfl
    rw [ih, List.drop_eq_getElem_cons h, hdollar, exists_drop hopen,
      segments_of_splitGroup?_eq_none hsplit]
    rfl
  | case5 i h hescape hgroup ih =>
    rw [ih, List.drop_eq_getElem_cons h, segments]
    · rfl
    -- neither an escaped `$` nor a group begins here
    · intro r hback hr
      exact hescape (by simp [hback, Braces.getElem?_of_drop hr])
    · intro r hdollar hr
      exact hgroup (by simp [hdollar, Braces.getElem?_of_drop hr])
  | case6 i h => rw [drop_of_not_lt h, segments]

end Reference

namespace Brace

open Braces (before? search)

/-- The first group from an index on that stands for several texts, and what stands before it in the
whole text. -/
def firstGroupAt (s : List Char) (i : Nat) : Except Braces.Misuse (Option Group) :=
  if i < s.length then
    if s[i]? == some '\x7b' then
      match search s i with
      | .error f => .error f
      | .ok none => .ok none
      | .ok (some close) =>
        let body := (s.drop (i + 1)).take (close - (i + 1))
        if before? s i != some '$' && expands body then
          .ok (some ⟨s.take i, body, s.drop (close + 1)⟩)
        else firstGroupAt s (i + 1)
    else firstGroupAt s (i + 1)
  else .ok none
  termination_by s.length - i

/-- A group with more text before it. -/
def Group.behind (text : List Char) (g : Group) : Group := { g with before := text ++ g.before }

/-- What comes before a group grows by the character that the search leaves behind. -/
theorem map_behind_take_succ {s : List Char} {i : Nat} {c : Char} (h : s[i]? = some c)
    (g? : Option Group) :
    (g?.map fun g => { g with before := c :: g.before }).map (Group.behind (s.take i)) =
      g?.map (Group.behind (s.take (i + 1))) := by
  rw [Option.map_map, List.take_add_one, h]
  congr 1
  funext g
  simp [Group.behind]

open Braces (exists_drop exists_drop_of_lt search_ne_error exists_of_search closing?_of_search
  drop_of_not_lt drop_add_succ) in
theorem firstGroupAt_eq (s : List Char) (i : Nat) : firstGroupAt s i =
    .ok ((firstGroup? (before? s i) (s.drop i)).map (Group.behind (s.take i))) := by
  fun_induction firstGroupAt s i with
  | case1 i h hc f hf =>
    -- the search was started at an opening brace
    exact absurd hf (search_ne_error (beq_iff_eq.1 hc) f)
  | case2 i h hc hnone =>
    have hn := closing?_of_search (beq_iff_eq.1 hc) hnone
    rw [exists_drop (beq_iff_eq.1 hc)]
    simp [firstGroup?, Braces.splitGroup?, hn]
  | case3 i h hc close hclose body hexpands =>
    obtain ⟨n, hn, rfl⟩ := exists_of_search (beq_iff_eq.1 hc) hclose
    have hbody : body = (s.drop (i + 1)).take n := by simp only [body, Nat.add_sub_cancel_left]
    -- the group stands for several texts, so it is the first
    rw [hbody] at hexpands ⊢
    rw [exists_drop (beq_iff_eq.1 hc), firstGroup?, Braces.splitGroup?, hn, drop_add_succ]
    simp [hexpands, Group.behind]
  | case4 i h hc close hclose body hexpands ih =>
    obtain ⟨n, hn, rfl⟩ := exists_of_search (beq_iff_eq.1 hc) hclose
    have hbody : body = (s.drop (i + 1)).take n := by simp only [body, Nat.add_sub_cancel_left]
    -- it does not, and the search goes on right behind its opening brace
    rw [hbody, Bool.not_eq_true] at hexpands
    rw [ih, exists_drop (beq_iff_eq.1 hc), firstGroup?, Braces.splitGroup?, hn,
      ← map_behind_take_succ (beq_iff_eq.1 hc), before?, beq_iff_eq.1 hc]
    simp [hexpands]
  | case5 i h hc ih =>
    obtain ⟨c, hget, hdrop⟩ := exists_drop_of_lt h
    have hne : (c == '\x7b') = false := by simpa [hget] using hc
    rw [ih, hdrop, firstGroup?, hne, ← map_behind_take_succ hget, before?, hget]
    rfl
  | case6 i h =>
    rw [drop_of_not_lt h, firstGroup?]
    rfl

end Brace

namespace Braces

/-- A search from an opening brace keeps its counter at zero or above. It ends at the first index up to
which there are as many opening as closing braces, and finds nothing only if there is no such index; each
group that is opened before that index is closed before it. Whatever the text, no search is started
anywhere else, neither for words that need quotes nor for quoted texts, references and groups. -/
theorem search_exact :
    (∀ (s : List Char) (i : Nat), s[i]? = some '\x7b' →
      search s i = .ok (matching? s i) ∧
      (∀ c, matching? s i = some c → IsLeast {n | IsEven s i n} c ∧
        ∀ j, i < j → j < c → s[j]? = some '\x7b' →
          ∃ d, search s j = .ok (some d) ∧ j < d ∧ d < c) ∧
      (matching? s i = none → ∀ n, ¬ IsEven s i n)) ∧
    (∀ word, Source.needsQuotesAt word = .ok (Source.needsQuotes word)) ∧
    (∀ q value, Lexer.quotedLexemeAt q value = .ok (Lexer.quotedLexeme q value)) ∧
    (∀ text, Reference.segmentsAt text 0 = .ok (Reference.segments text)) ∧
    (∀ word, Brace.firstGroupAt word 0 = .ok (Brace.firstGroup? none word)) := by
  refine ⟨fun s i hi => ⟨search_eq_ok hi, fun c hc => ⟨isLeast_of_matching? hi hc, ?_⟩,
    not_isEven_of_matching?_eq_none hi⟩, Source.needsQuotesAt_eq, Lexer.quotedLexemeAt_eq,
    fun text => ?_, fun word => ?_⟩
  · intro j hij hjc hj
    obtain ⟨d, hd, hjd, hdc⟩ := matching?_within hc hij hjc hj
    exact ⟨d, by rw [search_eq_ok hj, hd], hjd, hdc⟩
  · rw [Reference.segmentsAt_eq, List.drop_zero]
  · have hbehind : Brace.Group.behind [] = id := rfl
    rw [Brace.firstGroupAt_eq, List.drop_zero, List.take_zero, hbehind, Option.map_id]
    rfl

/-- A group with another one in it, a closing brace too many and an opening brace too many. -/
def unevenBraces : List Char := "\x7ba\x7bb\x7dc\x7d\x7d\x7b".toList

/-- The outer group is closed at 6 and the inner one before; what is opened at 8 is never closed. -/
theorem search_exact_uneven :
    (unevenBraces[0]? = some '\x7b' ∧ search unevenBraces 0 = .ok (some 6) ∧
      IsLeast {n | IsEven unevenBraces 0 n} 6 ∧
      ∃ d, search unevenBraces 2 = .ok (some d) ∧ 2 < d ∧ d < 6) ∧
    (unevenBraces[8]? = some '\x7b' ∧ search unevenBraces 8 = .ok none ∧
      ∀ n, ¬ IsEven unevenBraces 8 n) := by
  have houter : matching? unevenBraces 0 = some 6 := by decide
  have hlast : matching? unevenBraces 8 = none := by decide
  obtain ⟨hsearch, hfound, -⟩ := search_exact.1 unevenBraces 0 (by decide)
  obtain ⟨hnone, -, hnothing⟩ := search_exact.1 unevenBraces 8 (by decide)
  obtain ⟨hleast, hwithin⟩ := hfound 6 houter
  exact ⟨⟨by decide, houter ▸ hsearch, hleast, hwithin 2 (by decide) (by decide) (by decide)⟩,
    by decide, hlast ▸ hnone, hnothing hlast⟩

end Braces

end CommandLanguage
