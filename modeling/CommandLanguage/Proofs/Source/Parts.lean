import CommandLanguage.Proofs.Source.Concat
import CommandLanguage.Proofs.Token.Lexes

/-!
# The parts of a script

Where no word has braces, the normal form of a script consists of its parts: the texts between the
ends of lines, the comments and the unquoted `;`. Nothing is done to them; only what stands between
them changes. A `;` is put at the end of a line, or the `;` behind a blank part is dropped.

* `parts` — the parts of a line, `scriptParts` those of all lines;
* `IsUncut` — that no `;` is seen in a text, so that it is a part (`exists_part`);
* `exists_dropBlankStatementsFrom_of_isUncut` — what becomes of a part.
-/

namespace CommandLanguage

namespace Text

/-- Cutting a text puts nothing into it. -/
theorem mem_of_mem_pieces {cut : Char → Bool} {s p : List Char} {c : Char}
    (hp : p ∈ pieces cut s) (hc : c ∈ p) : c ∈ s := by
  induction s generalizing p with
  | nil =>
    rw [List.mem_singleton.1 hp] at hc
    cases hc
  | cons d s ih =>
    unfold pieces at hp
    split at hp
    · rcases List.mem_cons.1 hp with rfl | hp
      · cases hc
      · exact List.mem_cons_of_mem d (ih hp hc)
    · rename_i hempty
      exact absurd hempty (pieces_ne_nil cut s)
    · rename_i hpieces
      rw [hpieces] at ih
      rcases List.mem_cons.1 hp with rfl | hp
      · rcases List.mem_cons.1 hc with rfl | hc
        · exact List.mem_cons_self
        · exact List.mem_cons_of_mem d (ih List.mem_cons_self hc)
      · exact List.mem_cons_of_mem d (ih (List.mem_cons_of_mem _ hp) hc)

/-- The lines of a text, joined, are the text. -/
theorem intercalate_lines (s : List Char) : ['\n'].intercalate (lines s) = s := by
  induction s with
  | nil => rfl
  | cons c s ih =>
    obtain ⟨ps, hps⟩ := exists_pieces_eq_cons (· == '\n') s
    rw [lines, hps] at ih
    by_cases hc : c = '\n'
    · subst hc
      have hlines : lines ('\n' :: s) = [] :: s.takeWhile (!· == '\n') :: ps := by
        rw [lines, pieces, hps]
        rfl
      rw [hlines]
      simpa [List.intercalate] using ih
    · have hlines : lines (c :: s) = (c :: s.takeWhile (!· == '\n')) :: ps := by
        rw [lines, pieces, hps, beq_false_of_ne hc]
      rw [hlines]
      cases ps <;> simpa [List.intercalate] using ih

end Text

namespace Source

variable {q q' : Quotes} {p s l : List Char} {last : Option Char}

/-- The texts between the `;` that are not quoted. Parentheses do not count here, unlike where
statements without content are dropped: a `;` between them cuts as well. -/
def partsFrom (q : Quotes) : List Char → List (List Char)
  | [] => [[]]
  | c :: r =>
    let (quoted, q) := q.feed c
    match !quoted && c == ';', partsFrom q r with
    | true, ps => [] :: ps
    | false, [] => [[c]]
    | false, p :: ps => (c :: p) :: ps

/-- The parts of a line. -/
def parts (l : List Char) : List (List Char) := partsFrom {} l

/-- The parts of a script. -/
def scriptParts (s : String) : List (List Char) :=
  (Text.lines s.toList).flatMap fun l => parts (content l)

/-- No `;` is seen in a text. The scan for quotes stands at `q` before it and at `q'` after it. A
quote may still be open in the end, and then the next part begins within it. -/
inductive IsUncut : (q : Quotes) → List Char → (q' : Quotes) → Prop where
  /-- nothing is left -/
  | nil (q : Quotes) : IsUncut q [] q
  /-- a character is quoted or no `;` -/
  | cons {q q' : Quotes} {c : Char} {r : List Char} (keeps : (q.feed c).1 = true ∨ c ≠ ';')
    (rest : IsUncut (q.feed c).2 r q') : IsUncut q (c :: r) q'

/-- The first part of a text, behind which the text ends or a `;` stands. If one stands there, no
quote is open at it, so the next part is scanned from the beginning. -/
theorem exists_part (q : Quotes) (s : List Char) : ∃ p q', IsUncut q p q' ∧
    (s = p ∧ partsFrom q s = [p] ∨
      ∃ r, s = p ++ ';' :: r ∧ q' = {} ∧ partsFrom q s = p :: partsFrom {} r) := by
  induction s generalizing q with
  | nil => exact ⟨[], q, .nil q, .inl ⟨rfl, rfl⟩⟩
  | cons c r ih =>
    by_cases hcut : (q.feed c).1 = false ∧ c = ';'
    · obtain ⟨hquoted, rfl⟩ := hcut
      obtain ⟨rfl, hfeed⟩ := Quotes.feed_of_fst_eq_false hquoted
      exact ⟨[], {}, .nil {}, .inr ⟨r, rfl, rfl, by simp [partsFrom, hfeed]⟩⟩
    · have hkeeps : (q.feed c).1 = true ∨ c ≠ ';' := by
        by_cases hc : c = ';'
        · exact .inl (by simpa [hc] using hcut)
        · exact .inr hc
      have hmatch : (!(q.feed c).1 && c == ';') = false := by
        rcases hkeeps with h | h <;> simp [h]
      obtain ⟨p, q', huncut, ⟨rfl, hparts⟩ | ⟨r, rfl, rfl, hparts⟩⟩ := ih (q.feed c).2
      · exact ⟨_, q', .cons hkeeps huncut, .inl ⟨rfl, by simp only [partsFrom, hmatch, hparts]⟩⟩
      · exact ⟨_, {}, .cons hkeeps huncut,
          .inr ⟨r, rfl, rfl, by simp only [partsFrom, hmatch, hparts]⟩⟩

theorem exists_parts_eq_cons (s : List Char) : ∃ p ps, parts s = p :: ps := by
  obtain ⟨p, q, -, ⟨-, hparts⟩ | ⟨r, -, -, hparts⟩⟩ := exists_part {} s
  · exact ⟨p, [], hparts⟩
  · exact ⟨p, _, hparts⟩

/-! ## What becomes of a part -/

/-- What the last character that counts is behind a part: the one that it was if the part is blank,
or one of the part with only blanks behind it. By this character it is decided whether a `;` ends
anything. -/
def LeavesLast (last : Option Char) (p : List Char) (last' : Option Char) : Prop :=
  Text.isBlankText p = true ∧ last' = last ∨
    ∃ u c w, p = u ++ c :: w ∧ last' = some c ∧ ∀ b ∈ w, Text.isBlank b = true

theorem LeavesLast.cons {c : Char} {last' : Option Char} (h : LeavesLast (some c) p last') :
    LeavesLast last (c :: p) last' := by
  rcases h with ⟨hblank, rfl⟩ | ⟨u, d, w, rfl, rfl, hw⟩
  · exact .inr ⟨[], c, p, rfl, rfl, List.all_eq_true.1 hblank⟩
  · exact .inr ⟨c :: u, d, w, rfl, rfl, hw⟩

theorem LeavesLast.blank {c : Char} (hc : Text.isBlank c = true) {last' : Option Char}
    (h : LeavesLast last p last') : LeavesLast last (c :: p) last' := by
  rcases h with ⟨hblank, rfl⟩ | ⟨u, d, w, rfl, rfl, hw⟩
  · exact .inl ⟨by rw [Text.isBlankText, List.all_cons, hc]; exact hblank, rfl⟩
  · exact .inr ⟨c :: u, d, w, rfl, rfl, hw⟩

/-- Nothing is dropped from a part. Only a `;` that is seen could be, and what is done behind the
part depends on it by two things: how many parentheses are open, and what the last character was. -/
theorem exists_dropBlankStatementsFrom_of_isUncut (h : IsUncut q p q') (parens : Nat)
    (last : Option Char) : ∃ parens' last', LeavesLast last p last' ∧
      ∀ t, dropBlankStatementsFrom q parens last (p ++ t) =
        p ++ dropBlankStatementsFrom q' parens' last' t := by
  induction h generalizing parens last with
  | nil q => exact ⟨parens, last, .inl ⟨rfl, rfl⟩, fun _ => rfl⟩
  | @cons q q' c r hkeeps _ ih =>
    by_cases hquoted : (q.feed c).1 = true
    · obtain ⟨parens', last', hlast, hdrop⟩ := ih parens (some c)
      exact ⟨parens', last', hlast.cons, fun t => by
        simp only [List.cons_append, dropBlankStatementsFrom, hquoted, if_true, hdrop]⟩
    · -- outside of quotes the part has no `;`
      have hc : (c == ';') = false := beq_false_of_ne (hkeeps.resolve_left hquoted)
      obtain ⟨parens', last', hlast, hdrop⟩ :=
        ih (if c == '(' then parens + 1 else if c == ')' then parens - 1 else parens)
          (if Text.isBlank c then last else some c)
      refine ⟨parens', last', ?_, fun t => ?_⟩
      · by_cases hblank : Text.isBlank c = true
        · rw [if_pos hblank] at hlast
          exact hlast.blank hblank
        · rw [if_neg hblank] at hlast
          exact hlast.cons
      · simp only [List.cons_append, dropBlankStatementsFrom, hquoted, hc, Bool.false_and,
          Bool.false_eq_true, if_false, hdrop]

/-- A `;` that is seen is dropped if it ends nothing. -/
theorem dropBlankStatementsFrom_semicolon_cons (parens : Nat) (last : Option Char) (r : List Char) :
    dropBlankStatementsFrom {} parens last (';' :: r) =
      if parens == 0 && last.all (fun l => l == ';' || l == '\x7b') then
        dropBlankStatementsFrom {} parens last r
      else ';' :: dropBlankStatementsFrom {} parens (some ';') r := rfl

/-! ## Lines -/

/-- Where there are no braces, no word needs quotes. -/
theorem quoteWordsFrom_of_not_mem (h : '\x7b' ∉ s) (q : Quotes) : quoteWordsFrom q s = s := by
  induction q, s using quoteWordsFrom.induct with
  | case1 => rw [quoteWordsFrom]
  | case2 q c r hquoted ih =>
    rw [quoteWordsFrom_quoted hquoted, ih (fun hr => h (List.mem_cons_of_mem c hr))]
  | case3 q c r hquoted hdelimiter ih =>
    rw [quoteWordsFrom_delimiter hquoted hdelimiter, ih (fun hr => h (List.mem_cons_of_mem c hr))]
  | case4 q c r hquoted hdelimiter tail ih =>
    have happend : c :: tail.1 ++ tail.2 = c :: r := congrArg (c :: ·)
      (splitWord_append (braceDepth 0 c) (parameterDepth 0 c r) r)
    rw [← happend, List.mem_append, not_or] at h
    rw [quoteWordsFrom_word hquoted hdelimiter, ← happend]
    change quoteWord (c :: tail.1) ++ quoteWordsFrom q tail.2 = _
    rw [quoteWord_of_not_mem h.1, ih h.2]

theorem not_mem_content {c : Char} (h : c ∉ s) : c ∉ content s := by
  obtain ⟨t, ht, -⟩ := exists_content_append s
  intro hmem
  rw [ht] at h
  exact h (List.mem_append_left t hmem)

/-- A line without braces is cleaned by taking its comment and the blanks at its end away. -/
theorem cleanLine_of_not_mem (h : '\x7b' ∉ s) : cleanLine s = content s := by
  rw [cleanLine_eq]
  exact quoteWordsFrom_of_not_mem (not_mem_content h) {}

theorem trimEnd_content (s : List Char) : Text.trimEnd (content s) = content s :=
  Text.trimEnd_trimEnd _

/-- Whether a line that ends so may go on: it ends neither in a blank nor in a number or a closing
parenthesis. This is less than what is asked of a line that does go on, but it is all that is needed
to know that no operand stands last. -/
def EndsOpen (s : List Char) : Prop :=
  ∀ c, s.getLast? = some c → Text.isBlank c = false ∧ c.isDigit = false ∧ c ≠ ')'

theorem endsOpen_of_open {wasOpen : Bool} (htrim : Text.trimEnd l = l)
    (h : (endsInHead l wasOpen || goesOn l) = true) : EndsOpen l := by
  intro z hz
  refine ⟨Text.trimEnd_eq_self_iff.1 htrim z hz, ?_⟩
  rcases Bool.or_eq_true_iff.1 h with h | h
  · obtain ⟨c, hc, hletter⟩ := getLast?_of_endsInHead htrim h
    obtain rfl : c = z := Option.some.inj (hc.symm.trans hz)
    have hstart : Text.isNameStart c = true := by rw [Text.isNameStart, hletter, Bool.true_or]
    exact ⟨Text.isDigit_of_isNameStart hstart, Text.ne_of_kind hletter (by decide)⟩
  · rw [goesOn, htrim, List.any_eq_true] at h
    obtain ⟨e, he, hsuffix⟩ := h
    have hopen : ∀ e ∈ openEndings, e.toList ≠ [] ∧
        e.toList.getLast?.all (fun c => !c.isDigit && c != ')') = true := by decide
    obtain ⟨hne, hlast⟩ := hopen e he
    rw [Text.getLast?_of_suffix (List.isSuffixOf_iff_suffix.1 hsuffix) hne, hz] at hlast
    simpa using hlast

theorem eq_nil_of_isBlankText (htrim : Text.trimEnd l = l) (h : Text.isBlankText l = true) :
    l = [] := by
  cases hl : l.getLast? with
  | none => exact List.getLast?_eq_none_iff.1 hl
  | some c =>
    have hc := Text.trimEnd_eq_self_iff.1 htrim c hl
    rw [List.all_eq_true.1 h c (List.mem_of_getLast? hl)] at hc
    cases hc

/-- The normal form of a line without braces. It is its content, with a `;` behind it or with
nothing if the line goes on, and without the `;` that end nothing. -/
theorem exists_normalizeLine_eq (h : '\x7b' ∉ l) (wasOpen : Bool) :
    ∃ f, (f = [';'] ∨ f = [] ∧ EndsOpen (content l)) ∧ (normalizeLine wasOpen l).1 =
      if Text.isBlankText (dropBlankStatements (content l ++ f)) then none
      else some (dropBlankStatements (content l ++ f)) := by
  have hclean := cleanLine_of_not_mem h
  have htrim := trimEnd_content l
  by_cases hblank : Text.isBlankText (content l) = true
  · refine ⟨[], .inr ⟨rfl, ?_⟩, ?_⟩
    · rw [eq_nil_of_isBlankText htrim hblank]
      exact nofun
    · have hnone : normalizeLine wasOpen l = (none, wasOpen) := by
        unfold normalizeLine
        rw [hclean]
        exact if_pos hblank
      rw [hnone, eq_nil_of_isBlankText htrim hblank]
      rfl
  · have hline : Text.isBlankText (cleanLine l) = false := by
      rw [hclean]
      exact Bool.eq_false_iff.2 hblank
    rw [normalizeLine_of_not_blank hline, hclean]
    -- a line that goes on gets no `;`, and all others do
    by_cases hopen : (endsInHead (content l) wasOpen || goesOn (content l)) = true
    · refine ⟨[], .inr ⟨rfl, endsOpen_of_open htrim hopen⟩, ?_⟩
      rw [closeLine, if_pos hopen, List.append_nil]
    · refine ⟨[';'], .inl rfl, ?_⟩
      rw [closeLine, if_neg hopen]

end Source

end CommandLanguage
