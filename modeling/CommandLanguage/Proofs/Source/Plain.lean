import CommandLanguage.Proofs.Source.Comments
import CommandLanguage.Proofs.Source.Concat

/-!
# Plain lines

A line without quotes, braces, `;` and `#` (`IsPlainLine`) keeps all of its text in the normal form, but
for blanks at its end, and a `;` is put behind it unless it goes on. Within a control statement its end
tells whether it does.

So the normal form of an `if` depends on where its lines end:

* on one line, only the second branch can get a `;` (`normalize_oneLine`);
* nor can the first one if the `else` stands on its line (`normalize_threeLines`);
* but if the `else` has a line of its own, the first branch gets a `;` like any other statement
  (`normalize_fourLines`).
-/

namespace CommandLanguage

namespace Text

/-! ## Texts and their ends -/

theorem mem_of_mem_trimEnd {s : List Char} {c : Char} (h : c ∈ trimEnd s) : c ∈ s := by
  obtain ⟨t, ht, -⟩ := exists_trimEnd_append s
  rw [ht]
  exact List.mem_append_left t h

theorem isBlankText_trimEnd (s : List Char) : isBlankText (trimEnd s) = isBlankText s := by
  obtain ⟨t, ht, hblank⟩ := exists_trimEnd_append s
  conv => rhs; rw [ht, isBlankText, List.all_append, List.all_eq_true.2 hblank, Bool.and_true]
  rfl

theorem exists_trimEnd_eq_concat {s : List Char} (h : isBlankText s = false) :
    ∃ t c, trimEnd s = t ++ [c] ∧ isBlank c = false := by
  cases hlast : (trimEnd s).getLast? with
  | none =>
    rw [← isBlankText_trimEnd, List.getLast?_eq_none_iff.1 hlast] at h
    cases h
  | some c =>
    obtain ⟨t, ht⟩ := List.getLast?_eq_some_iff.1 hlast
    exact ⟨t, c, ht, trimEnd_eq_self_iff.1 (trimEnd_trimEnd s) c hlast⟩

/-- Nothing of what stands before a text that is not blank is trimmed. The text itself is trimmed as
it is alone. -/
theorem trimEnd_append {t : List Char} (h : isBlankText t = false) (s : List Char) :
    trimEnd (s ++ t) = s ++ trimEnd t := by
  obtain ⟨u, hu, hblank⟩ := exists_trimEnd_append t
  obtain ⟨v, c, hv, hc⟩ := exists_trimEnd_eq_concat h
  have hlast : (s ++ trimEnd t).getLast? = some c := by
    rw [hv, ← List.append_assoc, List.getLast?_concat]
  calc trimEnd (s ++ t)
      = trimEnd (s ++ trimEnd t ++ u) := by rw [List.append_assoc, ← hu]
    _ = trimEnd (s ++ trimEnd t) := trimEnd_append_blanks _ hblank
    _ = s ++ trimEnd t := trimEnd_of_getLast? hlast hc

theorem trimEnd_append_cons {t : List Char} (h : isBlankText t = false) (s : List Char) (c : Char) :
    trimEnd (s ++ c :: t) = s ++ c :: trimEnd t := by
  have happend := trimEnd_append h (s ++ [c])
  rwa [List.append_assoc, List.append_assoc] at happend

/-- An ending without some character is one of what comes behind that character, so only the last
word of a line decides whether it goes on. -/
theorem suffix_append_cons_iff {c : Char} {e : List Char} (hc : c ∉ e) (s t : List Char) :
    e <:+ s ++ c :: t ↔ e <:+ t := by
  constructor
  · intro h
    rcases List.suffix_or_suffix_of_suffix h (List.suffix_append s (c :: t)) with he | he
    · rcases List.suffix_cons_iff.1 he with rfl | he
      · exact absurd List.mem_cons_self hc
      · exact he
    · exact absurd (he.subset List.mem_cons_self) hc
  · exact fun h => h.trans ((List.suffix_cons c t).trans (List.suffix_append s _))

/-- The words of a text that is cut by a blank are those of both parts. -/
theorem words_append {c : Char} (hc : isBlank c = true) (s t : List Char) :
    words (s ++ c :: t) = words s ++ words t := by
  rw [words, pieces_append_cons hc, List.filter_append]
  rfl

theorem words_trimEnd_ne_nil {s : List Char} (h : isBlankText s = false) : words (trimEnd s) ≠ [] := by
  obtain ⟨t, c, htrim, hc⟩ := exists_trimEnd_eq_concat h
  obtain ⟨ws, w, hwords⟩ := exists_words_concat hc t
  rw [htrim, hwords]
  exact List.append_ne_nil_of_right_ne_nil _ (List.cons_ne_nil _ _)

end Text

namespace Source

variable {q : Quotes} {c : Char} {l s t : List Char}

/-! ## Plain characters -/

/-- Whether a character is no quote, brace, `;`, `#` or end of a line. A backslash is plain: what it
quotes is the next character, and no text between quotes begins there. -/
def isPlain (c : Char) : Bool := !"#;\x7b\x7d'\"`\n".toList.contains c

theorem isOrdinary_of_isPlain (h : isPlain c = true) (hc : c ≠ '\\') : isOrdinary c = true := by
  have hall : "#;\x7b\x7d\\'\"`".toList.all (fun d => d == '\\' || !isPlain d) = true := by decide
  rw [isOrdinary, Bool.not_eq_true', Bool.eq_false_iff]
  intro hmem
  have hplain := List.all_eq_true.1 hall c (List.contains_iff_mem.1 hmem)
  rw [h, beq_false_of_ne hc] at hplain
  cases hplain

/-- A plain character opens no quotes. -/
theorem feed_of_isPlain (h : isPlain c = true) (hq : q.within = none) : (q.feed c).2.within = none := by
  have hquote : Quote.ofChar? c = none := by
    unfold Quote.ofChar?
    split <;> first | rfl | exact absurd rfl (Text.ne_of_kind h (by decide))
  unfold Quotes.feed
  rw [hq, hquote]
  split
  · rfl
  · dsimp only
    split
    · rfl
    · exact hq

/-- Without quotes, only what stands behind a backslash is quoted. Where the scan ends is not the
same for all of them, since a backslash may be the last character. -/
theorem exists_passes_of_isPlain (h : ∀ c ∈ s, isPlain c = true) (hq : q.within = none) :
    ∃ q', q.Passes s q' := by
  induction s generalizing q with
  | nil => exact ⟨q, .nil q⟩
  | cons c s ih =>
    obtain ⟨hc, hs⟩ := List.forall_mem_cons.1 h
    cases hquoted : (q.feed c).1 with
    | true =>
      obtain ⟨q', hpasses⟩ := ih hs (feed_of_isPlain hc hq)
      exact ⟨q', .quoted hquoted hpasses⟩
    | false =>
      obtain ⟨rfl, hfeed⟩ := Quotes.feed_of_fst_eq_false hquoted
      obtain ⟨q', hpasses⟩ := ih hs (q := {}) rfl
      have hbackslash : c ≠ '\\' := by
        rintro rfl
        cases hquoted
      exact ⟨q', .ordinary (isOrdinary_of_isPlain hc hbackslash) hpasses⟩

theorem newline_not_mem_of_isPlain (h : ∀ c ∈ s, isPlain c = true) : '\n' ∉ s := fun hmem => by
  cases h _ hmem

theorem endsInHead_trimEnd (l : List Char) (wasOpen : Bool) :
    endsInHead (Text.trimEnd l) wasOpen = endsInHead l wasOpen := by
  simp only [endsInHead, Text.trimEnd_trimEnd]

theorem goesOn_trimEnd (l : List Char) : goesOn (Text.trimEnd l) = goesOn l := by
  simp only [goesOn, Text.trimEnd_trimEnd]

/-! ## Plain lines -/

/-- A line of plain characters that is not blank. -/
structure IsPlainLine (l : List Char) : Prop where
  /-- its characters are plain -/
  plain : ∀ c ∈ l, isPlain c = true
  /-- it is not blank -/
  filled : Text.isBlankText l = false

theorem IsPlainLine.of_all (h : (l.all isPlain && !Text.isBlankText l) = true) : IsPlainLine l where
  plain := List.all_eq_true.1 (Bool.and_eq_true_iff.1 h).1
  filled := by simpa using (Bool.and_eq_true_iff.1 h).2

theorem IsPlainLine.append (h : IsPlainLine l) (hs : ∀ c ∈ s, isPlain c = true) :
    IsPlainLine (s ++ ' ' :: l) where
  plain := by
    simp only [List.forall_mem_append, List.forall_mem_cons]
    exact ⟨hs, rfl, h.plain⟩
  filled := by
    have hfilled := h.filled
    simp only [Text.isBlankText, List.all_append, List.all_cons] at hfilled ⊢
    rw [hfilled, Bool.and_false, Bool.and_false]

/-- Nothing is dropped from a plain line, nor the `;` behind it. -/
theorem IsPlainLine.dropBlankStatements_eq (h : IsPlainLine l) (wasOpen : Bool) :
    dropBlankStatements (closeLine wasOpen (Text.trimEnd l)) = closeLine wasOpen (Text.trimEnd l) := by
  have htrim : ∀ c ∈ Text.trimEnd l, isPlain c = true := fun c hc => h.plain c (Text.mem_of_mem_trimEnd hc)
  obtain ⟨q, hpasses⟩ := exists_passes_of_isPlain (q := {}) htrim rfl
  obtain ⟨t, c, ht, hc⟩ := Text.exists_trimEnd_eq_concat h.filled
  obtain ⟨parens, last, hlast, hdrop⟩ := exists_dropBlankStatementsFrom hpasses 0 none
  have hplain : isPlain c = true := htrim c (by rw [ht]; exact List.mem_append_right t List.mem_cons_self)
  unfold closeLine
  split
  · have hnil := hdrop []
    rwa [List.append_nil, dropBlankStatementsFrom, List.append_nil] at hnil
  · rw [dropBlankStatements, hdrop, hlast c (by rw [ht, List.getLast?_concat]; rfl) hc]
    obtain hkeep | ⟨-, hends⟩ := dropBlankStatementsFrom_semicolon q parens (some c)
    · rw [hkeep]
    · simp [Text.ne_of_kind hplain (show isPlain ';' = false by decide),
        Text.ne_of_kind hplain (show isPlain '\x7b' = false by decide)] at hends

/-- **The normal form of a plain line** is the line without the blanks at its end, closed. -/
theorem IsPlainLine.normalizeLine_eq (h : IsPlainLine l) (wasOpen : Bool) :
    normalizeLine wasOpen l =
      (some (closeLine wasOpen (Text.trimEnd l)), endsInHead l wasOpen) := by
  obtain ⟨q, hpasses⟩ := exists_passes_of_isPlain (q := {}) h.plain rfl
  obtain ⟨q', hpasses'⟩ := exists_passes_of_isPlain (q := {}) (s := Text.trimEnd l)
    (fun c hc => h.plain c (Text.mem_of_mem_trimEnd hc)) rfl
  have hclean : cleanLine l = Text.trimEnd l := by
    rw [cleanLine_eq, content_eq, stripComment, stripCommentFrom_of_passes hpasses, quoteWords,
      quoteWordsFrom_of_passes hpasses']
  have hblank : Text.isBlankText (Text.trimEnd l) = false := by rw [Text.isBlankText_trimEnd, h.filled]
  have hsome : Text.isBlankText (closeLine wasOpen (Text.trimEnd l)) = false := by
    unfold closeLine
    split
    · exact hblank
    · rw [Text.isBlankText, List.all_append, ← Text.isBlankText, hblank, Bool.false_and]
  rw [normalizeLine_of_not_blank (by rw [hclean, hblank]), hclean, h.dropBlankStatements_eq, hsome,
    endsInHead_trimEnd]
  rfl

theorem IsPlainLine.normalizeLines_cons (h : IsPlainLine l) (wasOpen : Bool) (ls : List (List Char)) :
    normalizeLines wasOpen (l :: ls) =
      closeLine wasOpen (Text.trimEnd l) :: normalizeLines (endsInHead l wasOpen) ls := by
  rw [normalizeLines, h.normalizeLine_eq]
  rfl

/-! ## The ends of plain lines

Whether a `;` is put behind a plain line depends on its last word and on whether a control statement
is open. Both are told from the end of the line alone. -/

/-- The first word of a line. -/
def firstWord (l : List Char) : String := ((Text.words (Text.trimEnd l)).map String.ofList).headD ""

/-- The last word of a line. -/
def lastWord (l : List Char) : String := ((Text.words (Text.trimEnd l)).map String.ofList).getLastD ""

/-- Whether a plain line stops inside of the head of a control statement is told by its first and
its last word alone. -/
theorem IsPlainLine.endsInHead_eq (h : IsPlainLine l) (wasOpen : Bool) : endsInHead l wasOpen =
    ((headWords.contains (firstWord l) || wasOpen) && bridgeWords.contains (lastWord l)) := by
  obtain ⟨q, hpasses⟩ := exists_passes_of_isPlain (q := {}) (s := Text.trimEnd l)
    (fun c hc => h.plain c (Text.mem_of_mem_trimEnd hc)) rfl
  simp only [endsInHead, lastSegment_of_passes hpasses, Bool.not_false, Bool.and_true, firstWord, lastWord]

theorem lastWord_append (hne : Text.isBlankText l = false) (s : List Char) :
    lastWord (s ++ ' ' :: l) = lastWord l := by
  obtain ⟨ws, w, hwords⟩ : ∃ ws w, Text.words (Text.trimEnd l) = ws ++ [w] :=
    ⟨_, _, (List.dropLast_concat_getLast (Text.words_trimEnd_ne_nil hne)).symm⟩
  rw [lastWord, lastWord, Text.trimEnd_append_cons hne, Text.words_append Text.isBlank_space, hwords]
  simp only [← List.append_assoc, List.map_append, List.map_singleton, List.getLastD_concat]

theorem firstWord_if (hne : Text.isBlankText l = false) : firstWord ("if ".toList ++ l) = "if" := by
  have hline : "if ".toList ++ l = "if".toList ++ ' ' :: l := rfl
  have hif : Text.words "if".toList = ["if".toList] := by decide
  rw [firstWord, hline, Text.trimEnd_append_cons hne, Text.words_append Text.isBlank_space, hif,
    List.singleton_append, List.map_cons, String.ofList_toList, List.headD_cons]

/-- Within a control statement, what stands before the end of a line does not matter. Neither does
it matter to which of its words the line was joined. -/
theorem IsPlainLine.endsInHead_append (h : IsPlainLine l) (hs : ∀ c ∈ s, isPlain c = true) :
    endsInHead (s ++ ' ' :: l) true = endsInHead l true := by
  rw [(h.append hs).endsInHead_eq, h.endsInHead_eq, lastWord_append h.filled, Bool.or_true, Bool.or_true]

/-- Behind `if`, a line is within a control statement. -/
theorem IsPlainLine.endsInHead_if (h : IsPlainLine l) (wasOpen : Bool) :
    endsInHead ("if ".toList ++ l) wasOpen = endsInHead l true := by
  have hif : IsPlainLine "if".toList := .of_all (by decide)
  have hhead : headWords.contains "if" = true := by decide
  have hline : "if ".toList ++ l = "if".toList ++ ' ' :: l := rfl
  rw [hline, (h.append hif.plain).endsInHead_eq, h.endsInHead_eq, lastWord_append h.filled, ← hline,
    firstWord_if h.filled, hhead, Bool.true_or, Bool.or_true]

/-- The endings after which a line goes on have no blanks in them, so what stands before a blank
does not tell. -/
theorem goesOn_append (hne : Text.isBlankText l = false) (s : List Char) :
    goesOn (s ++ ' ' :: l) = goesOn l := by
  have hopen : openEndings.all (fun e => !e.toList.contains ' ') = true := by decide
  rw [goesOn, goesOn, Text.trimEnd_append_cons hne, Bool.eq_iff_iff, List.any_eq_true, List.any_eq_true]
  refine exists_congr fun e => and_congr_right fun he => ?_
  rw [List.isSuffixOf_iff_suffix, List.isSuffixOf_iff_suffix, Text.suffix_append_cons_iff]
  simpa using List.all_eq_true.1 hopen e he

theorem closeLine_trimEnd (l : List Char) (wasOpen : Bool) : closeLine wasOpen (Text.trimEnd l) =
    if endsInHead l wasOpen || goesOn l then Text.trimEnd l else Text.trimEnd l ++ [';'] := by
  rw [closeLine, endsInHead_trimEnd, goesOn_trimEnd]

theorem closeLine_of_endsInHead {wasOpen : Bool} (h : endsInHead l wasOpen = true) :
    closeLine wasOpen (Text.trimEnd l) = Text.trimEnd l := by
  rw [closeLine_trimEnd, h]
  rfl

/-- Within a control statement, a line is closed by its end. -/
theorem IsPlainLine.closeLine_append (h : IsPlainLine l) (hs : ∀ c ∈ s, isPlain c = true) :
    closeLine true (Text.trimEnd (s ++ ' ' :: l)) = s ++ ' ' :: closeLine true (Text.trimEnd l) := by
  rw [closeLine_trimEnd, closeLine_trimEnd, h.endsInHead_append hs, goesOn_append h.filled,
    Text.trimEnd_append_cons h.filled]
  split
  · rfl
  · rw [List.append_assoc, List.cons_append]

theorem IsPlainLine.closeLine_if (h : IsPlainLine l) (wasOpen : Bool) :
    closeLine wasOpen (Text.trimEnd ("if ".toList ++ l)) =
      "if ".toList ++ closeLine true (Text.trimEnd l) := by
  have hgoes : goesOn ("if ".toList ++ l) = goesOn l := goesOn_append h.filled "if".toList
  rw [closeLine_trimEnd, closeLine_trimEnd, h.endsInHead_if, hgoes, Text.trimEnd_append h.filled]
  split
  · rfl
  · rw [List.append_assoc]

/-! ## Scripts of plain lines -/

/-- The normal form of plain lines has the normal forms of the lines. None of them is left out, as
none is blank. -/
theorem normalize_intercalate {ls : List (List Char)} (hne : ls ≠ []) (h : ∀ l ∈ ls, IsPlainLine l) :
    normalize (String.ofList (['\n'].intercalate ls)) =
      String.ofList (['\n'].intercalate (normalizeLines false ls)) := by
  rw [normalize, String.toList_ofList,
    Text.lines_intercalate hne fun l hl => newline_not_mem_of_isPlain (h l hl).plain]

/-- An `if` with two branches, and three characters where its lines may end. With a blank in each of
the places it stands on one line. -/
def ifText (x y z : Char) (c a b : List Char) : List Char :=
  "if ".toList ++ (c ++ (" then".toList ++ x :: (a ++ y :: ("else".toList ++ z :: b))))

section

variable {c a b : List Char} (hc : IsPlainLine c) (ha : IsPlainLine a) (hb : IsPlainLine b)

include hc

theorem isPlainLine_then : IsPlainLine ("if ".toList ++ (c ++ " then".toList)) := by
  have hif : IsPlainLine "if".toList := .of_all (by decide)
  have hthen : IsPlainLine "then".toList := .of_all (by decide)
  exact (hthen.append hc.plain).append hif.plain

/-- The line that ends in `then` stays as it is, and the head of the `if` is open behind it. -/
theorem normalizeLines_then (ls : List (List Char)) :
    normalizeLines false (("if ".toList ++ (c ++ " then".toList)) :: ls) =
      ("if ".toList ++ (c ++ " then".toList)) :: normalizeLines true ls := by
  have hthen : IsPlainLine "then".toList := .of_all (by decide)
  have hopen : endsInHead ("if ".toList ++ (c ++ " then".toList)) false = true :=
    calc endsInHead ("if ".toList ++ (c ++ " then".toList)) false
        = endsInHead (c ++ " then".toList) true := (hthen.append hc.plain).endsInHead_if false
      _ = endsInHead "then".toList true := hthen.endsInHead_append hc.plain
      _ = true := by decide
  have htrim : Text.trimEnd ("if ".toList ++ (c ++ " then".toList)) =
      "if ".toList ++ (c ++ " then".toList) := by
    rw [← List.append_assoc]
    exact Text.trimEnd_append_cons hthen.filled ("if ".toList ++ c) ' '
  rw [(isPlainLine_then hc).normalizeLines_cons, closeLine_of_endsInHead hopen, htrim, hopen]

include ha hb

/-- On one line, only the second branch can get a `;`. -/
theorem normalize_oneLine :
    normalize (String.ofList (ifText ' ' ' ' ' ' c a b)) =
      String.ofList (ifText ' ' ' ' ' ' c a (closeLine true (Text.trimEnd b))) := by
  have hif : IsPlainLine "if".toList := .of_all (by decide)
  have hthen : IsPlainLine "then".toList := .of_all (by decide)
  have helse : IsPlainLine "else".toList := .of_all (by decide)
  have h₁ := hb.append helse.plain
  have h₂ := h₁.append ha.plain
  have h₃ := h₂.append hthen.plain
  have h₄ := h₃.append hc.plain
  have hline : IsPlainLine (ifText ' ' ' ' ' ' c a b) := h₄.append hif.plain
  have hclose : closeLine false (Text.trimEnd (ifText ' ' ' ' ' ' c a b)) =
      ifText ' ' ' ' ' ' c a (closeLine true (Text.trimEnd b)) := by
    refine (h₄.closeLine_if false).trans ?_
    rw [h₃.closeLine_append hc.plain, h₂.closeLine_append hthen.plain, h₁.closeLine_append ha.plain,
      hb.closeLine_append helse.plain]
    rfl
  calc normalize (String.ofList (ifText ' ' ' ' ' ' c a b))
      = String.ofList (['\n'].intercalate (normalizeLines false [ifText ' ' ' ' ' ' c a b])) := by
        rw [← normalize_intercalate (List.cons_ne_nil _ _) (List.forall_mem_singleton.2 hline),
          List.intercalate_singleton]
    _ = String.ofList (['\n'].intercalate [closeLine false (Text.trimEnd (ifText ' ' ' ' ' ' c a b))]) := by
        rw [hline.normalizeLines_cons]
        rfl
    _ = String.ofList (ifText ' ' ' ' ' ' c a (closeLine true (Text.trimEnd b))) := by
        rw [hclose, List.intercalate_singleton]

/-- The first branch does not get one either if the `else` stands on its line. -/
theorem normalize_threeLines :
    normalize (String.ofList (ifText '\n' ' ' '\n' c a b)) =
      String.ofList (ifText '\n' ' ' '\n' c a (closeLine true (Text.trimEnd b))) := by
  have helse : IsPlainLine "else".toList := .of_all (by decide)
  have hline := helse.append ha.plain
  have hopen : endsInHead (a ++ ' ' :: "else".toList) true = true :=
    (helse.endsInHead_append ha.plain).trans (by decide)
  have hlines (d : List Char) : ifText '\n' ' ' '\n' c a d = ['\n'].intercalate
      ["if ".toList ++ (c ++ " then".toList), a ++ ' ' :: "else".toList, d] := by
    simp [ifText, List.intercalate]
  have hplain : ∀ l ∈ ["if ".toList ++ (c ++ " then".toList), a ++ ' ' :: "else".toList, b],
      IsPlainLine l := by
    simp only [List.forall_mem_cons]
    exact ⟨isPlainLine_then hc, hline, hb, nofun⟩
  rw [hlines, normalize_intercalate (List.cons_ne_nil _ _) hplain, normalizeLines_then hc,
    hline.normalizeLines_cons, closeLine_of_endsInHead hopen, hopen, hb.normalizeLines_cons,
    Text.trimEnd_append_cons helse.filled, hlines]
  rfl

/-- An `else` on a line of its own leaves the first branch to be closed like any other line. Nothing
is carried to it, since the branch before it does not end in a word after which a control statement
goes on. -/
theorem normalize_fourLines :
    normalize (String.ofList (ifText '\n' '\n' '\n' c a b)) =
      String.ofList (ifText '\n' '\n' '\n' c (closeLine true (Text.trimEnd a))
        (closeLine true (Text.trimEnd b))) := by
  have helse : IsPlainLine "else".toList := .of_all (by decide)
  -- an `else` begins a head, whether or not it is within one
  have hopen (wasOpen : Bool) : endsInHead "else".toList wasOpen = true := by
    cases wasOpen <;> decide
  have hlines (d e : List Char) : ifText '\n' '\n' '\n' c d e = ['\n'].intercalate
      ["if ".toList ++ (c ++ " then".toList), d, "else".toList, e] := by
    simp [ifText, List.intercalate]
  have hplain : ∀ l ∈ ["if ".toList ++ (c ++ " then".toList), a, "else".toList, b], IsPlainLine l := by
    simp only [List.forall_mem_cons]
    exact ⟨isPlainLine_then hc, ha, helse, hb, nofun⟩
  rw [hlines, normalize_intercalate (List.cons_ne_nil _ _) hplain, normalizeLines_then hc,
    ha.normalizeLines_cons, helse.normalizeLines_cons, closeLine_of_endsInHead (hopen _), hopen,
    hb.normalizeLines_cons, hlines]
  rfl

end

end Source

end CommandLanguage
