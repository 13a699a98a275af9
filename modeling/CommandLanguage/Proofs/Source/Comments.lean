import CommandLanguage.Proofs.Source.Stable

/-!
# Comments and blank lines are nothing

The only thing that is read of a line is its content, and a line without content leaves everything as
it was, also whether the line before it stops inside of the head of a control statement. A blank line
has no content, nor has a line with a comment only; and a comment adds nothing to the content of the
line that it comes after, unless the line ends within quotes or within a `${…}`, which hide the `#`.

* `Source.EndsPlainly` — the scan for a comment ends outside of quotes and of every `${`;
* `Source.Annotated` — lines, and the same lines with comments and blank lines put in;
* `normalize_annotated` — both have the same normal form.
-/

namespace CommandLanguage

namespace Text

theorem isBlank_space : isBlank ' ' = true := by decide

/-- Blanks at the end are trimmed, however many there are. -/
theorem trimEnd_append_blanks (s : List Char) {t : List Char} (ht : ∀ c ∈ t, isBlank c = true) :
    trimEnd (s ++ t) = trimEnd s := by
  rw [trimEnd, List.reverse_append,
    List.dropWhile_append_of_pos fun c hc => ht c (List.mem_reverse.1 hc), ← trimEnd]

end Text

namespace Source

variable {q : Quotes} {depth : Nat} {before : Option Char} {c : Char} {s t l : List Char}

/-! ## The scan for a comment

Behind a text the scan is somewhere, and where it is decides whether a `#` there begins a
comment. -/

/-- Where the scan for a comment stands after a text: the quotes, and the number of open `${`. It
goes no further than to a comment. It looks at the same characters as `stripCommentFrom`, and gives
its state where that one gives the text. -/
def commentScanFrom (q : Quotes) (depth : Nat) (before : Option Char) : List Char → Quotes × Nat
  | [] => (q, depth)
  | c :: r =>
    let (quoted, q) := q.feed c
    if quoted then commentScanFrom q depth (some c) r
    else if c == '$' && r.head? == some '\x7b' then commentScanFrom q (depth + 1) (some c) r
    else if c == '\x7d' && 0 < depth then commentScanFrom q (depth - 1) (some c) r
    else if c == '#' && depth == 0 && before.all fun b => Text.isBlank b || b == ';' then (q, depth)
    else commentScanFrom q depth (some c) r

/-- The scan of a line for a comment ends outside of quotes and of every `${`. If it does not, then
a `#` behind the line would be part of a text or of a reference. -/
def EndsPlainly (s : List Char) : Prop :=
  (commentScanFrom {} 0 none (Text.trimEnd s)).1.within = none ∧
    (commentScanFrom {} 0 none (Text.trimEnd s)).2 = 0

instance (s : List Char) : Decidable (EndsPlainly s) := inferInstanceAs (Decidable (_ ∧ _))

/-- A scan that has found a comment is over, and one that has not goes on with what comes next,
unless a brace comes next that makes a `${`. -/
theorem stripCommentFrom_append (q : Quotes) (depth : Nat) (before : Option Char) (s : List Char)
    (ht : t.head? ≠ some '\x7b') :
    stripCommentFrom q depth before (s ++ t) = stripCommentFrom q depth before s ∨
      stripCommentFrom q depth before s = s ∧ ∃ last,
        stripCommentFrom q depth before (s ++ t) =
          s ++ stripCommentFrom (commentScanFrom q depth before s).1
            (commentScanFrom q depth before s).2 last t := by
  induction s generalizing q depth before with
  | nil => exact .inr ⟨rfl, before, rfl⟩
  | cons c r ih =>
    have hhead : ((r ++ t).head? == some '\x7b') = (r.head? == some '\x7b') := by
      cases r with
      | nil => simpa using ht
      | cons d r => rfl
    -- every way to pass a character keeps it
    have hkeep (q : Quotes) (depth : Nat) :
        c :: stripCommentFrom q depth (some c) (r ++ t) = c :: stripCommentFrom q depth (some c) r ∨
          c :: stripCommentFrom q depth (some c) r = c :: r ∧ ∃ last,
            c :: stripCommentFrom q depth (some c) (r ++ t) =
              c :: r ++ stripCommentFrom (commentScanFrom q depth (some c) r).1
                (commentScanFrom q depth (some c) r).2 last t := by
      obtain h | ⟨h, last, hlast⟩ := ih q depth (some c)
      · exact .inl (congrArg (c :: ·) h)
      · exact .inr ⟨congrArg (c :: ·) h, last, congrArg (c :: ·) hlast⟩
    rw [List.cons_append, stripCommentFrom, stripCommentFrom, commentScanFrom, hhead]
    dsimp only
    split
    · exact hkeep _ _
    split
    · exact hkeep _ _
    split
    · exact hkeep _ _
    split
    · exact .inl rfl
    · exact hkeep _ _

/-- A blank is none of the characters that a scan for a comment looks for. -/
theorem stripCommentFrom_blank (q : Quotes) (depth : Nat) (before : Option Char)
    (hc : Text.isBlank c = true) (r : List Char) :
    stripCommentFrom q depth before (c :: r) =
      c :: stripCommentFrom (q.feed c).2 depth (some c) r := by
  have hdollar : c ≠ '$' := Text.ne_of_kind hc (by decide)
  have hbrace : c ≠ '\x7d' := Text.ne_of_kind hc (by decide)
  have hsign : c ≠ '#' := Text.ne_of_kind hc (by decide)
  rw [stripCommentFrom]
  simp [hdollar, hbrace, hsign]

theorem stripCommentFrom_blanks (q : Quotes) (depth : Nat) (before : Option Char)
    (hs : ∀ c ∈ s, Text.isBlank c = true) : stripCommentFrom q depth before s = s := by
  induction s generalizing q before with
  | nil => rfl
  | cons c s ih =>
    obtain ⟨hc, hs⟩ := List.forall_mem_cons.1 hs
    rw [stripCommentFrom_blank q depth before hc, ih _ _ hs]

/-- A scan outside of quotes passes a blank, which may be escaped. Either way the scan stands
outside of quotes behind it, so that a comment can be seen there. -/
theorem feed_blank (hc : Text.isBlank c = true) (hq : q.within = none) : (q.feed c).2 = {} := by
  obtain ⟨within, escaped⟩ := q
  obtain rfl : within = none := hq
  have hquote : Quote.ofChar? c = none := by
    unfold Quote.ofChar?
    split <;> first | rfl | exact absurd rfl (Text.ne_of_kind hc (by decide))
  have hbackslash : c ≠ '\\' := Text.ne_of_kind hc (by decide)
  cases escaped <;> simp [Quotes.feed, hquote, hbackslash]

/-- A comment may stand first, after blanks, or behind what one may stand behind. -/
theorem stripCommentFrom_comment (hs : ∀ c ∈ s, Text.isBlank c = true)
    (hbefore : before.all (fun b => Text.isBlank b || b == ';') = true) (t : List Char) :
    stripCommentFrom {} 0 before (s ++ '#' :: t) = s := by
  induction s generalizing before with
  | nil =>
    have hfeed : Quotes.feed {} '#' = (false, {}) := by decide
    simp [stripCommentFrom, hfeed, hbefore]
  | cons c s ih =>
    obtain ⟨hc, hs⟩ := List.forall_mem_cons.1 hs
    rw [List.cons_append, stripCommentFrom_blank {} 0 before hc, feed_blank hc rfl,
      ih hs (by simp [hc])]

/-! ## Contents of lines -/

/-- That a line is trimmed before its comment is looked for makes no difference. -/
theorem content_eq (s : List Char) : content s = Text.trimEnd (stripComment s) := by
  obtain ⟨t, ht, hblank⟩ := Text.exists_trimEnd_append s
  have hhead : t.head? ≠ some '\x7b' := fun h =>
    absurd (hblank _ (List.mem_of_head? h)) (by decide)
  have happend : stripComment s = stripComment (Text.trimEnd s ++ t) := by rw [← ht]
  rw [content, happend]
  obtain h | ⟨h, last, hlast⟩ := stripCommentFrom_append {} 0 none (Text.trimEnd s) hhead
  · rw [stripComment, stripComment, h]
  · rw [stripComment, stripComment, h, hlast, stripCommentFrom_blanks _ _ _ hblank,
      Text.trimEnd_append_blanks _ hblank]

/-- A comment behind a line adds nothing to its content, if the line ends plainly. It may even end
in a backslash: the blank before the comment is then the character that is escaped. -/
theorem content_comment (h : EndsPlainly s) (t : List Char) :
    content (s ++ ' ' :: '#' :: t) = content s := by
  obtain ⟨hwithin, hdepth⟩ := h
  obtain ⟨u, hu, hblank⟩ := Text.exists_trimEnd_append s
  -- the blanks that are trimmed, and one more, come before the comment
  obtain ⟨c, v, hv, hc, hvblank⟩ : ∃ c v, u ++ [' '] = c :: v ∧ Text.isBlank c = true ∧
      ∀ d ∈ v, Text.isBlank d = true := by
    cases u with
    | nil => exact ⟨' ', [], rfl, Text.isBlank_space, nofun⟩
    | cons c u =>
      obtain ⟨hc, hu⟩ := List.forall_mem_cons.1 hblank
      refine ⟨c, u ++ [' '], rfl, hc, fun d hd => ?_⟩
      rcases List.mem_append.1 hd with hd | hd
      · exact hu d hd
      · rw [List.mem_singleton.1 hd]
        exact Text.isBlank_space
  have hline : s ++ ' ' :: '#' :: t = Text.trimEnd s ++ c :: (v ++ '#' :: t) := by
    calc s ++ ' ' :: '#' :: t
        = Text.trimEnd s ++ u ++ ' ' :: '#' :: t := by rw [← hu]
      _ = Text.trimEnd s ++ (u ++ [' ']) ++ '#' :: t := by simp
      _ = Text.trimEnd s ++ c :: (v ++ '#' :: t) := by rw [hv]; simp
  have hhead : (c :: (v ++ '#' :: t)).head? ≠ some '\x7b' := fun h =>
    absurd hc (by rw [Option.some.inj h]; decide)
  rw [content_eq (s ++ _), hline, content]
  obtain h | ⟨h, last, hlast⟩ := stripCommentFrom_append {} 0 none (Text.trimEnd s) hhead
  · rw [stripComment, stripComment, h]
  · rw [stripComment, stripComment, h, hlast, hdepth, stripCommentFrom_blank _ 0 last hc,
      feed_blank hc hwithin, stripCommentFrom_comment hvblank (by simp [hc]),
      Text.trimEnd_append_blanks _ (List.forall_mem_cons.2 ⟨hc, hvblank⟩)]

/-- A line that holds nothing, or nothing but a comment. -/
inductive IsAside : List Char → Prop where
  /-- blanks -/
  | blank {s : List Char} (hs : ∀ c ∈ s, Text.isBlank c = true) : IsAside s
  /-- blanks and a comment -/
  | comment {s : List Char} (hs : ∀ c ∈ s, Text.isBlank c = true) (t : List Char) :
    IsAside (s ++ '#' :: t)

theorem content_of_isAside (h : IsAside l) : content l = [] := by
  have hnil {s : List Char} (hs : ∀ c ∈ s, Text.isBlank c = true) : Text.trimEnd s = [] :=
    Text.trimEnd_append_blanks [] hs
  rw [content_eq, stripComment]
  cases h with
  | blank hs => rw [stripCommentFrom_blanks _ _ _ hs, hnil hs]
  | comment hs t => rw [stripCommentFrom_comment hs rfl t, hnil hs]

/-! ## Lines with comments -/

/-- Nothing but the content of a line is looked at. Two lines with the same content are the same
line to all that comes after. -/
theorem normalizeLine_congr {wasOpen : Bool} (h : content s = content t) :
    normalizeLine wasOpen s = normalizeLine wasOpen t := by
  unfold normalizeLine
  rw [cleanLine_eq, cleanLine_eq, h]

/-- A line without content is left out, and what is carried from line to line is carried past it. So
blank lines and comments may stand within the head of a control statement, too. -/
theorem normalizeLine_of_content_eq_nil {wasOpen : Bool} (h : content s = []) :
    normalizeLine wasOpen s = (none, wasOpen) := by
  have hclean : cleanLine s = [] := by
    rw [cleanLine_eq, h, quoteWords, quoteWordsFrom]
  unfold normalizeLine
  rw [hclean]
  exact if_pos rfl

/-- Lines, and the same lines with comments and blank lines put in. There is no rule to put a
comment behind a line that does not end plainly. -/
inductive Annotated : List (List Char) → List (List Char) → Prop where
  /-- no lines -/
  | nil : Annotated [] []
  /-- nothing after the last newline is no line -/
  | newline : Annotated [[]] []
  /-- a line stays -/
  | keep {l : List Char} {ls ms : List (List Char)} (rest : Annotated ls ms) :
    Annotated (l :: ls) (l :: ms)
  /-- a blank line, or one with a comment, is put in -/
  | insert {l : List Char} {ls ms : List (List Char)} (line : IsAside l) (rest : Annotated ls ms) :
    Annotated ls (l :: ms)
  /-- a comment is put behind a line -/
  | comment {l : List Char} {ls ms : List (List Char)} (line : EndsPlainly l) (t : List Char)
    (rest : Annotated ls ms) : Annotated (l :: ls) ((l ++ ' ' :: '#' :: t) :: ms)

theorem normalizeLines_annotated {ls ms : List (List Char)} (h : Annotated ls ms) (wasOpen : Bool) :
    normalizeLines wasOpen ms = normalizeLines wasOpen ls := by
  induction h generalizing wasOpen with
  | nil => rfl
  | newline => exact (normalizeLines_empty wasOpen).symm
  | keep _ ih =>
    rw [normalizeLines, normalizeLines]
    dsimp only
    rw [ih]
  | insert line _ ih =>
    rw [normalizeLines, normalizeLine_of_content_eq_nil (content_of_isAside line)]
    exact ih wasOpen
  | comment line t _ ih =>
    rw [normalizeLines, normalizeLines, normalizeLine_congr (content_comment line t)]
    dsimp only
    rw [ih]

/-- **Comments and blank lines leave the normal form of a script alone**, wherever they are put in. A
comment behind a line needs a line that ends outside of quotes and of every `${`; what it says does
not matter. -/
theorem normalize_annotated {x y : String}
    (h : Annotated (Text.lines x.toList) (Text.lines y.toList)) : normalize y = normalize x := by
  rw [normalize, normalize, normalizeLines_annotated h]

/-- Comments within the head of a loop, which is open from line to line, and after a backslash. -/
theorem normalize_annotated_loop :
    Annotated (Text.lines "for x in\n(a ${b}) do\necho \\\n".toList)
        (Text.lines "# \x7b '\nfor x in # do\n \t\n(a ${b}) do # \"$\x7b\n  # then\necho \\ #;".toList) ∧
      normalize "# \x7b '\nfor x in # do\n \t\n(a ${b}) do # \"$\x7b\n  # then\necho \\ #;" =
        normalize "for x in\n(a ${b}) do\necho \\\n" := by
  have hx : Text.lines "for x in\n(a ${b}) do\necho \\\n".toList =
      ["for x in".toList, "(a ${b}) do".toList, "echo \\".toList, []] := by decide +kernel
  have hy : Text.lines
      "# \x7b '\nfor x in # do\n \t\n(a ${b}) do # \"$\x7b\n  # then\necho \\ #;".toList =
      ["# \x7b '".toList, "for x in # do".toList, " \t".toList, "(a ${b}) do # \"$\x7b".toList,
        "  # then".toList, "echo \\ #;".toList] := by decide +kernel
  have hlines : Annotated (Text.lines "for x in\n(a ${b}) do\necho \\\n".toList) (Text.lines
      "# \x7b '\nfor x in # do\n \t\n(a ${b}) do # \"$\x7b\n  # then\necho \\ #;".toList) := by
    rw [hx, hy]
    exact .insert (.comment (s := []) nofun _) <| .comment (by decide +kernel) _ <|
      .insert (.blank (List.all_eq_true.1 (by decide))) <| .comment (by decide +kernel) _ <|
      .insert (.comment (s := [' ', ' ']) (List.all_eq_true.1 (by decide)) _) <|
      .comment (by decide +kernel) _ .newline
  exact ⟨hlines, normalize_annotated hlines⟩

end Source

end CommandLanguage
