import CommandLanguage.Proofs.Source.Stable

/-!
# The normal form of two scripts

Only whether a line stops inside of the head of a control statement is carried from line to line. A
line that does so ends in a word, so that nothing is carried behind a script whose normal form ends in
a `;`: with another script behind it, the normal form is that of the first and then that of the second
(`normalize_append`).
-/

namespace CommandLanguage

namespace Text

theorem lines_append (s t : List Char) : lines (s ++ '\n' :: t) = lines s ++ lines t :=
  pieces_append_cons rfl s t

/-- The last piece of a text ends as the text does, if that does not end in a cut. -/
theorem exists_pieces_concat {cut : Char → Bool} {c : Char} (hc : cut c = false) (s : List Char) :
    ∃ ps p, pieces cut (s ++ [c]) = ps ++ [p ++ [c]] := by
  induction s with
  | nil => exact ⟨[], [], by simp [pieces, hc]⟩
  | cons d s ih =>
    obtain ⟨ps, p, hps⟩ := ih
    cases hd : cut d with
    | true => exact ⟨[] :: ps, p, by simp [pieces, hd, hps]⟩
    | false =>
      cases ps with
      | nil => exact ⟨[], d :: p, by simp [pieces, hd, hps]⟩
      | cons q ps => exact ⟨(d :: q) :: ps, p, by simp [pieces, hd, hps]⟩

/-- The last word of a text that does not end in a blank ends as the text does. -/
theorem exists_words_concat {c : Char} (hc : isBlank c = false) (s : List Char) :
    ∃ ws w, words (s ++ [c]) = ws ++ [w ++ [c]] := by
  obtain ⟨ps, p, hps⟩ := exists_pieces_concat hc s
  exact ⟨ps.filter (!·.isEmpty), p, by simp [words, hps, List.filter_append]⟩

end Text

/-- Marking what is quoted goes from left to right, so one more character is marked by itself. -/
theorem Quotes.exists_mark_concat (q : Quotes) (s : List Char) (c : Char) :
    ∃ b, q.mark (s ++ [c]) = q.mark s ++ [(c, b)] := by
  induction s generalizing q with
  | nil => exact ⟨(q.feed c).1, rfl⟩
  | cons d s ih =>
    obtain ⟨b, hb⟩ := ih (q.feed d).2
    exact ⟨b, by simp [mark, hb]⟩

namespace Source

variable {s l : List Char} {ls ms : List (List Char)} {c : Char}

/-! ## Where lines end -/

/-- The last segment of a text is empty, or ends as the text does. A segment is what stands behind
the last `;` outside of quotes and parentheses. -/
theorem lastSegment_concat (s : List Char) (c : Char) :
    (lastSegment (s ++ [c])).1 = [] ∨ ∃ t, (lastSegment (s ++ [c])).1 = t ++ [c] := by
  obtain ⟨b, hb⟩ := Quotes.exists_mark_concat {} s c
  unfold lastSegment
  rw [hb, List.reverse_append]
  cases hkeep : b || !isSeparator c with
  | false =>
    left
    simp [hkeep]
  | true =>
    right
    exact ⟨_, by simp [hkeep]; rfl⟩

/-- The words after which a control statement goes on end in a letter. -/
theorem isAlpha_of_contains_bridgeWords {w : List Char}
    (h : bridgeWords.contains (String.ofList (w ++ [c])) = true) : c.isAlpha = true := by
  have hlast : ∀ b ∈ bridgeWords, b.toList.getLast?.all Char.isAlpha = true := by decide
  have hc := hlast _ (List.contains_iff_mem.1 h)
  rwa [String.toList_ofList, List.getLast?_concat] at hc

/-- A line that stops inside of the head of a control statement ends in a letter, since its last
word is one after which such a statement goes on. -/
theorem getLast?_of_endsInHead {wasOpen : Bool} (htrim : Text.trimEnd l = l)
    (h : endsInHead l wasOpen = true) : ∃ c, l.getLast? = some c ∧ c.isAlpha = true := by
  have hword : bridgeWords.contains
      (((Text.words (lastSegment l).1).map String.ofList).getLastD "") = true := by
    rw [← htrim]
    exact (Bool.and_eq_true_iff.1 h).2
  have hnil : bridgeWords.contains (((Text.words []).map String.ofList).getLastD "") = false := by
    decide
  cases hlast : l.getLast? with
  | none =>
    obtain rfl := List.getLast?_eq_none_iff.1 hlast
    exact absurd hword (by decide)
  | some c =>
    refine ⟨c, rfl, ?_⟩
    have hblank := Text.trimEnd_eq_self_iff.1 htrim c hlast
    obtain ⟨s, rfl⟩ := List.getLast?_eq_some_iff.1 hlast
    -- the last character belongs to the last word, or there would be no word to ask about
    rcases lastSegment_concat s c with hsegment | ⟨t, hsegment⟩
    · rw [hsegment, hnil] at hword
      cases hword
    · obtain ⟨ws, w, hwords⟩ := Text.exists_words_concat hblank t
      rw [hsegment, hwords, List.map_append, List.map_singleton, List.getLastD_concat] at hword
      exact isAlpha_of_contains_bridgeWords hword

/-- A character other than `;` stays the last one. Only a `;` is ever dropped, and what stands
before it stays where it is. -/
theorem getLast?_dropBlankStatementsFrom (q : Quotes) (parens : Nat) (last : Option Char)
    (hs : s.getLast? = some c) (hc : c ≠ ';') :
    (dropBlankStatementsFrom q parens last s).getLast? = some c := by
  induction s generalizing q parens last with
  | nil => cases hs
  | cons d s ih =>
    -- the last character is still the last one if what is behind the first one keeps it
    have hcons (t : List Char) (ht : s ≠ [] → t.getLast? = some c) (hnil : s = [] → t = []) :
        (d :: t).getLast? = some c := by
      by_cases hempty : s = []
      · rw [hnil hempty, ← hempty]
        exact hs
      · rw [List.getLast?_cons, ht hempty]
        rfl
    have hrest (hne : s ≠ []) : s.getLast? = some c := by
      obtain ⟨b, s, rfl⟩ := List.exists_cons_of_ne_nil hne
      rwa [List.getLast?_cons_cons] at hs
    have hkeep (q : Quotes) (parens : Nat) (last : Option Char) :
        (d :: dropBlankStatementsFrom q parens last s).getLast? = some c :=
      hcons _ (fun hne => ih _ _ _ (hrest hne)) fun hempty => by rw [hempty]; rfl
    rw [dropBlankStatementsFrom]
    dsimp only
    split
    · exact hkeep _ _ _
    · split
      · -- only a `;` is dropped, and the last character is none
        rename_i hdrop
        refine ih _ _ _ (hrest ?_)
        rintro rfl
        obtain rfl : d = c := Option.some.inj hs
        simp [hc] at hdrop
      · exact hkeep _ _ _

/-! ## From line to line

All that a line hands on to the next one is whether the head of a control statement is open. -/

/-- Whether lines stop inside of the head of a control statement. It is all that is carried from a
line to those behind it. -/
def openAfter (wasOpen : Bool) : List (List Char) → Bool
  | [] => wasOpen
  | s :: r => openAfter (normalizeLine wasOpen s).2 r

theorem normalizeLines_append (wasOpen : Bool) (ls ms : List (List Char)) :
    normalizeLines wasOpen (ls ++ ms) =
      normalizeLines wasOpen ls ++ normalizeLines (openAfter wasOpen ls) ms := by
  induction ls generalizing wasOpen with
  | nil => rfl
  | cons l ls ih =>
    rw [List.cons_append, normalizeLines, normalizeLines, openAfter]
    dsimp only
    rw [ih, List.append_assoc]

/-- A line that stops inside of the head of a control statement is not ended. Either it had nothing
in it and the head was open before, or it comes out with a last character that is no `;`. -/
theorem exists_normalizeLine {wasOpen : Bool} (h : (normalizeLine wasOpen s).2 = true) :
    (normalizeLine wasOpen s).1 = none ∧ wasOpen = true ∨
      ∃ l c, (normalizeLine wasOpen s).1 = some l ∧ l.getLast? = some c ∧ c ≠ ';' := by
  by_cases hblank : Text.isBlankText (cleanLine s) = true
  · have hnone : normalizeLine wasOpen s = (none, wasOpen) := by
      unfold normalizeLine
      exact if_pos hblank
    rw [hnone] at h ⊢
    exact .inl ⟨rfl, h⟩
  · rw [normalizeLine_of_not_blank (Bool.eq_false_iff.2 hblank)] at h ⊢
    dsimp only at h ⊢
    -- a line that leaves a statement open gets no `;`
    have hclose : closeLine wasOpen (cleanLine s) = cleanLine s := by
      rw [closeLine, h]
      rfl
    rw [hclose]
    have htrim : Text.trimEnd (cleanLine s) = cleanLine s := Text.trimEnd_trimEnd _
    obtain ⟨c, hlast, hletter⟩ := getLast?_of_endsInHead htrim h
    have hc : c ≠ ';' := Text.ne_of_kind hletter (by decide)
    have hlast' := getLast?_dropBlankStatementsFrom {} 0 none hlast hc
    -- its last character is a letter, which is neither blank nor dropped
    have hnotBlank : Text.isBlankText (dropBlankStatements (cleanLine s)) = false := by
      refine Bool.eq_false_iff.2 fun hall => ?_
      have hc := Text.trimEnd_eq_self_iff.1 htrim c hlast
      rw [List.all_eq_true.1 hall c (List.mem_of_getLast? hlast')] at hc
      cases hc
    rw [hnotBlank]
    exact .inr ⟨_, c, rfl, hlast', hc⟩

/-- Lines that stop inside of the head of a control statement have normal forms of which the last
one does not end in a `;`. -/
theorem exists_normalizeLines {wasOpen : Bool} (h : openAfter wasOpen ls = true) :
    normalizeLines wasOpen ls = [] ∧ wasOpen = true ∨
      ∃ l c, (normalizeLines wasOpen ls).getLast? = some l ∧ l.getLast? = some c ∧ c ≠ ';' := by
  induction ls generalizing wasOpen with
  | nil => exact .inl ⟨rfl, h⟩
  | cons s ls ih =>
    rw [normalizeLines]
    dsimp only
    rcases ih h with ⟨hnil, hopen⟩ | ⟨l, c, hlast, hl⟩
    · rw [hnil, List.append_nil]
      rcases exists_normalizeLine hopen with ⟨hnone, hwas⟩ | ⟨l, c, hsome, hl⟩
      · exact .inl ⟨by rw [hnone]; rfl, hwas⟩
      · exact .inr ⟨l, c, by rw [hsome]; rfl, hl⟩
    · exact .inr ⟨l, c, by rw [List.getLast?_append, hlast, Option.some_or], hl⟩

/-! ## Scripts -/

theorem intercalate_append (hls : ls ≠ []) (hms : ms ≠ []) :
    ['\n'].intercalate (ls ++ ms) = ['\n'].intercalate ls ++ '\n' :: ['\n'].intercalate ms := by
  obtain ⟨m, ms, rfl⟩ := List.exists_cons_of_ne_nil hms
  induction ls with
  | nil => exact absurd rfl hls
  | cons l ls ih =>
    cases ls with
    | nil => simp [List.intercalate]
    | cons l' ls =>
      have hrest := ih (List.cons_ne_nil _ _)
      simp only [List.intercalate, List.cons_append, List.intersperse_cons_cons, List.flatten_cons,
        List.append_assoc] at hrest ⊢
      rw [hrest]

theorem getLast?_intercalate (h : ls.getLast? = some l) (hc : l.getLast? = some c) :
    (['\n'].intercalate ls).getLast? = some c := by
  obtain ⟨ls, rfl⟩ := List.getLast?_eq_some_iff.1 h
  have hone : ['\n'].intercalate [l] = l := by simp [List.intercalate]
  cases ls with
  | nil => rwa [List.nil_append, hone]
  | cons l' ls =>
    rw [intercalate_append (List.cons_ne_nil _ _) (List.cons_ne_nil _ _), hone, List.getLast?_append,
      List.getLast?_cons, hc]
    rfl

/-- Whether the normal form of a script, if anything is left in it, ends in a `;`. It does unless
the last line goes on: behind an opening brace or bracket, a comma or an operator, or inside of the
head of a control statement. -/
def IsEnded (s : String) : Prop := ∀ c, (normalize s).toList.getLast? = some c → c = ';'

instance (s : String) : Decidable (IsEnded s) :=
  decidable_of_iff ((normalize s).toList.getLast?.all (· == ';') = true) <| by
    unfold IsEnded
    cases (normalize s).toList.getLast? <;> simp

/-- Behind a script that is ended, no head of a control statement is open. -/
theorem openAfter_of_isEnded {s : String} (h : IsEnded s) :
    openAfter false (Text.lines s.toList) = false := by
  refine Bool.eq_false_iff.2 fun hopen => ?_
  obtain ⟨-, hfalse⟩ | ⟨l, c, hlast, hl, hc⟩ := exists_normalizeLines hopen
  · cases hfalse
  · refine hc (h c ?_)
    rw [normalize, String.toList_ofList]
    exact getLast?_intercalate hlast hl

/-- **The normal form of two scripts with a new line between them** is that of the first and then
that of the second, if the first one is ended. If nothing is left of one of them, there is no line
between them either. -/
theorem normalize_append {s : String} (h : IsEnded s) (t : String) :
    normalize s = "" ∧ normalize (s ++ "\n" ++ t) = normalize t ∨
      normalize t = "" ∧ normalize (s ++ "\n" ++ t) = normalize s ∨
        normalize s ≠ "" ∧ normalize (s ++ "\n" ++ t) = normalize s ++ "\n" ++ normalize t := by
  have hlines : normalizeLines false (Text.lines (s ++ "\n" ++ t).toList) =
      normalizeLines false (Text.lines s.toList) ++ normalizeLines false (Text.lines t.toList) := by
    have hlist : (s ++ "\n" ++ t).toList = s.toList ++ '\n' :: t.toList := by simp
    rw [hlist, Text.lines_append, normalizeLines_append, openAfter_of_isEnded h]
  have htidy : ∀ l ∈ normalizeLines false (Text.lines s.toList), IsTidy l := fun _ hl =>
    isTidy_of_mem_normalizeLines (fun _ hs => Text.newline_not_mem_of_mem_lines hs) hl
  simp only [normalize, hlines]
  generalize normalizeLines false (Text.lines s.toList) = ls at htidy
  generalize normalizeLines false (Text.lines t.toList) = ms
  by_cases hls : ls = []
  · subst hls
    exact .inl ⟨rfl, rfl⟩
  by_cases hms : ms = []
  · subst hms
    exact .inr (.inl ⟨rfl, by rw [List.append_nil]⟩)
  · refine .inr (.inr ⟨by simpa using intercalate_ne_nil htidy hls, String.toList_injective ?_⟩)
    simp [intercalate_append hls hms]

end Source

end CommandLanguage
