import CommandLanguage.Proofs.Token.Spelling

/-!
# Texts in an array literal

Any text can be an item of an array literal: between double quotes, with a backslash before each quote
and each backslash in it. When tokens are read, such an item is one token for the text (`Gives.item`).

Before that, the parenthesis that closes the literal is searched for, and to the search a quote after a
backslash is a quote like any other. Which texts it goes through is said by `goesThrough`. It goes
through items without quotes in their texts, whatever else is in them. Where it does not get to the end,
it finds no parenthesis or one within an item. Then the parentheses stand for themselves, and the items
are tokens of their own (`tokens?_arrayText`).
-/

namespace CommandLanguage.Lexer

open Token (Alike)

variable {inner : List Char → Option (List Token)} {s r v : List Char} {vs : List (List Char)}

/-! ## One item -/

/-- A character of an item: a quote or backslash has a backslash before it. No other character has
to be written in another way between double quotes. -/
def itemChar (c : Char) : List Char := if c = '"' ∨ c = '\\' then ['\\', c] else [c]

/-- How a text is written as an item. -/
def itemText (v : List Char) : List Char := '"' :: (v.flatMap itemChar ++ ['"'])

/-- The token of an item: a text, or a reference or word with groups if it is nothing else. Which of
these it is makes no difference to an array literal. -/
def itemToken (v : List Char) : Token := .of (quotedLexeme .double v)

/-- Each character of an item is read as itself, with or without a backslash before it. -/
theorem splitText?_itemChar (c : Char) (s : List Char) :
    splitText? .double (itemChar c ++ s) = (splitText? .double s).map fun p => (c :: p.1, p.2) := by
  unfold itemChar
  split
  · next hc =>
    obtain rfl | rfl := hc
    · exact splitText?_escaped '"' s
    · exact splitText?_escaped '\\' s
  · next hc =>
    obtain ⟨hquote, hbackslash⟩ := not_or.1 hc
    exact splitText?_plain hquote hbackslash s

/-- Between the quotes of an item the text is read. -/
theorem splitText?_item (v r : List Char) :
    splitText? .double (v.flatMap itemChar ++ '"' :: r) = some (v, r) := by
  induction v with
  | nil => cases r <;> rfl
  | cons c v ih =>
    rw [List.flatMap_cons, List.append_assoc, splitText?_itemChar, ih]
    rfl

/-- An item is one token, whatever follows it. -/
theorem Gives.item (v r : List Char) : Gives inner (itemText v ++ r) (itemToken v) r := by
  have htext : itemText v ++ r = '"' :: (v.flatMap itemChar ++ '"' :: r) := by simp [itemText]
  rw [htext]
  refine .of_found (by simp only [List.length_append, List.length_cons]; omega) fun _ c hc => ?_
  refine ⟨c.moveTo r, ?_, rest_moveTo (t := itemText v) (by rw [hc, htext])⟩
  rw [readToken_quote (q := .double) hc, readText, hc, List.drop_one, List.tail_cons,
    splitText?_item]

/-- An item that is cut off has no end. It is cut off between its quotes if the search for the
parenthesis takes one of its own quotes for the closing one. -/
theorem Fails.item {u w : List Char} (h : u ++ w = itemText v) (hu : u ≠ []) (hw : w ≠ []) :
    Fails inner u := by
  obtain ⟨c, u, rfl⟩ := List.exists_cons_of_ne_nil hu
  obtain ⟨rfl, hrest⟩ := List.cons.inj h
  -- if the quote were closed before the cut, then the whole item would be read too soon
  have hnone : splitText? .double u = none := by
    refine Option.eq_none_iff_forall_ne_some.2 fun ⟨x, r⟩ hsome => hw ?_
    obtain ⟨s, rfl, hcut⟩ := splitText?_cut hsome
    have hwhole : s ++ '"' :: (r ++ w) = v.flatMap itemChar ++ ['"'] :=
      (List.append_assoc s ('"' :: r) w).symm.trans hrest
    have hread := hcut (r ++ w)
    rw [show Quote.double.char = '"' from rfl, hwhole, splitText?_item] at hread
    exact (List.append_eq_nil_iff.1 (Prod.mk.inj (Option.some.inj hread)).2.symm).2
  refine .first fun _ c hc => ⟨⟨.unclosedText, c.position⟩, c.moveTo [], ?_⟩
  rw [readToken_quote (q := .double) hc, readText, hc, List.drop_one, List.tail_cons, hnone]
  rfl

/-- What stands in quotes is a reference, words from braces or a text, and so it is an item. -/
theorem quotedLexeme_cases (q : Quote) (v : List Char) :
    (∃ raw, quotedLexeme q v = .parameter raw) ∨ (∃ raw, quotedLexeme q v = .braces raw) ∨
      ∃ value literal, quotedLexeme q v = .text value literal := by
  unfold quotedLexeme
  split
  · exact .inl ⟨_, rfl⟩
  · split
    · exact .inr (.inl ⟨_, rfl⟩)
    · exact .inr (.inr ⟨_, _, rfl⟩)

/-! ## Several items -/

/-- Items with a blank between them. -/
def itemsText : List (List Char) → List Char
  | [] => []
  | [v] => itemText v
  | v :: vs => itemText v ++ ' ' :: itemsText vs

/-- Items with blanks between them have their tokens, one by one. What follows the last one may be
any text that has tokens. -/
theorem lexes_itemsText {ts : List Token} (h : Lexes inner r ts) :
    Lexes inner (itemsText vs ++ r) (vs.map itemToken ++ ts) := by
  induction vs with
  | nil => exact h
  | cons v vs ih =>
    cases vs with
    | nil => exact .cons (.item v r) h
    | cons v' vs =>
      have htext : itemsText (v :: v' :: vs) ++ r =
          itemText v ++ ' ' :: (itemsText (v' :: vs) ++ r) := by
        simp [itemsText]
      rw [htext]
      exact .cons (.item v _) ih.blank

/-- Items that are cut off before a parenthesis are cut off within an item, so that reading what is
before the cut ends there. -/
theorem fails_of_itemsText_cut {u w : List Char} (h : u ++ ')' :: w = itemsText vs) :
    Fails inner u := by
  -- a cut within one item; it is not at its first quote, which is no parenthesis
  have hitem {u w v : List Char} (h : u ++ ')' :: w = itemText v) : Fails inner u := by
    refine .item h ?_ (List.cons_ne_nil _ _)
    rintro rfl
    cases (List.cons.inj h).1
  induction vs generalizing u with
  | nil => simp [itemsText] at h
  | cons v vs ih =>
    cases vs with
    | nil => exact hitem h
    | cons v' vs =>
      -- the cut is within the first item, or behind it
      rcases List.append_eq_append_iff.1 h with ⟨x, hv, hx⟩ | ⟨x, hu, hx⟩
      · cases x with
        | nil => cases hx
        | cons c x =>
          obtain ⟨rfl, -⟩ := List.cons.inj hx
          exact hitem hv.symm
      · cases x with
        | nil => cases hx
        | cons c x =>
          obtain ⟨rfl, hrest⟩ := List.cons.inj hx
          rw [hu]
          exact .cons (.item v _) (ih hrest.symm).blank

/-- The items are found in what is read of them, unless there is just one. A single item between
parentheses is an expression in parentheses. -/
theorem exists_arrayItems? (vs : List (List Char)) (depth : Nat) :
    ∃ us, innerTokens? (depth + 1) (itemsText vs) = some us ∧ Alike us (vs.map itemToken) ∧
      arrayItems? us = if vs.length = 1 then none else some us := by
  have hlexes : Lexes (innerTokens? depth) (itemsText vs ++ []) (vs.map itemToken ++ []) :=
    lexes_itemsText .nil
  rw [List.append_nil, List.append_nil] at hlexes
  obtain ⟨us, hinner, hus⟩ := hlexes.exists_innerTokens?
  have hmem : ∀ t ∈ us, ∃ v p, t = .plain (quotedLexeme .double v) p := by
    intro t ht
    have hunplaced : t.unplaced ∈ (vs.map itemToken).map Token.unplaced := by
      rw [← Token.unplacedList_eq_map, ← hus, Token.unplacedList_eq_map]
      exact List.mem_map_of_mem ht
    rw [List.map_map] at hunplaced
    obtain ⟨v, -, hv⟩ := List.mem_map.1 hunplaced
    exact ⟨v, Alike.exists_plain hv.symm⟩
  -- there are no commas among the tokens, so that nothing is left out
  have hfilter : us.filter (!·.isPunctuation ',') = us := by
    refine List.filter_eq_self.2 fun t ht => ?_
    obtain ⟨v, p, rfl⟩ := hmem t ht
    obtain ⟨_, h⟩ | ⟨_, h⟩ | ⟨_, _, h⟩ := quotedLexeme_cases .double v
    all_goals exact congrArg (fun l => !(Token.plain l p).isPunctuation ',') h
  have hlength : us.length = vs.length := by rw [hus.length_eq, List.length_map]
  refine ⟨us, hinner, hus, ?_⟩
  unfold arrayItems?
  rw [hfilter, ← hlength]
  by_cases hone : us.length = 1
  · simp [hone]
  · refine (if_pos (Bool.and_eq_true_iff.2 ⟨List.all_eq_true.2 fun t ht => ?_,
      bne_iff_ne.2 hone⟩)).trans (if_neg hone).symm
    obtain ⟨v, p, rfl⟩ := hmem t ht
    obtain ⟨_, h⟩ | ⟨_, h⟩ | ⟨_, _, h⟩ := quotedLexeme_cases .double v
    all_goals simp only [h]

/-! ## The search for the end

Before an array literal is read, its closing parenthesis is searched for, with no regard to what
tokens there are. What is between the parentheses is then read as a text of its own. -/

/-- Whether the search for the parenthesis that closes an array literal goes through a text, and is
outside of quotes behind it. A quote opens or closes a text whatever stands before it. -/
def goesThrough : Option Quote → List Char → Bool
  | within, [] => within == none
  | none, c :: s => !"();\n".toList.contains c && goesThrough (Quote.ofChar? c) s
  | some q, c :: s => goesThrough (if c = q.char then none else some q) s

/-- The search finds the parenthesis behind a text if and only if it goes through the text. It might
find another one before, or none, and `goesThrough` says when it does not. -/
theorem splitArray?_eq_iff {within : Option Quote} (s r : List Char) :
    splitArray? within (s ++ ')' :: r) = some (s, r) ↔ goesThrough within s = true := by
  induction s generalizing within with
  | nil => cases within <;> simp [splitArray?, goesThrough, Quote.ofChar?]
  | cons c s ih =>
    -- a character that is passed, on both sides
    have hgo (within' : Option Quote) :
        ((splitArray? within' (s ++ ')' :: r)).map fun p => (c :: p.1, p.2)) = some (c :: s, r) ↔
          goesThrough within' s = true := by
      rw [← ih, Option.map_eq_some_iff]
      constructor
      · rintro ⟨⟨v, r'⟩, hsplit, heq⟩
        cases heq
        exact hsplit
      · intro hsplit
        exact ⟨_, hsplit, rfl⟩
    cases within with
    | some q => simpa [splitArray?, goesThrough] using hgo (if c = q.char then none else some q)
    | none =>
      rw [List.cons_append, splitArray?, goesThrough]
      dsimp only
      cases hquote : Quote.ofChar? c with
      | some q =>
        have hstop : "();\n".toList.contains c = false := by
          obtain rfl := eq_char_of_ofChar? hquote
          cases q <;> rfl
        rw [hstop]
        exact hgo (some q)
      | none =>
        by_cases hstop : c = '(' ∨ c = '\n' ∨ c = ';'
        · obtain rfl | rfl | rfl := hstop <;> simp
        · by_cases hclose : c = ')'
          · simp [hclose]
          · obtain ⟨hopen, hline, hsemicolon⟩ := by simpa only [not_or] using hstop
            simpa [hopen, hline, hsemicolon, hclose] using hgo none

/-- Backslashes do not matter to the search. It is neither a quote nor one of the characters at
which the search stops, so what is escaped is looked at as if it were not. -/
theorem goesThrough_itemChar (within : Option Quote) (c : Char) (s : List Char) :
    goesThrough within (itemChar c ++ s) = goesThrough within (c :: s) := by
  unfold itemChar
  split
  · cases within with
    | none => rfl
    | some q => cases q <;> rfl
  · rfl

/-- The search goes through an item without quotes in its text as if it were not there. -/
theorem goesThrough_itemText {v : List Char} (hv : '"' ∉ v) (s : List Char) :
    goesThrough none (itemText v ++ s) = goesThrough none s := by
  -- within the item there are no quotes, so that all of it is passed
  have hinside : goesThrough (some .double) (v.flatMap itemChar ++ '"' :: s) =
      goesThrough none s := by
    induction v with
    | nil => rfl
    | cons c v ih =>
      obtain ⟨hc, hv⟩ := List.ne_and_not_mem_of_not_mem_cons hv
      rw [List.flatMap_cons, List.append_assoc, goesThrough_itemChar, goesThrough,
        if_neg (show c ≠ Quote.double.char from Ne.symm hc), ih hv]
  have htext : itemText v ++ s = '"' :: (v.flatMap itemChar ++ '"' :: s) := by simp [itemText]
  rw [htext]
  exact hinside

/-- So the search goes through items without quotes in their texts. -/
theorem goesThrough_itemsText (h : ∀ v ∈ vs, '"' ∉ v) : goesThrough none (itemsText vs) = true := by
  induction vs with
  | nil => rfl
  | cons v vs ih =>
    obtain ⟨hv, hvs⟩ := List.forall_mem_cons.1 h
    cases vs with
    | nil =>
      have hone := goesThrough_itemText hv []
      rwa [List.append_nil] at hone
    | cons v' vs => exact (goesThrough_itemText hv _).trans (ih hvs)

/-! ## Items between parentheses -/

/-- Items between parentheses. -/
def arrayText (vs : List (List Char)) : List Char := '(' :: (itemsText vs ++ [')'])

/-- Whether items between parentheses are an array literal: there is more than one or none, and the
search for its end goes through them. -/
def IsArrayOf (vs : List (List Char)) : Prop :=
  vs.length ≠ 1 ∧ goesThrough none (itemsText vs) = true

instance (vs : List (List Char)) : Decidable (IsArrayOf vs) := inferInstanceAs (Decidable (_ ∧ _))

/-- Where the search ends: behind the items, or within one of them. In the second case what is read
up to there ends in a fault, so no array literal is found. -/
theorem eq_or_fails_of_splitArray? {u r : List Char}
    (h : splitArray? none (itemsText vs ++ [')']) = some (u, r)) :
    (u = itemsText vs ∧ r = []) ∨ ∀ inner, Fails inner u := by
  have happend := Written.append_of_splitArray? h
  rcases List.append_eq_append_iff.1 happend with ⟨w, hitems, hw⟩ | ⟨w, hu, hw⟩
  · cases w with
    | nil =>
      rw [List.append_nil] at hitems
      exact .inl ⟨hitems.symm, (List.cons.inj hw).2⟩
    | cons c w =>
      obtain ⟨rfl, -⟩ := List.cons.inj hw
      exact .inr fun inner => fails_of_itemsText_cut hitems.symm
  · cases w with
    | nil =>
      rw [List.append_nil] at hu
      exact .inl ⟨hu, (List.cons.inj hw).2.symm⟩
    | cons c w => simp at hw

/-- Items that are an array literal are one token. -/
theorem gives_array {depth : Nat} (h : IsArrayOf vs) :
    Gives (innerTokens? (depth + 1)) (arrayText vs) (.array (vs.map itemToken) default) [] where
  read afterOperand c hc := by
    obtain ⟨us, hinner, hus, hitems⟩ := exists_arrayItems? vs depth
    rw [if_neg h.1] at hitems
    have hread : readArray? (innerTokens? (depth + 1)) c =
        some (.ok (some (.array us ⟨c.position, (c.moveTo []).position⟩)), c.moveTo []) := by
      simp [readArray?, hc, arrayText, (splitArray?_eq_iff _ []).2 h.2, hinner, hitems]
    rw [readToken_parenthesis hc, hread]
    refine ⟨_, _, rfl, ?_, rest_moveTo (t := arrayText vs) (by simp [hc])⟩
    rw [Token.unplaced, Token.unplaced, show Token.unplacedList us = _ from hus]
  shorter := Nat.succ_pos _

/-- Otherwise the parenthesis stands for itself: the search fails, or it finds a single item, or it
ends within an item, which cannot be read then. -/
theorem gives_parenthesis {depth : Nat} (h : ¬ IsArrayOf vs) :
    Gives (innerTokens? (depth + 1)) (arrayText vs) (.mark '(') (itemsText vs ++ [')']) := by
  refine .parenthesis fun c hc => ?_
  obtain ⟨us, hinner, -, hitems⟩ := exists_arrayItems? vs depth
  cases hsplit : splitArray? none (itemsText vs ++ [')']) with
  | none => simp [readArray?, hc, hsplit]
  | some p =>
    obtain ⟨u, r⟩ := p
    rcases eq_or_fails_of_splitArray? hsplit with ⟨rfl, rfl⟩ | hfails
    -- the search went through all items, so that there is just one
    · have hone : vs.length = 1 := Decidable.byContradiction fun hmany =>
        h ⟨hmany, (splitArray?_eq_iff _ _).1 hsplit⟩
      rw [if_pos hone] at hitems
      simp [readArray?, hc, hsplit, hinner, hitems]
    · simp [readArray?, hc, hsplit, (hfails _).innerTokens?_eq_none]

/-- **Texts in an array literal.** Texts that are written as items between parentheses are one array
literal of exactly these texts, or else their tokens stand between those for the parentheses. They are
the array if there is not just one, and the search for the end goes through them. It does if no text
has a double quote in it. -/
theorem tokens?_arrayText (vs : List (List Char)) :
    (∃ ts, tokens? (arrayText vs) = some ts ∧
      Alike ts (if IsArrayOf vs then [.array (vs.map itemToken) default]
        else .mark '(' :: (vs.map itemToken ++ [.mark ')']))) ∧
    (2 ≤ vs.length → (∀ v ∈ vs, '"' ∉ v) → IsArrayOf vs) := by
  refine ⟨?_, fun hmany hv => ⟨by omega, goesThrough_itemsText hv⟩⟩
  have hlexes : Lexes (innerTokens? (arrayText vs).length) (arrayText vs)
      (if IsArrayOf vs then [.array (vs.map itemToken) default]
        else .mark '(' :: (vs.map itemToken ++ [.mark ')'])) := by
    split
    · next h => exact .cons (gives_array h) .nil
    · next h => exact .cons (gives_parenthesis h) (lexes_itemsText (.cons (.mark (by decide)) .nil))
  obtain ⟨ts, p, hscan, hts⟩ := hlexes.exists_scan
  exact ⟨ts, by rw [tokens?, hscan]; rfl, hts⟩

/-- With a quote in its text, an item hides that the next one begins, and no array literal is found. -/
theorem tokens?_arrayText_ne :
    ¬ IsArrayOf ["\"".toList, "b".toList] ∧
      (tokens? (arrayText ["\"".toList, "b".toList])).map List.length = some 4 := by
  decide +kernel

end CommandLanguage.Lexer
