import CommandLanguage.Proofs.Token.Passes

/-!
# Texts with marks between them

A `;` keeps apart what stands before it and behind it, and so does a reserved word with blanks around
it: neither is part of an array literal, and no path begins with a reserved word. So the tokens of texts
that are put together in this way are those of the texts, with the marks between them
(`ReadsAs.semicolon`, `ReadsAs.reserved`).
-/

namespace CommandLanguage.Lexer

open Cursor (Abreast)
open Token (Alike)

variable {inner : List Char → Option (List Token)} {ao : Bool} {c : Cursor} {b b' p r s u : List Char}
  {ts us : List Token} {w : String}

/-! ## Reading a reserved word -/

/-- A reserved word is spelled with letters and is its own lexeme. -/
theorem exists_of_isKeyword (hw : Lexeme.isKeyword w = true) :
    (∃ a v, w.toList = a :: v ∧ Text.isNameStart a = true) ∧
      (∀ a ∈ w.toList, Text.isNameChar a = true) ∧ wordLexeme? w = some (.keyword w) := by
  -- there are few reserved words, and each of them is looked at
  have hall : Lexeme.keywords.all (fun w => w.toList.head?.any Text.isNameStart &&
      w.toList.all Text.isNameChar && w != "true" && w != "false") = true := by decide
  have hshape := List.all_eq_true.1 hall w (List.contains_iff_mem.1 hw)
  simp only [Bool.and_eq_true, bne_iff_ne, ne_eq, List.all_eq_true] at hshape
  obtain ⟨⟨⟨hstart, hname⟩, htrue⟩, hfalse⟩ := hshape
  refine ⟨?_, hname, ?_⟩
  · obtain ⟨a, ha, hstart⟩ := (Option.any_eq_true _ _).1 hstart
    obtain ⟨v, hv⟩ := List.head?_eq_some_iff.1 ha
    exact ⟨a, v, hv, hstart⟩
  · simp [wordLexeme?, htrue, hfalse, hw]

/-- A reserved word that a blank or a `;` follows is read as itself, whatever comes before it.
Without such a character behind it, it could be the beginning of a name. -/
theorem readToken_reserved (hw : Lexeme.isKeyword w = true) (hc : c.toToken.rest = w.toList ++ r)
    (hr : isCut r = true) :
    readToken inner ao c = found (.keyword w) c.toToken (c.toToken.moveTo r) := by
  obtain ⟨⟨a, v, hv, ha⟩, hname, hlexeme⟩ := exists_of_isKeyword hw
  have hend (a : Char) (ha : r.head? = some a) : Text.isNameChar a = false := by
    have hcut : r.head?.all (!Text.isNameChar ·) = true := not_of_isCut hr fun _ => isFilled_of_isNameChar
    rw [ha] at hcut
    simpa using hcut
  rw [← readToken_toToken, readToken_word (s := v ++ r) (by rw [hc, hv]; rfl) ha, readWord,
    takeWhile_append hc hname hend]
  dsimp only
  rw [String.ofList_toList, hlexeme]

/-- No path begins with a reserved word, and nothing is dropped before it. -/
theorem beginsPath_reserved (hw : Lexeme.isKeyword w = true) (r : List Char) :
    dropBlanks (w.toList ++ r) = w.toList ++ r ∧ beginsPath (w.toList ++ r) = false := by
  obtain ⟨⟨a, v, hv, ha⟩, -, -⟩ := exists_of_isKeyword hw
  -- a letter comes first, which is none of the characters that a path begins with
  have hslash : a ≠ '/' := Text.ne_of_kind ha (by decide)
  have hdot : a ≠ '.' := Text.ne_of_kind ha (by decide)
  have htilde : a ≠ '~' := Text.ne_of_kind ha (by decide)
  have hbackslash : a ≠ '\\' := Text.ne_of_kind ha (by decide)
  have hblank := Text.isBlank_of_isNameChar (Text.isNameChar_of_isNameStart ha)
  rw [hv, List.cons_append]
  constructor
  · rw [dropBlanks_cons hbackslash, if_neg (by simp [hblank])]
  · simp [beginsPath, hslash, hdot, htilde]

/-- A reserved word is among the tokens of a text that begins with it. -/
theorem Completes.exists_reserved (h : Completes ao c us) (hw : Lexeme.isKeyword w = true)
    (hc : c.toToken.rest = w.toList ++ r) (hr : isCut r = true) : ∃ t ∈ us, isBar t = true := by
  cases us with
  | nil =>
    obtain ⟨⟨a, v, hv, -⟩, -⟩ := exists_of_isKeyword hw
    -- there is a token, as a letter is not dropped
    have hnil := dropBlanks_eq_nil_iff.2 (nil_iff.1 h)
    rw [hc, hv] at hnil
    cases hnil
  | cons t us =>
    obtain ⟨d, hfirst, -⟩ := cons_iff.1 h
    rw [readToken_reserved hw hc hr] at hfirst
    cases hfirst
    exact ⟨_, List.mem_cons_self, rfl⟩

/-- Behind blanks and a reserved word, a closing parenthesis closes no array literal. The word would
have to be one of its items. -/
theorem Bars.reserved (hb : Text.isBlankText b = true) (hw : Lexeme.isKeyword w = true)
    (hs : isCut s = true) : Bars (b ++ (w.toList ++ s)) := by
  obtain ⟨-, hname, -⟩ := exists_of_isKeyword hw
  intro u r hu ao c us hc hus
  rw [← List.append_assoc] at hu
  -- the parenthesis is behind the word, or it would be among the blanks and letters
  rcases List.append_eq_append_iff.1 hu with ⟨u', rfl, rfl⟩ | ⟨v, hv, hr⟩
  · have hrest : c.toToken.rest = w.toList ++ u' := by
      rw [rest_toToken, hc, List.append_assoc,
        dropBlanks_append_of_eq_nil (dropBlanks_of_isBlankText hb), (beginsPath_reserved hw u').1]
    refine hus.exists_reserved hw hrest ?_
    cases u' with
    | nil => rfl
    | cons a u' => exact hs
  · cases v with
    | nil =>
      rw [List.nil_append] at hr
      rw [← hr] at hs
      cases hs
    | cons a v =>
      obtain ⟨rfl, -⟩ := List.cons.inj hr
      have hmem : ')' ∈ b ++ w.toList := by
        rw [hv]
        exact List.mem_append_right u List.mem_cons_self
      rcases List.mem_append.1 hmem with hmem | hmem
      · cases List.all_eq_true.1 hb _ hmem
      · cases hname _ hmem

/-! ## Texts and the tokens in them -/

/-- Behind what is dropped, a text is where it would be without. -/
theorem abreast_start_append (hu : dropBlanks u = []) (s : List Char) :
    Abreast (Cursor.start (u ++ s)).toToken (Cursor.start s).toToken := by
  refine ⟨?_, .inr ⟨isFresh_toToken (.inl rfl), isFresh_toToken (.inl rfl)⟩⟩
  rw [rest_toToken, rest_toToken]
  exact dropBlanks_append_of_eq_nil hu s

/-- A text of blanks that is not empty. -/
def IsSpace (b : List Char) : Prop := b ≠ [] ∧ Text.isBlankText b = true

/-- Blanks and one more of them. -/
theorem isSpace_concat {x : Char} (hx : Text.isBlank x = true) (hb : Text.isBlankText b = true) :
    IsSpace (b ++ [x]) where
  left := List.append_ne_nil_of_right_ne_nil _ (List.cons_ne_nil _ _)
  right := by simpa [Text.isBlankText, hx] using hb

/-- One blank. -/
theorem isSpace_singleton {x : Char} (hx : Text.isBlank x = true) : IsSpace [x] :=
  isSpace_concat (b := []) hx rfl

/-- A text is tokens to its end, which are given up to their places. In this form texts are put
together and compared, one on a single line and another one on several. -/
def ReadsAs (s : List Char) (us : List Token) : Prop := ∃ ts, tokens? s = some ts ∧ Alike ts us

namespace ReadsAs

/-- A text reads as its tokens. -/
theorem of_tokens? (h : tokens? s = some ts) : ReadsAs s ts := ⟨ts, h, .refl ts⟩

/-- What is dropped before a token makes no difference. -/
theorem dropped (hu : dropBlanks u = []) (h : ReadsAs s us) : ReadsAs (u ++ s) us := by
  obtain ⟨ts, hts, halike⟩ := h
  obtain ⟨ts', hts', halike'⟩ := (tokens?_eq_some_iff.1 hts).abreast (abreast_start_append hu s).symm
  exact ⟨ts', tokens?_eq_some_iff.2 hts', halike'.trans halike⟩

/-- A `;` between two texts. The first one stays what it is, as the `;` keeps array literals apart,
and the second one is read behind the `;` like a text of its own. -/
theorem semicolon (h : tokens? p = some ts) (hs : ReadsAs s us) :
    ReadsAs (p ++ ';' :: s) (ts ++ .of (.punctuation ';') :: us) := by
  obtain ⟨ao, stop, hpasses, hstop⟩ := tokens?_eq_some_iff.1 h
  obtain ⟨us', hus', halike⟩ := hs
  have hextend : Passes false (.start (p ++ ';' :: s)) ts ao (stop.extend (';' :: s)) :=
    hpasses.extend hstop rfl (.inl (.inl (.semicolon s)))
  have hrest : (stop.extend (';' :: s)).toToken.rest = ';' :: s := by
    rw [rest_toToken]
    exact dropBlanks_append_of_eq_nil hstop _
  obtain ⟨t, hread, ht⟩ : ∃ t, readToken tokens? ao (stop.extend (';' :: s)) =
      (.ok (some t), (stop.extend (';' :: s)).toToken.step) ∧ t.isPunctuation ';' = true :=
    readToken_semicolon hrest
  obtain ⟨q, rfl⟩ := Token.isPunctuation_iff.1 ht
  -- behind a `;` any token can begin, as at the start of a text
  have habreast : Abreast (.start s) (stop.extend (';' :: s)).toToken.step := by
    generalize (stop.extend (';' :: s)).toToken = d at hrest
    obtain ⟨b, r, q⟩ := d
    obtain rfl : r = ';' :: s := hrest
    exact ⟨rfl, .inr ⟨rfl, rfl⟩⟩
  obtain ⟨us'', ⟨ao', stop', hpasses', hstop'⟩, halike'⟩ :=
    (tokens?_eq_some_iff.1 hus').abreast (toToken_abreast habreast)
  refine ⟨ts ++ .plain (.punctuation ';') q :: us'', tokens?_eq_some_iff.2
    ⟨ao', stop', hextend.append (.cons hread hpasses'), hstop'⟩, ?_⟩
  exact (Alike.refl ts).append (.cons rfl (halike'.trans halike))

/-- A reserved word before a text. The blanks behind it end the word and let any token begin. -/
theorem reserved_cons (hw : Lexeme.isKeyword w = true) (hb : IsSpace b) (hs : ReadsAs s us) :
    ReadsAs (w.toList ++ (b ++ s)) (.of (.keyword w) :: us) := by
  obtain ⟨ts, hts, halike⟩ := hs
  let c : Cursor := .start (w.toList ++ (b ++ s))
  have hc : c.toToken.rest = w.toList ++ (b ++ s) := by
    rw [rest_toToken]
    exact (beginsPath_reserved hw _).1
  have hstop : (c.toToken.moveTo (b ++ s)).rest = b ++ s := rest_moveTo hc
  obtain ⟨ts', hts', halike'⟩ := (tokens?_eq_some_iff.1 hts).abreast
    (abreast_of_dropped hstop (dropBlanks_of_isBlankText hb.2) hb.1)
  have hcut := isCut_of_isBlankText hb.1 hb.2 s
  exact ⟨_, tokens?_eq_some_iff.2 (Completes.cons_iff.2 ⟨_, readToken_reserved hw hc hcut, hts'⟩),
    .cons rfl (halike'.trans halike)⟩

/-- A reserved word between two texts, with blanks around it. -/
theorem reserved (h : tokens? p = some ts) (hb : IsSpace b) (hw : Lexeme.isKeyword w = true)
    (hb' : IsSpace b') (hs : ReadsAs s us) :
    ReadsAs (p ++ (b ++ (w.toList ++ (b' ++ s)))) (ts ++ .of (.keyword w) :: us) := by
  obtain ⟨us', hus', halike⟩ := reserved_cons hw hb' hs
  obtain ⟨ao, stop, hpasses, hstop⟩ := tokens?_eq_some_iff.1 h
  have hcut := isCut_of_isBlankText hb'.1 hb'.2 s
  obtain ⟨hdrop, hpath⟩ := beginsPath_reserved hw (b' ++ s)
  obtain ⟨us'', hcompletes, halike'⟩ := hpasses.join hstop hb.1 hb.2
    (.inl (.inl (.reserved hb.2 hw hcut))) (tokens?_eq_some_iff.1 hus') fun _ => by rw [hdrop, hpath]
  exact ⟨_, tokens?_eq_some_iff.2 hcompletes, (Alike.refl ts).append (halike'.trans halike)⟩

end ReadsAs

end CommandLanguage.Lexer
