import CommandLanguage.Proofs.Reference.Piece
import CommandLanguage.Proofs.Source.Quoted
import CommandLanguage.Proofs.Token.Place

/-!
# Texts and their tokens

Which tokens a text has is said without cursors: `Lexer.Gives inner s t r` says that the token `t`
comes first in the text `s`, whatever stands before it, and that `r` is left. Step by step,
`Lexer.Lexes` says which tokens a whole text has, and `Lexer.Fails` that reading it ends in a fault.
As in the rest of the lexer, `inner` gives the tokens between the parentheses of an array literal.

Whatever stands before it: whether a `/` divides, whether a word is a path and whether a `-` is part
of a number depend on what is in front. The texts that are put together here avoid such characters at
the beginning of a token (`opensPlainly`), and end their words and numbers before a character that
none of them goes on with (`isEnd`). So they can be read piece by piece, in any surroundings.
-/

namespace CommandLanguage

/-! ## Characters of names -/

namespace Text

/-- A character of one kind is in no list of characters of another kind. In this form the tables of
the lexer, which are strings, can be ruled out one by one. -/
theorem contains_eq_false {kind : Char → Bool} {a : Char} {l : List Char} (ha : kind a = true)
    (hl : l.all (!kind ·) = true) : l.contains a = false := by
  rw [List.contains_eq_any_beq, List.any_eq_false]
  intro d hd hbeq
  obtain rfl := eq_of_beq hbeq
  have hkind := List.all_eq_true.1 hl a hd
  rw [ha] at hkind
  cases hkind

theorem isBlank_of_isNameChar {a : Char} (h : isNameChar a = true) : isBlank a = false := by
  -- blanks have smaller numbers than any character of a name, or greater ones
  have hrange : 48 ≤ a.toNat ∧ a.toNat ≤ 122 := by
    rcases Bool.or_eq_true_iff.1 h with h | h
    · rcases Bool.or_eq_true_iff.1 h with h | h
      · have hletter := toNat_of_isAlpha h
        omega
      · have hdigit := toNat_of_isDigit h
        omega
    · obtain rfl := eq_of_beq h
      decide
  simp [isBlank]
  omega

/-- A name begins with a letter or an underscore, and neither is a digit. -/
theorem isDigit_of_isNameStart {a : Char} (h : isNameStart a = true) : a.isDigit = false := by
  refine Bool.eq_false_iff.2 fun hd => ?_
  have hdigit := toNat_of_isDigit hd
  rcases Bool.or_eq_true_iff.1 h with h | h
  · have hletter := toNat_of_isAlpha h
    omega
  · obtain rfl := eq_of_beq h
    cases hd

theorem isNameChar_of_isDigit {a : Char} (h : a.isDigit = true) : isNameChar a = true := by
  simp [isNameChar, Char.isAlphanum, h]

/-- No quote is a character of names. -/
theorem ofChar?_of_isNameChar {a : Char} (h : isNameChar a = true) : Quote.ofChar? a = none := by
  unfold Quote.ofChar?
  split <;> first | rfl | exact absurd rfl (ne_of_kind h (by decide))

end Text

namespace Lexer

open Text (isNameStart isNameChar isBlank)

variable {inner : List Char → Option (List Token)} {afterOperand : Bool} {c : Cursor}
  {s r : List Char} {t : Token} {ts : List Token}

/-! ## Cursors -/

/-- A cursor is where it is. -/
theorem moveTo_rest (c : Cursor) : c.moveTo c.rest = c := by
  simp [Cursor.moveTo, Cursor.skip]

/-- A cursor that moves to a rest of its text has it ahead. -/
theorem rest_moveTo {r t : List Char} (h : c.rest = t ++ r) : (c.moveTo r).rest = r := by
  simp [Cursor.moveTo, h]

/-- What is taken of one kind, up to a character of another kind. All tokens that no character of
their own closes are found by this one fact. -/
theorem takeWhile_append {kind : Char → Bool} (h : c.rest = s ++ r) (hs : ∀ a ∈ s, kind a = true)
    (hr : ∀ a, r.head? = some a → kind a = false) :
    c.takeWhile kind = (s, c.moveTo r) := by
  obtain ⟨htake, hdrop⟩ := Text.span_append hs hr
  rw [Cursor.takeWhile, h, htake, hdrop]

/-! ## The search for the end of an array literal

An opening parenthesis may begin an array literal, and whether it does is found out by trying. The
search for its end goes over all that follows, so a token before it is given only if that search
comes out as it should. -/

/-- A character ends the search in vain, closes the literal, or is passed. What is passed depends on
the character and on the quotes around it, and never on what follows. -/
theorem splitArray?_cons_cases (within : Option Quote) (c : Char) :
    (∀ s, splitArray? within (c :: s) = none) ∨
    (within = none ∧ c = ')' ∧ ∀ s, splitArray? none (')' :: s) = some ([], s)) ∨
    ∃ within', ∀ s, splitArray? within (c :: s) =
      (splitArray? within' s).map fun x => (c :: x.1, x.2) := by
  -- within quotes everything is passed, and the quotes may be closed
  cases within with
  | some q => exact .inr (.inr ⟨_, fun s => rfl⟩)
  | none =>
    cases hquote : Quote.ofChar? c with
    | some q => exact .inr (.inr ⟨some q, fun s => by simp only [splitArray?, hquote]⟩)
    | none =>
      by_cases hbreak : (c == '(' || c == '\n' || c == ';') = true
      · exact .inl fun s => by simp only [splitArray?, hquote, hbreak, if_true]
      · by_cases hclose : (c == ')') = true
        · exact .inr (.inl ⟨rfl, eq_of_beq hclose, fun s => rfl⟩)
        · refine .inr (.inr ⟨none, fun s => ?_⟩)
          simp only [splitArray?, hquote, hbreak, hclose, Bool.false_eq_true, if_false]

/-! ## Where tokens begin

Which kind of token begins at a character is decided by that character and, for a few, by the one
behind it. -/

/-- What is dropped is not counted again. -/
theorem length_dropBlanks_le (s : List Char) : (dropBlanks s).length ≤ s.length := by
  fun_induction dropBlanks s with
  | case1 => exact Nat.le_refl _
  | case2 r ih => simp only [List.length_cons]; omega
  | case3 c r _ _ ih => simp only [List.length_cons]; omega
  | case4 => exact Nat.le_refl _

/-- A blank before a token is passed. -/
theorem readToken_blank (h : c.rest = ' ' :: s) :
    readToken inner afterOperand c = readToken inner afterOperand c.step := by
  have hdrop : dropBlanks (' ' :: s) = dropBlanks s := by
    rw [dropBlanks]
    · rfl
    · exact nofun
  have hskip : c.moveTo (dropBlanks c.rest) = c.step.moveTo (dropBlanks c.step.rest) := by
    have hlength := length_dropBlanks_le s
    rw [Cursor.rest_step, h, List.drop_one, List.tail_cons, hdrop, Cursor.moveTo, Cursor.moveTo,
      Cursor.rest_step, h, List.drop_one, List.tail_cons, List.length_cons, Nat.succ_sub hlength]
    rfl
  unfold readToken
  rw [hskip]

/-- Where no blank comes next, a token begins at once. -/
theorem moveTo_dropBlanks (h : dropBlanks c.rest = c.rest) :
    c.moveTo (dropBlanks c.rest) = c := by
  rw [h, moveTo_rest]

/-- At the end of a text there is no token. -/
theorem readToken_end (h : c.rest = []) : readToken inner afterOperand c = (.ok none, c) := by
  have hc : c.moveTo (dropBlanks c.rest) = c := moveTo_dropBlanks (by rw [h]; rfl)
  simp only [readToken, hc]
  simp only [h]

/-- Whether a token that begins with the character begins at once, and is neither a path nor has a
dash before it. -/
def opensPlainly (a : Char) : Bool := !isBlank a && !"\\/.~-".toList.contains a

/-- Characters of names open tokens plainly, so words and numbers do. Of the quotes, the `$` and the
punctuation it is seen one by one. -/
theorem opensPlainly_of_isNameChar {a : Char} (h : isNameChar a = true) :
    opensPlainly a = true := by
  rw [opensPlainly, Text.isBlank_of_isNameChar h, Text.contains_eq_false h (by decide)]
  rfl

/-- Whatever stands before it, a token begins at once with a character that opens one plainly. None
of the special cases that the lexer asks for first applies. -/
theorem plainly {a : Char} (afterOperand : Bool) (h : c.rest = a :: s)
    (ha : opensPlainly a = true) :
    c.moveTo (dropBlanks c.rest) = c ∧ isAtPath afterOperand c = false ∧ isAtDash c = false := by
  have hblank : isBlank a = false := by simpa using (Bool.and_eq_true_iff.1 ha).1
  have hbackslash : a ≠ '\\' := Text.ne_of_kind ha (by decide)
  have hslash : a ≠ '/' := Text.ne_of_kind ha (by decide)
  have hdot : a ≠ '.' := Text.ne_of_kind ha (by decide)
  have htilde : a ≠ '~' := Text.ne_of_kind ha (by decide)
  have hdash : a ≠ '-' := Text.ne_of_kind ha (by decide)
  refine ⟨moveTo_dropBlanks ?_, ?_, ?_⟩
  · rw [h, dropBlanks, if_neg (by simp [hblank])]
    exact fun _ hc => absurd hc hbackslash
  · unfold isAtPath
    rw [h]
    split <;> simp_all
  · unfold isAtDash
    rw [h]
    split <;> simp_all

/-- A quote begins a text. -/
theorem readToken_quote {q : Quote} (h : c.rest = q.char :: s) :
    readToken inner afterOperand c = readText q c := by
  obtain ⟨hc, hpath, -⟩ := plainly afterOperand h (by cases q <;> decide)
  simp only [readToken, hc]
  simp only [h, hpath, Bool.false_eq_true, if_false, Quote.ofChar?_char]

/-- A digit begins a number. -/
theorem readToken_digit {a : Char} (h : c.rest = a :: s) (ha : a.isDigit = true) :
    readToken inner afterOperand c = readNumber false c c := by
  have hname := Text.isNameChar_of_isDigit ha
  obtain ⟨hc, hpath, hdash⟩ := plainly afterOperand h
    (opensPlainly_of_isNameChar hname)
  simp only [readToken, hc]
  simp only [h, hpath, hdash, Text.ofChar?_of_isNameChar hname, ha, Bool.false_eq_true, if_false,
    if_true]

/-- A `$` begins a reference. -/
theorem readToken_dollar (h : c.rest = '$' :: s) :
    readToken inner afterOperand c = readReference c := by
  obtain ⟨hc, hpath, hdash⟩ := plainly afterOperand h (by decide)
  simp only [readToken, hc]
  simp only [h, hpath, hdash, Bool.false_eq_true, if_false]
  rfl

/-- A letter or underscore begins a word. -/
theorem readToken_word {a : Char} (h : c.rest = a :: s) (ha : isNameStart a = true) :
    readToken inner afterOperand c = readWord c := by
  have hname := Text.isNameChar_of_isNameStart ha
  obtain ⟨hc, hpath, hdash⟩ := plainly afterOperand h
    (opensPlainly_of_isNameChar hname)
  have hdigit : a.isDigit = false := Text.isDigit_of_isNameStart ha
  have hoperator : Operator.isOperatorChar a = false := Text.contains_eq_false ha (by decide)
  have hdollar : (a == '$') = false := by
    rw [beq_eq_false_iff_ne]
    rintro rfl
    cases ha
  simp only [readToken, hc]
  simp only [h, hpath, hdash, Text.ofChar?_of_isNameChar hname, hdigit, hoperator, hdollar, ha,
    Bool.false_eq_true, if_false, if_true]

/-- Where no array literal begins, a parenthesis stands for itself. Which of the two it is depends
on the whole text up to its closing parenthesis. -/
theorem readToken_parenthesis (h : c.rest = '(' :: s) :
    readToken inner afterOperand c =
      (readArray? inner c).getD (found (.punctuation '(') c c.step) := by
  obtain ⟨hc, hpath, hdash⟩ := plainly afterOperand h (by decide)
  simp only [readToken, hc]
  simp only [h, hpath, hdash, Bool.false_eq_true, if_false]
  cases readArray? inner c <;> rfl

/-- The punctuation characters that separate arguments and end them. -/
theorem readToken_punctuation {a : Char} (h : c.rest = a :: s) (ha : a ∈ [',', ')', ';']) :
    readToken inner afterOperand c = found (.punctuation a) c c.step := by
  simp only [List.mem_cons, List.not_mem_nil, or_false] at ha
  have hplain : opensPlainly a = true := by obtain rfl | rfl | rfl := ha <;> rfl
  obtain ⟨hc, hpath, hdash⟩ := plainly afterOperand h hplain
  simp only [readToken, hc]
  simp only [h, hpath, hdash, Bool.false_eq_true, if_false]
  obtain rfl | rfl | rfl := ha <;> rfl

/-! ## One token -/

/-- The token `t` comes first in the text `s`, and `r` is left. This is said of every place that has
the text ahead, whatever stands before it, so that tokens can be put side by side. -/
structure Gives (inner : List Char → Option (List Token)) (s : List Char) (t : Token)
    (r : List Char) : Prop where
  /-- it is read, whatever stands before the text -/
  read : ∀ (afterOperand : Bool) (c : Cursor), c.rest = s → ∃ u stop,
    readToken inner afterOperand c = (.ok (some u), stop) ∧ u.unplaced = t.unplaced ∧ stop.rest = r
  /-- less is left than there was -/
  shorter : r.length < s.length

/-- Whether a word, number or text ends before the rest of a text: nothing follows, or a blank or
a punctuation character. -/
def isEnd (r : List Char) : Bool := r.head?.all (" ,();".toList.contains ·)

/-- No character of a kind follows at an end, if none of those that can is of that kind. The five
characters are those that stand behind a word in what is written here. -/
theorem head?_of_isEnd {kind : Char → Bool} (hr : isEnd r = true)
    (hkind : " ,();".toList.all (!kind ·) = true) : ∀ a, r.head? = some a → kind a = false := by
  intro a ha
  rw [isEnd, ha, Option.all_some, List.contains_iff_mem] at hr
  simpa using List.all_eq_true.1 hkind a hr

namespace Gives

/-- To come first in a text is to be found wherever a cursor has this text ahead. The token is given
without its place, since the same text may stand anywhere. -/
theorem of_found {l : Lexeme} (hlt : r.length < s.length)
    (h : ∀ (afterOperand : Bool) (c : Cursor), c.rest = s →
      ∃ stop, readToken inner afterOperand c = found l c stop ∧ stop.rest = r) :
    Gives inner s (.of l) r where
  read afterOperand c hc := by
    obtain ⟨stop, hread, hstop⟩ := h afterOperand c hc
    exact ⟨_, stop, hread, rfl, hstop⟩
  shorter := hlt

/-- A blank before a token does not matter. -/
theorem blank (h : Gives inner s t r) : Gives inner (' ' :: s) t r where
  read afterOperand c hc := by
    rw [readToken_blank hc]
    exact h.read afterOperand c.step (by rw [Cursor.rest_step, hc]; rfl)
  shorter := Nat.lt_succ_of_lt h.shorter

/-- A comma, a closing parenthesis or a `;` is a token by itself. -/
theorem mark {a : Char} (ha : a ∈ [',', ')', ';']) : Gives inner (a :: r) (.mark a) r :=
  .of_found (Nat.lt_succ_self _) fun _ c hc =>
    ⟨c.step, readToken_punctuation hc ha, by rw [Cursor.rest_step, hc]; rfl⟩

/-- A parenthesis where no array literal begins. -/
theorem parenthesis (h : ∀ c : Cursor, c.rest = '(' :: r → readArray? inner c = none) :
    Gives inner ('(' :: r) (.mark '(') r :=
  .of_found (Nat.lt_succ_self _) fun _ c hc =>
    ⟨c.step, by rw [readToken_parenthesis hc, h c hc]; rfl, by rw [Cursor.rest_step, hc]; rfl⟩

end Gives

/-! ## Words and references -/

/-- Only behind an opening bracket an index follows a name. -/
theorem readIndex_plain (start : Cursor) (h : ∀ r, c.rest ≠ '[' :: r) (name : List Char)
    (deref : Bool) : readIndex name deref start c =
      found (.variable (String.ofList name) deref none) start c := by
  unfold readIndex
  split
  · next r hr => exact absurd hr (h r)
  · rfl

/-- At an end, no index follows a name. An opening bracket is no end, so that a name with an index
is not taken for a name and something behind it. -/
theorem readIndex_of_isEnd (start : Cursor) (hr : isEnd c.rest = true) (name : List Char)
    (deref : Bool) : readIndex name deref start c =
      found (.variable (String.ofList name) deref none) start c := by
  refine readIndex_plain start (fun r hc => ?_) name deref
  rw [hc] at hr
  cases hr

/-- The lexeme of a word that no index follows. It may be reserved or a truth value, and otherwise
is the variable of that name. -/
def wordLexeme (word : String) : Lexeme := (wordLexeme? word).getD (.variable word false none)

/-- A word up to an end. It may be reserved or a truth value, and is then no variable. -/
theorem Gives.word (n : Reference.Name) (hr : isEnd r = true) :
    Gives inner (n.text ++ r) (.of (wordLexeme (String.ofList n.text))) r := by
  obtain ⟨w, hname⟩ := n
  cases w with
  | nil => cases hname
  | cons a w =>
    obtain ⟨hstart, -⟩ := Bool.and_eq_true_iff.1 hname
    refine .of_found (by simp only [List.length_append, List.length_cons]; omega) fun _ c hc => ?_
    have hstop : (c.moveTo r).rest = r := rest_moveTo hc
    have htake : c.takeWhile isNameChar = (a :: w, c.moveTo r) :=
      takeWhile_append hc (fun _ => Reference.Name.isNameChar_of_mem ⟨a :: w, hname⟩)
        (head?_of_isEnd hr (by decide))
    have hindex := readIndex_of_isEnd c (by rw [hstop]; exact hr) (a :: w) false
    refine ⟨c.moveTo r, ?_, hstop⟩
    rw [readToken_word hc hstart, readWord, htake]
    unfold wordLexeme
    -- only a variable might have an index, and none follows
    cases h : wordLexeme? (String.ofList (a :: w)) <;> simp only [h, hindex] <;> rfl

/-- A reference to a name, or to what is no name but has the characters of one. The lexer takes what
follows a `$` by these characters alone, so that `$1` is a reference as well. -/
theorem Gives.reference {w : List Char} (hne : w ≠ []) (hw : ∀ a ∈ w, isNameChar a = true)
    (hr : isEnd r = true) :
    Gives inner ('$' :: (w ++ r)) (.of (.variable (String.ofList w) true none)) r := by
  refine .of_found (by simp only [List.length_append, List.length_cons]; omega) fun _ c hc => ?_
  have hstep : c.step.rest = w ++ r := by rw [Cursor.rest_step, hc]; rfl
  have hstop : (c.step.moveTo r).rest = r := rest_moveTo hstep
  refine ⟨c.step.moveTo r, ?_, hstop⟩
  rw [readToken_dollar hc, readReference,
    takeWhile_append hstep hw (head?_of_isEnd hr (by decide))]
  dsimp only
  rw [if_neg (by simpa using hne), readIndex_of_isEnd _ (by rw [hstop]; exact hr)]

/-! ## Numbers -/

/-- How a number is written, given its digits before and after the point. -/
def numberText (whole fraction : List Char) : List Char :=
  if fraction.isEmpty then whole else whole ++ '.' :: fraction

/-- A number is written with digits and a point. -/
theorem mem_numberText {a : Char} {whole fraction : List Char}
    (h : a ∈ numberText whole fraction) : a ∈ whole ∨ a = '.' ∨ a ∈ fraction := by
  unfold numberText at h
  split at h
  · exact .inl h
  · simpa using h

/-- The digits of a number are read up to an end, with its fraction if it has one. A point without
digits behind it is not taken, which is why the fraction is given by its digits. -/
theorem readNumber_append {start : Cursor} {whole fraction : List Char}
    (hwhole : ∀ a ∈ whole, a.isDigit = true) (hfraction : ∀ a ∈ fraction, a.isDigit = true)
    (hc : c.rest = numberText whole fraction ++ r) (hr : isEnd r = true) : ∃ stop,
      readNumber false start c = found (.number (Decimal.ofDigits whole fraction 0)) start stop ∧
        stop.rest = r := by
  have hend : ∀ a, r.head? = some a → a.isDigit = false := head?_of_isEnd hr (by decide)
  unfold readNumber
  cases fraction with
  -- without a fraction the number ends, and no point follows at an end
  | nil =>
    have hstop : (c.moveTo r).rest = r := rest_moveTo hc
    refine ⟨c.moveTo r, ?_, hstop⟩
    rw [takeWhile_append hc hwhole hend]
    simp only [hstop, Bool.false_eq_true, if_false]
    split
    · cases hr
    · rfl
  | cons d f =>
    obtain ⟨hd, -⟩ := List.forall_mem_cons.1 hfraction
    replace hc : c.rest = whole ++ ('.' :: d :: (f ++ r)) := by simpa [numberText] using hc
    have hpoint : (c.moveTo ('.' :: d :: (f ++ r))).rest = '.' :: d :: (f ++ r) := rest_moveTo hc
    have hstep : (c.moveTo ('.' :: d :: (f ++ r))).step.rest = (d :: f) ++ r := by
      rw [Cursor.rest_step, hpoint]
      rfl
    refine ⟨(c.moveTo ('.' :: d :: (f ++ r))).step.moveTo r, ?_, rest_moveTo hstep⟩
    rw [takeWhile_append hc hwhole (by rintro a ⟨⟩; rfl)]
    simp only [hpoint, hd, if_true, takeWhile_append hstep hfraction hend]
    rfl

/-- A number without a sign, of which the first digit opens it plainly. -/
theorem Gives.number {whole fraction : List Char} (hne : whole ≠ [])
    (hwhole : ∀ a ∈ whole, a.isDigit = true) (hfraction : ∀ a ∈ fraction, a.isDigit = true)
    (hr : isEnd r = true) : Gives inner (numberText whole fraction ++ r)
      (.of (.number (Decimal.ofDigits whole fraction 0))) r := by
  obtain ⟨a, w, rfl⟩ := List.exists_cons_of_ne_nil hne
  obtain ⟨ha, -⟩ := List.forall_mem_cons.1 hwhole
  obtain ⟨t, ht⟩ : ∃ t, numberText (a :: w) fraction = a :: t := by
    unfold numberText
    split
    · exact ⟨w, rfl⟩
    · exact ⟨_, rfl⟩
  refine .of_found (by rw [ht]; simp only [List.length_append, List.length_cons]; omega)
    fun _ c hc => ?_
  have hdigit : c.rest = a :: (t ++ r) := by rw [hc, ht]; rfl
  rw [readToken_digit hdigit ha]
  exact readNumber_append hwhole hfraction hc hr

/-! ## Texts between quotes -/

/-- What a text between quotes stands for. A backslash and the character behind it are replaced by
what the kind of quote makes of them, and all else stands for itself. -/
def unescaped (q : Quote) : List Char → List Char
  | '\\' :: c :: r => unescape q c ++ unescaped q r
  | c :: r => c :: unescaped q r
  | [] => []

section

variable {q : Quote}

/-- A character between quotes that is neither a quote nor a backslash is kept. -/
theorem splitText?_plain {a : Char} (hquote : a ≠ q.char) (hbackslash : a ≠ '\\') (s : List Char) :
    splitText? q (a :: s) = (splitText? q s).map fun p => (a :: p.1, p.2) := by
  cases s <;> simp [splitText?, hquote, hbackslash]

/-- A backslash takes the next character with it, whatever that is. -/
theorem splitText?_escaped (a : Char) (s : List Char) :
    splitText? q ('\\' :: a :: s) = (splitText? q s).map fun p => (unescape q a ++ p.1, p.2) := by
  simp [splitText?, q.backslash_ne_char]

/-- What is read between quotes, up to the closing one. The condition is that no quote of that kind
stands inside without a backslash, and that no backslash is left at the end. -/
theorem splitText?_append (h : q.Holds s) (r : List Char) :
    splitText? q (s ++ q.char :: r) = some (unescaped q s, r) := by
  induction h with
  | nil => cases r <;> simp [splitText?, unescaped]
  | plain hquote hbackslash _ _ ih =>
    rw [List.cons_append, splitText?_plain hquote hbackslash, ih, unescaped]
    · rfl
    · exact fun _ _ hc => absurd hc hbackslash
  | escaped _ _ _ ih =>
    rw [List.cons_append, List.cons_append, splitText?_escaped, ih, unescaped]
    rfl

/-- A text that is cut off before its closing quote has no end. It is cut off anywhere, also between
a backslash and the character that it takes with it. -/
theorem splitText?_of_cut (h : q.Holds s) {u v : List Char} (hcut : u ++ v = s ++ [q.char])
    (hv : v ≠ []) : splitText? q u = none := by
  -- cut off anywhere: between two characters, or between a backslash and what it escapes
  induction h generalizing u with
  | nil =>
    obtain rfl : u = [] := by
      cases u with
      | nil => rfl
      | cons a u => simp at hcut; exact absurd hcut.2.2 hv
    rfl
  | plain hquote hbackslash _ _ ih =>
    cases u with
    | nil => rfl
    | cons a u =>
      simp only [List.cons_append, List.cons.injEq] at hcut
      obtain ⟨rfl, hrest⟩ := hcut
      rw [splitText?_plain hquote hbackslash, ih hrest]
      rfl
  | escaped _ _ _ ih =>
    match u, hcut with
    | [], _ => rfl
    | [a], hcut =>
      simp only [List.cons_append, List.cons.injEq] at hcut
      obtain ⟨rfl, -⟩ := hcut
      simp [splitText?, q.backslash_ne_char]
    | a :: b :: u, hcut =>
      simp only [List.cons_append, List.cons.injEq] at hcut
      obtain ⟨rfl, rfl, hrest⟩ := hcut
      rw [splitText?_escaped, ih hrest]
      rfl

end

/-- A text between quotes, with its escapes. What follows it does not matter, as the quote ends
it. -/
theorem Gives.quoted {q : Quote} (h : q.Holds s) :
    Gives inner (q.enclose s ++ r) (.of (quotedLexeme q (unescaped q s))) r := by
  have henclose : q.enclose s ++ r = q.char :: (s ++ q.char :: r) := by simp [Quote.enclose]
  rw [henclose]
  refine .of_found (by simp only [List.length_append, List.length_cons]; omega) fun _ c hc => ?_
  refine ⟨c.moveTo r, ?_, rest_moveTo (t := q.enclose s) (by rw [hc, henclose])⟩
  rw [readToken_quote hc, readText, hc, List.drop_one, List.tail_cons, splitText?_append h]

/-! ## All tokens -/

/-- A text has the tokens, wherever it stands and whatever comes before it. The constructors put one
token in front of a text, so that an expression can be followed as it is written. -/
inductive Lexes (inner : List Char → Option (List Token)) : List Char → List Token → Prop where
  /-- an empty text has none -/
  | nil : Lexes inner [] []
  /-- one comes first, and what is left has the others -/
  | cons {s r : List Char} {t : Token} {ts : List Token} (first : Gives inner s t r)
      (rest : Lexes inner r ts) : Lexes inner s (t :: ts)

/-- Blanks before the first token do not matter. -/
theorem Lexes.blank (h : Lexes inner s (t :: ts)) : Lexes inner (' ' :: s) (t :: ts) := by
  cases h with
  | cons first rest => exact .cons first.blank rest

/-- Reading the tokens of a text ends in a fault. As with `Lexes`, tokens may stand before the place
where it does; which ones makes no difference to that. -/
inductive Fails (inner : List Char → Option (List Token)) : List Char → Prop where
  /-- there is no first token -/
  | first {s : List Char} (h : ∀ (afterOperand : Bool) (c : Cursor), c.rest = s →
      ∃ f stop, readToken inner afterOperand c = (.error f, stop)) : Fails inner s
  /-- one comes first, and reading what is left ends in a fault -/
  | cons {s r : List Char} {t : Token} (first : Gives inner s t r) (rest : Fails inner r) :
      Fails inner s

/-- A fault comes of a text that is cut off before its closing quote. This is what becomes of an
array literal whose closing parenthesis was found between quotes. -/
theorem Fails.quoted {q : Quote} (h : q.Holds s) {u v : List Char} (hcut : u ++ v = s ++ [q.char])
    (hv : v ≠ []) : Fails inner (q.char :: u) := by
  refine .first fun _ c hc => ⟨⟨.unclosedText, c.position⟩, c.moveTo [], ?_⟩
  rw [readToken_quote hc, readText, hc, List.drop_one, List.tail_cons, splitText?_of_cut h hcut hv]
  rfl

/-- Nor do they if reading ends in a fault. -/
theorem Fails.blank (h : Fails inner s) : Fails inner (' ' :: s) := by
  cases h with
  | first h =>
    refine .first fun afterOperand c hc => ?_
    rw [readToken_blank hc]
    exact h afterOperand c.step (by rw [Cursor.rest_step, hc]; rfl)
  | cons hfirst hrest => exact .cons hfirst.blank hrest

/-- The tokens of a text are found up to their places. The induction is on how the text was put
together, and each token leaves less text than there is fuel. -/
theorem Lexes.exists_scanFrom (h : Lexes inner s ts) (afterOperand : Bool) {fuel : Nat}
    (hfuel : s.length < fuel) (hc : c.rest = s) : ∃ us p,
      scanFrom inner fuel afterOperand c = ⟨us, .ok p⟩ ∧ Token.Alike us ts := by
  -- one step for each token; what came before decides on a `/` only, and that opens no token here
  induction h generalizing fuel afterOperand c with
  | nil =>
    obtain ⟨fuel, rfl⟩ : ∃ f, fuel = f + 1 := Nat.exists_eq_add_one.2 (by omega)
    exact ⟨[], c.position, by simp only [scanFrom, readToken_end hc], .refl []⟩
  | cons first _ ih =>
    obtain ⟨fuel, rfl⟩ : ∃ f, fuel = f + 1 := Nat.exists_eq_add_one.2 (by omega)
    obtain ⟨u, stop, hread, hu, hstop⟩ := first.read afterOperand c hc
    have hrest := Nat.lt_of_lt_of_le first.shorter (Nat.le_of_lt_succ hfuel)
    obtain ⟨us, p, hscan, hus⟩ := ih (isOperand u) hrest hstop
    exact ⟨u :: us, p, by simp only [scanFrom, hread, hscan], .cons hu hus⟩

/-- A fault is found where it is, behind the tokens that come before it. -/
theorem Fails.exists_scanFrom (h : Fails inner s) (afterOperand : Bool) {fuel : Nat}
    (hfuel : s.length < fuel) (hc : c.rest = s) : ∃ us f,
      scanFrom inner fuel afterOperand c = ⟨us, .error f⟩ := by
  induction h generalizing fuel afterOperand c with
  | first h =>
    obtain ⟨fuel, rfl⟩ : ∃ f, fuel = f + 1 := Nat.exists_eq_add_one.2 (by omega)
    obtain ⟨f, stop, hread⟩ := h afterOperand c hc
    exact ⟨[], f, by simp only [scanFrom, hread]⟩
  | cons first _ ih =>
    obtain ⟨fuel, rfl⟩ : ∃ f, fuel = f + 1 := Nat.exists_eq_add_one.2 (by omega)
    obtain ⟨u, stop, hread, -, hstop⟩ := first.read afterOperand c hc
    have hrest := Nat.lt_of_lt_of_le first.shorter (Nat.le_of_lt_succ hfuel)
    obtain ⟨us, f, hscan⟩ := ih (isOperand u) hrest hstop
    exact ⟨u :: us, f, by simp only [scanFrom, hread, hscan]⟩

/-- The same for a text within an array literal. -/
theorem Lexes.exists_innerTokens? {depth : Nat} (h : Lexes (innerTokens? depth) s ts) :
    ∃ us, innerTokens? (depth + 1) s = some us ∧ Token.Alike us ts := by
  obtain ⟨us, p, hscan, hus⟩ := h.exists_scanFrom (c := .start s) false
    (Nat.lt_succ_self _) rfl
  exact ⟨us, by rw [innerTokens?, hscan]; rfl, hus⟩

/-- If reading ends in a fault, the text is not that of an array literal. -/
theorem Fails.innerTokens?_eq_none {depth : Nat} (h : Fails (innerTokens? depth) s) :
    innerTokens? (depth + 1) s = none := by
  obtain ⟨us, f, hscan⟩ := h.exists_scanFrom (c := .start s) false
    (Nat.lt_succ_self _) rfl
  rw [innerTokens?, hscan]
  rfl

/-- The tokens of a whole text are found, at places that do not matter here. -/
theorem Lexes.exists_scan (h : Lexes (innerTokens? s.length) s ts) :
    ∃ us p, scan s = ⟨us, .ok p⟩ ∧ Token.Alike us ts :=
  h.exists_scanFrom false (Nat.lt_succ_self _) rfl

end Lexer

end CommandLanguage
