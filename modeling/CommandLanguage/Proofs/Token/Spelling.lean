import CommandLanguage.Proofs.Token.Passes

/-!
# How tokens are written

`Lexer.Spelled` tells from which texts a token of each kind is read. The text alone then tells what
the token is (`Spelled.unique`), and every token that is read is spelled by the text that reading has
passed (`readHere_occupies`), no character less and none more.

The relation is about texts and not about cursors, and it has nothing in it of how a token is found.
So where a reader looks for its characters one by one, the proof has to collect them again: `Covers`
is the text between two cursors, put together from that of single steps. Two kinds take some care. A
text in quotes is spelled with its escapes, which may be written in several ways, so it is the text
that tells the token and not the other way round; and for a number it has to be shown that its digits
are not the beginning of a name such as that of infinity.
-/

namespace CommandLanguage

/-! ## The text between two cursors

A reader goes from a cursor to another one further on. Its text is what lies between the two, so
that the texts of consecutive tokens make up the whole. -/

/-- The text is what is between two cursors. -/
structure Cursor.Covers (c : Cursor) (w : List Char) (stop : Cursor) : Prop where
  /-- the first one is before it, the second one behind it -/
  rest : c.rest = w ++ stop.rest
  /-- and from the first one to the second, nothing but the text is passed -/
  stop : stop = c.skip w.length

namespace Cursor.Covers

variable {c d stop : Cursor} {w w' r s : List Char} {a : Char}

/-- Between a place and itself there is no text. -/
theorem refl (c : Cursor) : c.Covers [] c := ⟨rfl, rfl⟩

/-- One step covers the character that is ahead. -/
theorem step (h : c.rest = a :: s) : c.Covers [a] c.step :=
  ⟨by rw [rest_step, h]; rfl, rfl⟩

/-- The texts of two ways, one after the other, are put together. -/
theorem trans (h : c.Covers w d) (h' : d.Covers w' stop) : c.Covers (w ++ w') stop :=
  ⟨by rw [h.rest, h'.rest, List.append_assoc],
    by rw [h'.stop, h.stop, skip_skip, List.length_append]⟩

/-- To move to a rest of the text covers what is in front of it. -/
theorem moveTo (h : c.rest = w ++ r) : c.Covers w (c.moveTo r) := by
  refine ⟨by rw [Lexer.rest_moveTo h, h], ?_⟩
  rw [Cursor.moveTo, h, List.length_append, Nat.add_sub_cancel]

/-- What is taken of a kind is what is covered. -/
theorem takeWhile (kind : Char → Bool) (c : Cursor) :
    c.Covers (c.takeWhile kind).1 (c.takeWhile kind).2 :=
  .moveTo List.takeWhile_append_dropWhile.symm

end Cursor.Covers

/-! ## Kinds of tokens -/

/-- The kinds of tokens. What is between quotes is one of them, whether it is expanded or not. -/
inductive Token.Kind where
  /-- a reserved word -/
  | keyword
  /-- an operator -/
  | operator
  /-- a punctuation character -/
  | punctuation
  /-- `true` or `false` -/
  | boolean
  /-- a path or a word with a dash -/
  | bare
  /-- a variable, with an index or not -/
  | variable
  /-- a number -/
  | number
  /-- a text between quotes -/
  | quoted
  /-- an array literal -/
  | array
  deriving DecidableEq, Repr

namespace Lexer

open Cursor (Covers)
open Text (isNameChar)

variable {inner : List Char → Option (List Token)} {ao : Bool} {c d stop : Cursor} {a : Char}
  {q : Quote} {k : Token.Kind} {s r v w w' name whole : List Char} {deref : Bool} {t u : Token}

/-- Whether a text between quotes goes on to its end: a quote in it has a backslash before it, and so
has the backslash at its end, if there is one. -/
def isOpen (q : Quote) : List Char → Bool
  | '\\' :: _ :: r => isOpen q r
  | c :: r => c != '\\' && c != q.char && isOpen q r
  | [] => true

/-- How an index after a name is written. -/
def indexText : Option (List Char) → List Char
  | some index => '[' :: (index ++ [']'])
  | none => []

/-- How a variable is written. -/
def variableText (name : List Char) (deref : Bool) (index : Option (List Char)) : List Char :=
  (if deref then ['$'] else []) ++ name ++ indexText index

/-- How a token of a kind is written. -/
inductive Spelled : Token.Kind → List Char → Token → Prop
  /-- as itself -/
  | keyword {w : List Char} {p : Span} : Lexeme.isKeyword (String.ofList w) = true →
    Spelled .keyword w (.plain (.keyword (String.ofList w)) p)
  /-- as its spelling -/
  | operator {o : Operator} {p : Span} : o ∈ Operator.all →
    Spelled .operator o.spelling.toList (.plain (.operator o) p)
  /-- as itself -/
  | punctuation {a : Char} {p : Span} : Lexeme.isPunctuation a = true →
    Spelled .punctuation [a] (.plain (.punctuation a) p)
  /-- as `true` or `false` -/
  | boolean (b : Bool) {p : Span} : Spelled .boolean (toString b).toList (.plain (.boolean b) p)
  /-- as its text -/
  | bare {w : List Char} {p : Span} : Spelled .bare w (.plain (.text (String.ofList w) .bare) p)
  /-- with a `$` or without one, as its name, and with its index in brackets, if it has one -/
  | variable {name : List Char} {deref : Bool} {index : Option (List Char)} {p : Span} :
    name ≠ [] → (∀ a ∈ name, isNameChar a = true) → Spelled .variable (variableText name deref index)
      (.plain (.variable (String.ofList name) deref (index.map String.ofList)) p)
  /-- as a decimal that is read as it -/
  | number {w : List Char} {n : Float} {p : Span} : Decimal.readFloat? w = some n →
    Spelled .number w (.plain (.number n) p)
  /-- between its quotes, with escapes -/
  | quoted {q : Quote} {w : List Char} {p : Span} : isOpen q w = true →
    Spelled .quoted (q.enclose w) (.plain (quotedLexeme q (unescaped q w)) p)
  /-- between parentheses, as a text of which the tokens but commas are its items -/
  | array {w : List Char} {ts : List Token} {p : Span} : tokens? w = some ts →
    Spelled .array ('(' :: (w ++ [')'])) (.array (ts.filter (!·.isPunctuation ',')) p)

/-- A name ends where an index begins. -/
theorem head?_indexText (index : Option (List Char)) :
    ∀ a, (indexText index).head? = some a → isNameChar a = false := by
  intro a ha
  cases index with
  | none => cases ha
  | some i =>
    cases ha
    rfl

/-- An index is told by how it is written, and its absence is written as nothing. -/
theorem indexText_inj {index index' : Option (List Char)} (h : indexText index = indexText index') :
    index = index' := by
  cases index with
  | none => cases index' with
    | none => rfl
    | some i' => cases h
  | some i => cases index' with
    | none => cases h
    | some i' => rw [List.append_cancel_right (List.cons.inj h).2]

/-- The parts of a variable can be told from how it is written. -/
theorem variableText_inj {name' : List Char} {deref' : Bool} {index index' : Option (List Char)}
    (hne : name ≠ []) (hname : ∀ a ∈ name, isNameChar a = true) (hne' : name' ≠ [])
    (hname' : ∀ a ∈ name', isNameChar a = true)
    (h : variableText name deref index = variableText name' deref' index') :
    name = name' ∧ deref = deref' ∧ index = index' := by
  -- only the text of a variable with a `$` begins with one
  have hdollar {name : List Char} {index : Option (List Char)} {r : List Char} (hne : name ≠ [])
      (hname : ∀ a ∈ name, isNameChar a = true) : name ++ indexText index ≠ '$' :: r := by
    obtain ⟨a, n, rfl⟩ := List.exists_cons_of_ne_nil hne
    intro h
    exact Text.ne_of_kind (hname a List.mem_cons_self) (by decide) (List.cons.inj h).1
  have hsame : deref = deref' ∧ name ++ indexText index = name' ++ indexText index' := by
    cases deref <;> cases deref'
    · exact ⟨rfl, h⟩
    · exact absurd h (hdollar hne hname)
    · exact absurd h.symm (hdollar hne' hname')
    · exact ⟨rfl, (List.cons.inj h).2⟩
  obtain ⟨rfl, hrest⟩ := hsame
  -- the name goes as far as characters of names do
  have hsplit := Text.span_append hname (head?_indexText index)
  rw [hrest] at hsplit
  have hsplit' := Text.span_append hname' (head?_indexText index')
  exact ⟨hsplit.1.symm.trans hsplit'.1, rfl, indexText_inj (hsplit.2.symm.trans hsplit'.2)⟩

/-- The quote is told by the first character, and then the text is what is between the two. -/
theorem enclose_inj {q' : Quote} (h : q.enclose w = q'.enclose w') : q = q' ∧ w = w' := by
  obtain ⟨hchar, hrest⟩ := List.cons.inj h
  have hq := congrArg Quote.ofChar? hchar
  rw [Quote.ofChar?_char, Quote.ofChar?_char] at hq
  obtain rfl := Option.some.inj hq
  exact ⟨rfl, List.append_cancel_right hrest⟩

/-- What a token is can be told from how it is written. -/
theorem Spelled.unique (h : Spelled k w t) (h' : Spelled k w' u) (hw : w = w')
    (hspan : t.span = u.span) : t = u := by
  cases h with
  | keyword _ => cases h' with | keyword _ => rw [hw]; exact congrArg _ hspan
  -- operators with the same spelling are the same
  | operator ho =>
    cases h' with
    | operator ho' =>
      have hspelling := congrArg Operator.ofSpelling (String.toList_inj.1 hw)
      rw [Operator.ofSpelling_spelling ho, Operator.ofSpelling_spelling ho'] at hspelling
      rw [hspelling]
      exact congrArg _ hspan
  | punctuation _ =>
    cases h' with
    | punctuation _ => rw [(List.cons.inj hw).1]; exact congrArg _ hspan
  | boolean b =>
    cases h' with
    | boolean b' =>
      obtain rfl : b = b' := by
        revert hw
        cases b <;> cases b' <;> decide
      exact congrArg _ hspan
  | bare => cases h' with | bare => rw [hw]; exact congrArg _ hspan
  | «variable» hne hname =>
    cases h' with
    | «variable» hne' hname' =>
      obtain ⟨rfl, rfl, rfl⟩ := variableText_inj hne hname hne' hname' hw
      exact congrArg _ hspan
  | number hn =>
    cases h' with
    | number hn' =>
      rw [hw, hn'] at hn
      cases hn
      exact congrArg _ hspan
  | quoted _ =>
    cases h' with
    | quoted _ =>
      obtain ⟨rfl, rfl⟩ := enclose_inj hw
      exact congrArg _ hspan
  | array hts =>
    cases h' with
    | array hts' =>
      rw [List.append_cancel_right (List.cons.inj hw).2, hts'] at hts
      cases hts
      exact congrArg _ hspan

/-! ## The parts of tokens -/

/-- The text of an index, and the bracket behind it. -/
theorem append_of_splitIndex? {depth : Nat} (h : splitIndex? depth s = some (v, r)) :
    v ++ ']' :: r = s := by
  fun_induction splitIndex? depth s generalizing v r with
  | case1 => cases h
  | case2 c s hc =>
    cases h
    rw [eq_of_beq hc]
    rfl
  -- a bracket that opens is closed by one of its own
  | case3 c s hc d ih =>
    obtain ⟨⟨v', r'⟩, hr, heq⟩ := Option.map_eq_some_iff.1 h
    cases heq
    rw [List.cons_append, ih hr]
  | case4 depth c s hc ih =>
    obtain ⟨⟨v', r'⟩, hr, heq⟩ := Option.map_eq_some_iff.1 h
    cases heq
    rw [List.cons_append, ih hr]

/-- The text between quotes, and the quote behind it. -/
theorem exists_of_splitText? (h : splitText? q s = some (v, r)) :
    ∃ w, s = w ++ q.char :: r ∧ isOpen q w = true ∧ v = unescaped q w := by
  fun_induction splitText? q s generalizing v r with
  | case1 => cases h
  | case2 c s hc =>
    cases h
    exact ⟨[], by rw [eq_of_beq hc]; rfl, rfl, rfl⟩
  | case3 => cases h
  -- a backslash and the character behind it, whatever that is
  | case4 c hc hbackslash d s ih =>
    obtain ⟨⟨v', r'⟩, hr, heq⟩ := Option.map_eq_some_iff.1 h
    cases heq
    obtain ⟨w, rfl, hw, rfl⟩ := ih hr
    obtain rfl := eq_of_beq hbackslash
    exact ⟨'\\' :: d :: w, rfl, by rw [isOpen, hw], by rw [unescaped]⟩
  | case5 c s hc hbackslash ih =>
    obtain ⟨⟨v', r'⟩, hr, heq⟩ := Option.map_eq_some_iff.1 h
    cases heq
    obtain ⟨w, rfl, hw, rfl⟩ := ih hr
    have hne : c ≠ '\\' := by simpa using hbackslash
    have hquote : c ≠ q.char := by simpa using hc
    refine ⟨c :: w, rfl, ?_, ?_⟩
    · rw [isOpen]
      · simp [hne, hquote, hw]
      · exact fun _ _ hc _ => hne hc
    · rw [unescaped]
      exact fun _ _ hc _ => hne hc

/-- No name of a number that is not a decimal begins with a digit. -/
theorem toLower_of_isDigit (h : a.isDigit = true) : a.toLower ≠ 'i' ∧ a.toLower ≠ 'n' := by
  -- digits are not affected, and there are ten of them
  have hdigits : ∀ n : Fin 10, (Char.ofNat (48 + n)).toLower ≠ 'i' ∧
      (Char.ofNat (48 + n)).toLower ≠ 'n' := by decide
  have hrange := Text.toNat_of_isDigit h
  have ha : a = Char.ofNat (48 + (a.toNat - 48)) := by
    rw [Nat.add_sub_cancel' hrange.1, Char.ofNat_toNat]
  rw [ha]
  exact hdigits ⟨a.toNat - 48, by omega⟩

/-- What begins with a digit is read as a number only as a decimal. -/
theorem readFloat?_of_isDigit (negative : Bool) (h : a.isDigit = true) (s : List Char) :
    Decimal.readFloat? ((if negative then ['-'] else []) ++ a :: s) =
      (Decimal.readMagnitude? (a :: s)).map fun x => if negative then -x else x := by
  have hsign : Decimal.splitSign ((if negative then ['-'] else []) ++ a :: s) =
      (negative, a :: s) := by
    cases negative with
    | true => rfl
    | false =>
      have hplus : a ≠ '+' := Text.ne_of_kind h (by decide)
      have hminus : a ≠ '-' := Text.ne_of_kind h (by decide)
      simp only [Bool.false_eq_true, if_false, List.nil_append]
      rw [Decimal.splitSign]
      · exact fun _ h => hminus (List.cons.inj h).1
      · exact fun _ h => hplus (List.cons.inj h).1
  -- what begins with a digit is none of the names for special numbers
  have hname {word : String} (hword : word.toList.head? = some 'i' ∨ word.toList.head? = some 'n') :
      String.ofList ((a :: s).map Char.toLower) ≠ word := by
    rintro rfl
    rw [String.toList_ofList, List.map_cons, List.head?_cons] at hword
    rcases hword with hword | hword
    · exact (toLower_of_isDigit h).1 (Option.some.inj hword)
    · exact (toLower_of_isDigit h).2 (Option.some.inj hword)
  unfold Decimal.readFloat?
  rw [hsign]
  refine congrArg (Option.map _) ?_
  split
  · rename_i heq
    exact absurd heq (hname (by decide))
  · rename_i heq
    exact absurd heq (hname (by decide))
  · rename_i heq
    exact absurd heq (hname (by decide))
  · rfl

/-- Digits with or without a fraction are read as what they stand for. -/
theorem readMagnitude?_numberText {fraction : List Char} (hne : whole ≠ [])
    (hwhole : ∀ a ∈ whole, a.isDigit = true) (hfraction : ∀ a ∈ fraction, a.isDigit = true) :
    Decimal.readMagnitude? (numberText whole fraction) =
      some (Decimal.ofDigits whole fraction 0) := by
  have hempty : whole.isEmpty = false := by simpa using hne
  -- without a fraction no point is written
  cases fraction with
  | nil =>
    have hspan := Text.span_append hwhole (r := []) (by rintro _ ⟨⟩)
    rw [List.append_nil] at hspan
    have htext : numberText whole [] = whole := rfl
    unfold Decimal.readMagnitude?
    rw [htext, hspan.1, hspan.2]
    simp only [hempty, Bool.false_and, Bool.false_eq_true, if_false]
    rfl
  | cons d f =>
    have hspan := Text.span_append hwhole (r := '.' :: d :: f) (by rintro _ ⟨⟩; rfl)
    have hspan' := Text.span_append hfraction (r := []) (by rintro _ ⟨⟩)
    rw [List.append_nil] at hspan'
    have htext : numberText whole (d :: f) = whole ++ '.' :: d :: f := rfl
    unfold Decimal.readMagnitude?
    rw [htext, hspan.1, hspan.2]
    simp only [hspan'.1, hspan'.2, hempty, Bool.false_and, Bool.false_eq_true, if_false]
    rfl

/-- What is written as a number is read as it. -/
theorem readFloat?_numberText (negative : Bool) {fraction : List Char} (hne : whole ≠ [])
    (hwhole : ∀ a ∈ whole, a.isDigit = true) (hfraction : ∀ a ∈ fraction, a.isDigit = true) :
    Decimal.readFloat? ((if negative then ['-'] else []) ++ numberText whole fraction) =
      some (if negative then -Decimal.ofDigits whole fraction 0
        else Decimal.ofDigits whole fraction 0) := by
  obtain ⟨a, w, rfl⟩ := List.exists_cons_of_ne_nil hne
  have hmagnitude := readMagnitude?_numberText hne hwhole hfraction
  obtain ⟨r, hr⟩ : ∃ r, numberText (a :: w) fraction = a :: r := by
    unfold numberText
    split
    · exact ⟨w, rfl⟩
    · exact ⟨w ++ '.' :: fraction, rfl⟩
  rw [hr] at hmagnitude ⊢
  rw [readFloat?_of_isDigit negative (hwhole a List.mem_cons_self), hmagnitude]
  rfl

/-! ## The text of a token

For each kind of token there is a lemma that says how the text between its ends looks. -/

/-- A token is spelled by the text between two cursors, of which there is some, and has its place
there. This is what is shown of every reader below. -/
def Occupies (c : Cursor) (t : Token) (stop : Cursor) : Prop :=
  ∃ k w, w ≠ [] ∧ c.Covers w stop ∧ Spelled k w t ∧ t.span = ⟨c.position, stop.position⟩

/-- A lexeme that is found has the place where it was read, so that its spelling is left to be
shown. -/
theorem Occupies.found {l : Lexeme} {d : Cursor} (h : Lexer.found l c d = (.ok (some t), stop))
    (hne : w ≠ []) (hcovers : c.Covers w d) (hspelled : ∀ p, Spelled k w (.plain l p)) :
    Occupies c t stop := by
  cases h
  exact ⟨k, w, hne, hcovers, hspelled _, rfl⟩

/-- Between quotes, the text is split at the quote that closes it. -/
theorem readText_occupies (hc : c.rest = q.char :: s) (h : readText q c = (.ok (some t), stop)) :
    Occupies c t stop := by
  unfold readText at h
  rw [hc, List.drop_one, List.tail_cons] at h
  split at h
  · rename_i v r hsplit
    obtain ⟨w, rfl, hopen, rfl⟩ := exists_of_splitText? hsplit
    have hrest : c.rest = q.enclose w ++ r := by
      rw [hc, Quote.enclose, List.cons_append, List.append_assoc]
      rfl
    exact .found h (List.cons_ne_nil _ _) (.moveTo hrest) fun _ => .quoted hopen
  · cases h

/-- The digits behind a point, with the point. -/
theorem exists_of_fraction (c : Cursor) : (∀ a ∈ (fraction c).1, a.isDigit = true) ∧
    ∃ w, c.Covers w (fraction c).2 ∧ ∀ whole, numberText whole (fraction c).1 = whole ++ w := by
  unfold fraction
  -- a point counts if a digit is behind it
  split
  · rename_i d r hrest
    split
    · rename_i hd
      have hstep : c.step.rest = d :: r := by rw [Cursor.rest_step, hrest]; rfl
      have hcovers := (Covers.step hrest).trans (.takeWhile Char.isDigit c.step)
      have hne : (c.step.takeWhile Char.isDigit).1 ≠ [] := by
        rw [Cursor.takeWhile, hstep]
        simp [hd]
      refine ⟨fun a ha => List.all_eq_true.1 List.all_takeWhile a ha, _, hcovers, fun whole => ?_⟩
      rw [numberText, if_neg (by simpa using hne)]
      rfl
    · exact ⟨fun _ h => absurd h List.not_mem_nil, [], .refl c, fun whole => by simp [numberText]⟩
  · exact ⟨fun _ h => absurd h List.not_mem_nil, [], .refl c, fun whole => by simp [numberText]⟩

/-- A number is its digits, with a `-` in front if there was one. Whether there was, the cursor
tells that it was read from. -/
theorem readNumber_occupies (negative : Bool) (hd : c.Covers (if negative then ['-'] else []) d)
    (hdigit : d.rest.head?.any Char.isDigit = true)
    (h : readNumber negative c d = (.ok (some t), stop)) : Occupies c t stop := by
  rw [readNumber_eq] at h
  obtain ⟨hfraction, w, hcovers, htext⟩ := exists_of_fraction (d.takeWhile Char.isDigit).2
  have hwhole : ∀ a ∈ (d.takeWhile Char.isDigit).1, a.isDigit = true :=
    fun a ha => List.all_eq_true.1 List.all_takeWhile a ha
  have hne : (d.takeWhile Char.isDigit).1 ≠ [] := by
    obtain ⟨a, ha, hdigit⟩ := (Option.any_eq_true _ _).1 hdigit
    obtain ⟨s, hs⟩ := List.head?_eq_some_iff.1 ha
    simp [Cursor.takeWhile, hs, hdigit]
  have hall := hd.trans ((Covers.takeWhile Char.isDigit d).trans hcovers)
  rw [← htext] at hall
  refine .found h ?_ hall fun _ => .number (readFloat?_numberText negative hne hwhole hfraction)
  rw [htext]
  simp [hne]

/-- Behind a `-` there is a number or the name of an option, which is a text with its dash. -/
theorem readDashed_occupies (hc : c.rest = '-' :: s) (h : readDashed c = (.ok (some t), stop)) :
    Occupies c t stop := by
  unfold readDashed at h
  dsimp only at h
  split at h
  · rename_i hdigit
    exact readNumber_occupies true (.step hc) hdigit h
  · exact .found h (List.cons_ne_nil _ _) ((Covers.step hc).trans (.takeWhile isFlagChar c.step))
      fun _ => .bare

/-- A name is followed by its index or stands by itself. It has been covered before, with its
`$`. -/
theorem readIndex_occupies (deref : Bool) (hd : c.Covers ((if deref then ['$'] else []) ++ name) d)
    (hne : name ≠ []) (hname : ∀ a ∈ name, isNameChar a = true)
    (h : readIndex name deref c d = (.ok (some t), stop)) : Occupies c t stop := by
  -- a name is not empty, and neither is the text of a variable
  have hnonempty (index : Option (List Char)) : variableText name deref index ≠ [] := by
    simp [variableText, hne]
  unfold readIndex at h
  split at h
  · rename_i r hr
    split at h
    · rename_i index r' hsplit
      have hrest : d.rest = indexText (some index) ++ r' := by
        rw [hr, ← append_of_splitIndex? hsplit, indexText]
        simp
      exact .found h (hnonempty (some index)) (hd.trans (.moveTo hrest)) fun _ => .variable hne hname
    · cases h
  · have hall := hd.trans (.refl d)
    exact .found h (hnonempty none) hall fun _ => .variable hne hname

/-- A `$` and a name. -/
theorem readReference_occupies (hc : c.rest = '$' :: s)
    (h : readReference c = (.ok (some t), stop)) : Occupies c t stop := by
  unfold readReference at h
  dsimp only at h
  split at h
  · cases h
  · rename_i hempty
    refine readIndex_occupies true
      ((Covers.step hc).trans (.takeWhile isNameChar c.step)) ?_ ?_ h
    · simpa using hempty
    · exact fun a ha => List.all_eq_true.1 List.all_takeWhile a ha

/-- A word is a truth value, a reserved word or a variable. The first two are written in one way
only. -/
theorem readWord_occupies (hc : c.rest = a :: s) (ha : isNameChar a = true)
    (h : readWord c = (.ok (some t), stop)) : Occupies c t stop := by
  have hne : (c.takeWhile isNameChar).1 ≠ [] := by simp [Cursor.takeWhile, hc, ha]
  have hcovers := Covers.takeWhile isNameChar c
  unfold readWord at h
  dsimp only at h
  split at h
  · rename_i l hl
    -- for `true` and for `false` the word is the text of the value
    have hboolean (b : Bool)
        (hb : (String.ofList (c.takeWhile isNameChar).1 == toString b) = true)
        (hl : some (Lexeme.boolean b) = some l) : Occupies c t stop := by
      have hword : (c.takeWhile isNameChar).1 = (toString b).toList := by
        rw [← eq_of_beq hb, String.toList_ofList]
      cases hl
      rw [hword] at hcovers hne
      exact .found h hne hcovers fun _ => .boolean b
    unfold wordLexeme? at hl
    split at hl
    · exact hboolean true ‹_› hl
    · split at hl
      · exact hboolean false ‹_› hl
      · split at hl
        · rename_i hkeyword
          cases hl
          exact .found h hne hcovers fun _ => .keyword hkeyword
        · cases hl
  · exact readIndex_occupies false hcovers hne
      (fun a ha => List.all_eq_true.1 List.all_takeWhile a ha) h

/-- An operator is read by looking for the longest one, which is one of those there are. -/
theorem readOperator_occupies (h : readOperator a c = (.ok (some t), stop)) :
    Occupies c t stop := by
  unfold readOperator at h
  split at h
  · rename_i o ho
    obtain ⟨hall, r, hr⟩ := longest?_prefix ho
    have hne : o.spelling.toList ≠ [] := by simpa using (spelling_of_mem_all hall).1
    have hcovers : c.Covers o.spelling.toList (c.skip o.spelling.length) := by
      refine ⟨?_, by rw [String.length_toList]⟩
      rw [Cursor.rest_skip, ← String.length_toList, ← hr, List.drop_left]
    exact .found h hne hcovers fun _ => .operator hall
  · cases h

/-- The items of an array literal are its tokens but for commas. -/
theorem eq_of_arrayItems? {ts items : List Token} (h : arrayItems? ts = some items) :
    items = ts.filter (!·.isPunctuation ',') := by
  unfold arrayItems? at h
  dsimp only at h
  split at h
  · exact (Option.some.inj h).symm
  · cases h

/-- An array literal with its parentheses, or a punctuation character. -/
theorem readMark_occupies (hc : c.rest = a :: s)
    (h : readMark tokens? a c = (.ok (some t), stop)) : Occupies c t stop := by
  rw [readMark_eq] at h
  -- the character by itself, whether it is a parenthesis or not
  have hmark (h : readPunctuation a c = (.ok (some t), stop)) : Occupies c t stop := by
    unfold readPunctuation at h
    split at h
    · rename_i ha
      exact .found h (List.cons_ne_nil _ _) (.step hc) fun _ => .punctuation ha
    · cases h
  by_cases ha : (a == '(') = true
  · rw [if_pos ha] at h
    cases harray : readArray? tokens? c with
    | none =>
      rw [harray] at h
      exact hmark h
    | some o =>
      obtain ⟨v, r, ts, items, hsplit, hts, hitems, rfl⟩ := readArray?_eq_some hc harray
      rw [harray] at h
      cases h
      obtain rfl := eq_of_arrayItems? hitems
      obtain rfl := eq_of_beq ha
      have hrest : c.rest = '(' :: (v ++ [')']) ++ r := by
        rw [hc, ← Written.append_of_splitArray? hsplit]
        simp
      exact ⟨.array, _, List.cons_ne_nil _ _, .moveTo hrest, .array hts, rfl⟩
  · rw [if_neg ha] at h
    exact hmark h

/-! ## One token -/

/-- A character that begins a text in quotes is the quote. -/
theorem eq_char_of_ofChar? (h : Quote.ofChar? a = some q) : a = q.char := by
  unfold Quote.ofChar? at h
  split at h
  · cases h
    rfl
  · cases h
    rfl
  · cases h
    rfl
  · cases h

/-- Every token that is read is spelled by the text that reading has passed, and has its place
there. -/
theorem readHere_occupies (hc : c.rest = a :: s)
    (h : readHere tokens? ao a c = (.ok (some t), stop)) : Occupies c t stop := by
  unfold readHere at h
  -- the kinds of tokens in their order
  split at h
  · rename_i hpath
    have ha := isPathChar_of_isAtPath hc hpath
    exact .found h (by simp [Cursor.takeWhile, hc, ha]) (.takeWhile isPathChar c) fun _ => .bare
  split at h
  · rename_i q hq
    exact readText_occupies (by rw [hc, eq_char_of_ofChar? hq]) h
  split at h
  · rename_i hdash
    exact readDashed_occupies (by rw [hc, (isAtDash_cases hc hdash).1]) h
  split at h
  · rename_i hdigit
    exact readNumber_occupies false (.refl c) (by rw [hc]; exact hdigit) h
  split at h
  · exact readOperator_occupies h
  split at h
  · rename_i hdollar
    exact readReference_occupies (by rw [hc, eq_of_beq hdollar]) h
  split at h
  · rename_i hname
    exact readWord_occupies hc (Text.isNameChar_of_isNameStart hname) h
  · exact readMark_occupies hc h

end Lexer

end CommandLanguage
