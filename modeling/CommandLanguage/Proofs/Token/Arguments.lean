import CommandLanguage.Proofs.Grammar.Term
import CommandLanguage.Proofs.Token.Lexes

/-!
# Arguments as they are written

A `Written` argument is a word, a reference, a number or a text between quotes. Several of them are
written with blanks before them (`blankText`) or with commas between them (`commaText`), and have
the same tokens either way, up to commas.

Between parentheses, arguments with commas can be an array literal, which is a single token. Whether
they are (`Written.IsArray`) is a matter of their number, and of the search for the closing
parenthesis, to which a quote after a backslash is a quote like any other. If the search ends within
a text, no tokens are found, and the opening parenthesis stands for itself.

An argument carries the proofs that it is well formed: that a word is not reserved, that digits are
digits, and that a text does not end before its quote does. So the lemmas have no hypotheses on them.
-/

namespace CommandLanguage

open Grammar (Atom Term)
open Lexer

namespace Grammar.Atom

/-- What a word stands for that is not reserved. -/
def ofWord (word : String) : Atom :=
  if word == "true" then .boolean true else if word == "false" then .boolean false else .word word

/-- What a text between quotes stands for. -/
def ofQuoted (q : Quote) (value : List Char) : Atom :=
  if q == .double && Braces.isParameterWord value then .parameter (String.ofList value)
  else if q == .double && Braces.isBraceWord value then .braces (String.ofList value)
  else .text (String.ofList value) (.quoted q)

/-- The token of a word that is not reserved is a truth value or a name. -/
theorem token_ofWord {word : String} (h : Lexeme.isKeyword word = false) :
    (ofWord word).token = .of (wordLexeme word) := by
  unfold ofWord wordLexeme wordLexeme?
  rw [h]
  split
  · rfl
  · split <;> rfl

/-- The token of a text in quotes, which between double quotes may be a reference or words from
braces. -/
theorem token_ofQuoted (q : Quote) (value : List Char) :
    (ofQuoted q value).token = .of (quotedLexeme q value) := by
  unfold ofQuoted quotedLexeme
  split
  · rfl
  · split <;> rfl

end Grammar.Atom

/-- An argument as it is written. The fields say what has to be so for it to be read back: a name
that is not reserved, digits, or a text in which the closing quote is escaped. -/
inductive Written where
  /-- a word that is not reserved -/
  | word (n : Reference.Name) (free : Lexeme.isKeyword (String.ofList n.text) = false)
  /-- a `$` with a name, or with other characters that names can hold -/
  | reference (name : List Char) (ne_nil : name ≠ [])
      (isNameChar : ∀ c ∈ name, Text.isNameChar c = true)
  /-- digits, with a point and more digits after them or without -/
  | number (whole fraction : List Char) (ne_nil : whole ≠ [])
      (whole_digits : ∀ c ∈ whole, c.isDigit = true)
      (fraction_digits : ∀ c ∈ fraction, c.isDigit = true)
  /-- a text between quotes, on one line -/
  | quoted (q : Quote) (text : List Char) (holds : q.Holds text)

namespace Written

/-- The characters of an argument. -/
def text : Written → List Char
  | word n _ => n.text
  | reference name _ _ => '$' :: name
  | number whole fraction _ _ _ => numberText whole fraction
  | quoted q text _ => q.enclose text

/-- What an argument stands for. -/
def atom : Written → Atom
  | word n _ => .ofWord (String.ofList n.text)
  | reference name _ _ => .reference (String.ofList name)
  | number whole fraction _ _ _ => .number (Decimal.ofDigits whole fraction 0)
  | quoted q text _ => .ofQuoted q (unescaped q text)

/-- The token of an argument. -/
def token (a : Written) : Token := a.atom.token

/-- The expression that an argument stands for. -/
def expr (a : Written) : Expr := a.atom.expr

/-- Arguments with blanks before them. -/
def blankText (as : List Written) : List Char := as.flatMap fun a => ' ' :: a.text

/-- Arguments with commas between them. -/
def commaText : List Written → List Char
  | [] => []
  | [a] => a.text
  | a :: as => a.text ++ ',' :: ' ' :: commaText as

/-- The tokens of arguments with commas between them. -/
def commaTokens (as : List Written) : List Token := Term.listTokens (as.map fun a => .atom a.atom)

/-- What holds of atoms of these kinds holds of what an argument stands for. An argument is none of
the other kinds, which begin with a name and go on behind it. -/
theorem atom_cases {P : Atom → Prop} (word : ∀ w, P (.word w)) (boolean : ∀ b, P (.boolean b))
    (reference : ∀ n, P (.reference n)) (number : ∀ n, P (.number n)) (text : ∀ t l, P (.text t l))
    (braces : ∀ r, P (.braces r)) (parameter : ∀ r, P (.parameter r)) (a : Written) :
    P a.atom := by
  cases a with
  | word n free =>
    simp only [atom, Atom.ofWord]
    split
    · exact boolean true
    · split
      · exact boolean false
      · exact word _
  | reference name _ _ => exact reference _
  | number whole fraction _ _ _ => exact number _
  | quoted q value holds =>
    simp only [atom, Atom.ofQuoted]
    split
    · exact parameter _
    · split
      · exact braces _
      · exact text _ _

variable {inner : List Char → Option (List Token)} {a : Written} {as : List Written}
  {r : List Char} {ts : List Token}

/-! ## Their tokens -/

/-- An argument is one token, wherever it stands, if an end follows. A text between quotes would not
need one, but the other kinds do. -/
theorem gives (a : Written) (hr : isEnd r = true) : Gives inner (a.text ++ r) a.token r := by
  cases a with
  | word n free =>
    rw [token, atom, Atom.token_ofWord free]
    exact .word n hr
  | reference name ne_nil isNameChar => exact .reference ne_nil isNameChar hr
  | number whole fraction ne_nil hwhole hfraction => exact .number ne_nil hwhole hfraction hr
  | quoted q text holds =>
    rw [token, atom, Atom.token_ofQuoted]
    exact .quoted holds

/-- Arguments with blanks before them have their tokens, one by one. -/
theorem lexes_blankText (hr : isEnd r = true) (h : Lexes inner r ts) :
    Lexes inner (blankText as ++ r) (as.map token ++ ts) := by
  induction as with
  | nil => exact h
  | cons a as ih =>
    -- what follows is a blank or what follows all arguments, and an end in both cases
    have hend : isEnd (blankText as ++ r) = true := by
      cases as with
      | nil => exact hr
      | cons => rfl
    have hfirst : Gives inner (' ' :: (a.text ++ (blankText as ++ r))) a.token _ :=
      (a.gives hend).blank
    have htext : blankText (a :: as) ++ r = ' ' :: (a.text ++ (blankText as ++ r)) := by
      simp [blankText]
    rw [htext]
    exact .cons hfirst ih

/-- Arguments with commas between them have their tokens and those of the commas. -/
theorem lexes_commaText (hr : isEnd r = true) (h : Lexes inner r ts) :
    Lexes inner (commaText as ++ r) (commaTokens as ++ ts) := by
  induction as with
  | nil => exact h
  | cons a as ih =>
    cases as with
    | nil => exact .cons (a.gives hr) h
    | cons b as =>
      have htext : commaText (a :: b :: as) ++ r =
          a.text ++ ',' :: ' ' :: (commaText (b :: as) ++ r) := by
        simp [commaText]
      obtain ⟨t, us, htokens, -⟩ :=
        Term.exists_listTokens_eq_cons (.atom b.atom) (as.map fun a => .atom a.atom)
      rw [htext]
      refine .cons (a.gives rfl) (.cons (.mark (by decide)) ?_)
      change Lexes inner _ (commaTokens (b :: as) ++ ts)
      change commaTokens (b :: as) = t :: us at htokens
      rw [htokens] at ih ⊢
      exact ih.blank

/-! ## Their characters -/

/-- Whether a character can stand in an argument that is not quoted. -/
def isBare (c : Char) : Bool := Text.isNameChar c || c == '$' || c == '.'

/-- An argument is made of few characters, or it stands in quotes. So a parenthesis in it is in
quotes. -/
theorem bare_or_quoted (a : Written) :
    (∀ c ∈ a.text, isBare c = true) ∨ ∃ q s, Quote.Holds q s ∧ a.text = q.enclose s := by
  have hname {c : Char} (h : Text.isNameChar c = true) : isBare c = true := by simp [isBare, h]
  have hdigit {c : Char} (h : c.isDigit = true) : isBare c = true :=
    hname (Text.isNameChar_of_isDigit h)
  -- a number has a point at most, and a reference its `$`
  cases a with
  | word n free => exact .inl fun c hc => hname (n.isNameChar_of_mem hc)
  | reference name ne_nil isNameChar =>
    exact .inl (List.forall_mem_cons.2 ⟨rfl, fun c hc => hname (isNameChar c hc)⟩)
  | number whole fraction ne_nil hwhole hfraction =>
    refine .inl fun c hc => ?_
    rcases mem_numberText hc with hc | rfl | hc
    · exact hdigit (hwhole c hc)
    · rfl
    · exact hdigit (hfraction c hc)
  | quoted q text holds => exact .inr ⟨q, text, holds, rfl⟩

/-- Only between quotes there can be a parenthesis, so that a text is cut off before it. Then it has
no closing quote, and reading it is a fault. -/
theorem fails_of_cut {u v : List Char} (h : u ++ ')' :: v = a.text) : Fails inner u := by
  rcases a.bare_or_quoted with hbare | ⟨q, s, holds, htext⟩
  · cases hbare ')' (by simp [← h])
  · rw [htext] at h
    cases u with
    | nil =>
      have hc : ')' = q.char := (List.cons.inj h).1
      cases q <;> cases hc
    | cons c u =>
      obtain ⟨rfl, hcut⟩ := List.cons.inj h
      exact .quoted holds hcut (List.cons_ne_nil _ _)

/-- Of arguments with commas, one is cut off, so that reading what is before the cut ends there. A
parenthesis stands within an argument only if that is quoted. -/
theorem fails_of_commaText_cut {u v : List Char} (h : u ++ ')' :: v = commaText as) :
    Fails inner u := by
  induction as generalizing u with
  | nil => simp [commaText] at h
  | cons a as ih =>
    cases as with
    | nil => exact fails_of_cut h
    | cons b as =>
      rcases List.append_eq_append_iff.1 h with ⟨w, ha, hw⟩ | ⟨w, hu, hw⟩
      -- the first argument is the one that is cut off, unless its comma is read before the cut
      · cases w with
        | nil => cases hw
        | cons c w =>
          obtain ⟨rfl, -⟩ := List.cons.inj hw
          exact fails_of_cut ha.symm
      · -- the comma and the blank behind it are no parentheses, so the cut is in what follows them
        match w with
        | [] => cases hw
        | [c] => cases hw
        | c :: d :: w =>
          simp only [List.cons_append, List.cons.injEq] at hw
          obtain ⟨rfl, rfl, hrest⟩ := hw
          rw [hu]
          exact .cons (a.gives rfl) (.cons (.mark (by decide)) (ih hrest.symm).blank)

/-! ## Array literals -/

/-- The search for the end of an array literal stops before a parenthesis. -/
theorem append_of_splitArray? {within : Option Quote} {s v : List Char}
    (h : splitArray? within s = some (v, r)) : v ++ ')' :: r = s := by
  induction s generalizing within v with
  | nil => cases h
  | cons c s ih =>
    -- a character ends the search in vain, or closes the literal, or is passed
    rcases splitArray?_cons_cases within c with hfail | ⟨rfl, rfl, hclose⟩ | ⟨within', hpass⟩
    · rw [hfail] at h
      cases h
    · rw [hclose] at h
      cases h
      rfl
    · rw [hpass] at h
      obtain ⟨⟨v', r'⟩, hsplit, heq⟩ := Option.map_eq_some_iff.1 h
      obtain ⟨rfl, rfl⟩ := Prod.mk.inj heq
      rw [List.cons_append, ih hsplit]

/-- Where the search ends: behind the arguments, or within one of them. -/
theorem eq_or_fails_of_splitArray? {v : List Char}
    (h : splitArray? none (commaText as ++ [')', ';']) = some (v, r)) :
    (v = commaText as ∧ r = [';']) ∨ ∀ inner, Fails inner v := by
  have happend := append_of_splitArray? h
  -- the parenthesis that was found is one of the arguments, or the last one
  rcases List.append_eq_append_iff.1 happend with ⟨w, hcomma, hw⟩ | ⟨w, hv, hw⟩
  · cases w with
    | nil =>
      simp only [List.append_nil, List.nil_append, List.cons.injEq, true_and] at hcomma hw
      exact .inl ⟨hcomma.symm, hw⟩
    | cons c w =>
      simp only [List.cons_append, List.cons.injEq] at hw
      obtain ⟨rfl, -⟩ := hw
      exact .inr fun inner => fails_of_commaText_cut hcomma.symm
  · match w with
    | [] =>
      simp only [List.append_nil, List.nil_append, List.cons.injEq, true_and] at hv hw
      exact .inl ⟨hv, hw.symm⟩
    | [c] => simp at hw
    | c :: d :: w => simp at hw

/-- Whether arguments between parentheses are an array literal: there is more than one, and the
search for its end finds the parenthesis behind them. -/
def IsArray (as : List Written) : Prop :=
  as.length ≠ 1 ∧ splitArray? none (commaText as ++ [')', ';']) = some (commaText as, [';'])

instance (as : List Written) : Decidable (IsArray as) :=
  inferInstanceAs (Decidable (_ ∧ _))

/-- Nothing but its argument is left of an argument and a comma. -/
theorem filter_commaTokens (as : List Written) :
    (commaTokens as).filter (!·.isPunctuation ',') = as.map token := by
  induction as with
  | nil => rfl
  | cons a as ih =>
    have ha : a.token.isPunctuation ',' = false :=
      Term.not_isPunctuation_of_begins (Grammar.begins_of_value a.atom.value_eq) (by decide)
    cases as with
    | nil =>
      change [a.token].filter _ = [a.token]
      simp [ha]
    | cons b as =>
      change (a.token :: .mark ',' :: commaTokens (b :: as)).filter _ = _
      rw [List.filter_cons, List.filter_cons, ih, ha]
      rfl

/-- A token for an argument is an item of an array literal. -/
theorem isItem_of_alike {t : Token} : t.unplaced = a.token.unplaced →
    (match t with
      | .plain (.operator _) _ | .plain (.keyword _) _ | .plain (.punctuation _) _ => false
      | _ => true) = true := by
  intro h
  obtain ⟨self, hvalue⟩ : ∃ self, Grammar.value self a.token = .ok a.expr := ⟨_, a.atom.value_eq⟩
  generalize a.token = u at h hvalue
  rcases t with ⟨l, p⟩ | ⟨items, p⟩
  · rcases u with ⟨l', p'⟩ | ⟨items, p'⟩
    · cases h
      cases l with
      | operator _ | keyword _ | punctuation _ => cases hvalue
      | _ => rfl
    · cases h
  · rfl

/-- More than one argument, or none, are the items of an array literal. What `innerTokens?` reads of
them is known up to places, and that suffices to tell the items. -/
theorem exists_items (as : List Written) (depth : Nat) :
    ∃ us, innerTokens? (depth + 1) (commaText as) = some us ∧
      if as.length = 1 then arrayItems? us = none
      else ∃ items, arrayItems? us = some items ∧ Token.Alike items (as.map token) := by
  -- the text between the parentheses has the tokens of the arguments and of the commas
  have hlexes : Lexes (innerTokens? depth) (commaText as ++ []) (commaTokens as ++ []) :=
    lexes_commaText rfl .nil
  rw [List.append_nil, List.append_nil] at hlexes
  obtain ⟨us, hinner, hus⟩ := hlexes.exists_innerTokens?
  have hitems := hus.filter_isPunctuation ','
  rw [filter_commaTokens] at hitems
  have hlength := hitems.length_eq
  rw [List.length_map] at hlength
  refine ⟨us, hinner, ?_⟩
  -- a single token without commas is no array literal; otherwise each token has to be an item
  unfold arrayItems?
  split
  next hone => simp [hlength, hone]
  next hmany =>
    refine ⟨_, if_pos ?_, hitems⟩
    rw [Bool.and_eq_true, List.all_eq_true]
    refine ⟨fun t ht => ?_, by simpa [hlength] using hmany⟩
    have hmem : t.unplaced ∈ (as.map token).map Token.unplaced := by
      rw [← Token.unplacedList_eq_map, ← hitems, Token.unplacedList_eq_map]
      exact List.mem_map_of_mem ht
    rw [List.map_map] at hmem
    obtain ⟨a, -, ha⟩ := List.mem_map.1 hmem
    exact isItem_of_alike ha.symm

/-- An array literal is one token, whose items are the tokens of the arguments. This is what becomes
of a call with parentheses, unless it has one argument only. -/
theorem gives_array {depth : Nat} (h : IsArray as) :
    Gives (innerTokens? (depth + 1)) ('(' :: (commaText as ++ [')', ';']))
      (.array (as.map token) default) [';'] where
  read afterOperand c hc := by
    obtain ⟨us, hinner, hitems⟩ := exists_items as depth
    rw [if_neg h.1] at hitems
    obtain ⟨items, hsome, hitems⟩ := hitems
    have hread : readArray? (innerTokens? (depth + 1)) c = some (.ok (some (.array items
        ⟨c.position, (c.moveTo [';']).position⟩)), c.moveTo [';']) := by
      simp [readArray?, hc, h.2, hinner, hsome]
    rw [readToken_parenthesis hc, hread]
    refine ⟨_, _, rfl, ?_, rest_moveTo (t := '(' :: (commaText as ++ [')'])) (by simp [hc])⟩
    rw [Token.unplaced, Token.unplaced, show Token.unplacedList items = _ from hitems]
  shorter := by simp

/-- What is no array literal begins with a parenthesis for itself. The search may fail, or find one
argument only, or end within an argument, and then reading what it has found is a fault. -/
theorem gives_parenthesis {depth : Nat} (h : ¬IsArray as) :
    Gives (innerTokens? (depth + 1)) ('(' :: (commaText as ++ [')', ';'])) (.mark '(')
      (commaText as ++ [')', ';']) := by
  refine .parenthesis fun c hc => ?_
  obtain ⟨us, hinner, hitems⟩ := exists_items as depth
  cases hsplit : splitArray? none (commaText as ++ [')', ';']) with
  | none => simp [readArray?, hc, hsplit]
  | some p =>
    obtain ⟨v, r⟩ := p
    rcases eq_or_fails_of_splitArray? hsplit with ⟨rfl, rfl⟩ | hfails
    -- the whole list was found, so that it has a single argument
    · have hone : as.length = 1 := Decidable.byContradiction fun hmany => h ⟨hmany, hsplit⟩
      rw [if_pos hone] at hitems
      simp [readArray?, hc, hsplit, hinner, hitems]
    · simp [readArray?, hc, hsplit, (hfails _).innerTokens?_eq_none]

end Written

end CommandLanguage
