import CommandLanguage.Proofs.Token.Lexes

/-!
# Tokens do not depend on where a text stands

Two cursors are `Cursor.Abreast` if the same text is ahead of them, and the characters before them
are the same or both of a kind after which every token can begin. What is read from two such cursors
is the same up to the places of tokens: `readToken_abreast`.

Only paths and dashes look at the character before them. All other readers look ahead, so that for
them it is enough to follow the cursors: a step, a move and what is taken of a kind keep them abreast.
-/

namespace CommandLanguage

/-! ## The parts of a token -/

/-- Where the next token begins. -/
def Cursor.toToken (c : Cursor) : Cursor := c.moveTo (Lexer.dropBlanks c.rest)

namespace Lexer

/-- The digits behind a point, if a point and a digit come next. -/
def fraction (c : Cursor) : List Char × Cursor :=
  match c.rest with
  | '.' :: d :: _ => if d.isDigit then c.step.takeWhile Char.isDigit else ([], c)
  | _ => ([], c)

/-- The lexeme of a number with the given digits before and behind the point. -/
def numberLexeme (negative : Bool) (whole fraction : List Char) : Lexeme :=
  let n := Decimal.ofDigits whole fraction 0
  .number (if negative then -n else n)

/-- A number in two parts, so that something can be said of its fraction alone. Whether there is one
depends on two characters, a point and the digit behind it. -/
theorem readNumber_eq (negative : Bool) (start c : Cursor) :
    readNumber negative start c =
      found (numberLexeme negative (c.takeWhile Char.isDigit).1
        (fraction (c.takeWhile Char.isDigit).2).1) start (fraction (c.takeWhile Char.isDigit).2).2 :=
  rfl

/-- Reads an array literal or a punctuation character. -/
def readMark (inner : List Char → Option (List Token)) (a : Char) (c : Cursor) : Outcome :=
  match if a == '(' then readArray? inner c else none with
  | some outcome => outcome
  | none =>
    if Lexeme.isPunctuation a then found (.punctuation a) c c.step
    else failed (.strayCharacter a) c c

/-- Reads a token that begins with the next character. -/
def readHere (inner : List Char → Option (List Token)) (afterOperand : Bool) (a : Char)
    (c : Cursor) : Outcome :=
  if isAtPath afterOperand c then
    found (.text (String.ofList (c.takeWhile isPathChar).1) .bare) c (c.takeWhile isPathChar).2
  else
    match Quote.ofChar? a with
    | some q => readText q c
    | none =>
      if isAtDash c then readDashed c
      else if a.isDigit then readNumber false c c
      else if Operator.isOperatorChar a then
        match Operator.longest? c.rest with
        | some o => found (.operator o) c (c.skip o.spelling.length)
        | none => failed (.strayCharacter a) c c
      else if a == '$' then readReference c
      else if Text.isNameStart a then readWord c
      else readMark inner a c

/-- A token is read from where it begins. The blanks before it are gone then, and the first
character decides what kind of token it is. -/
theorem readToken_eq (inner : List Char → Option (List Token)) (afterOperand : Bool) (c : Cursor) :
    readToken inner afterOperand c =
      match c.toToken.rest with
      | [] => (.ok none, c.toToken)
      | a :: _ => readHere inner afterOperand a c.toToken :=
  rfl

/-! ## Cursors abreast -/

/-- Whether any token can begin after the character. A path or a `-` that belongs to a number begin
only behind some characters, and these are among them. -/
def isFresh (c : Char) : Bool := Text.isBlank c || c == ';' || c == '('

end Lexer

namespace Cursor

open Lexer (isFresh)

/-- The same text is ahead of two cursors, and what is before them makes no difference to it. They
may stand in different texts, at different places. -/
structure Abreast (c d : Cursor) : Prop where
  /-- the characters ahead -/
  rest : c.rest = d.rest
  /-- the character before them -/
  before : c.before? = d.before? ∨ c.before?.all isFresh = true ∧ d.before?.all isFresh = true

namespace Abreast

variable {c d : Cursor}

theorem symm (h : Abreast c d) : Abreast d c := ⟨h.rest.symm, h.before.imp Eq.symm And.symm⟩

/-- A step takes the same character from both, and that character is then before both. -/
theorem step (h : Abreast c d) : Abreast c.step d.step := by
  obtain ⟨b, r, p⟩ := c
  obtain ⟨b', r', p'⟩ := d
  obtain rfl : r = r' := h.rest
  cases r with
  | nil => exact h
  | cons a r => exact ⟨rfl, .inl rfl⟩

/-- So do several steps. -/
theorem skip (h : Abreast c d) (n : Nat) : Abreast (c.skip n) (d.skip n) := by
  induction n generalizing c d with
  | zero => exact h
  | succ n ih => exact ih h.step

/-- To move to a rest of the text is to pass as much on both sides. -/
theorem moveTo (h : Abreast c d) (r : List Char) : Abreast (c.moveTo r) (d.moveTo r) := by
  rw [Cursor.moveTo, Cursor.moveTo, h.rest]
  exact h.skip _

/-- What is taken of a kind is the same, and the cursors behind it are abreast again. If nothing is
taken, they have not moved. -/
theorem takeWhile (h : Abreast c d) (kind : Char → Bool) :
    (c.takeWhile kind).1 = (d.takeWhile kind).1 ∧
      Abreast (c.takeWhile kind).2 (d.takeWhile kind).2 := by
  rw [Cursor.takeWhile, Cursor.takeWhile, h.rest]
  exact ⟨rfl, h.moveTo _⟩

end Abreast

end Cursor

namespace Lexer

open Cursor (Abreast)

variable {inner : List Char → Option (List Token)} {c d : Cursor}

/-- The same was read, in places that may differ, and the same is left. A fault may be another one
on either side, as its place is part of it. -/
inductive ReadsAlike : Outcome → Outcome → Prop where
  /-- the same token -/
  | token {t u : Token} {c d : Cursor} (same : t.unplaced = u.unplaced) (stops : Abreast c d) :
    ReadsAlike (.ok (some t), c) (.ok (some u), d)
  /-- no token -/
  | none {c d : Cursor} (stops : Abreast c d) : ReadsAlike (.ok none, c) (.ok none, d)
  /-- a fault -/
  | fault (f g : LexFault) (c d : Cursor) : ReadsAlike (.error f, c) (.error g, d)

/-- Any token can begin after blanks, semicolons and opening parentheses. -/
theorem all_of_isFresh {kind : Char → Bool} {b? : Option Char} (h : b?.all isFresh = true)
    (hblank : ∀ b, Text.isBlank b = true → kind b = true) (hsemicolon : kind ';' = true)
    (hopen : kind '(' = true) : b?.all kind = true := by
  cases b? with
  | none => rfl
  | some b =>
    simp only [Option.all_some, isFresh, Bool.or_eq_true, beq_iff_eq] at h ⊢
    rcases h with (hb | rfl) | rfl
    · exact hblank b hb
    · exact hsemicolon
    · exact hopen

/-- A path begins at both cursors, or at none of them. It is asked whether the character before is
one of a few, and characters behind which any token begins are of these. -/
theorem isAtPath_abreast (h : Abreast c d) (afterOperand : Bool) :
    isAtPath afterOperand c = isAtPath afterOperand d := by
  -- behind a fresh character a path may begin
  have hfresh {b? : Option Char} (hb : b?.all isFresh = true) :
      (b?.all fun b => Text.isBlank b || "(;,".toList.contains b) = true :=
    all_of_isFresh hb (fun b hb => by simp [hb]) rfl rfl
  unfold isAtPath
  rw [h.rest]
  rcases h.before with hb | ⟨hc, hd⟩
  · rw [hb]
  · rw [hfresh hc, hfresh hd]

/-- A dash that belongs to a token begins at both cursors, or at none of them. -/
theorem isAtDash_abreast (h : Abreast c d) : isAtDash c = isAtDash d := by
  -- behind a fresh character a dash may belong to a token
  have hfresh {b? : Option Char} (hb : b?.all isFresh = true) :
      (b?.all fun b => Text.isBlank b || "(;,\x7b[".toList.contains b ||
        Operator.isOperatorChar b) = true :=
    all_of_isFresh hb (fun b hb => by simp [hb]) rfl rfl
  unfold isAtDash
  rw [h.rest]
  rcases h.before with hb | ⟨hc, hd⟩
  · rw [hb]
  · rw [hfresh hc, hfresh hd]

/-- A lexeme that is found is the same token in two places. -/
theorem found_abreast {l : Lexeme} {start start' : Cursor} (h : Abreast c d) :
    ReadsAlike (found l start c) (found l start' d) := .token rfl h

/-- A text in quotes is split at the same quote, or has no end on either side. -/
theorem readText_abreast (h : Abreast c d) (q : Quote) : ReadsAlike (readText q c) (readText q d) := by
  unfold readText
  rw [h.rest]
  cases splitText? q (d.rest.drop 1) with
  | some r => exact found_abreast (h.moveTo _)
  | none => exact .fault _ _ _ _

/-- Digits behind a point are the same on both sides. -/
theorem fraction_abreast (h : Abreast c d) :
    (fraction c).1 = (fraction d).1 ∧ Abreast (fraction c).2 (fraction d).2 := by
  unfold fraction
  rw [h.rest]
  split
  · split
    · exact h.step.takeWhile Char.isDigit
    · exact ⟨rfl, h⟩
  · exact ⟨rfl, h⟩

/-- A number is its digits, wherever it begins. -/
theorem readNumber_abreast (h : Abreast c d) (negative : Bool) (start start' : Cursor) :
    ReadsAlike (readNumber negative start c) (readNumber negative start' d) := by
  obtain ⟨hwhole, hstop⟩ := h.takeWhile Char.isDigit
  obtain ⟨hfraction, hend⟩ := fraction_abreast hstop
  rw [readNumber_eq, readNumber_eq, hwhole, hfraction]
  exact found_abreast hend

/-- Whether an index follows a name is told by what is ahead. -/
theorem readIndex_abreast (h : Abreast c d) (name : List Char) (deref : Bool) (start start' : Cursor) :
    ReadsAlike (readIndex name deref start c) (readIndex name deref start' d) := by
  unfold readIndex
  rw [h.rest]
  split
  · split
    · exact found_abreast (h.moveTo _)
    · exact .fault _ _ _ _
  · exact found_abreast h

/-- A name behind a `$`, or a fault for want of one. -/
theorem readReference_abreast (h : Abreast c d) : ReadsAlike (readReference c) (readReference d) := by
  obtain ⟨hname, hstop⟩ := h.step.takeWhile Text.isNameChar
  unfold readReference
  dsimp only
  rw [hname]
  split
  · exact .fault _ _ _ _
  · exact readIndex_abreast hstop _ _ _ _

/-- A word is told by its characters only. -/
theorem readWord_abreast (h : Abreast c d) : ReadsAlike (readWord c) (readWord d) := by
  obtain ⟨hname, hstop⟩ := h.takeWhile Text.isNameChar
  unfold readWord
  dsimp only
  rw [hname]
  split
  · exact found_abreast hstop
  · exact readIndex_abreast hstop _ _ _ _

/-- Behind the dash a number or the name of an option follows, which is told by what is ahead. -/
theorem readDashed_abreast (h : Abreast c d) : ReadsAlike (readDashed c) (readDashed d) := by
  obtain ⟨hword, hstop⟩ := h.step.takeWhile isFlagChar
  unfold readDashed
  dsimp only
  rw [h.step.rest, hword]
  split
  · exact readNumber_abreast h.step _ _ _
  · exact found_abreast hstop

/-- An array literal begins at both cursors, or at none of them. -/
theorem readArray?_abreast (h : Abreast c d) :
    readArray? inner c = none ∧ readArray? inner d = none ∨
      ∃ o o', readArray? inner c = some o ∧ readArray? inner d = some o' ∧ ReadsAlike o o' := by
  unfold readArray?
  rw [h.rest]
  -- no end is found, or no tokens between, or no items; the literal is found in no other case
  cases splitArray? none (d.rest.drop 1) with
  | none => exact .inl ⟨rfl, rfl⟩
  | some r =>
    cases hinner : inner r.1 with
    | none => exact .inl ⟨by simp [hinner], by simp [hinner]⟩
    | some ts =>
      cases hitems : arrayItems? ts with
      | none => exact .inl ⟨by simp [hinner, hitems], by simp [hinner, hitems]⟩
      | some items =>
        refine .inr ⟨_, _, by simp [hinner, hitems]; rfl, by simp [hinner, hitems]; rfl, ?_⟩
        exact .token rfl (h.moveTo _)

/-- An array literal or a punctuation character. -/
theorem readMark_abreast (h : Abreast c d) (a : Char) :
    ReadsAlike (readMark inner a c) (readMark inner a d) := by
  have hmark : ReadsAlike
      (if Lexeme.isPunctuation a then found (.punctuation a) c c.step
        else failed (.strayCharacter a) c c)
      (if Lexeme.isPunctuation a then found (.punctuation a) d d.step
        else failed (.strayCharacter a) d d) := by
    split
    · exact found_abreast h.step
    · exact .fault _ _ _ _
  unfold readMark
  by_cases ha : (a == '(') = true
  · rw [if_pos ha, if_pos ha]
    rcases @readArray?_abreast inner c d h with ⟨hc, hd⟩ | ⟨o, o', hc, hd, halike⟩
    · rw [hc, hd]
      exact hmark
    · rw [hc, hd]
      exact halike
  · rw [if_neg ha, if_neg ha]
    exact hmark

theorem readHere_abreast (h : Abreast c d) (afterOperand : Bool) (a : Char) :
    ReadsAlike (readHere inner afterOperand a c) (readHere inner afterOperand a d) := by
  unfold readHere
  rw [isAtPath_abreast h, isAtDash_abreast h, h.rest]
  -- the tests in their order; the first and the third look at the character before
  split
  · obtain ⟨hpath, hstop⟩ := h.takeWhile isPathChar
    rw [hpath]
    exact found_abreast hstop
  split
  · exact readText_abreast h _
  split
  · exact readDashed_abreast h
  split
  · exact readNumber_abreast h _ _ _
  split
  · split
    · exact found_abreast (h.skip _)
    · exact .fault _ _ _ _
  split
  · exact readReference_abreast h
  split
  · exact readWord_abreast h
  · exact readMark_abreast h a

/-- **What is read from two cursors abreast is the same**, up to the places of tokens. -/
theorem readToken_abreast (h : Abreast c.toToken d.toToken) (afterOperand : Bool) :
    ReadsAlike (readToken inner afterOperand c) (readToken inner afterOperand d) := by
  rw [readToken_eq, readToken_eq, h.rest]
  split
  · exact .none h
  · exact readHere_abreast h _ _

end Lexer

end CommandLanguage
