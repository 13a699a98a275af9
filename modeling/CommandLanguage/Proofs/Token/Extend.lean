import CommandLanguage.Proofs.Token.Abreast

/-!
# More text behind a token

A token that is read from a text is read from a longer one, too, if what is behind the text begins
with a `;` or a blank: neither is part of any token but of those that tell by themselves where
they end (`readToken_settles`). Only for a `(` more text can make a difference, since the parenthesis
that makes it an array literal may be in it.

Tokens end for one of two reasons. A text in quotes, an index and an array literal have a character
that closes them, and what is behind it does not matter (`splitText?_cut` and the two lemmas after
it). Names, numbers, paths and operators go on as long as characters of a kind come, and there it is
enough that no such kind has a blank or a `;` in it, which is what `isFilled` is about.

With each token it is told where its text ends, in which character. That is used to tell apart what
may follow it: behind a number or a `)`, a `-` is an operator.
-/

namespace CommandLanguage

/-! ## Cursors in a longer text

A text with something behind it has the same characters at the same places up to its end. What a
reader does there is the same as long as it does not look beyond. -/

namespace Cursor

/-- The same place with more text behind what is ahead. Position and the character before it are
kept, so that whatever a reader decides by these it decides in the same way. -/
def extend (e : List Char) (c : Cursor) : Cursor := { c with rest := c.rest ++ e }

variable {c : Cursor} {e r : List Char}

/-- A step takes the first character ahead, if there is one; at the end of the text it would be
taken from what comes behind. -/
theorem step_extend (h : c.rest ≠ []) : (c.extend e).step = c.step.extend e := by
  obtain ⟨b, r, p⟩ := c
  cases r with
  | nil => exact absurd rfl h
  | cons a r => rfl

/-- So do several steps, as long as there are characters ahead to be passed. Beyond the end of the
old text the two cursors part: one stands still, and the other goes on into what was added. -/
theorem skip_extend {n : Nat} (h : n ≤ c.rest.length) :
    (c.extend e).skip n = (c.skip n).extend e := by
  induction n generalizing c with
  | zero => rfl
  | succ n ih =>
    have hne : c.rest ≠ [] := by
      intro hnil
      rw [hnil] at h
      cases h
    have hstep : n ≤ c.step.rest.length := by
      rw [rest_step, List.length_drop]
      omega
    rw [skip, step_extend hne, ih hstep, skip]

/-- To move to a rest of the text is to pass what is in front of it, which is as long with more
behind. -/
theorem moveTo_extend (h : r.length ≤ c.rest.length) :
    (c.extend e).moveTo (r ++ e) = (c.moveTo r).extend e := by
  have hlength : (c.extend e).rest.length - (r ++ e).length = c.rest.length - r.length := by
    simp only [extend, List.length_append]
    omega
  rw [moveTo, hlength, skip_extend (Nat.sub_le _ _), moveTo]

/-- A cursor that moves to a rest of its text has it ahead. Moving counts how many characters to
pass, and for a text that is not a rest the count would mean nothing. -/
theorem rest_moveTo_of_suffix (h : r <:+ c.rest) : (c.moveTo r).rest = r := by
  obtain ⟨w, hw⟩ := h
  exact Lexer.rest_moveTo hw.symm

/-- What is taken of a kind ends where it ended if what is behind begins with another kind. This
covers names, digits and paths, which are the tokens that no character of their own closes. -/
theorem takeWhile_extend {kind : Char → Bool} (he : e.head?.all (!kind ·) = true) :
    (c.extend e).takeWhile kind = ((c.takeWhile kind).1, (c.takeWhile kind).2.extend e) := by
  -- where the text ends and not a character of another kind, the first one behind it is of another
  -- kind
  have hsplit (s : List Char) : (s ++ e).takeWhile kind = s.takeWhile kind ∧
      (s ++ e).dropWhile kind = s.dropWhile kind ++ e := by
    induction s with
    | nil =>
      cases e with
      | nil => exact ⟨rfl, rfl⟩
      | cons a e =>
        have ha : kind a = false := by simpa using he
        simp [ha]
    | cons a s ih =>
      cases ha : kind a <;> simp [ha, ih]
  have hle := (List.dropWhile_sublist (l := c.rest) kind).length_le
  rw [Cursor.takeWhile, Cursor.takeWhile]
  change ((c.rest ++ e).takeWhile kind, (c.extend e).moveTo ((c.rest ++ e).dropWhile kind)) = _
  rw [(hsplit c.rest).1, (hsplit c.rest).2, moveTo_extend hle]

/-- Steps add up. -/
theorem skip_skip (m n : Nat) (c : Cursor) : (c.skip m).skip n = c.skip (m + n) := by
  induction m generalizing c with
  | zero => rw [Nat.zero_add]; rfl
  | succ m ih => rw [skip, ih, Nat.succ_add]; rfl

end Cursor

namespace Lexer

variable {inner : List Char → Option (List Token)} {c stop : Cursor} {e s r : List Char}
  {t : Token}

/-- Whether a character is neither a blank nor a `;`. Only such characters can go on with a word, a
number, a path or an operator that stands at the end of a text. -/
def isFilled (z : Char) : Bool := !Text.isBlank z && z != ';'

/-- Names are made of characters that are neither a blank nor a `;`; the lemmas that follow say the
same of the other kinds of characters that tokens are made of. -/
theorem isFilled_of_isNameChar {z : Char} (h : Text.isNameChar z = true) : isFilled z = true := by
  have hsemicolon : z ≠ ';' := Text.ne_of_kind h (by decide)
  rw [isFilled, Text.isBlank_of_isNameChar h, bne_iff_ne.2 hsemicolon]
  rfl

theorem isFilled_of_isDigit {z : Char} (h : z.isDigit = true) : isFilled z = true :=
  isFilled_of_isNameChar (Text.isNameChar_of_isDigit h)

theorem isFilled_of_isFlagChar {z : Char} (h : isFlagChar z = true) : isFilled z = true := by
  rcases Bool.or_eq_true_iff.1 h with h | h
  · exact isFilled_of_isNameChar h
  · obtain rfl := eq_of_beq h
    decide

theorem isFilled_of_isPathChar {z : Char} (h : isPathChar z = true) : isFilled z = true := by
  have hsemicolon : z ≠ ';' := Text.ne_of_kind h (by decide)
  obtain ⟨hblank, -⟩ := Bool.and_eq_true_iff.1 h
  rw [isFilled, hblank, bne_iff_ne.2 hsemicolon]
  rfl

theorem isFilled_of_isOperatorChar {z : Char} (h : Operator.isOperatorChar z = true) :
    isFilled z = true :=
  have hall : "+-*/%=&|<>!^~".toList.all isFilled = true := by decide
  List.all_eq_true.1 hall z (List.contains_iff_mem.1 h)

/-- A blank or a `;` is of no kind that holds neither. -/
theorem not_of_isFilled {kind : Char → Bool} {z : Char} (hz : isFilled z = false)
    (hkind : ∀ a, kind a = true → isFilled a = true) : kind z = false := by
  refine Bool.eq_false_iff.2 fun h => ?_
  rw [hkind z h] at hz
  cases hz

/-- Whether a text is empty or begins with a blank or a `;`. Put behind another text, it leaves the
last token of that text as it was. -/
def isCut (e : List Char) : Bool := e.head?.all (!isFilled ·)

/-- What makes a cut is its first character alone. -/
theorem isCut_cons {a : Char} : isCut (a :: e) = true ↔ isFilled a = false := by
  simp [isCut]

/-- A cut does not begin with a character of a kind that holds neither blanks nor `;`. With this the
one condition on the text behind serves for all kinds of characters that readers take. -/
theorem not_of_isCut {kind : Char → Bool} (he : isCut e = true)
    (hkind : ∀ a, kind a = true → isFilled a = true) : e.head?.all (!kind ·) = true := by
  cases e with
  | nil => rfl
  | cons a e => simp [not_of_isFilled (isCut_cons.1 he) hkind]

/-! ## The parts of a token -/

/-- Of a text between quotes, what follows the closing quote does not matter. The quotes are found
from the left, and nothing behind the one that closes is looked at. -/
theorem splitText?_cut {q : Quote} {v : List Char} (h : splitText? q s = some (v, r)) :
    ∃ w, s = w ++ q.char :: r ∧ ∀ e, splitText? q (w ++ q.char :: e) = some (v, e) := by
  fun_induction splitText? q s generalizing v r with
  | case1 => cases h
  | case2 c s hc =>
    obtain ⟨rfl, rfl⟩ := Prod.mk.inj (Option.some.inj h)
    exact ⟨[], by rw [eq_of_beq hc]; rfl, fun e => by rw [List.nil_append, splitText?.eq_def]; simp⟩
  | case3 => cases h
  -- a backslash takes the next character with it, so that this one does not close the text
  | case4 c hc hbackslash d s ih =>
    obtain ⟨⟨v', r'⟩, hr, heq⟩ := Option.map_eq_some_iff.1 h
    obtain ⟨rfl, rfl⟩ := Prod.mk.inj heq
    obtain ⟨w, rfl, hw⟩ := ih hr
    exact ⟨c :: d :: w, rfl, fun e => by simp [splitText?, hc, hbackslash, hw]⟩
  | case5 c s hc hbackslash ih =>
    obtain ⟨⟨v', r'⟩, hr, heq⟩ := Option.map_eq_some_iff.1 h
    obtain ⟨rfl, rfl⟩ := Prod.mk.inj heq
    obtain ⟨w, rfl, hw⟩ := ih hr
    refine ⟨c :: w, rfl, fun e => ?_⟩
    rw [List.cons_append, splitText?_plain (by simpa using hc) (by simpa using hbackslash), hw]
    rfl

/-- Of an index, what follows the closing bracket does not matter. The depth counts the brackets
that are open, so the one that closes is settled when it is reached. -/
theorem splitIndex?_cut {depth : Nat} {v : List Char} (h : splitIndex? depth s = some (v, r)) :
    ∃ w, s = w ++ ']' :: r ∧ ∀ e, splitIndex? depth (w ++ ']' :: e) = some (v, e) := by
  fun_induction splitIndex? depth s generalizing v r with
  | case1 => cases h
  | case2 c s hc =>
    obtain ⟨rfl, rfl⟩ := Prod.mk.inj (Option.some.inj h)
    exact ⟨[], by rw [eq_of_beq hc]; rfl, fun e => by simp [splitIndex?]⟩
  | case3 c s hc d ih =>
    obtain ⟨⟨v', r'⟩, hr, heq⟩ := Option.map_eq_some_iff.1 h
    obtain ⟨rfl, rfl⟩ := Prod.mk.inj heq
    obtain ⟨w, rfl, hw⟩ := ih hr
    exact ⟨c :: w, rfl, fun e => by simp [splitIndex?, hc, hw]⟩
  -- any other character leaves the depth as it is, or raises it
  | case4 depth c s hc ih =>
    obtain ⟨⟨v', r'⟩, hr, heq⟩ := Option.map_eq_some_iff.1 h
    obtain ⟨rfl, rfl⟩ := Prod.mk.inj heq
    obtain ⟨w, rfl, hw⟩ := ih hr
    exact ⟨c :: w, rfl, fun e => by simp only [List.cons_append, splitIndex?, hc, hw]; rfl⟩

/-- Of an array literal, what follows the closing parenthesis does not matter. Without such a
parenthesis it does: then the search goes on into the text behind, and may find one there. -/
theorem splitArray?_cut {within : Option Quote} {v : List Char}
    (h : splitArray? within s = some (v, r)) :
    ∃ w, s = w ++ ')' :: r ∧ ∀ e, splitArray? within (w ++ ')' :: e) = some (v, e) := by
  induction s generalizing within v r with
  | nil => cases h
  | cons c s ih =>
    -- a character closes the literal, or it is passed, or there is no end; `within` are the quotes
    -- it is in
    rcases splitArray?_cons_cases within c with hfail | ⟨rfl, rfl, hclose⟩ | ⟨within', hpass⟩
    · rw [hfail] at h
      cases h
    · rw [hclose] at h
      cases h
      exact ⟨[], rfl, hclose⟩
    · rw [hpass] at h
      obtain ⟨⟨v', r'⟩, hr, heq⟩ := Option.map_eq_some_iff.1 h
      obtain ⟨rfl, rfl⟩ := Prod.mk.inj heq
      obtain ⟨w, rfl, hw⟩ := ih hr
      exact ⟨c :: w, rfl, fun e => by rw [List.cons_append, hpass, hw]; rfl⟩

/-! ## The text of a token -/

/-- What is between two cursors ends in the character. It is the last character of a token that
tells whether a text that ends in `;` or in a blank can have the token at its end. -/
def Takes (c : Cursor) (z : Char) (stop : Cursor) : Prop :=
  ∃ w, c.rest = w ++ z :: stop.rest ∧ stop = c.skip (w.length + 1)

namespace Takes

variable {y z : Char} {d : Cursor}

/-- What is in front of a rest of the text is taken when a cursor moves there. -/
theorem moveTo {w : List Char} (h : c.rest = w ++ z :: r) : Takes c z (c.moveTo r) := by
  have happend : c.rest = (w ++ [z]) ++ r := by rw [h, List.append_assoc]; rfl
  have hlength : c.rest.length - r.length = w.length + 1 := by
    rw [happend]
    simp only [List.length_append, List.length_cons, List.length_nil]
    omega
  exact ⟨w, by rw [rest_moveTo happend, h], by rw [Cursor.moveTo, hlength]⟩

/-- One step takes the character that is ahead. -/
theorem step (h : c.rest = z :: s) : Takes c z c.step :=
  ⟨[], by rw [Cursor.rest_step, h]; rfl, rfl⟩

/-- What is taken in two steps ends in the last character of the second. A token of several parts,
such as a name with an index, is put together in this way. -/
theorem trans (h : Takes c y d) (h' : Takes d z stop) : Takes c z stop := by
  obtain ⟨w, hc, rfl⟩ := h
  obtain ⟨w', hd, rfl⟩ := h'
  refine ⟨w ++ y :: w', by rw [hc, hd, List.append_assoc]; rfl, ?_⟩
  rw [Cursor.skip_skip, List.length_append, List.length_cons]
  congr 1
  omega

/-- At least one character is taken. -/
theorem length_le (h : Takes c z stop) : stop.rest.length + 1 ≤ c.rest.length := by
  obtain ⟨w, hc, -⟩ := h
  rw [hc, List.length_append, List.length_cons]
  omega

/-- What is passed before does not matter. -/
theorem skip {n : Nat} (hn : n ≤ c.rest.length) (h : Takes (c.skip n) z stop) : Takes c z stop := by
  obtain ⟨w, hrest, rfl⟩ := h
  -- the characters that are passed first come in front of those that are taken
  rw [Cursor.rest_skip] at hrest
  refine ⟨c.rest.take n ++ w, ?_, ?_⟩
  · rw [List.append_assoc, ← hrest, List.take_append_drop]
  · rw [Cursor.skip_skip, List.length_append, List.length_take, Nat.min_eq_left hn, Nat.add_assoc]

/-- What is taken of a kind ends in a character of the kind. -/
theorem exists_takeWhile {kind : Char → Bool} (h : c.rest = z :: s) (hz : kind z = true) :
    ∃ y, kind y = true ∧ Takes c y (c.takeWhile kind).2 := by
  have hne : c.rest.takeWhile kind ≠ [] := by simp [h, hz]
  refine ⟨(c.rest.takeWhile kind).getLast hne,
    List.all_eq_true.1 List.all_takeWhile _ (List.getLast_mem hne),
    moveTo (w := (c.rest.takeWhile kind).dropLast) ?_⟩
  rw [List.append_cons, List.dropLast_concat_getLast hne, List.takeWhile_append_dropWhile]

end Takes

/-- A token takes up some text, of which the last character is no blank. By that character a number,
a `)` and a `;` can be told from other tokens. -/
def Spans (c : Cursor) (t : Token) (stop : Cursor) : Prop :=
  ∃ z, Takes c z stop ∧ Text.isBlank z = false ∧ (z = ';' → t.isPunctuation ';' = true) ∧
    (isOperand t = true → z.isDigit = true ∨ z = ')')

/-- A lexeme that is neither a number nor punctuation. -/
def isOther : Lexeme → Bool
  | .number _ | .punctuation _ => false
  | _ => true

/-- The text of a token that is neither a number nor punctuation may end in anything but a blank or
`;`. -/
theorem Takes.other {l : Lexeme} {p : Span} {z : Char} (h : Takes c z stop)
    (hl : isOther l = true) (hz : isFilled z = true) : Spans c (.plain l p) stop := by
  have hblank : Text.isBlank z = false := by simpa using (Bool.and_eq_true_iff.1 hz).1
  refine ⟨z, h, hblank, fun h => absurd h (Text.ne_of_kind hz (by decide)), fun hoperand => ?_⟩
  cases l with
  | number n => cases hl
  | punctuation a => cases hl
  | _ => cases hoperand

/-- A number is the only token besides `)` behind which a `-` is an operator, and it ends in a
digit. -/
theorem Takes.digit {z : Char} (h : Takes c z stop) (hz : z.isDigit = true) : Spans c t stop :=
  ⟨z, h, Text.isBlank_of_isNameChar (Text.isNameChar_of_isDigit hz),
    fun h => absurd h (Text.ne_of_kind hz rfl), fun _ => .inl hz⟩

/-! ## Reading in a longer text

Each reader stops at a character that does not belong to its token, or at the end of the text. In
the second case it may go on in the longer text, and so the token may become longer. -/

/-- What is read as a token has the text of the token, and with more text behind it is read, too.
Nothing is said where reading fails or comes to the end of the text, as more text may then change
it. -/
def Settles (e : List Char) (read : Cursor → Outcome) (c : Cursor) : Prop :=
  ∀ t stop, read c = (.ok (some t), stop) →
    Spans c t stop ∧ read (c.extend e) = (.ok (some t), stop.extend e)

namespace Settles

variable {read : Cursor → Outcome}

/-- A lexeme that is found either way, at the same place and with the same text. -/
theorem found {l : Lexeme} (h : read c = found l c stop)
    (hspans : Spans c (.plain l ⟨c.position, stop.position⟩) stop)
    (hextend : read (c.extend e) = Lexer.found l (c.extend e) (stop.extend e)) :
    Settles e read c := by
  intro t stop' hread
  rw [h] at hread
  cases hread
  exact ⟨hspans, hextend⟩

/-- Nothing is found, so that there is nothing to be found again. A text with a fault may well be
read without one when more follows, as a quote that is closed only there. -/
theorem failed {cause : LexFault.Cause} {at_ : Cursor} (h : read c = failed cause at_ stop) :
    Settles e read c := by
  intro t stop' hread
  rw [h] at hread
  cases hread

/-- What is ahead is the same for a test of it. Reading goes through several tests until one of them
holds, and each of them is passed with this lemma. -/
theorem ite {p : Cursor → Bool} {read' : Cursor → Outcome} (hp : p (c.extend e) = p c)
    (h : p c = true → Settles e read c) (h' : p c = false → Settles e read' c) :
    Settles e (fun c => if p c then read c else read' c) c := by
  intro t stop hread
  dsimp only at hread ⊢
  rw [hp]
  cases hc : p c with
  | true =>
    rw [hc, if_pos rfl] at hread
    exact h hc t stop hread
  | false =>
    rw [hc, if_neg Bool.false_ne_true] at hread
    exact h' hc t stop hread

end Settles

/-- What stands in quotes is a text, a parameter or words from braces, and not a number. -/
theorem isOther_quotedLexeme (q : Quote) (v : List Char) : isOther (quotedLexeme q v) = true := by
  unfold quotedLexeme
  split
  · rfl
  · split <;> rfl

/-- A text in quotes ends at the quote that closes it, and that quote is its last character. No
condition on the text behind is needed. -/
theorem readText_settles {q : Quote} {a : Char} (h : c.rest = a :: s) :
    Settles e (readText q) c := by
  cases hsplit : splitText? q s with
  | none => exact .failed (by rw [readText, h, List.drop_one, List.tail_cons, hsplit])
  | some x =>
    obtain ⟨v, r⟩ := x
    obtain ⟨w, rfl, hw⟩ := splitText?_cut hsplit
    have htakes : Takes c q.char (c.moveTo r) := .moveTo (w := a :: w) h
    have hr : (c.moveTo r).rest = r := rest_moveTo (t := a :: w ++ [q.char]) (by simp [h])
    have hle := htakes.length_le
    refine .found (by rw [readText, h, List.drop_one, List.tail_cons, hsplit])
      (htakes.other (isOther_quotedLexeme q v) (by cases q <;> decide)) ?_
    have hdrop : (c.extend e).rest.drop 1 = w ++ q.char :: (r ++ e) := by
      rw [Cursor.extend, h]
      simp
    rw [readText, hdrop, hw]
    refine congrArg (Lexer.found _ _) (Cursor.moveTo_extend ?_)
    rw [hr] at hle
    omega

/-! ### Numbers -/

/-- Digits behind a point. If the text ends at the point, then what comes behind is no digit, so the
point is not taken with more text either. -/
theorem fraction_extend (he : isCut e = true) (c : Cursor) :
    fraction (c.extend e) = ((fraction c).1, (fraction c).2.extend e) := by
  obtain ⟨b, r, p⟩ := c
  have hcut : e.head?.all (!Char.isDigit ·) = true := not_of_isCut he fun _ => isFilled_of_isDigit
  -- the point may be missing, or be the last character, or have a character behind it
  match r with
  | [] =>
    cases e with
    | nil => rfl
    | cons x e =>
      have hx : '.' ≠ x := Text.ne_of_kind (by decide) (isCut_cons.1 he)
      simp [fraction, Cursor.extend, hx.symm]
  | [a] =>
    by_cases ha : a = '.'
    · subst ha
      cases e with
      | nil => rfl
      | cons x e =>
        have hx := not_of_isFilled (isCut_cons.1 he) fun _ => isFilled_of_isDigit
        simp [fraction, Cursor.extend, hx]
    · simp [fraction, Cursor.extend, ha]
  | a :: d :: r =>
    by_cases ha : a = '.'
    · subst ha
      change (if d.isDigit = true then (Cursor.extend e _).step.takeWhile Char.isDigit else _) = _
      rw [Cursor.step_extend (by simp), Cursor.takeWhile_extend hcut]
      simp only [fraction]
      split <;> rfl
    · simp [fraction, Cursor.extend, ha]

/-- There are no digits behind a point, or they are the last that is taken. Either way a number ends
in a digit, also where a point follows that is not its own. -/
theorem fraction_takes (c : Cursor) :
    (fraction c).2 = c ∨ ∃ z, z.isDigit = true ∧ Takes c z (fraction c).2 := by
  obtain ⟨b, r, p⟩ := c
  unfold fraction
  dsimp only
  split
  · rename_i d r
    split
    · rename_i hd
      obtain ⟨z, hz, htakes⟩ :=
        Takes.exists_takeWhile (c := Cursor.step ⟨b, '.' :: d :: r, p⟩) (s := r) rfl hd
      exact .inr ⟨z, hz, .trans (.step (s := d :: r) rfl) htakes⟩
    · exact .inl rfl
  · exact .inl rfl

/-- A number is read as far as its digits go, and these are the same with more text. A point at the
very end stays outside of the number, since the cut behind it is no digit. -/
theorem readNumber_extend (he : isCut e = true) (negative : Bool) (start c : Cursor) :
    readNumber negative (start.extend e) (c.extend e) =
      found (numberLexeme negative (c.takeWhile Char.isDigit).1
        (fraction (c.takeWhile Char.isDigit).2).1) (start.extend e)
        ((fraction (c.takeWhile Char.isDigit).2).2.extend e) := by
  rw [readNumber_eq, Cursor.takeWhile_extend (not_of_isCut he fun _ => isFilled_of_isDigit), fraction_extend he]

/-- The text of a number ends in a digit, of the fraction if there is one and of the whole part
otherwise. -/
theorem number_takes {a : Char} (h : c.rest = a :: s) (ha : a.isDigit = true) :
    ∃ z, z.isDigit = true ∧ Takes c z (fraction (c.takeWhile Char.isDigit).2).2 := by
  obtain ⟨y, hy, hwhole⟩ := Takes.exists_takeWhile h ha
  rcases fraction_takes (c.takeWhile Char.isDigit).2 with hstop | ⟨z, hz, htakes⟩
  · exact ⟨y, hy, by rw [hstop]; exact hwhole⟩
  · exact ⟨z, hz, hwhole.trans htakes⟩

/-- A number without a sign begins at its first digit. -/
theorem readNumber_settles (he : isCut e = true) {a : Char} (h : c.rest = a :: s)
    (ha : a.isDigit = true) : Settles e (fun c => readNumber false c c) c := by
  obtain ⟨z, hz, htakes⟩ := number_takes h ha
  exact .found (readNumber_eq false c c) (htakes.digit hz) (readNumber_extend he _ _ _)

/-- Behind a `-` comes a number or the name of an option, and the character behind it tells
which. -/
theorem readDashed_settles (he : isCut e = true) {a d : Char} (h : c.rest = a :: d :: s)
    (hd : (d.isDigit || Text.isNameStart d) = true) : Settles e readDashed c := by
  have hstep : c.step.rest = d :: s := by rw [Cursor.rest_step, h]; rfl
  have hextend : (c.extend e).step = c.step.extend e :=
    Cursor.step_extend (by rw [h]; exact List.cons_ne_nil _ _)
  have hhead : (c.step.extend e).rest.head? = some d := by
    rw [Cursor.extend, hstep]
    rfl
  have htakes : Takes c a c.step := .step h
  -- the second branch below is that of an option, which is a text
  by_cases hdigit : d.isDigit = true
  · obtain ⟨z, hz, hnumber⟩ := number_takes hstep hdigit
    have hread : readDashed c = readNumber true c c.step := by
      simp only [readDashed, hstep, List.head?_cons, Option.any_some, hdigit, if_true]
    refine .found (hread.trans (readNumber_eq true c c.step)) ((htakes.trans hnumber).digit hz) ?_
    simp only [readDashed, hextend, hhead, Option.any_some, hdigit, if_true]
    exact readNumber_extend he _ _ _
  · rw [Bool.not_eq_true] at hdigit
    rw [hdigit, Bool.false_or] at hd
    have hflag : isFlagChar d = true := by
      rw [isFlagChar, Text.isNameChar_of_isNameStart hd]
      rfl
    obtain ⟨z, hz, hword⟩ := Takes.exists_takeWhile hstep hflag
    have hread : readDashed c = found (.text (String.ofList ('-' :: (c.step.takeWhile isFlagChar).1))
        .bare) c (c.step.takeWhile isFlagChar).2 := by
      simp only [readDashed, hstep, List.head?_cons, Option.any_some, hdigit, Bool.false_eq_true,
        if_false]
    refine .found hread ((htakes.trans hword).other rfl (isFilled_of_isFlagChar hz)) ?_
    have hcut : e.head?.all (!isFlagChar ·) = true := not_of_isCut he fun _ => isFilled_of_isFlagChar
    simp only [readDashed, hextend, hhead, Option.any_some, hdigit, Bool.false_eq_true, if_false,
      Cursor.takeWhile_extend hcut]

/-! ### Names -/

/-- What is read after the name between two cursors. An index ends at its bracket; if there is none,
then a cut does not make one of what comes behind. -/
theorem readIndex_settles (he : isCut e = true) {name : List Char} {deref : Bool}
    {read : Cursor → Outcome} {z : Char} {d : Cursor} (hd : Takes c z d)
    (hz : isFilled z = true) (h : read c = readIndex name deref c d)
    (hextend : read (c.extend e) = readIndex name deref (c.extend e) (d.extend e)) :
    Settles e read c := by
  -- the index is closed in the text itself, or it is a fault and nothing is found
  by_cases hindex : ∃ r, d.rest = '[' :: r
  · obtain ⟨r, hr⟩ := hindex
    cases hsplit : splitIndex? 0 r with
    | none =>
      have hread : readIndex name deref c d = failed .unclosedIndex d (d.moveTo []) := by
        simp only [readIndex, hr, hsplit]
      exact .failed (h.trans hread)
    | some x =>
      obtain ⟨v, r'⟩ := x
      obtain ⟨w, rfl, hw⟩ := splitIndex?_cut hsplit
      have hread : readIndex name deref c d =
          found (.variable (String.ofList name) deref (some (String.ofList v))) c (d.moveTo r') := by
        simp only [readIndex, hr, hsplit]
      refine .found (h.trans hread) ((hd.trans (.moveTo (w := '[' :: w) hr)).other rfl (by decide))
        (hextend.trans ?_)
      have hrest : (d.extend e).rest = '[' :: (w ++ ']' :: (r' ++ e)) := by
        simp [Cursor.extend, hr]
      have hle : r'.length ≤ d.rest.length := by
        simp only [hr, List.length_append, List.length_cons]
        omega
      simp only [readIndex, hrest, hw, Cursor.moveTo_extend hle]
  · have hnone : ∀ r, d.rest ≠ '[' :: r := not_exists.1 hindex
    refine .found (h.trans (readIndex_plain c hnone name deref)) (hd.other rfl hz) (hextend.trans ?_)
    refine readIndex_plain _ (fun r hr => ?_) name deref
    cases hrest : d.rest with
    | nil =>
      rw [Cursor.extend, hrest, List.nil_append] at hr
      subst hr
      cases he
    | cons a s =>
      rw [Cursor.extend, hrest, List.cons_append] at hr
      obtain rfl := (List.cons.inj hr).1
      exact hindex ⟨s, hrest⟩

/-- A name behind a `$`. Without a name, or at the end of the text, it is a fault, and then nothing
has to be found again. -/
theorem readReference_settles (he : isCut e = true) {a : Char} (h : c.rest = a :: s) :
    Settles e readReference c := by
  have hextend : (c.extend e).step.takeWhile Text.isNameChar =
      ((c.step.takeWhile Text.isNameChar).1, (c.step.takeWhile Text.isNameChar).2.extend e) := by
    rw [Cursor.step_extend (by rw [h]; exact List.cons_ne_nil _ _),
      Cursor.takeWhile_extend (not_of_isCut he fun _ => isFilled_of_isNameChar)]
  have hstep : c.step.rest = s := by rw [Cursor.rest_step, h]; rfl
  have hempty : (c.step.takeWhile Text.isNameChar).1 = s.takeWhile Text.isNameChar := by
    rw [Cursor.takeWhile, hstep]
  cases s with
  | nil =>
    have hread : readReference c = failed .nameMissing (c.step.takeWhile Text.isNameChar).2
        (c.step.takeWhile Text.isNameChar).2 := by simp [readReference, hempty]
    exact .failed hread
  | cons b s =>
    by_cases hb : Text.isNameChar b = true
    · -- a name, and what may come behind a name
      obtain ⟨z, hz, htakes⟩ := Takes.exists_takeWhile hstep hb
      have hread : readReference c = readIndex (c.step.takeWhile Text.isNameChar).1 true c
          (c.step.takeWhile Text.isNameChar).2 := by simp [readReference, hempty, hb]
      refine readIndex_settles he ((Takes.step h).trans htakes) (isFilled_of_isNameChar hz) hread ?_
      simp [readReference, hextend, hempty, hb]
    · have hread : readReference c = failed .nameMissing (c.step.takeWhile Text.isNameChar).2
          (c.step.takeWhile Text.isNameChar).2 := by simp [readReference, hempty, hb]
      exact .failed hread

/-- A word that is reserved or a value by itself is no number and no punctuation. -/
theorem isOther_wordLexeme? {word : String} {l : Lexeme} (h : wordLexeme? word = some l) :
    isOther l = true := by
  unfold wordLexeme? at h
  repeat' split at h
  all_goals cases h
  all_goals rfl

/-- A word is reserved, or a value by itself, or a name that may have an index. -/
theorem readWord_settles (he : isCut e = true) {a : Char} (h : c.rest = a :: s)
    (ha : Text.isNameStart a = true) : Settles e readWord c := by
  obtain ⟨z, hz, htakes⟩ := Takes.exists_takeWhile h (Text.isNameChar_of_isNameStart ha)
  have hfilled := isFilled_of_isNameChar hz
  have hextend : (c.extend e).takeWhile Text.isNameChar =
      ((c.takeWhile Text.isNameChar).1, (c.takeWhile Text.isNameChar).2.extend e) :=
    Cursor.takeWhile_extend (not_of_isCut he fun _ => isFilled_of_isNameChar)
  cases hlexeme : wordLexeme? (String.ofList (c.takeWhile Text.isNameChar).1) with
  | none =>
    have hread : readWord c = readIndex (c.takeWhile Text.isNameChar).1 false c
        (c.takeWhile Text.isNameChar).2 := by simp [readWord, hlexeme]
    refine readIndex_settles he htakes hfilled hread ?_
    simp [readWord, hextend, hlexeme]
  | some l =>
    have hread : readWord c = found l c (c.takeWhile Text.isNameChar).2 := by
      simp [readWord, hlexeme]
    refine .found hread (htakes.other (isOther_wordLexeme? hlexeme) hfilled) ?_
    simp [readWord, hextend, hlexeme]

/-! ### Paths and operators -/

/-- Whether a text begins like a path. A `~` at the end of the text does, and so does one with a
blank or a `;` behind it, which is why a cut makes no difference. -/
def beginsPath : List Char → Bool
  | '/' :: d :: _ => Text.isNameChar d || ".-~".toList.contains d
  | '.' :: '/' :: _ | '.' :: '.' :: '/' :: _ => true
  | ['~'] => true
  | '~' :: d :: _ => d == '/' || Text.isBlank d || d == ';'
  | _ => false

/-- A path is looked for at the start of the text, or behind a blank or one of `(;,`, and not
behind an operand. None of this depends on what is ahead; the rest does, and is set apart as
`beginsPath`. -/
theorem isAtPath_eq (afterOperand : Bool) (c : Cursor) : isAtPath afterOperand c =
    (!afterOperand && (c.before?.all fun b => Text.isBlank b || "(;,".toList.contains b) &&
      beginsPath c.rest) := rfl

/-- Whether a path begins is told by at most three characters. Where the text has fewer of them,
those that come behind begin with a cut, and no path goes on with one. A `~` is the exception: it is
a path by itself, at the end of the text as well as before a blank or a `;`. -/
theorem beginsPath_append (he : isCut e = true) (a : Char) (s : List Char) :
    beginsPath (a :: (s ++ e)) = beginsPath (a :: s) := by
  cases e with
  | nil => rw [List.append_nil]
  | cons x e =>
    have hx := isCut_cons.1 he
    have hne {z : Char} (hz : isFilled z = true) : x ≠ z := (Text.ne_of_kind hz hx).symm
    -- one case for each character that a path may begin with
    by_cases hslash : a = '/'
    · subst hslash
      cases s with
      | nil =>
        have hname := not_of_isFilled hx fun _ => isFilled_of_isNameChar
        simp [beginsPath, hname, hne (z := '.') rfl, hne (z := '-') rfl, hne (z := '~') rfl]
      | cons d s => rfl
    by_cases htilde : a = '~'
    · subst htilde
      cases s with
      | nil =>
        have hends : Text.isBlank x = true ∨ x = ';' := by
          simpa [isFilled, Classical.or_iff_not_imp_left] using hx
        rcases hends with hblank | rfl
        · simp [beginsPath, hblank]
        · rfl
      | cons d s => rfl
    by_cases hdot : a = '.'
    · subst hdot
      match s with
      | [] => simp [beginsPath, hne (z := '/') rfl, hne (z := '.') rfl]
      | [d] =>
        by_cases hslash : d = '/'
        · subst hslash
          rfl
        · simp [beginsPath, hslash, hne (z := '/') rfl]
      | d :: f :: s =>
        simp only [List.cons_append, beginsPath]
        split <;> simp_all
    · simp [beginsPath, hslash, htilde, hdot]

/-- So whether a path begins is the same with a cut behind. The text itself must not be empty, for
then the cut alone would be what is looked at. -/
theorem isAtPath_extend (he : isCut e = true) (hc : c.rest ≠ []) (afterOperand : Bool) :
    isAtPath afterOperand (c.extend e) = isAtPath afterOperand c := by
  obtain ⟨a, s, hs⟩ := List.exists_cons_of_ne_nil hc
  rw [isAtPath_eq, isAtPath_eq]
  change (_ && _ && beginsPath (c.rest ++ e)) = _
  rw [hs, List.cons_append, beginsPath_append he]
  rfl

/-- The same for a `-` in front of a number or of the name of an option. At the end of a text it is
an operator, and with a cut behind it still is. -/
theorem isAtDash_extend (he : isCut e = true) (hc : c.rest ≠ []) :
    isAtDash (c.extend e) = isAtDash c := by
  obtain ⟨b, rest, p⟩ := c
  unfold isAtDash Cursor.extend
  match rest, hc with
  | [a], _ =>
    by_cases ha : a = '-'
    · subst ha
      cases e with
      | nil => rfl
      | cons x e =>
        -- behind the `-` at the end of the text comes the cut
        have hdigit := not_of_isFilled (isCut_cons.1 he) fun _ => isFilled_of_isDigit
        have hstart := not_of_isFilled (isCut_cons.1 he) fun _ h =>
          isFilled_of_isNameChar (Text.isNameChar_of_isNameStart h)
        simp [hdigit, hstart]
    · simp [ha]
  | a :: d :: s, _ =>
    by_cases ha : a = '-'
    · subst ha
      rfl
    · simp [ha]

/-- A path takes at least the character that it begins with. -/
theorem isPathChar_of_isAtPath {afterOperand : Bool} {a : Char} (h : c.rest = a :: s)
    (hpath : isAtPath afterOperand c = true) : isPathChar a = true := by
  rw [isAtPath_eq, h] at hpath
  have hbegins := (Bool.and_eq_true_iff.1 hpath).2
  unfold beginsPath at hbegins
  split at hbegins
  case h_6 => cases hbegins
  all_goals
    rename_i heq
    cases heq
    decide

/-- What such a `-` has behind it. -/
theorem isAtDash_cases {a : Char} (h : c.rest = a :: s) (hdash : isAtDash c = true) :
    a = '-' ∧ ∃ d s', s = d :: s' ∧ (d.isDigit || Text.isNameStart d) = true := by
  unfold isAtDash at hdash
  dsimp only at hdash
  split at hdash
  · rename_i d s' heq
    rw [h] at heq
    cases heq
    exact ⟨rfl, d, s', rfl, (Bool.and_eq_true_iff.1 hdash).2⟩
  · cases hdash

/-- Whether a text begins with an operator is the same with a cut behind, as a cut does not begin
with a character of one. -/
theorem isPrefixOf_append {o : List Char} (ho : ∀ a ∈ o, Operator.isOperatorChar a = true)
    (he : isCut e = true) (s : List Char) : o.isPrefixOf (s ++ e) = o.isPrefixOf s := by
  induction o generalizing s with
  | nil => rfl
  | cons a o ih =>
    obtain ⟨ha, ho⟩ := List.forall_mem_cons.1 ho
    cases s with
    | nil =>
      cases e with
      | nil => rfl
      | cons b e =>
        have hb : a ≠ b := Text.ne_of_kind (isFilled_of_isOperatorChar ha) (isCut_cons.1 he)
        simp [List.isPrefixOf, hb]
    | cons b s => simp [List.isPrefixOf, ih ho s]

/-- Operators are not empty and made of their own characters. There are few of them, so all are
looked at. -/
theorem spelling_of_mem_all {o : Operator} (h : o ∈ Operator.all) :
    o.spelling ≠ "" ∧ ∀ a ∈ o.spelling.toList, Operator.isOperatorChar a = true := by
  have hall : (Operator.all.all fun o =>
      o.spelling != "" && o.spelling.toList.all Operator.isOperatorChar) = true := by decide
  have ho := List.all_eq_true.1 hall o h
  rw [Bool.and_eq_true, bne_iff_ne, List.all_eq_true] at ho
  exact ho

/-- The longer of an operator found before and one that the text may begin with. -/
def longer (s : List Char) (best : Option Operator) (o : Operator) : Option Operator :=
  if !o.spelling.toList.isPrefixOf s then best
  else if best.all (·.spelling.length < o.spelling.length) then some o
  else best

/-- The longest operator at the beginning of a text. It is found by going through all operators, so
this is an induction on their list. -/
theorem longest?_append (he : isCut e = true) (s : List Char) :
    Operator.longest? (s ++ e) = Operator.longest? s := by
  have hgo (os : List Operator) (hos : ∀ o ∈ os, o ∈ Operator.all) (best : Option Operator) :
      os.foldl (longer (s ++ e)) best = os.foldl (longer s) best := by
    induction os generalizing best with
    | nil => rfl
    | cons o os ih =>
      obtain ⟨ho, hos⟩ := List.forall_mem_cons.1 hos
      have hlonger : longer (s ++ e) best o = longer s best o := by
        rw [longer, isPrefixOf_append (spelling_of_mem_all ho).2 he, longer]
      rw [List.foldl_cons, List.foldl_cons, hlonger, ih hos]
  exact hgo Operator.all (fun _ h => h) none

/-- What is found is an operator, and the text begins with it. That there is none longer is not said
here: it is asked for only when the text is extended. -/
theorem longest?_prefix {o : Operator} (h : Operator.longest? s = some o) :
    o ∈ Operator.all ∧ o.spelling.toList <+: s := by
  -- what is kept along the list is what is said of the operator in the end
  have hgo (os : List Operator) (hos : ∀ o ∈ os, o ∈ Operator.all) (best : Option Operator)
      (hbest : ∀ o, best = some o → o ∈ Operator.all ∧ o.spelling.toList <+: s) :
      ∀ o, os.foldl (longer s) best = some o → o ∈ Operator.all ∧ o.spelling.toList <+: s := by
    induction os generalizing best with
    | nil => exact hbest
    | cons o os ih =>
      obtain ⟨ho, hos⟩ := List.forall_mem_cons.1 hos
      refine ih hos _ fun o' ho' => ?_
      unfold longer at ho'
      split at ho'
      · exact hbest o' ho'
      · rename_i hprefix
        split at ho'
        · obtain rfl := Option.some.inj ho'
          exact ⟨ho, List.isPrefixOf_iff_prefix.1 (by simpa using hprefix)⟩
        · exact hbest o' ho'
  exact hgo Operator.all (fun _ h => h) none (fun _ h => nomatch h) o h

/-- Reads an operator. -/
def readOperator (a : Char) (c : Cursor) : Outcome :=
  match Operator.longest? c.rest with
  | some o => found (.operator o) c (c.skip o.spelling.length)
  | none => failed (.strayCharacter a) c c

/-- An operator is taken as long as it is spelled. The search for the longest spelling may look at
characters behind it, and a cut has none that goes on with an operator. -/
theorem readOperator_settles (he : isCut e = true) (a : Char) : Settles e (readOperator a) c := by
  cases hlongest : Operator.longest? c.rest with
  | none => exact .failed (by simp only [readOperator, hlongest]; rfl)
  | some o =>
    obtain ⟨hall, r, hr⟩ := longest?_prefix hlongest
    obtain ⟨hne, hchars⟩ := spelling_of_mem_all hall
    have hread : readOperator a c = found (.operator o) c (c.skip o.spelling.length) := by
      simp only [readOperator, hlongest]
    have hlength : o.spelling.length = o.spelling.toList.length := String.length_toList.symm
    have hlist : o.spelling.toList ≠ [] := by simpa using hne
    -- the last character that is taken is the last one of the operator
    have htakes : Takes c (o.spelling.toList.getLast hlist) (c.skip o.spelling.length) := by
      refine ⟨o.spelling.toList.dropLast, ?_, ?_⟩
      · rw [List.append_cons, List.dropLast_concat_getLast hlist, Cursor.rest_skip, hlength, ← hr,
          List.drop_left]
      · rw [hlength, List.length_dropLast, Nat.sub_add_cancel (List.length_pos_iff.2 hlist)]
    refine .found hread (htakes.other rfl
      (isFilled_of_isOperatorChar (hchars _ (List.getLast_mem hlist)))) ?_
    have hle : o.spelling.length ≤ c.rest.length := by
      rw [hlength, ← hr, List.length_append]
      omega
    have hrest : (c.extend e).rest = c.rest ++ e := rfl
    simp only [readOperator, hrest, longest?_append he, hlongest, Cursor.skip_extend hle]

/-! ### Punctuation -/

/-- Reads a punctuation character. -/
def readPunctuation (a : Char) (c : Cursor) : Outcome :=
  if Lexeme.isPunctuation a then found (.punctuation a) c c.step
  else failed (.strayCharacter a) c c

/-- A punctuation character by itself. Of all tokens, only this one may end in a `;` or in a `)`. -/
theorem readPunctuation_settles {a : Char} (h : c.rest = a :: s) :
    Settles e (readPunctuation a) c := by
  by_cases ha : Lexeme.isPunctuation a = true
  · have hread : readPunctuation a c = found (.punctuation a) c c.step := if_pos ha
    have hblank : Text.isBlank a = false := by
      have hall : ",;()\x7b\x7d[]".toList.all (!Text.isBlank ·) = true := by decide
      simpa using List.all_eq_true.1 hall a (List.contains_iff_mem.1 ha)
    refine .found hread ⟨a, .step h, hblank, fun hsemicolon => ?_, fun hoperand => ?_⟩ ?_
    · rw [hsemicolon]
      rfl
    · exact .inr (eq_of_beq hoperand).symm
    · rw [readPunctuation, if_pos ha, Cursor.step_extend (by rw [h]; exact List.cons_ne_nil _ _)]
  · have hread : readPunctuation a c = failed (.strayCharacter a) c c := if_neg ha
    exact .failed hread

/-- An array literal, of which the text between the parentheses is given. Its tokens and items come
from that text alone, which is why they are the same wherever the literal stands. -/
theorem readArray?_eq_some {inner : List Char → Option (List Token)} {o : Outcome} {a : Char}
    (hc : c.rest = a :: s) (h : readArray? inner c = some o) :
    ∃ v r ts items, splitArray? none s = some (v, r) ∧ inner v = some ts ∧
      arrayItems? ts = some items ∧
      o = (.ok (some (.array items ⟨c.position, (c.moveTo r).position⟩)), c.moveTo r) := by
  unfold readArray? at h
  rw [hc, List.drop_one, List.tail_cons] at h
  obtain ⟨⟨v, r⟩, hsplit, h⟩ := Option.bind_eq_some_iff.1 h
  obtain ⟨ts, hts, h⟩ := Option.bind_eq_some_iff.1 h
  obtain ⟨items, hitems, h⟩ := Option.bind_eq_some_iff.1 h
  exact ⟨v, r, ts, items, hsplit, hts, hitems, (Option.some.inj h).symm⟩

/-- An array literal that is read from a text is read from a longer one. The converse fails, which
is why the lemmas below have a premise about the `(`. -/
theorem readArray?_settles {inner : List Char → Option (List Token)} {a : Char}
    (h : c.rest = a :: s) {o : Outcome} (harray : readArray? inner c = some o) :
    ∃ t stop, o = (.ok (some t), stop) ∧ Spans c t stop ∧
      readArray? inner (c.extend e) = some (.ok (some t), stop.extend e) := by
  obtain ⟨v, r, ts, items, hsplit, hts, hitems, rfl⟩ := readArray?_eq_some h harray
  obtain ⟨w, rfl, hw⟩ := splitArray?_cut hsplit
  have hspans : Spans c (.array items ⟨c.position, (c.moveTo r).position⟩) (c.moveTo r) :=
    ⟨')', .moveTo (w := a :: w) h, rfl, fun h => absurd h (by decide), fun _ => .inr rfl⟩
  refine ⟨_, _, rfl, hspans, ?_⟩
  have hdrop : (c.extend e).rest.drop 1 = w ++ ')' :: (r ++ e) := by
    rw [Cursor.extend, h]
    simp
  have hle : r.length ≤ c.rest.length := by
    simp only [h, List.length_append, List.length_cons]
    omega
  unfold readArray?
  rw [hdrop, hw]
  simp only [Option.bind_eq_bind, Option.bind_some, hts, hitems, Cursor.moveTo_extend hle]
  rfl

/-- Reads an array literal or a punctuation character. -/
theorem readMark_eq (inner : List Char → Option (List Token)) (a : Char) (c : Cursor) :
    readMark inner a c =
      (if a == '(' then readArray? inner c else none).getD (readPunctuation a c) := by
  unfold readMark
  cases (if a == '(' then readArray? inner c else none) <;> rfl

/-- More text is behind a `(`, which begins an array literal as it did, or does not as it did not.
The second is asked for as a condition: without a `)` of its own, a `(` may find one there. -/
theorem readMark_settles {inner : List Char → Option (List Token)} {a : Char} (h : c.rest = a :: s)
    (harray : a = '(' → readArray? inner c = none → readArray? inner (c.extend e) = none) :
    Settles e (readMark inner a) c := by
  intro t stop hread
  rw [readMark_eq] at hread
  rw [readMark_eq]
  have hmark (hread : readPunctuation a c = (.ok (some t), stop)) :=
    readPunctuation_settles (e := e) h t stop hread
  -- only a `(` can begin an array literal
  by_cases ha : a = '('
  · rw [if_pos (beq_iff_eq.2 ha)] at hread ⊢
    cases hc : readArray? inner c with
    | none =>
      rw [hc] at hread
      rw [harray ha hc]
      exact hmark hread
    | some o =>
      obtain ⟨t', stop', rfl, hspans, hextend⟩ := readArray?_settles (e := e) h hc
      rw [hc] at hread
      obtain ⟨rfl, rfl⟩ : t' = t ∧ stop' = stop := by simpa using hread
      exact ⟨hspans, by rw [hextend]; rfl⟩
  · have hne : ¬(a == '(') = true := by simpa using ha
    rw [if_neg hne] at hread ⊢
    exact hmark hread

/-! ## One token -/

/-- A path is a text of characters of its kind. Neither a blank nor a `;` is one of them, so a cut
ends it. -/
theorem readPath_settles (he : isCut e = true) {a : Char} (h : c.rest = a :: s)
    (ha : isPathChar a = true) : Settles e (fun c => found
      (.text (String.ofList (c.takeWhile isPathChar).1) .bare) c (c.takeWhile isPathChar).2) c := by
  obtain ⟨z, hz, htakes⟩ := Takes.exists_takeWhile h ha
  have hcut : e.head?.all (!isPathChar ·) = true := not_of_isCut he fun _ => isFilled_of_isPathChar
  exact .found rfl (htakes.other rfl (isFilled_of_isPathChar hz))
    (by simp only [Cursor.takeWhile_extend hcut])

/-- What is read at a character stays the same when a cut comes behind the text. The cases are those
of the lexer in its order, each settled by the lemma on the reader it calls. -/
theorem readHere_settles {inner : List Char → Option (List Token)} {a : Char}
    (he : isCut e = true) (h : c.rest = a :: s) (afterOperand : Bool)
    (harray : a = '(' → readArray? inner c = none → readArray? inner (c.extend e) = none) :
    Settles e (readHere inner afterOperand a) c := by
  have hne : c.rest ≠ [] := by rw [h]; exact List.cons_ne_nil _ _
  -- the tests in their order: path, quote, option or number, digit, operator, `$`, name, and what
  -- is left
  refine Settles.ite (isAtPath_extend he hne afterOperand)
    (fun hpath => readPath_settles he h (isPathChar_of_isAtPath h hpath)) fun _ => ?_
  cases Quote.ofChar? a with
  | some q => exact readText_settles h
  | none =>
    refine Settles.ite (isAtDash_extend he hne) (fun hdash => ?_) fun _ => ?_
    · obtain ⟨-, d, s', rfl, hd⟩ := isAtDash_cases h hdash
      exact readDashed_settles he h hd
    refine Settles.ite (p := fun _ => a.isDigit) rfl (readNumber_settles he h) fun _ => ?_
    refine Settles.ite (p := fun _ => Operator.isOperatorChar a) rfl
      (fun _ => readOperator_settles he a) fun _ => ?_
    refine Settles.ite (p := fun _ => a == '$') rfl (fun _ => readReference_settles he h) fun _ => ?_
    exact Settles.ite (p := fun _ => Text.isNameStart a) rfl (readWord_settles he h) fun _ =>
      readMark_settles h harray

/-! ## The next token -/

/-- What begins with a character other than a backslash loses it if it is a blank. -/
theorem dropBlanks_cons {b : Char} (hb : b ≠ '\\') (s : List Char) :
    dropBlanks (b :: s) = if Text.isBlank b then dropBlanks s else b :: s := by
  rw [dropBlanks]
  exact fun _ h => absurd h hb

/-- A backslash is no blank, although together with the end of a line it counts as one. -/
theorem ne_backslash_of_isBlank {b : Char} (hb : Text.isBlank b = true) : b ≠ '\\' :=
  Text.ne_of_kind hb (by decide)

/-- If something is left behind the blanks, then the same is left with more text behind. It does not
begin with a backslash, as that might then stand before the end of a line. -/
theorem dropBlanks_append {a : Char} (h : dropBlanks s = a :: r) (ha : a ≠ '\\') (e : List Char) :
    dropBlanks (s ++ e) = a :: (r ++ e) := by
  fun_induction dropBlanks s with
  | case1 => cases h
  | case2 s ih => exact ih h
  | case3 b s _ hb ih =>
    rw [List.cons_append, dropBlanks_cons (ne_backslash_of_isBlank hb), if_pos hb]
    exact ih h
  | case4 b s _ hb =>
    obtain ⟨rfl, rfl⟩ := List.cons.inj h
    rw [List.cons_append, dropBlanks_cons ha, if_neg hb]

/-- Of blanks only, all are dropped, and those of the text behind them as well. Between two scripts
that are put together, the blanks at the end of the first are lost in this way. -/
theorem dropBlanks_append_of_eq_nil (h : dropBlanks s = []) (e : List Char) :
    dropBlanks (s ++ e) = dropBlanks e := by
  fun_induction dropBlanks s with
  | case1 => rfl
  | case2 s ih => exact ih h
  | case3 b s _ hb ih =>
    rw [List.cons_append, dropBlanks_cons (ne_backslash_of_isBlank hb), if_pos hb]
    exact ih h
  | case4 b s hpair hb => cases h

/-- What is left is the end of the text. -/
theorem dropBlanks_suffix (s : List Char) : dropBlanks s <:+ s := by
  fun_induction dropBlanks s with
  | case1 => exact List.suffix_refl _
  | case2 s ih => exact ih.trans ⟨['\\', '\n'], rfl⟩
  | case3 b s _ _ ih => exact ih.trans (List.suffix_cons b s)
  | case4 => exact List.suffix_refl _

/-- Where the next token begins. -/
theorem rest_toToken (c : Cursor) : c.toToken.rest = dropBlanks c.rest :=
  Cursor.rest_moveTo_of_suffix (dropBlanks_suffix c.rest)

/-- To go to the next token is to go to the same one, if there is one. A backslash is excepted: at
the end of a text it stands alone, and with the end of a line behind it is dropped. -/
theorem toToken_extend {a : Char} (h : c.toToken.rest = a :: s) (ha : a ≠ '\\') (e : List Char) :
    (c.extend e).toToken = c.toToken.extend e := by
  rw [rest_toToken] at h
  change (c.extend e).moveTo (dropBlanks (c.rest ++ e)) = (c.moveTo (dropBlanks c.rest)).extend e
  rw [dropBlanks_append h ha, ← List.cons_append, ← h,
    Cursor.moveTo_extend (dropBlanks_suffix c.rest).length_le]

/-- The blanks in front of a token do not matter to where it ends. -/
theorem Spans.toToken (h : Spans c.toToken t stop) : Spans c t stop := by
  obtain ⟨z, htakes, hz⟩ := h
  exact ⟨z, htakes.skip (Nat.sub_le _ _), hz⟩

/-- No token begins with a backslash. -/
theorem readHere_backslash {inner : List Char → Option (List Token)} (afterOperand : Bool)
    (h : c.rest = '\\' :: s) : readHere inner afterOperand '\\' c = failed (.strayCharacter '\\') c c := by
  have hpath : isAtPath afterOperand c = false := by
    rw [isAtPath_eq, h]
    simp [beginsPath]
  have hdash : isAtDash c = false := by
    simp [isAtDash, h]
  unfold readHere
  rw [hpath, hdash]
  rfl

/-- Behind blanks only there is no token. -/
theorem readToken_of_nil {inner : List Char → Option (List Token)} {afterOperand : Bool}
    (h : c.toToken.rest = []) : readToken inner afterOperand c = (.ok none, c.toToken) := by
  rw [readToken_eq, h]

/-- Otherwise the first character that is no blank decides. This and the last lemma are all that the
proofs on whole texts know of how a single token is read. -/
theorem readToken_of_cons {inner : List Char → Option (List Token)} {afterOperand : Bool} {a : Char}
    (h : c.toToken.rest = a :: s) :
    readToken inner afterOperand c = readHere inner afterOperand a c.toToken := by
  rw [readToken_eq, h]

/-- **A token stays the one that it is when a `;` or a blank comes behind the text**, if more text
does not make an array literal of a `(`. -/
theorem readToken_settles {inner : List Char → Option (List Token)} (he : isCut e = true)
    (afterOperand : Bool) (harray : ∀ s, c.toToken.rest = '(' :: s →
      readArray? inner c.toToken = none → readArray? inner (c.toToken.extend e) = none) :
    Settles e (readToken inner afterOperand) c := by
  intro t stop hread
  cases hrest : c.toToken.rest with
  | nil =>
    rw [readToken_of_nil hrest] at hread
    cases hread
  | cons a s =>
    rw [readToken_of_cons hrest] at hread
    -- with a backslash nothing would have been found
    have ha : a ≠ '\\' := by
      rintro rfl
      rw [readHere_backslash afterOperand hrest] at hread
      cases hread
    obtain ⟨hspans, hextend⟩ := readHere_settles he hrest afterOperand
      (fun ha hnone => harray s (by rw [hrest, ha]) hnone) t stop hread
    refine ⟨hspans.toToken, ?_⟩
    have htoken := toToken_extend hrest ha e
    have hmore : (c.extend e).toToken.rest = a :: (s ++ e) := by
      rw [htoken, Cursor.extend, hrest]
      rfl
    rw [readToken_of_cons hmore, htoken]
    exact hextend

end Lexer

end CommandLanguage
