import CommandLanguage.Proofs.Token.Arguments
import CommandLanguage.Proofs.Token.Extend

/-!
# The tokens of a text and of a longer one

`Passes` reads tokens one after another and `Completes` reads all there are, so that `scan` finds
what `Completes` tells (`exists_scan_iff`). With them

* the tokens of a text stay what they are when a `;` or a blank comes behind it (`Passes.extend`), unless
  that puts an end to an array literal that had none;
* the tokens of two texts, one after the other, are those of the first and then those of the second
  (`Passes.join`).

An array literal is what makes this hard. A `(` begins one if its closing parenthesis is found and all
between the two are items of an array; otherwise it is a token by itself, and what is behind it is read
on. So more text can turn a `(` that was a token into the beginning of a literal which swallows all
tokens behind it. It cannot if one of these is a `;` or a reserved word, since neither is an item, and
also not if the search for a closing parenthesis fails in the longer text, too. `Joins` is the
alternative between the two, and `readArray?_extend` is where it is used.
-/

namespace CommandLanguage.Lexer

open Cursor (Abreast)
open Token (Alike)

variable {inner inner' : List Char → Option (List Token)} {ao ao' : Bool} {c d stop : Cursor}
  {s r e : List Char} {t : Token} {ts us : List Token}

/-! ## The text within an array literal -/

/-- The tokens of a text without a fault. It is what an array literal asks for the text between its
parentheses, and what the statements on whole texts are about. -/
def tokens? (s : List Char) : Option (List Token) := (scan s).complete?

/-- A token takes up some text. -/
theorem spans_of_readToken (h : readToken inner ao c = (.ok (some t), stop)) : Spans c t stop :=
  (readToken_settles (e := []) rfl ao (fun _ _ hnone => by
    have hsame : c.toToken.extend [] = c.toToken := by simp [Cursor.extend]
    rw [hsame]
    exact hnone) t stop h).1

/-- A token takes at least one character, which is what inductions along a text are on. -/
theorem Spans.length_lt (h : Spans c t stop) : stop.rest.length < c.rest.length := by
  obtain ⟨z, htakes, -⟩ := h
  exact htakes.length_le

/-- What is left behind a token is the end of what was there. -/
theorem Spans.suffix (h : Spans c t stop) : stop.rest <:+ c.rest := by
  obtain ⟨z, ⟨w, hrest, -⟩, -⟩ := h
  exact ⟨w ++ [z], by rw [hrest, List.append_assoc]; rfl⟩

/-- Only the tokens of shorter texts are asked for, namely those between a `(` and the parenthesis
that closes it. -/
theorem readToken_congr (h : ∀ v, v.length < c.rest.length → inner v = inner' v) :
    readToken inner ao c = readToken inner' ao c := by
  -- the inner function is asked for the text between two parentheses, which is shorter
  have harray (hc : c.toToken.rest ≠ []) : readArray? inner c.toToken = readArray? inner' c.toToken := by
    unfold readArray?
    cases hsplit : splitArray? none (c.toToken.rest.drop 1) with
    | none => rfl
    | some x =>
      obtain ⟨v, r⟩ := x
      have hlength := congrArg List.length (Written.append_of_splitArray? hsplit)
      have hle := length_dropBlanks_le c.rest
      rw [← rest_toToken] at hle
      have hpos := List.length_pos_iff.2 hc
      simp only [List.length_append, List.length_cons, List.length_drop] at hlength
      have hv : inner v = inner' v := h v (by omega)
      simp only [Option.bind_eq_bind, Option.bind_some, hv]
  rw [readToken_eq, readToken_eq]
  cases hrest : c.toToken.rest with
  | nil => rfl
  | cons a s =>
    dsimp only
    unfold readHere readMark
    rw [harray (by rw [hrest]; exact List.cons_ne_nil _ _)]

/-- The same for all tokens, since behind each of them the text is shorter. So only what the inner
function says of shorter texts matters. -/
theorem scanFrom_congr {fuel : Nat} (h : ∀ v, v.length < c.rest.length → inner v = inner' v) :
    scanFrom inner fuel ao c = scanFrom inner' fuel ao c := by
  induction fuel generalizing ao c with
  | zero => rfl
  | succ fuel ih =>
    rw [scanFrom, scanFrom, readToken_congr h]
    -- either reading ends here, or it goes on behind a token
    split
    · rfl
    · rfl
    · rename_i t stop hread
      have hlt := (spans_of_readToken hread).length_lt
      rw [ih fun v hv => h v (Nat.lt_trans hv hlt)]

/-- The text of an array literal is read like a text of its own. The depth only bounds how often
this happens, and a text is longer than the literals in it are deep. -/
theorem innerTokens?_eq {depth : Nat} (h : s.length < depth) : innerTokens? depth s = tokens? s := by
  induction depth using Nat.strongRecOn generalizing s with
  | _ depth ih =>
    cases depth with
    | zero => cases h
    | succ depth =>
      rw [innerTokens?, tokens?, scan]
      congr 1
      refine scanFrom_congr fun v hv => ?_
      have hlt : v.length < s.length := hv
      rw [ih depth (Nat.lt_succ_self _) (by omega), ih s.length h hlt]

/-- So all tokens of a text are read with `tokens?` for the texts of array literals. The fuel that
the definition gives to those texts is gone from here on. -/
theorem scan_eq (s : List Char) : scan s = scanFrom tokens? (s.length + 1) false (.start s) :=
  scanFrom_congr fun _ hv => innerTokens?_eq hv

/-! ## Tokens one after another -/

/-- The tokens are read one after another. `ao` and `ao'` tell before and after them whether a `/`
divides. -/
inductive Passes : (ao : Bool) → (c : Cursor) → List Token → (ao' : Bool) → (stop : Cursor) → Prop where
  /-- none is read -/
  | nil (ao : Bool) (c : Cursor) : Passes ao c [] ao c
  /-- one is read, and then others -/
  | cons {ao ao' : Bool} {c d stop : Cursor} {t : Token} {ts : List Token}
    (first : readToken tokens? ao c = (.ok (some t), d)) (rest : Passes (isOperand t) d ts ao' stop) :
    Passes ao c (t :: ts) ao' stop

/-- The tokens are all there are: they are read one after another, and behind the last one only
blanks are left. Neither steps nor faults are spoken of. -/
def Completes (ao : Bool) (c : Cursor) (ts : List Token) : Prop :=
  ∃ ao' stop, Passes ao c ts ao' stop ∧ dropBlanks stop.rest = []

namespace Passes

/-- Tokens that are read one after another may be cut anywhere. Of what is before the cut, only the
place and whether the last token is an operand go on to what is behind. -/
theorem append (h : Passes ao c ts ao' d) {ao'' : Bool} (h' : Passes ao' d us ao'' stop) :
    Passes ao c (ts ++ us) ao'' stop := by
  induction h with
  | nil => exact h'
  | cons first _ ih => exact .cons first (ih h')

/-- What is left behind the tokens is the end of the text. -/
theorem suffix (h : Passes ao c ts ao' stop) : stop.rest <:+ c.rest := by
  induction h with
  | nil => exact List.suffix_refl _
  | cons first _ ih => exact ih.trans (spans_of_readToken first).suffix

/-- The last token and where it begins. It decides whether a `/` divides behind the tokens. -/
theorem exists_last (h : Passes ao c ts ao' stop) (hne : ts ≠ []) :
    ∃ t d, ts.getLast? = some t ∧ ao' = isOperand t ∧ Spans d t stop ∧ d.rest <:+ c.rest := by
  induction h with
  | nil => exact absurd rfl hne
  | @cons ao ao' c d stop t ts first rest ih =>
    cases rest with
    | nil => exact ⟨t, c, rfl, rfl, spans_of_readToken first, List.suffix_refl _⟩
    | cons first' rest' =>
      obtain ⟨t', d', hlast, hao, hspans, hsuffix⟩ := ih (List.cons_ne_nil _ _)
      refine ⟨t', d', ?_, hao, hspans, hsuffix.trans (spans_of_readToken first).suffix⟩
      rw [List.getLast?_cons_cons]
      exact hlast

end Passes

/-- There is no next token if nothing is ahead but what is dropped. -/
theorem dropBlanks_eq_nil_iff : c.toToken.rest = [] ↔ dropBlanks c.rest = [] := by
  rw [rest_toToken]

namespace Completes

/-- There are no tokens if and only if all of the text is dropped. This is where an induction over
the tokens of a text begins. -/
theorem nil_iff : Completes ao c [] ↔ dropBlanks c.rest = [] := by
  constructor
  · rintro ⟨ao', stop, hpasses, hstop⟩
    cases hpasses
    exact hstop
  · exact fun h => ⟨ao, c, .nil ao c, h⟩

/-- The first token, and then all that are behind it. Each proof on the tokens of a text takes one
token by this, says what becomes of it, and leaves the rest to the induction. -/
theorem cons_iff : Completes ao c (t :: ts) ↔
    ∃ d, readToken tokens? ao c = (.ok (some t), d) ∧ Completes (isOperand t) d ts := by
  constructor
  · rintro ⟨ao', stop, hpasses, hstop⟩
    cases hpasses with
    | cons first rest => exact ⟨_, first, ao', stop, rest, hstop⟩
  · rintro ⟨d, first, ao', stop, rest, hstop⟩
    exact ⟨ao', stop, .cons first rest, hstop⟩

/-- A token that is read is the first one. Reading comes to one result only, so all tokens begin
with it. -/
theorem iff_of_read (h : readToken tokens? ao c = (.ok (some t), d)) :
    Completes ao c us ↔ ∃ ts, us = t :: ts ∧ Completes (isOperand t) d ts := by
  constructor
  · intro hus
    cases us with
    | nil =>
      rw [readToken_of_nil (dropBlanks_eq_nil_iff.2 (nil_iff.1 hus))] at h
      cases h
    | cons u us =>
      obtain ⟨d', hfirst, hrest⟩ := cons_iff.1 hus
      obtain ⟨rfl, rfl⟩ : t = u ∧ d = d' := by simpa [h] using hfirst
      exact ⟨us, rfl, hrest⟩
  · rintro ⟨ts, rfl, hts⟩
    exact cons_iff.2 ⟨d, h, hts⟩

/-- A fault that is found is not behind all tokens. With this a text that has all its tokens has no
fault in any place that reading comes to. -/
theorem not_of_fault {f : LexFault} (h : readToken tokens? ao c = (.error f, d)) :
    ¬Completes ao c ts := by
  intro hts
  cases ts with
  | nil =>
    rw [readToken_of_nil (dropBlanks_eq_nil_iff.2 (nil_iff.1 hts))] at h
    cases h
  | cons t ts =>
    obtain ⟨d', hfirst, -⟩ := cons_iff.1 hts
    rw [h] at hfirst
    cases hfirst

/-- What is read first comes first among all tokens, and the others are all tokens of what is
left. -/
theorem exists_append (h : Completes ao c us) (h' : Passes ao c ts ao' d) :
    ∃ vs, us = ts ++ vs ∧ Completes ao' d vs := by
  induction h' generalizing us with
  | nil => exact ⟨us, rfl, h⟩
  | cons first _ ih =>
    obtain ⟨us, rfl, hrest⟩ := (iff_of_read first).1 h
    obtain ⟨vs, rfl, hvs⟩ := ih hrest
    exact ⟨vs, rfl, hvs⟩

/-- There are no tokens in what is dropped. -/
theorem eq_nil (h : Completes ao c ts) (hblank : dropBlanks c.rest = []) : ts = [] := by
  obtain ⟨ao', stop, hpasses, -⟩ := h
  obtain ⟨vs, hnil, -⟩ := (nil_iff.2 hblank).exists_append hpasses
  exact (List.append_eq_nil_iff.1 hnil.symm).1

end Completes

/-! There are three results of reading: a token, a fault and the end of the text. The following lemmas
say of each kind of token that at its first character there is no end, so that the end is found only
where all of the text is dropped (`dropBlanks_of_readToken`). -/

theorem found_ne_none {l : Lexeme} : found l c stop ≠ (.ok none, d) := by
  intro h
  cases h

theorem failed_ne_none {cause : LexFault.Cause} : failed cause c stop ≠ (.ok none, d) := by
  intro h
  cases h

theorem readText_ne_none (q : Quote) : readText q c ≠ (.ok none, d) := by
  unfold readText
  split
  · exact found_ne_none
  · exact failed_ne_none

theorem readNumber_ne_none {negative : Bool} {start : Cursor} :
    readNumber negative start c ≠ (.ok none, d) := by
  rw [readNumber_eq]
  exact found_ne_none

theorem readDashed_ne_none : readDashed c ≠ (.ok none, d) := by
  unfold readDashed
  dsimp only
  split
  · exact readNumber_ne_none
  · exact found_ne_none

theorem readIndex_ne_none {name : List Char} {deref : Bool} {start : Cursor} :
    readIndex name deref start c ≠ (.ok none, d) := by
  unfold readIndex
  split
  · split
    · exact found_ne_none
    · exact failed_ne_none
  · exact found_ne_none

theorem readReference_ne_none : readReference c ≠ (.ok none, d) := by
  unfold readReference
  dsimp only
  split
  · exact failed_ne_none
  · exact readIndex_ne_none

theorem readWord_ne_none : readWord c ≠ (.ok none, d) := by
  unfold readWord
  dsimp only
  split
  · exact found_ne_none
  · exact readIndex_ne_none

/-- A parenthesis begins an array literal or is a token by itself, or is a fault. -/
theorem readMark_ne_none {a : Char} (h : c.rest = a :: s) : readMark inner a c ≠ (.ok none, d) := by
  rw [readMark_eq]
  cases harray : if a == '(' then readArray? inner c else none with
  | some o =>
    have ho : readArray? inner c = some o := by
      split at harray
      · exact harray
      · cases harray
    obtain ⟨v, r, ts, items, -, -, -, rfl⟩ := readArray?_eq_some h ho
    intro hnone
    cases hnone
  | none =>
    rw [Option.getD_none, readPunctuation]
    split
    · exact found_ne_none
    · exact failed_ne_none

/-- Where a token begins, a token or a fault is found. So reading stops without either at the end of
the text alone, and no text is passed over in silence. -/
theorem readHere_ne_none {a : Char} (h : c.rest = a :: s) (d : Cursor) :
    readHere inner ao a c ≠ (.ok none, d) := by
  unfold readHere
  -- the tests in their order, each of which leads to one of the readers above
  split
  · exact found_ne_none
  split
  · exact readText_ne_none _
  split
  · exact readDashed_ne_none
  split
  · exact readNumber_ne_none
  split
  · split
    · exact found_ne_none
    · exact failed_ne_none
  split
  · exact readReference_ne_none
  split
  · exact readWord_ne_none
  exact readMark_ne_none h

/-- Nothing is found at the end of a text only. -/
theorem dropBlanks_of_readToken (h : readToken inner ao c = (.ok none, d)) :
    dropBlanks c.rest = [] := by
  cases hrest : c.toToken.rest with
  | nil => exact dropBlanks_eq_nil_iff.1 hrest
  | cons a s =>
    rw [readToken_of_cons hrest] at h
    exact absurd h (readHere_ne_none hrest d)

/-- With enough steps reading comes to the end if and only if all is tokens. Each token takes a
character, so one step more than there are characters is enough. -/
theorem exists_scanFrom_iff {fuel : Nat} (hfuel : c.rest.length < fuel) :
    (∃ p, scanFrom tokens? fuel ao c = ⟨ts, .ok p⟩) ↔ Completes ao c ts := by
  -- one step for each token, of which there are fewer than characters
  induction fuel generalizing ao c ts with
  | zero => cases hfuel
  | succ fuel ih =>
    rw [scanFrom]
    -- a fault, the end of the text, or a token
    rcases hread : readToken tokens? ao c with ⟨f | _ | t, d⟩
    · refine iff_of_false ?_ (Completes.not_of_fault hread)
      rintro ⟨_, h⟩
      cases h
    · have hblank := dropBlanks_of_readToken hread
      constructor
      · rintro ⟨_, h⟩
        cases h
        exact Completes.nil_iff.2 hblank
      · intro h
        obtain rfl := h.eq_nil hblank
        exact ⟨_, rfl⟩
    · have hlt := (spans_of_readToken hread).length_lt
      have hmore {us : List Token} :
          (∃ p, scanFrom tokens? fuel (isOperand t) d = ⟨us, .ok p⟩) ↔ Completes (isOperand t) d us :=
        ih (by omega)
      rw [Completes.iff_of_read hread]
      constructor
      · rintro ⟨p, h⟩
        obtain ⟨htokens, hending⟩ : _ = ts ∧ _ = Except.ok p := by simpa using h
        exact ⟨_, htokens.symm, hmore.1 ⟨p, by rw [← hending]⟩⟩
      · rintro ⟨us, rfl, hus⟩
        obtain ⟨p, hp⟩ := hmore.2 hus
        exact ⟨p, by simp only [hp]⟩

/-- A text without a fault is tokens to its end. -/
theorem exists_scan_iff : (∃ p, scan s = ⟨ts, .ok p⟩) ↔ Completes false (.start s) ts := by
  rw [scan_eq]
  exact exists_scanFrom_iff (Nat.lt_succ_self _)

/-- Whether a text has tokens without a fault, and which ones. From here on the function and the
description by single tokens stand for each other. -/
theorem tokens?_eq_some_iff : tokens? s = some ts ↔ Completes false (.start s) ts := by
  rw [← exists_scan_iff, tokens?]
  rcases scan s with ⟨us, f | p⟩
  · constructor
    · intro h
      cases h
    · rintro ⟨_, h⟩
      cases h
  · simp [Scan.complete?]

/-! ## Tokens in another place

Where a token stands is part of it, and nothing else about it changes when it is moved. -/

/-- Two places with the same text ahead are so behind the blanks as well. The characters before the
two places may differ, which matters only to a token that begins at once. -/
theorem toToken_abreast (h : Abreast c d) : Abreast c.toToken d.toToken := by
  rw [Cursor.toToken, Cursor.toToken, h.rest]
  exact h.moveTo _

/-- Whether a `/` divides does not depend on where the token before it stands. -/
theorem isOperand_eq {u : Token} (h : t.unplaced = u.unplaced) : isOperand t = isOperand u := by
  have hunplaced (t : Token) : isOperand t.unplaced = isOperand t := by
    cases t with
    | plain l p => cases l <;> rfl
    | array items p => rfl
  rw [← hunplaced t, h, hunplaced]

/-- Where the same text is ahead, the same tokens are read. Only the places differ, and those in
array literals as well. -/
theorem Passes.abreast (h : Passes ao c ts ao' stop) (hcd : Abreast c.toToken d.toToken) :
    ∃ us stop', Passes ao d us ao' stop' ∧ Alike us ts ∧ Abreast stop.toToken stop'.toToken := by
  -- each token is read alike, and leaves the same text ahead
  induction h generalizing d with
  | nil ao c => exact ⟨[], d, .nil ao d, .refl [], hcd⟩
  | @cons ao ao' c c' stop t ts first rest ih =>
    have hread : ReadsAlike (readToken tokens? ao c) (readToken tokens? ao d) :=
      readToken_abreast hcd ao
    rw [first] at hread
    generalize hd : readToken tokens? ao d = o at hread
    cases hread with
    | @token _ u _ d' same stops =>
      obtain ⟨us, stop', hpasses, halike, hstop⟩ := ih (toToken_abreast stops)
      rw [isOperand_eq same] at hpasses
      exact ⟨u :: us, stop', .cons hd hpasses, .cons same.symm halike, hstop⟩

/-- The same for all tokens there are. A piece of a script that is read by itself has the tokens
that it has within the script, up to where they stand. -/
theorem Completes.abreast (h : Completes ao c ts) (hcd : Abreast c.toToken d.toToken) :
    ∃ us, Completes ao d us ∧ Alike us ts := by
  obtain ⟨ao', stop, hpasses, hstop⟩ := h
  obtain ⟨us, stop', hpasses', halike, hstops⟩ := hpasses.abreast hcd
  refine ⟨us, ⟨ao', stop', hpasses', ?_⟩, halike⟩
  rw [← dropBlanks_eq_nil_iff, ← hstops.rest, dropBlanks_eq_nil_iff]
  exact hstop

/-! ## More text behind the tokens

All tokens but the last one are followed by another one, and so they do not see the end of the text.
The last one may. -/

/-- A search for the end of an array literal that finds one only with more text has gone through all
the text. -/
theorem exists_of_splitArray?_append {within : Option Quote} {v : List Char} (he : isCut e = true)
    (h : splitArray? within s = none) (h' : splitArray? within (s ++ e) = some (v, r)) :
    ∃ u, v = s ++ u ∧ u ≠ [] ∧ u.head? = e.head? := by
  -- both searches pass the same characters, up to the end of the shorter text
  induction s generalizing within v with
  | nil =>
    cases e with
    | nil => cases h'
    | cons a e =>
      rw [List.nil_append] at h'
      rcases splitArray?_cons_cases within a with hfail | ⟨rfl, rfl, -⟩ | ⟨within', hpass⟩
      · rw [hfail] at h'
        cases h'
      · exact absurd (isCut_cons.1 he) (by decide)
      · rw [hpass] at h'
        obtain ⟨x, -, hx⟩ := Option.map_eq_some_iff.1 h'
        obtain ⟨rfl, -⟩ := Prod.mk.inj hx
        exact ⟨_, rfl, List.cons_ne_nil _ _, rfl⟩
  | cons c s ih =>
    rw [List.cons_append] at h'
    rcases splitArray?_cons_cases within c with hfail | ⟨rfl, rfl, hclose⟩ | ⟨within', hpass⟩
    · rw [hfail] at h'
      cases h'
    · rw [hclose] at h
      cases h
    · rw [hpass] at h h'
      obtain ⟨⟨v', r'⟩, hsplit, heq⟩ := Option.map_eq_some_iff.1 h'
      obtain ⟨rfl, rfl⟩ := Prod.mk.inj heq
      obtain ⟨u, rfl, hu⟩ := ih (Option.map_eq_none_iff.1 h) hsplit
      exact ⟨u, rfl, hu⟩

/-- Whether a token is a `;` or a reserved word, neither of which is an item of an array literal.
One of them between two parentheses is enough for the first to stand for itself. -/
def isBar : Token → Bool
  | .plain (.keyword _) _ => true
  | t => t.isPunctuation ';'

/-- What is between two parentheses is no array literal if one of the tokens is a `;` or a reserved
word. -/
theorem arrayItems?_eq_none (ht : t ∈ ts) (hbar : isBar t = true) : arrayItems? ts = none := by
  -- commas are left out of the items first, and such a token is none
  have hcomma : t.isPunctuation ',' = false := by
    rcases t with ⟨l, p⟩ | ⟨items, p⟩
    · cases l with
      | punctuation c =>
        obtain rfl : ';' = c := eq_of_beq hbar
        rfl
      | _ => rfl
    · rfl
  have hmem : t ∈ ts.filter (!·.isPunctuation ',') := List.mem_filter.2 ⟨ht, by rw [hcomma]; rfl⟩
  unfold arrayItems?
  dsimp only
  rw [if_neg]
  intro hall
  have hitem := List.all_eq_true.1 (Bool.and_eq_true_iff.1 hall).1 _ hmem
  rcases t with ⟨l, p⟩ | ⟨items, p⟩
  · cases l with
    | keyword => cases hitem
    | punctuation => cases hitem
    | _ => cases hbar
  · cases hbar

/-- The blanks in front of a token are dropped either way. -/
theorem readToken_toToken : readToken inner ao c.toToken = readToken inner ao c := by
  have hidem (s : List Char) : dropBlanks (dropBlanks s) = dropBlanks s := by
    fun_induction dropBlanks s with
    | case1 => rfl
    | case2 s ih => exact ih
    | case3 b s _ _ ih => exact ih
    | case4 b s hpair hb =>
      rw [dropBlanks, if_neg hb]
      exact hpair
  rw [readToken_eq, readToken_eq, Cursor.toToken,
    moveTo_dropBlanks (by rw [rest_toToken, hidem])]

/-- A `(` that begins no array literal is a token of one character. What follows it is then read by
the same loop, and not as a text of its own. -/
theorem eq_step_of_readToken (hrest : c.toToken.rest = '(' :: s)
    (harray : readArray? inner c.toToken = none) (h : readToken inner ao c = (.ok (some t), d)) :
    d = c.toToken.step ∧ t.isPunctuation '(' = true := by
  rw [← readToken_toToken, readToken_parenthesis hrest, harray] at h
  cases h
  exact ⟨rfl, rfl⟩

/-- A `;` is a token of one character, wherever it stands. No token that began before it can have
taken it, other than a text in quotes or an array literal. -/
theorem readToken_semicolon (hrest : c.toToken.rest = ';' :: s) :
    ∃ t, readToken inner ao c = (.ok (some t), c.toToken.step) ∧ t.isPunctuation ';' = true := by
  rw [← readToken_toToken, readToken_punctuation hrest (by decide)]
  exact ⟨_, rfl, rfl⟩

/-- If a `;` comes next, it is among the tokens. -/
theorem Completes.exists_semicolon (h : Completes ao c ts) (hrest : c.toToken.rest = ';' :: s) :
    ∃ t ∈ ts, t.isPunctuation ';' = true := by
  obtain ⟨t, hread, ht⟩ :
      ∃ t, readToken tokens? ao c = (.ok (some t), c.toToken.step) ∧ t.isPunctuation ';' = true :=
    readToken_semicolon hrest
  cases ts with
  | nil =>
    -- there is a token, as a `;` is not dropped
    have hnil := dropBlanks_eq_nil_iff.2 (nil_iff.1 h)
    rw [hrest] at hnil
    cases hnil
  | cons u us =>
    obtain ⟨d, hfirst, -⟩ := cons_iff.1 h
    obtain ⟨rfl, -⟩ : t = u ∧ _ = d := by simpa [hread] using hfirst
    exact ⟨t, List.mem_cons_self, ht⟩

/-- The tokens of a text, wherever it stands, are not those of an array literal: one of them is a `;`
or a reserved word. -/
def IsBarred (u : List Char) : Prop :=
  ∀ ao c us, dropBlanks c.rest = dropBlanks u → Completes ao c us → ∃ t ∈ us, isBar t = true

/-- Up to a closing parenthesis, no text is that of an array literal. A text of this kind can be put
behind a `(` that is still open without making an array literal of it. -/
def Bars (e : List Char) : Prop := ∀ u r, e = u ++ ')' :: r → IsBarred u

/-- Behind a `;` nothing is an array literal together with what is before it. This is why scripts
that are put together with a `;` between them keep their tokens. -/
theorem Bars.semicolon (s : List Char) : Bars (';' :: s) := by
  intro u r hu ao c us hc hus
  cases u with
  | nil => cases hu
  | cons a u =>
    obtain ⟨rfl, -⟩ := List.cons.inj hu
    have hrest : c.toToken.rest = ';' :: u := by
      rw [rest_toToken, hc]
      rfl
    obtain ⟨t, ht, hsemicolon⟩ := hus.exists_semicolon hrest
    obtain ⟨p, rfl⟩ := Token.isPunctuation_iff.1 hsemicolon
    exact ⟨_, ht, rfl⟩

/-- What is true up to every parenthesis is so up to those before a given one. -/
theorem Bars.left {u : List Char} (h : Bars (u ++ ')' :: r)) : Bars u :=
  fun u' r' hu => h u' (r' ++ ')' :: r) (by rw [hu]; simp)

/-- Tokens that end in a `;`, or behind which a `;` or a reserved word comes, are not those of an array
literal. -/
theorem Passes.arrayItems?_eq_none {u : List Char}
    (h : Passes false ((Cursor.start s).extend u) ts ao' (stop.extend u))
    (hstop : dropBlanks stop.rest = [])
    (hbar : IsBarred u ∨ ts.getLast?.any (·.isPunctuation ';') = true)
    (hus : tokens? (s ++ u) = some us) : arrayItems? us = none := by
  obtain ⟨vs, rfl, hvs⟩ := (tokens?_eq_some_iff.1 hus).exists_append h
  -- the bar is in what comes behind, or it is the last of the tokens
  rcases hbar with hu | hlast
  · obtain ⟨t, ht, hbar⟩ := hu ao' _ vs (dropBlanks_append_of_eq_nil hstop u) hvs
    exact Lexer.arrayItems?_eq_none (List.mem_append_right _ ht) hbar
  · obtain ⟨t, ht, hsemicolon⟩ := (Option.any_eq_true _ _).1 hlast
    obtain ⟨p, rfl⟩ := Token.isPunctuation_iff.1 hsemicolon
    exact Lexer.arrayItems?_eq_none (List.mem_append_left _ (List.mem_of_getLast? ht)) rfl

/-- Which character the last token is does not depend on where it stands. -/
theorem getLast?_any_of_alike {x : Char} (h : Alike us ts) :
    us.getLast?.any (·.isPunctuation x) = ts.getLast?.any (·.isPunctuation x) := by
  have hany (ts : List Token) : ts.getLast?.any (·.isPunctuation x) =
      ((Token.unplacedList ts).getLast?.any (·.isPunctuation x)) := by
    rw [Token.unplacedList_eq_map, List.getLast?_map]
    cases ts.getLast? <;> simp [Token.isPunctuation_unplaced]
  rw [hany us, hany ts, h]

/-- The text behind a parenthesis is read like a text of its own. Within an array literal it is one,
and so the two ways of reading a `(` can be compared. -/
theorem abreast_start (h : c.rest = '(' :: s) : Abreast c.step (.start s) := by
  obtain ⟨b, r, p⟩ := c
  obtain rfl : r = '(' :: s := h
  exact ⟨rfl, .inr ⟨rfl, rfl⟩⟩

/-- Where no array literal begins with less text, the search for its end fails or what is found is no
array, and then it fails in the end. -/
theorem splitArray?_eq_none {v : List Char} {items : List Token} (hc : c.rest = '(' :: s)
    (hnone : readArray? inner c = none) (hsplit : splitArray? none (s ++ e) = some (v, r))
    (hts : inner v = some ts) (hitems : arrayItems? ts = some items) :
    splitArray? none s = none := by
  -- if the search succeeded, it would find the same with more text, and that is an array
  cases hs : splitArray? none s with
  | none => rfl
  | some x =>
    obtain ⟨v', r'⟩ := x
    obtain ⟨w, rfl, hw⟩ := splitArray?_cut hs
    rw [List.append_assoc, List.cons_append, hw] at hsplit
    obtain ⟨rfl, -⟩ := Prod.mk.inj (Option.some.inj hsplit)
    unfold readArray? at hnone
    rw [hc, List.drop_one, List.tail_cons, hs] at hnone
    simp [hts, hitems] at hnone

/-- No `(` that is read finds its closing parenthesis only in what comes behind the text. Where this
fails, the last `(` of a script takes the beginning of the next one for items. -/
def Encloses (ao : Bool) (c : Cursor) (e : List Char) : Prop :=
  ∀ ts ao' d x, Passes ao c ts ao' d → d.toToken.rest = '(' :: x → splitArray? none x = none →
    splitArray? none (x ++ e) = none

/-- Whether what comes behind the tokens of a text is behind all array literals of it: a `;` stands
before it, a `;` or a reserved word comes next, or no `(` finds its closing parenthesis in it. -/
def Joins (ao : Bool) (c : Cursor) (ts : List Token) (e : List Char) : Prop :=
  (Bars e ∨ ts.getLast?.any (·.isPunctuation ';') = true) ∨ Encloses ao c e

/-- What is true of all tokens is so of those behind the first one. -/
theorem Joins.tail {ts : List Token} (h : Joins ao c (t :: ts) e) (hne : ts ≠ [])
    (first : readToken tokens? ao c = (.ok (some t), d)) : Joins (isOperand t) d ts e := by
  obtain ⟨u, us, rfl⟩ := List.exists_cons_of_ne_nil hne
  rw [Joins, List.getLast?_cons_cons] at h
  exact h.imp_right fun hsearch _ _ _ _ hpasses => hsearch _ _ _ _ (.cons first hpasses)

/-- A `(` that begins no array literal begins none with more text behind it. An array literal would
hold all that is behind it, and the tokens of that are known to stay what they are. -/
theorem readArray?_extend {x : List Char} (hx : c.toToken.rest = '(' :: x)
    (hnone : readArray? tokens? c.toToken = none)
    (first : readToken tokens? ao c = (.ok (some t), d)) (rest : Passes (isOperand t) d ts ao' stop)
    (hstop : dropBlanks stop.rest = []) (he : isCut e = true) (hjoin : Joins ao c (t :: ts) e)
    (ih : ∀ {us stop' u}, Passes false (.start x) us ao' stop' → dropBlanks stop'.rest = [] →
      isCut u = true → Joins false (.start x) us u →
      Passes false ((Cursor.start x).extend u) us ao' (stop'.extend u)) :
    readArray? tokens? (c.toToken.extend e) = none := by
  obtain ⟨rfl, hopen⟩ := eq_step_of_readToken hx hnone first
  obtain ⟨p, rfl⟩ := Token.isPunctuation_iff.1 hopen
  -- suppose that with more text there is an array literal, whose text is `x ++ u`
  cases hmore : readArray? tokens? (c.toToken.extend e) with
  | none => rfl
  | some o =>
    exfalso
    have hx' : (c.toToken.extend e).rest = '(' :: (x ++ e) := by
      rw [Cursor.extend, hx]
      rfl
    obtain ⟨v, r, us, items, hsplit, hus, hitems, -⟩ := readArray?_eq_some hx' hmore
    have hopened := splitArray?_eq_none hx hnone hsplit hus hitems
    obtain ⟨u, rfl, hne, hhead⟩ := exists_of_splitArray?_append he hopened hsplit
    have happend := Written.append_of_splitArray? hsplit
    rw [List.append_assoc, List.append_cancel_left_eq] at happend
    have hlast : Bars u ∧ IsBarred u ∨ ts.getLast?.any (·.isPunctuation ';') = true := by
      rcases hjoin with (hbars | hsemicolon) | hsearch
      · exact .inl ⟨.left (happend ▸ hbars), hbars u r happend.symm⟩
      · cases rest with
        | nil => cases hsemicolon
        | cons => exact .inr hsemicolon
      · rw [hsearch [] ao c x (.nil ao c) hx hopened] at hsplit
        cases hsplit
    obtain ⟨ts', stop', hpasses, halike, hstops⟩ :=
      rest.abreast (toToken_abreast (abreast_start hx))
    have hstop' : dropBlanks stop'.rest = [] := by
      rw [← dropBlanks_eq_nil_iff, ← hstops.rest, dropBlanks_eq_nil_iff]
      exact hstop
    rw [← getLast?_any_of_alike halike] at hlast
    have hu : isCut u = true := by rwa [isCut, hhead, ← isCut]
    -- the tokens of `x` stay what they are, and so are the first of those of the literal
    have hextend := ih hpasses hstop' hu (.inl (hlast.imp_left And.left))
    rw [hextend.arrayItems?_eq_none hstop' (hlast.imp_left And.right) hus] at hitems
    cases hitems

/-- **The tokens of a text stay what they are when a `;` or a blank comes behind it**, if that is
behind all array literals of it. -/
theorem Passes.extend (h : Passes ao c ts ao' stop) (hstop : dropBlanks stop.rest = [])
    (he : isCut e = true) (hjoin : Joins ao c ts e) :
    Passes ao (c.extend e) ts ao' (stop.extend e) := by
  -- the induction is on the length of the text, since it is used for the text behind a `(` as well
  induction hn : c.rest.length using Nat.strongRecOn generalizing ao c ts ao' stop e with
  | _ n ih =>
    subst hn
    cases h with
    | nil => exact .nil _ _
    | @cons _ _ _ d _ t ts first rest =>
      have hspans := spans_of_readToken first
      -- the tokens behind the first one stay what they are, if there are any
      have hrest : Passes (isOperand t) (d.extend e) ts ao' (stop.extend e) := by
        by_cases hne : ts = []
        · subst hne
          cases rest
          exact .nil _ _
        · exact ih _ hspans.length_lt rest hstop he (hjoin.tail hne first) rfl
      refine .cons (readToken_settles he ao (fun x hx hnone => ?_) t d first).2 hrest
      refine readArray?_extend hx hnone first rest hstop he hjoin fun hpasses hstop' hu hjoin' => ?_
      have hlt : x.length < c.rest.length := by
        have hle := (dropBlanks_suffix c.rest).length_le
        rw [← rest_toToken, hx] at hle
        exact hle
      exact ih _ hlt hpasses hstop' hu hjoin' rfl

/-! ## Two texts, one after the other

The second text is read as it is alone if nothing in the first one goes on in it, and if it does not
matter whether an operand comes before it. -/

/-- What stands before a place is the last of the characters that were passed. A path and the `-` of
a number are told by it from an operator. -/
theorem before_skip (b : Option Char) (w r : List Char) (p : Position) :
    ((Cursor.mk b (w ++ r) p).skip w.length).before? = w.getLast?.or b := by
  induction w generalizing b p with
  | nil => rfl
  | cons a w ih =>
    change ((Cursor.mk (some a) (w ++ r) (p.after a)).skip w.length).before? = _
    rw [ih, List.getLast?_cons]
    cases w.getLast? <;> rfl

/-- What is dropped before a token ends in a blank. -/
theorem exists_dropBlanks (s : List Char) :
    ∃ w, s = w ++ dropBlanks s ∧ w.getLast?.all Text.isBlank = true := by
  have hcons {w : List Char} (b : Char) (hb : Text.isBlank b = true)
      (hw : w.getLast?.all Text.isBlank = true) : (b :: w).getLast?.all Text.isBlank = true := by
    rw [List.getLast?_cons]
    cases hlast : w.getLast? with
    | none => exact hb
    | some a =>
      rw [hlast] at hw
      exact hw
  -- a backslash at the end of a line is dropped with the line break, which is a blank
  fun_induction dropBlanks s with
  | case1 => exact ⟨[], rfl, rfl⟩
  | case2 s ih =>
    obtain ⟨w, hs, hw⟩ := ih
    refine ⟨'\\' :: '\n' :: w, congrArg ('\\' :: '\n' :: ·) hs, ?_⟩
    rw [List.getLast?_cons_cons]
    exact hcons '\n' rfl hw
  | case3 b s _ hb ih =>
    obtain ⟨w, hs, hw⟩ := ih
    exact ⟨b :: w, congrArg (b :: ·) hs, hcons b hb hw⟩
  | case4 b s => exact ⟨[], rfl, rfl⟩

/-- Behind blanks any token can begin. Where there are none, what stands before has to be asked,
since a path and a number with a sign begin only behind a separator. -/
theorem isFresh_toToken (h : c.before?.all isFresh = true ∨ dropBlanks c.rest ≠ c.rest) :
    c.toToken.before?.all isFresh = true := by
  obtain ⟨b, s, p⟩ := c
  obtain ⟨w, hs, hw⟩ := exists_dropBlanks s
  have hlength : s.length - (dropBlanks s).length = w.length := by
    have := congrArg List.length hs
    rw [List.length_append] at this
    omega
  have hbefore : (Cursor.mk b s p).toToken.before? = w.getLast?.or b := by
    change ((Cursor.mk b s p).skip (s.length - (dropBlanks s).length)).before? = _
    rw [hlength]
    conv => lhs; rw [hs]
    exact before_skip b w (dropBlanks s) p
  rw [hbefore]
  -- if nothing is dropped, then what stands before is what stood before
  cases hlast : w.getLast? with
  | none =>
    rcases h with h | h
    · exact h
    · obtain rfl := List.getLast?_eq_none_iff.1 hlast
      exact absurd hs.symm h
  | some a =>
    rw [hlast] at hw
    have ha : Text.isBlank a = true := hw
    simp [isFresh, ha]

/-- Of blanks, all are dropped. -/
theorem dropBlanks_of_isBlankText (h : Text.isBlankText s = true) : dropBlanks s = [] := by
  induction s with
  | nil => rfl
  | cons b s ih =>
    obtain ⟨hb, hs⟩ := Bool.and_eq_true_iff.1 h
    rw [dropBlanks_cons (ne_backslash_of_isBlank hb), if_pos hb, ih hs]

/-- Whether a `/` divides makes a difference to paths only. So a script that begins with none is
read in the same way behind an operand as at the beginning of a text. -/
theorem Completes.of_not_path (h : Completes ao c ts) (hpath : beginsPath (dropBlanks c.rest) = false) :
    Completes ao' c ts := by
  -- at no other character it is asked whether a `/` divides
  have hread (ao ao' : Bool) : readToken tokens? ao c = readToken tokens? ao' c := by
    have hnone (ao : Bool) : isAtPath ao c.toToken = false := by
      rw [isAtPath_eq, rest_toToken, hpath, Bool.and_false]
    rw [readToken_eq, readToken_eq]
    cases c.toToken.rest with
    | nil => rfl
    | cons a s =>
      dsimp only
      unfold readHere
      rw [hnone ao, hnone ao']
  cases ts with
  | nil => exact nil_iff.2 (nil_iff.1 h)
  | cons t ts =>
    obtain ⟨d, hfirst, hrest⟩ := cons_iff.1 h
    exact cons_iff.2 ⟨d, (hread ao' ao).trans hfirst, hrest⟩

/-- Blanks cut what stands before them. -/
theorem isCut_of_isBlankText {b : List Char} (hne : b ≠ []) (hb : Text.isBlankText b = true)
    (s : List Char) : isCut (b ++ s) = true := by
  obtain ⟨a, b, rfl⟩ := List.exists_cons_of_ne_nil hne
  refine isCut_cons.2 ?_
  rw [isFilled, (Bool.and_eq_true_iff.1 hb).1]
  rfl

/-- A text behind what is dropped is read like a text of its own. The second of two scripts is met
in this way when the first one is at its end. -/
theorem abreast_of_dropped {u : List Char} (hd : d.rest = u ++ s) (hu : dropBlanks u = []) (hne : u ≠ []) :
    Abreast (Cursor.start s).toToken d.toToken := by
  have hdrop : dropBlanks d.rest = dropBlanks s := by
    rw [hd]
    exact dropBlanks_append_of_eq_nil hu s
  refine ⟨?_, .inr ⟨isFresh_toToken (.inl rfl), isFresh_toToken (.inr fun heq => ?_)⟩⟩
  · rw [rest_toToken, rest_toToken]
    exact hdrop.symm
  · have hlength := congrArg List.length (hdrop.symm.trans heq)
    have hle := length_dropBlanks_le s
    have hpos := List.length_pos_iff.2 hne
    simp only [hd, List.length_append] at hlength
    omega

/-- **The tokens of two texts with blanks between them** are those of the first and then those of the
second, if the second is behind all array literals of the first, and does not begin with a path of
which the `/` would divide. -/
theorem Passes.join {b : List Char} (h : Passes ao c ts ao' stop) (hstop : dropBlanks stop.rest = [])
    (hne : b ≠ []) (hb : Text.isBlankText b = true) (hjoin : Joins ao c ts (b ++ s))
    (h' : Completes false (.start s) us) (hpath : ao' = true → beginsPath (dropBlanks s) = false) :
    ∃ us', Completes ao (c.extend (b ++ s)) (ts ++ us') ∧ Alike us' us := by
  have hcut := isCut_of_isBlankText hne hb s
  have habreast : Abreast (Cursor.start s).toToken (stop.extend (b ++ s)).toToken := by
    refine abreast_of_dropped (List.append_assoc _ _ _).symm ?_ ?_
    · rw [dropBlanks_append_of_eq_nil hstop, dropBlanks_of_isBlankText hb]
    · exact List.append_ne_nil_of_right_ne_nil _ hne
  -- behind an operand a `/` would divide, so there the second text must not begin with a path
  have hus : Completes ao' (.start s) us := by
    cases ao' with
    | false => exact h'
    | true => exact h'.of_not_path (hpath rfl)
  obtain ⟨us', ⟨ao'', stop', hpasses, hstop'⟩, halike⟩ := hus.abreast habreast
  exact ⟨us', ⟨ao'', stop', (h.extend hstop hcut hjoin).append hpasses, hstop'⟩, halike⟩

/-- If all of a text is dropped, so is the end of it. The end may cut a backslash from its line
break, and a line break by itself is dropped, too. -/
theorem dropBlanks_eq_nil_of_suffix (h : dropBlanks s = []) (hr : r <:+ s) : dropBlanks r = [] := by
  fun_induction dropBlanks s with
  | case1 =>
    rw [List.suffix_nil.1 hr]
    rfl
  | case2 s ih =>
    rcases List.suffix_cons_iff.1 hr with rfl | hr
    · exact h
    rcases List.suffix_cons_iff.1 hr with rfl | hr
    · exact h
    · exact ih h hr
  | case3 b s hpair hb ih =>
    rcases List.suffix_cons_iff.1 hr with rfl | hr
    · rw [dropBlanks_cons (ne_backslash_of_isBlank hb), if_pos hb]
      exact h
    · exact ih h hr
  | case4 => cases h

/-- The last token ends in the last character of a text that is not blank. Of what is left behind
it, only blanks are dropped, and that character is none. -/
theorem Passes.exists_end {u w : List Char} {z : Char} (h : Passes ao c ts ao' stop)
    (hstop : dropBlanks stop.rest = []) (hc : c.rest = u ++ z :: w) (hz : dropBlanks (z :: w) ≠ [])
    (hw : ∀ b ∈ w, Text.isBlank b = true) :
    ∃ t, ts.getLast? = some t ∧ ao' = isOperand t ∧ (z = ';' → t.isPunctuation ';' = true) ∧
      (isOperand t = true → z.isDigit = true ∨ z = ')') := by
  have hsuffix : z :: w <:+ c.rest := ⟨u, hc.symm⟩
  have hne : ts ≠ [] := by
    rintro rfl
    cases h
    exact hz (dropBlanks_eq_nil_of_suffix hstop hsuffix)
  obtain ⟨t, d, ht, hao, ⟨y, ⟨w', hd, -⟩, hy, hsemicolon, hoperand⟩, hdc⟩ := h.exists_last hne
  have hyc : y :: stop.rest <:+ c.rest := .trans ⟨w', hd.symm⟩ hdc
  -- the last character of the last token is not among the blanks at the end
  have hyw : ¬y :: stop.rest <:+ w := by
    intro hyw
    rw [hw y (hyw.subset List.mem_cons_self)] at hy
    cases hy
  obtain rfl : y = z := by
    -- the last token ends at the last character, or before it, or behind it
    rcases List.suffix_or_suffix_of_suffix hyc hsuffix with hyz | hzy
    · rcases List.suffix_cons_iff.1 hyz with heq | hyz
      · exact (List.cons.inj heq).1
      · exact absurd hyz hyw
    · rcases List.suffix_cons_iff.1 hzy with heq | hzy
      · exact (List.cons.inj heq).1.symm
      · exact absurd (dropBlanks_eq_nil_of_suffix hstop hzy) hz
  exact ⟨t, ht, hao, hsemicolon, hoperand⟩

/-- The last token of a text that ends in a `;` is a `;`. No other token ends in this character: a
text in quotes may hold one, but ends in its quote. -/
theorem Passes.semicolon (h : Passes ao c ts ao' stop) (hstop : dropBlanks stop.rest = [])
    (hlast : c.rest.getLast? = some ';') :
    ao' = false ∧ ts.getLast?.any (·.isPunctuation ';') = true := by
  obtain ⟨u, hu⟩ := List.getLast?_eq_some_iff.1 hlast
  obtain ⟨t, ht, rfl, hsemicolon, -⟩ := h.exists_end hstop hu (List.cons_ne_nil _ _) nofun
  obtain ⟨p, rfl⟩ := Token.isPunctuation_iff.1 (hsemicolon rfl)
  exact ⟨rfl, by rw [ht]; rfl⟩

/-- **The tokens of two texts, the first of which ends in a `;`**, with a new line between them.
They are the tokens of the one and then those of the other, up to where they stand. -/
theorem exists_scan_join {p q : Position} (h : scan s = ⟨ts, .ok p⟩) (hlast : s.getLast? = some ';')
    (h' : scan r = ⟨us, .ok q⟩) : ts.getLast?.any (·.isPunctuation ';') = true ∧
      ∃ us' p', scan (s ++ '\n' :: r) = ⟨ts ++ us', .ok p'⟩ ∧ Alike us' us := by
  obtain ⟨ao', stop, hpasses, hstop⟩ := exists_scan_iff.1 ⟨p, h⟩
  obtain ⟨rfl, hsemicolon⟩ := hpasses.semicolon hstop hlast
  obtain ⟨us', hcompletes, halike⟩ :=
    hpasses.join (b := ['\n']) hstop (List.cons_ne_nil _ _) rfl (.inl (.inr hsemicolon))
      (exists_scan_iff.1 ⟨q, h'⟩) nofun
  obtain ⟨p', hp'⟩ := exists_scan_iff.2 hcompletes
  exact ⟨hsemicolon, us', p', hp', halike⟩

end CommandLanguage.Lexer
