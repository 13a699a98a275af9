import CommandLanguage.Proofs.Token.Spelling

/-!
# Where tokens stand

The tokens of a text and what stands between them make up the text: `Lexer.Layout` takes it apart into
gaps and the spellings of tokens, each with its place. Reading keeps one invariant, that the position
of the cursor is that behind the text that was passed (`Cursor.Covers.position_eq`), so the place of a
token is where its spelling stands.
-/

namespace CommandLanguage

namespace Position

/-- The position behind a text: one more than the line ends in it, and one more than the characters
since the last of them. -/
def behind (s : List Char) : Position :=
  ⟨1 + s.count '\n', 1 + (s.reverse.takeWhile (· != '\n')).length⟩

/-- One character more moves the position as it does the one of a cursor. -/
theorem behind_concat (s : List Char) (a : Char) : behind (s ++ [a]) = (behind s).after a := by
  unfold behind after
  rw [List.reverse_append, List.count_append]
  -- a line end begins a line, and any other character makes the line longer
  by_cases ha : a = '\n'
  · subst ha
    simp [Nat.add_assoc]
  · have hcount : List.count '\n' [a] = 0 := by simp [ha]
    simp [ha, hcount, Nat.add_assoc]

end Position

/-- Where the position of a cursor is that behind a text, it is so behind a longer one. -/
theorem Cursor.Covers.position_eq {c stop : Cursor} {w before : List Char} (h : c.Covers w stop)
    (hc : c.position = .behind before) : stop.position = .behind (before ++ w) := by
  -- character by character, as a cursor moves
  induction w generalizing c before with
  | nil =>
    rw [List.append_nil, h.stop]
    exact hc
  | cons a w ih =>
    have hstep : c.step.position = .behind (before ++ [a]) := by
      obtain ⟨b, rest, p⟩ := c
      obtain rfl : rest = a :: (w ++ stop.rest) := h.rest
      rw [Position.behind_concat, ← hc]
      rfl
    have hrest : c.step.Covers w stop := by
      refine ⟨?_, h.stop⟩
      rw [Cursor.rest_step, h.rest]
      rfl
    rw [ih hrest hstep, List.append_assoc]
    rfl

namespace Lexer

open Cursor (Covers)

variable {ao : Bool} {c : Cursor} {s before : List Char} {t : Token} {ts : List Token}

/-- What can stand between tokens: blanks, and line ends with a backslash before them. -/
inductive Gap : List Char → Prop
  /-- nothing -/
  | nil : Gap []
  /-- a blank comes first -/
  | blank {a : Char} {s : List Char} : Text.isBlank a = true → Gap s → Gap (a :: s)
  /-- a line end with a backslash before it comes first -/
  | lineEnd {s : List Char} : Gap s → Gap ('\\' :: '\n' :: s)

/-- The tokens of a text that stands behind another one: in their order, each where it is spelled,
and with nothing but gaps between them. -/
inductive Layout : (before rest : List Char) → List Token → Prop
  /-- there are no tokens -/
  | nil {before gap : List Char} : Gap gap → Layout before gap []
  /-- a token comes first -/
  | cons {before gap w rest : List Char} {k : Token.Kind} {t : Token} {ts : List Token} :
    Gap gap → w ≠ [] → Spelled k w t →
      t.span = ⟨.behind (before ++ gap), .behind (before ++ gap ++ w)⟩ →
        Layout (before ++ gap ++ w) rest ts → Layout before (gap ++ w ++ rest) (t :: ts)

/-- What is dropped before a token is a gap. -/
theorem exists_gap (s : List Char) : ∃ gap, Gap gap ∧ s = gap ++ dropBlanks s := by
  fun_induction dropBlanks s with
  | case1 => exact ⟨[], .nil, rfl⟩
  | case2 s ih =>
    obtain ⟨gap, hgap, hs⟩ := ih
    exact ⟨'\\' :: '\n' :: gap, .lineEnd hgap, congrArg (fun s => '\\' :: '\n' :: s) hs⟩
  | case3 a s _ ha ih =>
    obtain ⟨gap, hgap, hs⟩ := ih
    exact ⟨a :: gap, .blank ha hgap, congrArg (a :: ·) hs⟩
  | case4 a s _ ha => exact ⟨[], .nil, rfl⟩

/-- A token that is read is spelled behind a gap. -/
theorem exists_of_readToken {stop : Cursor} (h : readToken tokens? ao c = (.ok (some t), stop)) :
    ∃ gap d, Gap gap ∧ c.Covers gap d ∧ Occupies d t stop := by
  obtain ⟨gap, hgap, hrest⟩ := exists_gap c.rest
  refine ⟨gap, c.toToken, hgap, .moveTo hrest, ?_⟩
  -- at the end of the text no token would have been read
  cases htoken : c.toToken.rest with
  | nil =>
    rw [readToken_of_nil htoken] at h
    cases h
  | cons a s =>
    rw [readToken_of_cons htoken] at h
    exact readHere_occupies htoken h

/-- All tokens from a cursor on, if its position is that behind what was passed. -/
theorem Completes.layout (h : Completes ao c ts) (hc : c.position = .behind before) :
    Layout before c.rest ts := by
  -- one token after the other, each behind a longer text
  induction ts generalizing ao c before with
  | nil =>
    obtain ⟨gap, hgap, hrest⟩ := exists_gap c.rest
    rw [nil_iff.1 h, List.append_nil] at hrest
    rw [hrest]
    exact .nil hgap
  | cons t ts ih =>
    obtain ⟨stop, hread, hmore⟩ := cons_iff.1 h
    obtain ⟨gap, d, hgap, hd, k, w, hne, hcovers, hspelled, hspan⟩ := exists_of_readToken hread
    have hstart := hd.position_eq hc
    have hstop := hcovers.position_eq hstart
    rw [hstart, hstop] at hspan
    rw [hd.rest, hcovers.rest, ← List.append_assoc]
    exact .cons hgap hne hspelled hspan (ih hmore hstop)

/-- **Reading loses nothing.** If a text has tokens to its end, it is made up of their spellings, in
their order, and of gaps; the place of each is where its spelling stands; and by its kind and its
spelling it is told what it is. -/
theorem tokens?_layout :
    (∀ s ts, tokens? s = some ts → Layout [] s ts) ∧
    ∀ k w t u, Spelled k w t → Spelled k w u → t.span = u.span → t = u := by
  refine ⟨fun s ts h => ?_, fun k w t u h h' => h.unique h' rfl⟩
  have hcompletes := tokens?_eq_some_iff.1 h
  exact hcompletes.layout rfl

/-- A token of punctuation is spelled with its character. -/
theorem Spelled.eq_of_isPunctuation {k : Token.Kind} {w : List Char} {x : Char} (h : Spelled k w t)
    (hx : t.isPunctuation x = true) : w = [x] := by
  cases h with
  | punctuation => rw [eq_of_beq hx]
  -- what is read from a text in quotes is no punctuation
  | quoted =>
    unfold quotedLexeme at hx
    split at hx
    · cases hx
    · split at hx <;> cases hx
  | _ => cases hx

/-- A character that is read as punctuation stands in the text. -/
theorem Layout.mem_of_isPunctuation {x : Char} (h : Layout before s ts) (ht : t ∈ ts)
    (hx : t.isPunctuation x = true) : x ∈ s := by
  induction h with
  | nil => cases ht
  | cons _ _ hspelled _ _ ih =>
    rcases List.mem_cons.1 ht with rfl | ht
    · rw [hspelled.eq_of_isPunctuation hx]
      exact List.mem_append_left _ (List.mem_append_right _ List.mem_cons_self)
    · exact List.mem_append_right _ (ih ht)

/-- A word and an array literal, with a gap of two lines between them. -/
theorem tokens?_layout_gap :
    ∃ ts, tokens? "echo \\\n (\"a\" b)".toList = some ts ∧
      Layout [] "echo \\\n (\"a\" b)".toList ts := by
  have hsome : (tokens? "echo \\\n (\"a\" b)".toList).isSome = true := by decide +kernel
  obtain ⟨ts, hts⟩ := Option.isSome_iff_exists.1 hsome
  exact ⟨ts, hts, tokens?_layout.1 _ ts hts⟩

end Lexer

end CommandLanguage
