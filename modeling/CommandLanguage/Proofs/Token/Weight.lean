import CommandLanguage.Proofs.Token.Layout

/-!
# Tokens and the texts they hold

Some tokens hold texts that are read again: the items of an array literal are the tokens of the text
between its parentheses, and an index is read once its value is needed. The weight of a token counts the
characters of all these texts, and it is never more than the characters of the token itself
(`weightList_scan_le`). So every text that is read again is shorter than the text around it.

* `length_lt_of_holdsIndex` — an index is shorter than the text in which it stands;
* `scanFrom_innerTokens?` — to read a token, the tokens of shorter texts are enough, so the bounds of the
  lexer are never reached.
-/

namespace CommandLanguage

namespace Token

variable {t : Token} {ts us : List Token} {raw : String}

/-- The text is an index of the token, or of an item of it. These are the texts within a token that
are read again later, when the token is looked up. -/
inductive HoldsIndex (raw : String) : Token → Prop
  /-- it is the index of a variable -/
  | here {name : String} {deref : Bool} {p : Span} :
    HoldsIndex raw (.plain (.variable name deref (some raw)) p)
  /-- it is an index of an item -/
  | item {u : Token} {items : List Token} {p : Span} : u ∈ items → HoldsIndex raw u →
    HoldsIndex raw (.array items p)

/-- Whether a token is a variable with the index. -/
def hasIndex (raw : String) : Token → Bool
  | .plain (.variable _ _ (some index)) _ => index == raw
  | _ => false

/-- A test by which an index can be found in a token. -/
theorem HoldsIndex.of_hasIndex (h : t.hasIndex raw = true) : t.HoldsIndex raw := by
  unfold hasIndex at h
  split at h
  · rw [← eq_of_beq h]
    exact .here
  · cases h

/-- The weight of a token counts the characters of its indices. So an index is always lighter than
the token that it stands in. -/
theorem HoldsIndex.lt_weight (h : t.HoldsIndex raw) : raw.length < t.weight := by
  -- one more for each array literal that the index stands in
  induction h with
  | here => rw [weight]; omega
  | @item u items p hu _ ih =>
    have hle := weight_le_weightList hu
    rw [weight]
    omega

/-- Fewer tokens weigh no more. -/
theorem weightList_le_of_sublist (h : ts.Sublist us) : weightList ts ≤ weightList us := by
  induction h with
  | slnil => exact Nat.le_refl 0
  | cons u _ ih =>
    rw [weightList]
    omega
  | cons_cons u _ ih =>
    rw [weightList, weightList]
    omega

end Token

namespace Lexer

open Token (weightList weightList_le_of_sublist)

variable {inner : List Char → Option (List Token)} {ao : Bool} {c stop : Cursor} {k : Token.Kind}
  {s w : List Char} {t : Token} {ts : List Token} {raw : String}

/-- A text between quotes holds no text that is read again. -/
theorem weight_quotedLexeme (q : Quote) (value : List Char) (p : Span) :
    (Token.plain (quotedLexeme q value) p).weight = 1 := by
  unfold quotedLexeme
  split
  · rfl
  · split <;> rfl

/-- What a token holds is part of how it is written, if that is so for the texts of array literals. -/
theorem Spelled.weight_le (h : Spelled k w t) (hne : w ≠ [])
    (ih : ∀ v us, v.length < w.length → tokens? v = some us → weightList us ≤ v.length) :
    t.weight ≤ w.length := by
  have hpos : 1 ≤ w.length := List.length_pos_iff.2 hne
  cases h with
  | @«variable» name deref index p =>
    cases index with
    | none => exact hpos
    | some index =>
      simp only [Option.map_some, Token.weight, String.length_ofList, variableText, indexText,
        List.length_append, List.length_cons, List.length_nil]
      omega
  -- two parentheses and the text between them, whose commas are no items
  | @array v us p hus =>
    have hv : v.length < ('(' :: (v ++ [')'])).length := by
      simp only [List.length_cons, List.length_append, List.length_nil]
      omega
    have hle := ih v us hv hus
    have hitems : weightList (us.filter (!·.isPunctuation ',')) ≤ weightList us :=
      weightList_le_of_sublist List.filter_sublist
    simp only [Token.weight, List.length_cons, List.length_append, List.length_nil]
    omega
  | quoted => rwa [weight_quotedLexeme]
  | _ => exact hpos

/-- The tokens that are read weigh no more than the text that they are read from. -/
theorem weightList_scanFrom_le {fuel : Nat}
    (ih : ∀ v us, v.length < c.rest.length → tokens? v = some us → weightList us ≤ v.length) :
    weightList (scanFrom tokens? fuel ao c).tokens ≤ c.rest.length := by
  induction fuel generalizing ao c with
  | zero => exact Nat.zero_le _
  | succ fuel ihfuel =>
    rw [scanFrom]
    split
    · exact Nat.zero_le _
    · exact Nat.zero_le _
    · rename_i t stop hread
      obtain ⟨gap, d, -, hgap, k, w, hne, hcovers, hspelled, -⟩ := exists_of_readToken hread
      -- the gap before the token, the token, and what is left
      have hlength : c.rest.length = gap.length + (w.length + stop.rest.length) := by
        rw [hgap.rest, hcovers.rest, List.length_append, List.length_append]
      have hpos : 1 ≤ w.length := List.length_pos_iff.2 hne
      have htoken := hspelled.weight_le hne fun v us hv => ih v us (by omega)
      have hmore : weightList (scanFrom tokens? fuel (isOperand t) stop).tokens ≤ stop.rest.length :=
        ihfuel fun v us hv => ih v us (by omega)
      dsimp only
      rw [weightList]
      omega

/-- **The tokens of a text weigh no more than the text.** -/
theorem weightList_scan_le (s : List Char) : weightList (scan s).tokens ≤ s.length := by
  -- on the length of the text, since the text of an array literal is shorter
  induction hlength : s.length using Nat.strongRecOn generalizing s with
  | ind n ih =>
    subst hlength
    rw [scan_eq]
    refine weightList_scanFrom_le fun v us hv hus => ?_
    have heq : us = (scan v).tokens := by
      unfold tokens? Scan.complete? at hus
      split at hus
      · exact (Option.some.inj hus).symm
      · cases hus
    rw [heq]
    exact ih _ hv v rfl

/-- An index is shorter than the text in which it stands. -/
theorem length_lt_of_holdsIndex (ht : t ∈ (scan s).tokens) (h : t.HoldsIndex raw) :
    raw.length < s.length := by
  have hindex := h.lt_weight
  have htoken := Token.weight_le_weightList ht
  have hscan := weightList_scan_le s
  omega

/-- With more steps than characters, all tokens are read. -/
theorem scanFrom_of_lt {fuel fuel' : Nat} (h : c.rest.length < fuel) (h' : c.rest.length < fuel') :
    scanFrom inner fuel ao c = scanFrom inner fuel' ao c := by
  induction fuel generalizing ao c fuel' with
  | zero => cases h
  | succ fuel ih =>
    cases fuel' with
    | zero => cases h'
    | succ fuel' =>
      rw [scanFrom, scanFrom]
      -- either reading ends, or a token was read and the text is shorter
      split
      · rfl
      · rfl
      · rename_i t stop hread
        have hlt := (spans_of_readToken hread).length_lt
        have hmore : scanFrom inner fuel (isOperand t) stop = scanFrom inner fuel' (isOperand t) stop :=
          ih (by omega) (by omega)
        dsimp only
        rw [hmore]

/-- **The bounds of the lexer are never reached.** With any greater ones the same tokens are read. -/
theorem scanFrom_innerTokens? {depth fuel : Nat} (hdepth : s.length ≤ depth) (hfuel : s.length < fuel) :
    scanFrom (innerTokens? depth) fuel false (.start s) = scan s := by
  have hsteps : scanFrom tokens? (s.length + 1) false (.start s) =
      scanFrom tokens? fuel false (.start s) := scanFrom_of_lt (Nat.lt_succ_self s.length) hfuel
  rw [scan_eq, hsteps]
  refine scanFrom_congr fun v hv => innerTokens?_eq ?_
  exact Nat.lt_of_lt_of_le hv hdepth

end Lexer

end CommandLanguage
