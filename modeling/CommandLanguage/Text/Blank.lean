/-!
# Blank characters

What separates words, and the trimming and splitting that rests on it:

* `isBlank` — the `White_Space` property;
* `trimStart`, `trimEnd`, `trim` — a text without its outer blanks;
* `pieces` — a text cut at every character of a class, cuts included in nothing;
* `words` — the maximal blank-free runs of a text.

All of them work on lists of characters; `String` versions stand at the end.
-/

namespace CommandLanguage.Text

/-- A character of a kind is no character of another kind. -/
theorem ne_of_kind {kind : Char → Bool} {c d : Char} (hc : kind c = true) (hd : kind d = false) :
    c ≠ d := by
  rintro rfl
  rw [hc] at hd
  cases hd

/-- Letters are the code points from `A` to `Z` and from `a` to `z`. -/
theorem toNat_of_isAlpha {c : Char} (h : c.isAlpha = true) :
    65 ≤ c.toNat ∧ c.toNat ≤ 90 ∨ 97 ≤ c.toNat ∧ c.toNat ≤ 122 := by
  rcases Bool.or_eq_true_iff.1 h with h | h
  · exact .inl (of_decide_eq_true h)
  · obtain ⟨hl, hu⟩ := Bool.and_eq_true_iff.1 h
    exact .inr ⟨of_decide_eq_true hl, of_decide_eq_true hu⟩

/-- Digits are the code points from `0` to `9`. -/
theorem toNat_of_isDigit {c : Char} (h : c.isDigit = true) : 48 ≤ c.toNat ∧ c.toNat ≤ 57 :=
  Char.isDigit_iff_toNat.1 h

/-- A text of characters of one kind is what is taken up to a character of another kind. -/
theorem span_append {kind : Char → Bool} {s r : List Char} (hs : ∀ c ∈ s, kind c = true)
    (hr : ∀ c, r.head? = some c → kind c = false) :
    (s ++ r).takeWhile kind = s ∧ (s ++ r).dropWhile kind = r := by
  have hend : r.takeWhile kind = [] ∧ r.dropWhile kind = r := by
    cases r with
    | nil => exact ⟨rfl, rfl⟩
    | cons c r => simp [hr c rfl]
  rw [List.takeWhile_append_of_pos hs, List.dropWhile_append_of_pos hs, hend.1, hend.2]
  exact ⟨List.append_nil s, rfl⟩

/-- The twenty-five characters with the `White_Space` property. -/
def isBlank (c : Char) : Bool :=
  let n := c.toNat
  n == 0x20 || (0x09 ≤ n && n ≤ 0x0D) || n == 0x85 || n == 0xA0 || n == 0x1680 ||
    (0x2000 ≤ n && n ≤ 0x200A) || n == 0x2028 || n == 0x2029 || n == 0x202F || n == 0x205F ||
    n == 0x3000

/-- The text from its first character that is not blank. -/
def trimStart (s : List Char) : List Char := s.dropWhile isBlank

/-- The text up to its last character that is not blank. -/
def trimEnd (s : List Char) : List Char := (s.reverse.dropWhile isBlank).reverse

/-- The text without the blanks around it. -/
def trim (s : List Char) : List Char := trimEnd (trimStart s)

/-- The parts of a text between the characters of a class. There is always one more part than
there are such characters, so the empty text has one empty part. -/
def pieces (cut : Char → Bool) : List Char → List (List Char)
  | [] => [[]]
  | c :: r =>
    match cut c, pieces cut r with
    | true, ps => [] :: ps
    | false, [] => [[c]]
    | false, p :: ps => (c :: p) :: ps

theorem pieces_ne_nil (cut : Char → Bool) (s : List Char) : pieces cut s ≠ [] := by
  induction s with
  | nil => simp [pieces]
  | cons c r ih => simp only [pieces]; split <;> simp

/-- The lines of a text. -/
def lines (s : List Char) : List (List Char) := pieces (· == '\n') s

/-- The maximal runs of characters that are not blank. -/
def words (s : List Char) : List (List Char) := (pieces isBlank s).filter (!·.isEmpty)

/-- Whether a text holds nothing but blanks. -/
def isBlankText (s : List Char) : Bool := s.all isBlank

end CommandLanguage.Text

namespace String

open CommandLanguage

/-- The blank-separated words of a text. -/
def blankWords (s : String) : List String := (Text.words s.toList).map String.ofList

/-- Whether a text holds nothing but blanks. -/
def isBlankText (s : String) : Bool := Text.isBlankText s.toList

end String
