import CommandLanguage.Expr.Parse

/-!
# Tokens up to their places

What a token is read as depends on what it is and not on where it stands; its place only shows in
faults. Two lists are `Token.Alike` if their tokens differ in nothing but their places, also the
places of the items of array literals.

That is an equation between the lists without places, so it is an equivalence without further proof,
and whatever a list without places determines is the same for lists that are alike: their length, their
weight, and which characters and words their tokens are.
-/

namespace CommandLanguage

namespace Token

mutual

/-- A token without its place. Two tokens that differ in place only are read as the same expression,
so this is how tokens are compared. -/
def unplaced : Token → Token
  | .plain l _ => .plain l default
  | .array items _ => .array (unplacedList items) default

/-- Tokens without their places. -/
def unplacedList : List Token → List Token
  | [] => []
  | t :: ts => t.unplaced :: unplacedList ts

end

/-- A lexeme as a token, at no place in particular. -/
def of (l : Lexeme) : Token := .plain l default

/-- A punctuation character as a token. -/
abbrev mark (c : Char) : Token := of (.punctuation c)

/-- A reserved word as a token. -/
abbrev reserved (w : String) : Token := of (.keyword w)

/-- A name without `$` as a token. -/
abbrev word (name : String) : Token := of (.variable name false none)

/-- An operator as a token. -/
abbrev sign (o : Operator) : Token := of (.operator o)

/-- The tokens are the same up to their places. Within a script that was put together from others,
each of them stands further down than in its own. -/
def Alike (ts us : List Token) : Prop := unplacedList ts = unplacedList us

variable {t u : Token} {ts us vs : List Token}

/-- The definition is written out for the sake of the recursion on items; this is what it comes
to. -/
theorem unplacedList_eq_map (ts : List Token) : unplacedList ts = ts.map unplaced := by
  induction ts with
  | nil => rfl
  | cons t ts ih => simp [unplacedList, ih]

/-- Which character a token is can be told without its place. -/
theorem isPunctuation_unplaced (t : Token) (c : Char) :
    t.unplaced.isPunctuation c = t.isPunctuation c := by
  cases t with
  | plain l s => cases l <;> rfl
  | array items s => rfl

/-- A punctuation character is one token, up to its place. -/
theorem isPunctuation_iff {c : Char} :
    t.isPunctuation c = true ↔ ∃ s, t = .plain (.punctuation c) s := by
  constructor
  · intro h
    rcases t with ⟨l, s⟩ | ⟨items, s⟩
    · cases l with
      | punctuation d =>
        obtain rfl : c = d := by simpa [isPunctuation] using h
        exact ⟨s, rfl⟩
      | _ => cases h
    · cases h
  · rintro ⟨s, rfl⟩
    simp [isPunctuation]

/-- So can which reserved word it is. -/
theorem isKeyword_unplaced (t : Token) (w : String) : t.unplaced.isKeyword w = t.isKeyword w := by
  cases t with
  | plain l s => cases l <;> rfl
  | array items s => rfl

/-- To move the end of a token changes its place only. -/
theorem unplaced_withStop (t : Token) (p : Position) : (t.withStop p).unplaced = t.unplaced := by
  cases t with
  | plain l s => rfl
  | array items s => rfl

mutual

/-- The weight counts the characters of indices, also of those in items, and has no use for
places. -/
theorem weight_unplaced : ∀ t : Token, t.unplaced.weight = t.weight
  | .plain l _ => by
    cases l with
    | «variable» n d index => cases index <;> rfl
    | _ => rfl
  | .array items _ => congrArg (1 + ·) (weightList_unplaced items)

theorem weightList_unplaced : ∀ ts, weightList (unplacedList ts) = weightList ts
  | [] => rfl
  | t :: ts => by
    simp only [unplacedList, weightList, weight_unplaced t, weightList_unplaced ts]

end

/-- The weights of tokens add up. -/
theorem weightList_append (ts us : List Token) :
    weightList (ts ++ us) = weightList ts + weightList us := by
  induction ts with
  | nil => simp [weightList]
  | cons t ts ih => simp only [List.cons_append, weightList, ih]; omega

/-- A token weighs no more than all of them. -/
theorem weight_le_weightList (h : t ∈ ts) : t.weight ≤ weightList ts := by
  induction ts with
  | nil => cases h
  | cons u ts ih =>
    simp only [weightList]
    rcases List.mem_cons.1 h with rfl | h
    · omega
    · have := ih h
      omega

/-- No token is without weight, so that there are no more tokens than they weigh. -/
theorem one_le_weight (t : Token) : 1 ≤ t.weight := by
  cases t with
  | plain l s =>
    cases l with
    | «variable» n d index => cases index <;> simp [weight]
    | _ => simp [weight]
  | array items s => simp [weight]

namespace Alike

theorem refl (ts : List Token) : Alike ts ts := rfl

theorem symm (h : Alike ts us) : Alike us ts := Eq.symm h

theorem trans (h : Alike ts us) (h' : Alike us vs) : Alike ts vs := Eq.trans h h'

/-- Lists alike are so when others alike come behind them. -/
theorem append {ts' us' : List Token} (h : Alike ts us) (h' : Alike ts' us') :
    Alike (ts ++ ts') (us ++ us') := by
  simp only [Alike, unplacedList_eq_map, List.map_append] at *
  rw [h, h']

/-- A first token may be put in front of both. -/
theorem cons (ht : t.unplaced = u.unplaced) (h : Alike ts us) : Alike (t :: ts) (u :: us) := by
  unfold Alike unplacedList
  rw [ht, h]

/-- Only a list without tokens is like one without. -/
theorem eq_nil (h : Alike ts []) : ts = [] := by
  cases ts with
  | nil => rfl
  | cons t ts => cases h

/-- What is like a list with a first token has one, too. -/
theorem exists_cons (h : Alike ts (u :: us)) :
    ∃ t ts', ts = t :: ts' ∧ t.unplaced = u.unplaced ∧ Alike ts' us := by
  cases ts with
  | nil => cases h
  | cons t ts =>
    obtain ⟨ht, hts⟩ := List.cons.inj h
    exact ⟨t, ts, rfl, ht, hts⟩

/-- What is like two lists, one after the other, can be cut in the same way. A reader that takes
tokens like the first ones leaves tokens like the second ones. -/
theorem exists_append (h : Alike ts (us ++ vs)) :
    ∃ ts₁ ts₂, ts = ts₁ ++ ts₂ ∧ Alike ts₁ us ∧ Alike ts₂ vs := by
  simp only [Alike, unplacedList_eq_map, List.map_append] at h
  obtain ⟨ts₁, ts₂, rfl, h₁, h₂⟩ := List.map_eq_append_iff.1 h
  exact ⟨ts₁, ts₂, rfl, by simpa only [Alike, unplacedList_eq_map] using h₁,
    by simpa only [Alike, unplacedList_eq_map] using h₂⟩

/-- Tokens alike have the same weight, and with it trees of them may be as deep. So the bound that
parsing sets itself is the same for both. -/
theorem weightList_eq (h : Alike ts us) : weightList ts = weightList us := by
  rw [← weightList_unplaced ts, h, weightList_unplaced]

/-- There are as many. -/
theorem length_eq (h : Alike ts us) : ts.length = us.length := by
  simpa only [unplacedList_eq_map, List.length_map] using congrArg List.length h

/-- Tokens alike are the same punctuation characters. -/
theorem isPunctuation_eq (h : t.unplaced = u.unplaced) (c : Char) :
    t.isPunctuation c = u.isPunctuation c := by
  rw [← isPunctuation_unplaced, h, isPunctuation_unplaced]

/-- Tokens alike are the same reserved words. -/
theorem isKeyword_eq (h : t.unplaced = u.unplaced) (w : String) :
    t.isKeyword w = u.isKeyword w := by
  rw [← isKeyword_unplaced, h, isKeyword_unplaced]

/-- Tokens alike are left without a punctuation character. -/
theorem filter_isPunctuation (h : Alike ts us) (c : Char) :
    Alike (ts.filter (!·.isPunctuation c)) (us.filter (!·.isPunctuation c)) := by
  have hfilter (l : List Token) : (l.filter (!·.isPunctuation c)).map unplaced =
      (l.map unplaced).filter (!·.isPunctuation c) := by
    rw [List.filter_map]
    congr 2
    funext t
    simp [isPunctuation_unplaced]
  simp only [Alike, unplacedList_eq_map] at *
  rw [hfilter, hfilter, h]

/-- What is like a lexeme in its place is that lexeme in another place. -/
theorem exists_plain {l : Lexeme} (h : t.unplaced = (Token.of l).unplaced) :
    ∃ s, t = .plain l s := by
  cases t with
  | plain l' s' =>
    cases h
    exact ⟨s', rfl⟩
  | array items s' => cases h

end Alike

end Token

end CommandLanguage
