/-!
# Names

What variables and commands are called: a letter or underscore, then letters, digits and
underscores, all of them ASCII.
-/

namespace CommandLanguage.Text

/-- Whether a name can begin with the character. -/
def isNameStart (c : Char) : Bool := c.isAlpha || c == '_'

/-- Whether a name can hold the character. -/
def isNameChar (c : Char) : Bool := c.isAlphanum || c == '_'

theorem isNameChar_of_isNameStart {c : Char} (h : isNameStart c = true) :
    isNameChar c = true := by
  simp only [isNameStart, isNameChar, Char.isAlphanum, Bool.or_eq_true] at h ⊢
  rcases h with h | h
  · exact .inl (.inl h)
  · exact .inr h

/-- Splits off the name that a text begins with, as far as it goes. -/
def splitName? : List Char → Option (List Char × List Char)
  | [] => none
  | c :: r =>
    if isNameStart c then some (c :: r.takeWhile isNameChar, r.dropWhile isNameChar) else none

/-- Whether a text is a name. -/
def isName (s : List Char) : Bool :=
  match s with
  | c :: r => isNameStart c && r.all isNameChar
  | [] => false

theorem append_of_splitName? {s name rest : List Char} (h : splitName? s = some (name, rest)) :
    name ++ rest = s := by
  cases s with
  | nil => simp [splitName?] at h
  | cons c r =>
    simp only [splitName?] at h
    split at h
    · obtain ⟨rfl, rfl⟩ := Prod.mk.inj (Option.some.inj h)
      simp
    · simp at h

theorem isName_of_splitName? {s name rest : List Char} (h : splitName? s = some (name, rest)) :
    isName name = true := by
  cases s with
  | nil => simp [splitName?] at h
  | cons c r =>
    simp only [splitName?] at h
    split at h
    · obtain ⟨rfl, rfl⟩ := Prod.mk.inj (Option.some.inj h)
      rename_i hc
      simp only [isName, hc, Bool.true_and, List.all_eq_true]
      intro a ha
      exact List.all_eq_true.1 List.all_takeWhile a ha
    · simp at h

/-- A name is shorter than the text it begins. -/
theorem length_of_splitName? {s name rest : List Char} (h : splitName? s = some (name, rest)) :
    rest.length < s.length := by
  have hs := append_of_splitName? h
  have hn := isName_of_splitName? h
  subst hs
  cases name with
  | nil => simp [isName] at hn
  | cons c r =>
    simp only [List.cons_append, List.length_cons, List.length_append]
    omega

end CommandLanguage.Text
