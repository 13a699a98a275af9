import CommandLanguage.Proofs.Reference.Piece

/-!
# Which form fits

What stands between the braces of a `${…}` is tried with every form, and read as a whole. How it goes
on behind the name that it begins with tells which form alone can fit, or what is behind its first
character if it begins with no name: `Form.only` is that form. There is a lemma for each of the forms,
which says that a body that it reads goes on in its own way.
-/

namespace CommandLanguage.Form

variable {body r : List Char} {name : String} {reference reference' : Reference}
  {form form' : Form} {c : Char}

/-- The only form that can fit what stands behind a name. Behind a colon, one more character counts:
an offset that is counted from the end begins with a parenthesis or a blank, and a default with its
sign. -/
def behindName : List Char → Form
  | [] => .whole
  | '/' :: _ => .replace
  | '[' :: _ => .elements
  | '#' :: _ | '%' :: _ => .remove
  | '^' :: _ | ',' :: _ => .changeCase
  | ':' :: c :: _ =>
    if c == '(' || isSpace c then .endSlice
    else if (Fallback.ofChar? c).isSome then .fallback
    else .slice
  | _ => .fallback

/-- The only form that can fit a body. It is found from the first characters alone, and nothing is
said of whether that form reads the whole body. -/
def only (body : List Char) : Form :=
  match splitName? body with
  | some (_, r) => behindName r
  | none =>
    match splitName? body.tail with
    | some (_, []) => .size
    | _ => .elements

/-- A body that begins with a name is decided by what stands behind the name. -/
theorem only_of_splitName? (h : splitName? body = some (name, r)) : only body = behindName r := by
  rw [only, h]

/-! ## Characters -/

/-- Blanks come before all characters that names and offsets begin with. -/
theorem toNat_le_of_isSpace (h : isSpace c = true) : c.toNat ≤ 32 := by
  simp only [isSpace, Bool.or_eq_true, beq_iff_eq, Bool.and_eq_true, decide_eq_true_eq] at h
  rcases h with rfl | ⟨-, h⟩
  · decide
  · have h : c.toNat ≤ 13 := h
    omega

/-- A name begins with a letter or an underscore. -/
theorem le_toNat_of_isNameStart (h : Text.isNameStart c = true) : 65 ≤ c.toNat := by
  rcases Bool.or_eq_true_iff.1 h with h | h
  · have hletter := Text.toNat_of_isAlpha h
    omega
  · obtain rfl := eq_of_beq h
    decide

/-- A character that an offset counted from the start can begin with. It is told by this from a
blank or a parenthesis, with which an offset from the end begins, and from the sign of a default. -/
def BeginsOffset (c : Char) : Prop := c.isDigit = true ∨ c = '$' ∨ Text.isNameStart c = true

instance : DecidablePred BeginsOffset := fun c =>
  inferInstanceAs (Decidable (c.isDigit = true ∨ c = '$' ∨ Text.isNameStart c = true))

/-- Nothing else that stands behind a colon begins like an offset: it is no blank, no parenthesis
and none of the four signs of a default. -/
theorem behindName_of_beginsOffset (hc : BeginsOffset c) : behindName (':' :: c :: r) = .slice := by
  have hspace : isSpace c = false := by
    refine Bool.eq_false_iff.2 fun h => ?_
    have hle := toNat_le_of_isSpace h
    rcases hc with hc | rfl | hc
    · have hdigit := Text.toNat_of_isDigit hc
      omega
    · exact absurd hle (by decide)
    · have hlow := le_toNat_of_isNameStart hc
      omega
  -- none of the other signs is a digit, a `$` or the beginning of a name
  have hother {d : Char} (hd : ¬BeginsOffset d) : c ≠ d := fun h => hd (h ▸ hc)
  have hparen : (c == '(') = false := beq_false_of_ne (hother (by decide))
  have hfallback : Fallback.ofChar? c = none := by
    unfold Fallback.ofChar?
    split
    · exact absurd rfl (hother (d := '-') (by decide))
    · exact absurd rfl (hother (d := '=') (by decide))
    · exact absurd rfl (hother (d := '+') (by decide))
    · exact absurd rfl (hother (d := '?') (by decide))
    · rfl
  simp only [behindName, hparen, hspace, hfallback]
  rfl

/-! ## The forms

For each form, what a body that it reads looks like behind its name. The lemmas are all of one kind,
as the forms are. -/

/-- A replacement has a slash behind its name. -/
theorem only_of_replace? (h : replace? body = some reference) : only body = .replace := by
  obtain ⟨⟨name, r⟩, hname, h⟩ := Option.bind_eq_some_iff.1 h
  obtain ⟨⟨which, r'⟩, hwhich, -⟩ := Option.bind_eq_some_iff.1 h
  rw [only_of_splitName? hname]
  simp only [splitReplacement?] at hwhich
  split at hwhich
  · rfl
  · rfl
  · rfl
  · rfl
  · cases hwhich

/-- A number that is split off begins with a digit. -/
theorem beginsOffset_of_splitDigits? {p : List Char × List Char}
    (h : Decimal.splitDigits? r = some p) : ∃ c t, r = c :: t ∧ BeginsOffset c := by
  cases r with
  | nil => cases h
  | cons c t =>
    refine ⟨c, t, rfl, .inl ?_⟩
    cases hc : c.isDigit with
    | true => rfl
    | false => simp [Decimal.splitDigits?, hc] at h

/-- A variable that is split off begins with a `$` or with its name. -/
theorem beginsOffset_of_splitVariable? {p : List Char × List Char}
    (h : splitVariable? r = some p) : ∃ c t, r = c :: t ∧ BeginsOffset c := by
  unfold splitVariable? at h
  split at h
  · exact ⟨'$', _, rfl, .inr (.inl rfl)⟩
  · cases r with
    | nil => cases h
    | cons c t =>
      refine ⟨c, t, rfl, .inr (.inr ?_)⟩
      cases hc : Text.isNameStart c with
      | true => rfl
      | false => simp [Text.splitName?, hc] at h

/-- A slice has a colon behind its name, and then a number or a variable. -/
theorem only_of_slice? (h : slice? body = some reference) : only body = .slice := by
  obtain ⟨⟨name, r⟩, hname, h⟩ := Option.bind_eq_some_iff.1 h
  rw [only_of_splitName? hname]
  dsimp only at h
  split at h
  · rename_i r
    obtain ⟨p, hoffset, -⟩ := Option.bind_eq_some_iff.1 h
    obtain ⟨c, t, rfl, hc⟩ : ∃ c t, r = c :: t ∧ BeginsOffset c := by
      cases hdigits : Decimal.splitDigits? r with
      | some p => exact beginsOffset_of_splitDigits? hdigits
      | none =>
        rw [hdigits] at hoffset
        exact beginsOffset_of_splitVariable? hoffset
    exact behindName_of_beginsOffset hc
  · cases h

/-- A slice from the end has a colon behind its name, and then a blank or a parenthesis. -/
theorem only_of_endSlice? (h : endSlice? body = some reference) : only body = .endSlice := by
  obtain ⟨⟨name, r⟩, hname, h⟩ := Option.bind_eq_some_iff.1 h
  rw [only_of_splitName? hname]
  dsimp only at h
  split at h
  · obtain ⟨⟨offset, r'⟩, hoffset, -⟩ := Option.bind_eq_some_iff.1 h
    simp only [splitEndOffset?] at hoffset
    split at hoffset
    · rfl
    · split at hoffset
      · rename_i hspace
        simp only [behindName, hspace, Bool.or_true, if_true]
      · cases hoffset
    · cases hoffset
  · cases h

/-- What to do about a missing value stands behind a name, or behind a colon there. -/
theorem behindName_of_ofChar? {action : Fallback} (h : Fallback.ofChar? c = some action) :
    behindName (c :: r) = .fallback ∧ behindName (':' :: c :: r) = .fallback := by
  unfold Fallback.ofChar? at h
  split at h
  · exact ⟨rfl, rfl⟩
  · exact ⟨rfl, rfl⟩
  · exact ⟨rfl, rfl⟩
  · exact ⟨rfl, rfl⟩
  · cases h

/-- A default has its sign behind the name, with a colon before it or without one. -/
theorem only_of_fallback? (h : fallback? body = some reference) : only body = .fallback := by
  obtain ⟨⟨name, r⟩, hname, h⟩ := Option.bind_eq_some_iff.1 h
  rw [only_of_splitName? hname]
  dsimp only at h
  split at h
  · rename_i c word hr
    obtain ⟨action, haction, -⟩ := Option.bind_eq_some_iff.1 h
    obtain ⟨hplain, hcolon⟩ := behindName_of_ofChar? (r := word) haction
    split at hr
    · cases hr
      exact hcolon
    · cases hr
      exact hplain
  · cases h

/-- A removal has `#` or `%` behind its name. -/
theorem only_of_remove? (h : remove? body = some reference) : only body = .remove := by
  obtain ⟨⟨name, r⟩, hname, h⟩ := Option.bind_eq_some_iff.1 h
  obtain ⟨⟨how, pattern⟩, hhow, -⟩ := Option.bind_eq_some_iff.1 h
  rw [only_of_splitName? hname]
  simp only [splitRemoval?] at hhow
  split at hhow
  · rfl
  · rfl
  · rfl
  · rfl
  · cases hhow

/-- A change of case has `^` or `,` behind its name. -/
theorem only_of_changeCase? (h : changeCase? body = some reference) : only body = .changeCase := by
  obtain ⟨⟨name, r⟩, hname, h⟩ := Option.bind_eq_some_iff.1 h
  obtain ⟨change, hchange, -⟩ := Option.bind_eq_some_iff.1 h
  rw [only_of_splitName? hname]
  simp only [Text.CaseChange.ofOperator?] at hchange
  split at hchange
  · rfl
  · rfl
  · rfl
  · rfl
  · cases hchange

/-- A text that is nothing but a name is split off as a whole. -/
theorem splitName?_of_name? (h : name? r = some name) : splitName? r = some (name, []) := by
  unfold name? at h
  split at h
  · rename_i hname
    cases h
    exact Reference.Name.splitName?_text ⟨r, hname⟩
  · cases h

/-- Elements are read of a name with a bracket behind it, or with a sign in front, which a name does
not begin with. -/
theorem only_of_elements? (h : elements? body = some reference) : only body = .elements := by
  obtain ⟨⟨name, r⟩, hname, h⟩ := Option.bind_eq_some_iff.1 h
  obtain ⟨⟨index, r'⟩, hindex, -⟩ := Option.bind_eq_some_iff.1 h
  obtain ⟨t, rfl⟩ : ∃ t, r = '[' :: t := by
    simp only [splitIndex?] at hindex
    split at hindex
    · exact ⟨_, rfl⟩
    · cases hindex
  -- with a sign before the name, then without one
  split at hname
  · rw [only, List.tail_cons, hname]
    rfl
  · rw [only, List.tail_cons, hname]
    rfl
  · exact only_of_splitName? hname

/-- A size has its sign in front, and behind it nothing but a name. -/
theorem only_of_size? (h : size? body = some reference) : only body = .size := by
  simp only [size?] at h
  split at h
  · obtain ⟨name, hname, -⟩ := Option.map_eq_some_iff.1 h
    rw [only, List.tail_cons, splitName?_of_name? hname]
    rfl
  · cases h

/-- A body that is nothing but a name leaves nothing to go on with. -/
theorem only_of_whole? (h : Form.whole.read? body = some reference) : only body = .whole := by
  obtain ⟨name, hname, -⟩ := Option.map_eq_some_iff.1 h
  exact only_of_splitName? (splitName?_of_name? hname)

/-- A form that reads a body is the only one that can fit it: one case for each form. Each is
settled by the lemma above on what that form asks for behind the name. -/
theorem only_of_read? (h : form.read? body = some reference) : only body = form := by
  cases form with
  | replace => exact only_of_replace? h
  | slice => exact only_of_slice? h
  | endSlice => exact only_of_endSlice? h
  | fallback => exact only_of_fallback? h
  | remove => exact only_of_remove? h
  | changeCase => exact only_of_changeCase? h
  | elements => exact only_of_elements? h
  | size => exact only_of_size? h
  | whole => exact only_of_whole? h

/-- No two forms read the same body. So the order in which they are tried does not matter for a
group by itself; it does for what one form leaves to the next. -/
theorem eq_of_read? (h : form.read? body = some reference)
    (h' : form'.read? body = some reference') : form = form' :=
  (only_of_read? h).symm.trans (only_of_read? h')

end CommandLanguage.Form
