import CommandLanguage.Reference.Expand

/-!
# Escaped texts

A text with a backslash before every `$` has the same groups in braces as the text itself, so it is
a word with groups exactly if the text is one. Nothing in it is a reference: expansion only takes
the backslashes away again.
-/

namespace CommandLanguage

namespace Reference

@[simp] theorem escape_append (s t : List Char) : escape (s ++ t) = escape s ++ escape t :=
  List.flatMap_append

/-- Only the empty text is escaped to the empty text. -/
theorem escape_eq_nil {s : List Char} : escape s = [] ↔ s = [] := by
  cases s with
  | nil => simp
  | cons c r => by_cases h : c = '$' <;> simp [h]

/-- There is nothing to escape in a text without a `$`. -/
theorem escape_of_not_mem {t : List Char} (h : '$' ∉ t) : escape t = t := by
  induction t with
  | nil => rfl
  | cons c t ih =>
    obtain ⟨hc, ht⟩ : c ≠ '$' ∧ '$' ∉ t := by simpa [eq_comm] using h
    simp [hc, ih ht]

/-- The first part of an escaped text is the escaped first part. Each character is escaped by
itself, so a search in the one can be told to be where it is in the other. -/
theorem take_escape (s : List Char) (n : Nat) :
    (escape s).take (escape (s.take n)).length = escape (s.take n) := by
  have h : escape s = escape (s.take n) ++ escape (s.drop n) := by
    rw [← escape_append, List.take_append_drop]
  rw [h, List.take_left]

/-- An escaped text begins with the same character, if that is no `$`. -/
theorem head?_escape_eq {c : Char} (hd : c ≠ '$') (hb : c ≠ '\\') (s : List Char) :
    (escape s).head? = some c ↔ s.head? = some c := by
  cases s with
  | nil => simp
  | cons a r =>
    by_cases ha : a = '$'
    · subst ha
      simp [Ne.symm hd, Ne.symm hb]
    · simp [ha]

end Reference

/-! ## Groups in braces -/

namespace Braces

open Reference (escape)

/-- Two characters that are no braces are passed on the way to a closing brace. -/
theorem closing?_escape (depth : Nat) (s : List Char) :
    closing? depth (escape s) = (closing? depth s).map fun n => (escape (s.take n)).length := by
  induction s generalizing depth with
  | nil => rfl
  | cons c r ih =>
    by_cases hd : c = '$'
    · subst hd
      simp only [Reference.escape_cons, if_true, List.cons_append, List.nil_append, closing?, ih]
      cases closing? depth r <;> simp
    · simp only [Reference.escape_cons, hd, if_false, List.cons_append, List.nil_append, closing?,
        ih]
      split
      · cases closing? (depth + 1) r <;> simp [hd]
      · split
        · split
          · rfl
          · cases closing? (depth - 1) r <;> simp [hd]
        · cases closing? depth r <;> simp [hd]

/-- A `$` and its backslash are neither a comma nor two dots, so an escaped group holds a list or a
range exactly if the group does. -/
theorem isExpandable_escape (depth : Nat) (s : List Char) :
    isExpandable depth (escape s) = isExpandable depth s := by
  induction s generalizing depth with
  | nil => rfl
  | cons c r ih =>
    by_cases hd : c = '$'
    · subst hd
      simp [isExpandable, ih]
    · have hhead : ((escape r).head? == some '.') = (r.head? == some '.') := by
        rw [Bool.eq_iff_iff, beq_iff_eq, beq_iff_eq]
        exact Reference.head?_escape_eq (by decide) (by decide) r
      simp only [Reference.escape_cons, hd, if_false, List.cons_append, List.nil_append,
        isExpandable, ih, hhead]

/-- After as many characters of the escaped text as `pass` characters of the text are written with,
the search is where it is in the text. The induction is along the search, which passes over what is
behind a `$` in both texts alike. -/
theorem holdsExpandable_escape (pass : Nat) (before : Option Char) (s : List Char) :
    holdsExpandable (escape (s.take pass)).length before (escape s) =
      holdsExpandable pass before s := by
  induction s generalizing pass before with
  | nil => cases pass <;> rfl
  | cons c r ih =>
    -- characters to be passed are passed in both texts; otherwise a group may begin here
    cases pass with
    | succ n =>
      have h := ih n (some c)
      by_cases hd : c = '$'
      · subst hd
        simpa [holdsExpandable] using h
      · simpa [holdsExpandable, hd] using h
    | zero =>
      have h := ih 0 (some c)
      by_cases hd : c = '$'
      · subst hd
        simpa [holdsExpandable] using h
      by_cases hb : c = '\x7b'
      · subst hb
        simp only [List.take_zero, Reference.escape_nil, List.length_nil, Reference.escape_cons, hd,
          if_false, List.cons_append, List.nil_append, holdsExpandable, beq_self_eq_true, if_true,
          closing?_escape]
        cases hclose : closing? 1 r with
        | none => rfl
        | some n =>
          -- the closing brace is one more character of either text
          have htake : (escape (r.take (n + 1))).length = (escape (r.take n)).length + 1 := by
            rw [List.take_add_one, getElem?_closing? hclose]
            simp
          have hrest := ih (n + 1) (some '\x7b')
          rw [htake] at hrest
          simp only [Option.map_some, Reference.take_escape, isExpandable_escape, hrest]
      · simpa [holdsExpandable, hd, hb] using h

/-- An escaped text is a word with groups exactly if the text is one. -/
theorem isBraceWord_escape (s : List Char) : isBraceWord (escape s) = isBraceWord s := by
  have hblank : (escape s).any Text.isBlank = s.any Text.isBlank := by
    have hd : Text.isBlank '$' = false := by decide
    have hb : Text.isBlank '\\' = false := by decide
    induction s with
    | nil => rfl
    | cons c r ih => by_cases hc : c = '$' <;> simp [hc, hd, hb, ih]
  have hempty : (escape s).isEmpty = s.isEmpty := by
    rw [Bool.eq_iff_iff, List.isEmpty_iff, List.isEmpty_iff]
    exact Reference.escape_eq_nil
  rw [isBraceWord, isBraceWord, hempty, hblank]
  exact congrArg _ (holdsExpandable_escape 0 none s)

/-- No escaped text is a single reference in braces. -/
theorem isParameterWord_escape (s : List Char) : isParameterWord (escape s) = false := by
  have h := Reference.head?_escape s
  unfold isParameterWord
  split
  · rename_i heq
    rw [heq] at h
    exact absurd rfl h
  · rfl

end Braces

/-! ## No references

A `$` with a backslash before it begins no reference, and in an escaped text there is no other
one. -/

namespace Reference

variable {resolve : Reference → Run (List Char)} {form : Form} {s : ScopeId}

/-- Without its first character, a text has no open `$` either, unless that one escapes. -/
theorem openDollars_tail {c : Char} {r : List Char}
    (hescape : ∀ r', c = '\\' → r = '$' :: r' → False) (h : openDollars (c :: r) = 0) :
    openDollars r = 0 := by
  have hc : c = '\\' → r.head? ≠ some '$' := by
    rintro rfl hr
    obtain ⟨r', rfl⟩ := List.head?_eq_some_iff.1 hr
    exact hescape r' rfl rfl
  rw [openDollars_cons hc] at h
  omega

/-- A text without open `$` has no groups. -/
theorem exists_literal_of_mem_segments {text : List Char} (h : openDollars text = 0) :
    ∀ p ∈ segments text, ∃ t, p = .literal t := by
  fun_induction segments text with
  | case1 =>
    intro p hp
    cases hp
  | case2 r ih => exact List.forall_mem_cons.2 ⟨⟨_, rfl⟩, ih (by simpa [openDollars] using h)⟩
  | case3 => simp [openDollars] at h
  | case4 => simp [openDollars] at h
  | case5 c r hescape _ ih =>
    exact List.forall_mem_cons.2 ⟨⟨_, rfl⟩, ih (openDollars_tail hescape h)⟩

/-- A text without open `$` has no references without braces. -/
theorem exists_literal_of_mem_bareSegments {text : List Char} (h : openDollars text = 0) :
    ∀ p ∈ bareSegments text, ∃ t, p = .literal t := by
  fun_induction bareSegments text with
  | case1 =>
    intro p hp
    cases hp
  | case2 r ih => exact List.forall_mem_cons.2 ⟨⟨_, rfl⟩, ih (by simpa [openDollars] using h)⟩
  | case3 => simp [openDollars] at h
  | case4 => simp [openDollars] at h
  | case5 c r hescape _ ih =>
    exact List.forall_mem_cons.2 ⟨⟨_, rfl⟩, ih (openDollars_tail hescape h)⟩

/-! ## Passes that find nothing -/

/-- Groups that the form does not read stay as they are. -/
theorem expandGroups_of_unread {ps : List Segment}
    (h : ∀ body, .group body ∈ ps → form.read? body = none) :
    expandGroups resolve form ps = pure (ps.flatMap Segment.text) := by
  induction ps with
  | nil => rfl
  | cons p ps ih =>
    have htail := ih fun body hmem => h body (List.mem_cons_of_mem _ hmem)
    cases p with
    | group body =>
      simp only [expandGroups, h body List.mem_cons_self, htail, pure_bind, List.flatMap_cons]
    | _ => simp only [expandGroups, htail, pure_bind, List.flatMap_cons]

/-- Forms that read none of the groups of a text are passed over: their passes leave the text as it
is, so the next one is given the same groups. -/
theorem expandForms_append_of_unread {before after : List Form} {text : List Char}
    (h : ∀ form ∈ before, ∀ body, .group body ∈ segments text → form.read? body = none) :
    expandForms resolve (before ++ after) text = expandForms resolve after text := by
  induction before with
  | nil => rfl
  | cons form before ih =>
    obtain ⟨hform, hbefore⟩ := List.forall_mem_cons.1 h
    rw [List.cons_append, expandForms, expandGroups_of_unread hform, pure_bind,
      flatMap_text_segments, ih hbefore]

/-- Parts that are no references stay as they are, without braces too. -/
theorem expandBare_of_literal {ps : List Segment} (h : ∀ p ∈ ps, ∃ t, p = .literal t) :
    expandBare s ps = pure (ps.flatMap Segment.text) := by
  induction ps with
  | nil => rfl
  | cons p ps ih =>
    obtain ⟨⟨t, rfl⟩, hps⟩ := List.forall_mem_cons.1 h
    simp only [expandBare, ih hps, pure_bind, List.flatMap_cons]

/-- No form finds anything in a text without open `$`. -/
theorem expandForms_of_openDollars (forms : List Form) {text : List Char}
    (h : openDollars text = 0) : expandForms resolve forms text = pure text := by
  have hunread : ∀ form ∈ forms, ∀ body, .group body ∈ segments text → form.read? body = none := by
    intro form _ body hbody
    obtain ⟨t, ht⟩ := exists_literal_of_mem_segments h _ hbody
    cases ht
  rw [← List.append_nil forms, expandForms_append_of_unread hunread, expandForms]

/-- Nothing is found in a text without open `$` by the last pass either. -/
theorem expandBare_of_openDollars {text : List Char} (h : openDollars text = 0) :
    expandBare s (bareSegments text) = pure text := by
  rw [expandBare_of_literal (exists_literal_of_mem_bareSegments h), flatMap_text_bareSegments]

/-- Without a `$` there is no backslash to be taken away. -/
theorem unescape_of_not_mem {text : List Char} (h : '$' ∉ text) : unescape text = text := by
  have hback := unescape_escape text
  rwa [escape_of_not_mem h] at hback

/-- A text without a `$` could be searched for references, too. The passes are left out for it to
save time, and this makes no difference. -/
theorem expandStep_eq (inner : List Char → Run (List Char)) (s : ScopeId) (text : List Char) :
    expandStep inner s text = do
      let text ← expandForms (Reference.resolve inner s) Form.all text
      return unescape (← expandBare s (bareSegments text)) := by
  unfold expandStep
  split
  · rfl
  · rename_i hd
    have hmem : '$' ∉ text := by simpa using hd
    have hopen : openDollars text = 0 := by
      rw [← escape_of_not_mem hmem, openDollars_escape]
    rw [expandForms_of_openDollars _ hopen, pure_bind, expandBare_of_openDollars hopen, pure_bind,
      unescape_of_not_mem hmem]

/-- Expanding a text without open `$` is taking its backslashes away. -/
theorem expand_of_openDollars {text : List Char} (h : openDollars text = 0) :
    expand s text = pure (unescape text) := by
  rw [expand, h, expandFrom, expandStep_eq, expandForms_of_openDollars _ h, pure_bind,
    expandBare_of_openDollars h, pure_bind]

/-- Expanding an escaped text gives the text. -/
theorem expand_escape (text : List Char) : expand s (escape text) = pure text := by
  rw [expand_of_openDollars (openDollars_escape text), unescape_escape]

end Reference

end CommandLanguage
