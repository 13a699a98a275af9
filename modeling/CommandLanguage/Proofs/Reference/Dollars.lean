import CommandLanguage.Reference.Basic
import CommandLanguage.Reference.Segment

/-!
# Counting dollars

A `$` is open unless a backslash stands right before it. `openAfter` counts the open `$` of a text
that stands after a given character, so that it can be computed for a text part by part
(`openAfter_append`). Of a part of a text, the count is no greater than that of the text if no
backslash stands before the part (`openAfter_le_of_behind`), and the texts that a reference holds are
such parts of its body (`openAfter_le_of_read?`).
-/

namespace CommandLanguage.Reference

variable {b b' : Option Char} {s t body : List Char}

/-- The number of `$` that no backslash stands before, in a text behind the character `before`. The
character is needed only where a text is put together of parts: the count of a whole text begins
with no character. -/
def openAfter (before : Option Char) : List Char → Nat
  | [] => 0
  | c :: r => (if c == '$' && before != some '\\' then 1 else 0) + openAfter (some c) r

/-- The `$` that are counted to bound how deep references lie within each other. -/
theorem openDollars_eq (s : List Char) : openDollars s = openAfter none s := by
  suffices ∀ b, b ≠ some '\\' → openDollars s = openAfter b s from this none (by decide)
  fun_induction openDollars s with
  | case1 => exact fun _ _ => rfl
  | case2 r ih =>
    intro b _
    simp [openAfter, ih (some '$') (by decide)]
  | case3 c r hescape ih =>
    intro b hb
    by_cases hc : c = '\\'
    · -- nothing that is counted begins after this backslash
      subst hc
      cases r with
      | nil => simp [openDollars, openAfter]
      | cons d r =>
        have hd : d ≠ '$' := fun hd => hescape r rfl (by rw [hd])
        have hr := ih none (by decide)
        simp only [openAfter] at hr ⊢
        simp [hr, hd]
    · simp [openAfter, hb, ih (some c) (by simpa using hc)]

/-- The count of a text is that of its parts, if the last character of the first part is handed on
to the second one. -/
theorem openAfter_append (b : Option Char) (s t : List Char) :
    openAfter b (s ++ t) = openAfter b s + openAfter (s.getLast?.or b) t := by
  induction s generalizing b with
  | nil => simp [openAfter]
  | cons c s ih =>
    have hlast : ((c :: s).getLast?.or b) = (s.getLast?.or (some c)) := by
      rw [List.getLast?_cons]
      cases s.getLast? <;> rfl
    rw [List.cons_append, openAfter, openAfter, ih, hlast, Nat.add_assoc]

/-- A backslash before a text can only take from the count, namely its first character. -/
theorem openAfter_mono (h : b' = some '\\' → b = some '\\') (s : List Char) :
    openAfter b s ≤ openAfter b' s := by
  cases s with
  | nil => exact Nat.le_refl _
  | cons c s =>
    refine Nat.add_le_add_right ?_ _
    by_cases hb : b = some '\\'
    · simp [hb]
    · have hb' : b' ≠ some '\\' := fun hb' => hb (h hb')
      simp [hb, hb']

/-- There are no more open `$` than there are `$` at all. -/
theorem openAfter_le_count (b : Option Char) (s : List Char) : openAfter b s ≤ s.count '$' := by
  induction s generalizing b with
  | nil => exact Nat.le_refl _
  | cons c s ih =>
    rw [openAfter, List.count_cons, Nat.add_comm]
    refine Nat.add_le_add (ih _) ?_
    by_cases hc : c = '$'
    · by_cases hb : b = some '\\' <;> simp [hc, hb]
    · simp [hc]

/-- No `$` of an escaped text is counted, whatever stands before it: every backslash and every `$`
has got a backslash, and between two of them nothing else that escapes comes. -/
theorem openAfter_escape (b : Option Char) (s : List Char) : openAfter b (escape s) = 0 := by
  induction s generalizing b with
  | nil => rfl
  | cons c s ih => by_cases hc : c = '$' <;> simp [hc, openAfter, ih]

/-! ## Parts of a text

A part of a text may stand behind a backslash that belongs to the text before it. If it does not, it
has no more open `$` than the text. -/

/-- A text stands in another one, behind a character other than a backslash. Its first character is
then counted in both alike, and so are all others. -/
def Behind (t body : List Char) : Prop := ∃ u c v, body = u ++ c :: t ++ v ∧ c ≠ '\\'

namespace Behind

/-- A text that stands in another one stands in any longer one. -/
theorem append_left (h : Behind t body) (w : List Char) : Behind t (w ++ body) := by
  obtain ⟨u, c, v, rfl, hc⟩ := h
  exact ⟨w ++ u, c, v, by simp, hc⟩

/-- A text that stands in another one stands in that with one character more in front. -/
theorem cons_left (h : Behind t body) (c : Char) : Behind t (c :: body) := h.append_left [c]

end Behind

/-- What stands in a text behind a character other than a backslash has no more open `$` than the
text. -/
theorem openAfter_le_of_behind (h : Behind t body) : openAfter none t ≤ openAfter none body := by
  obtain ⟨u, c, v, rfl, hc⟩ := h
  have hmono : openAfter none t ≤ openAfter (some c) t :=
    openAfter_mono (fun h => absurd (Option.some.inj h) hc) t
  have hpart : openAfter none (u ++ c :: t ++ v) = openAfter none u +
      ((if c == '$' && u.getLast?.or none != some '\\' then 1 else 0) + openAfter (some c) t) +
      openAfter ((u ++ c :: t).getLast?.or none) v := by
    rw [openAfter_append, openAfter_append, openAfter]
  omega

/-- The body of a group has fewer open `$` than a text with the group: the `$` of the group is not
in it. -/
theorem openAfter_lt_of_mem_segments {text : List Char} (h : .group body ∈ segments text) :
    openAfter none body < openAfter none text := by
  rw [← openDollars_eq text]
  fun_induction segments text with
  | case1 => cases h
  | case2 r ih =>
    rw [openDollars]
    exact ih (by simpa using h)
  | case3 r b rest hsplit _ ih =>
    -- the `$` of the group counts one, and what is behind it is the body and the rest
    have htext := Braces.append_of_splitGroup? hsplit
    have hcount : openDollars ('$' :: '\x7b' :: r) = 1 + openAfter (some '\x7b') r := by
      rw [openDollars_eq]
      simp [openAfter]
    have happend : openAfter (some '\x7b') r = openAfter (some '\x7b') b +
        openAfter (b.getLast?.or (some '\x7b')) ('\x7d' :: rest) := by
      rw [← htext, openAfter_append]
    rcases List.mem_cons.1 h with h | h
    · cases h
      -- the group is this one: behind a brace its body counts as it does alone
      have hmono : openAfter none body ≤ openAfter (some '\x7b') body := openAfter_mono (by decide) _
      omega
    · -- the group stands in the rest
      have hlt := ih h
      have hrest : openAfter none rest ≤ openAfter (b.getLast?.or (some '\x7b')) ('\x7d' :: rest) := by
        rw [openAfter]
        exact Nat.le_trans (openAfter_mono (by decide) rest) (Nat.le_add_left _ _)
      rw [openDollars_eq] at hlt
      omega
  | case4 r hsplit ih =>
    have hcount : openDollars ('$' :: '\x7b' :: r) = 1 + openDollars ('\x7b' :: r) := by
      rw [openDollars_cons fun h => absurd h (by decide), if_pos rfl]
    have hlt := ih (by simpa using h)
    omega
  | case5 c r hescape _ ih =>
    -- a character by itself takes nothing from the count of what is behind it
    have hhead : c = '\\' → r.head? ≠ some '$' := by
      intro hc hr
      obtain ⟨r', rfl⟩ := List.head?_eq_some_iff.1 hr
      exact hescape r' hc rfl
    rw [openDollars_cons hhead]
    have hlt := ih (by simpa using h)
    omega

/-! ## The texts that a reference holds

Each form cuts the texts out of its body in its own way. They all have some character before them
that is no backslash, a brace or an operator. -/

/-- The texts in a reference that are expanded. A default is expanded only when it is needed, but it
may be, so it counts. -/
def texts : Reference → List (List Char)
  | .replace _ _ pattern replacement => [pattern, replacement]
  | .fallback _ _ _ word => [word]
  | .remove _ _ pattern => [pattern]
  | .element _ _ index => [index]
  | _ => []

end Reference

namespace Form

open Reference (Behind)

variable {t r rest body : List Char} {reference : Reference}

/-- What is behind the name that a body begins with. A name ends in no backslash, so what stands
behind it is `Behind`. -/
theorem behind_of_splitName? {name : String} (h : splitName? body = some (name, r))
    (ht : Behind t r) : Behind t body := by
  obtain ⟨⟨n, r'⟩, hsplit, heq⟩ := Option.map_eq_some_iff.1 h
  obtain ⟨-, rfl⟩ := Prod.mk.inj heq
  rw [← Text.append_of_splitName? hsplit]
  exact ht.append_left n

/-- The operator of a replacement ends in no backslash. -/
theorem exists_of_splitReplacement? {which : Replacement}
    (h : splitReplacement? r = some (which, rest)) : ∃ u c, r = u ++ c :: rest ∧ c ≠ '\\' := by
  unfold splitReplacement? at h
  split at h
  · cases h
    exact ⟨['/'], '/', rfl, by decide⟩
  · cases h
    exact ⟨['/'], '#', rfl, by decide⟩
  · cases h
    exact ⟨['/'], '%', rfl, by decide⟩
  · cases h
    exact ⟨[], '/', rfl, by decide⟩
  · cases h

/-- What stands behind the operator of a replacement stands in the body behind no backslash. -/
theorem behind_of_splitReplacement? {which : Replacement}
    (h : splitReplacement? r = some (which, rest)) (v : List Char) (hv : t ++ v = rest) :
    Behind t r := by
  obtain ⟨u, c, rfl, hc⟩ := exists_of_splitReplacement? h
  exact ⟨u, c, v, by simp [← hv], hc⟩

/-- Pattern and replacement are taken out of the body, or the replacement is missing and empty. -/
theorem behind_of_replace? (h : replace? body = some reference) (ht : t ∈ reference.texts) :
    t = [] ∨ Behind t body := by
  obtain ⟨⟨name, r⟩, hname, h⟩ := Option.bind_eq_some_iff.1 h
  obtain ⟨⟨which, r'⟩, hwhich, h⟩ := Option.bind_eq_some_iff.1 h
  dsimp only at hwhich h
  have hpattern : Behind (r'.takeWhile (· != '/')) body :=
    behind_of_splitName? hname
      (behind_of_splitReplacement? hwhich _ (List.takeWhile_append_dropWhile ..))
  -- without a slash behind the pattern there is no replacement
  split at h
  · cases h
    rcases List.mem_cons.1 ht with rfl | ht
    · exact .inr hpattern
    · exact .inl (List.mem_singleton.1 ht)
  · rename_i c replacement hdrop
    split at h
    · cases h
      rcases List.mem_cons.1 ht with rfl | ht
      · exact .inr hpattern
      · rw [List.mem_singleton.1 ht]
        refine .inr (behind_of_splitName? hname ?_)
        obtain ⟨u, d, rfl, hd⟩ := exists_of_splitReplacement? hwhich
        have hc : c = '/' := by
          have hhead := List.head?_dropWhile_not (· != '/') r'
          rw [hdrop] at hhead
          simpa using hhead
        have hr : r' = r'.takeWhile (· != '/') ++ c :: replacement := by
          rw [← hdrop, List.takeWhile_append_dropWhile]
        rw [hr, hc]
        exact ⟨u ++ d :: r'.takeWhile (· != '/'), '/', [], by simp, by decide⟩
    · cases h

/-- The word of a default stands behind the sign that says what to do with it. -/
theorem behind_of_fallback? (h : fallback? body = some reference) (ht : t ∈ reference.texts) :
    Behind t body := by
  obtain ⟨⟨name, r⟩, hname, h⟩ := Option.bind_eq_some_iff.1 h
  refine behind_of_splitName? hname ?_
  dsimp only at h
  -- with a colon before the action or without one
  have hword {c : Char} {word : List Char} {emptyCounts : Bool}
      (h : (do
        let action ← Fallback.ofChar? c
        if isLine word then some (Reference.fallback name emptyCounts action word) else none) =
          some reference) : Behind t (c :: word) := by
    obtain ⟨action, haction, h⟩ := Option.bind_eq_some_iff.1 h
    split at h
    · cases h
      obtain rfl := List.mem_singleton.1 ht
      refine ⟨[], c, [], by simp, ?_⟩
      rintro rfl
      cases haction
    · cases h
  split at h
  · rename_i c word hr
    split at hr
    · cases hr
      exact (hword h).cons_left ':'
    · cases hr
      exact hword h
  · cases h

/-- The pattern of a removal stands behind its operator, which is one or two characters long. -/
theorem behind_of_remove? (h : remove? body = some reference) (ht : t ∈ reference.texts) :
    Behind t body := by
  obtain ⟨⟨name, r⟩, hname, h⟩ := Option.bind_eq_some_iff.1 h
  obtain ⟨⟨how, pattern⟩, hhow, h⟩ := Option.bind_eq_some_iff.1 h
  dsimp only at hhow h
  split at h
  · cases h
    obtain rfl := List.mem_singleton.1 ht
    refine behind_of_splitName? hname ?_
    unfold splitRemoval? at hhow
    split at hhow
    · cases hhow
      exact ⟨['#'], '#', [], by simp, by decide⟩
    · cases hhow
      exact ⟨[], '#', [], by simp, by decide⟩
    · cases hhow
      exact ⟨['%'], '%', [], by simp, by decide⟩
    · cases hhow
      exact ⟨[], '%', [], by simp, by decide⟩
    · cases hhow
  · cases h

/-- An index stands behind the bracket that opens it. -/
theorem behind_of_elements? (h : elements? body = some reference) (ht : t ∈ reference.texts) :
    Behind t body := by
  obtain ⟨⟨name, r⟩, hname, h⟩ := Option.bind_eq_some_iff.1 h
  obtain ⟨⟨index, r'⟩, hindex, h⟩ := Option.bind_eq_some_iff.1 h
  obtain ⟨⟨filter, r''⟩, -, h⟩ := Option.bind_eq_some_iff.1 h
  obtain ⟨slice, -, h⟩ := Option.bind_eq_some_iff.1 h
  -- the sign in front is one more character before the text
  have hview : Behind t (splitView body).2 → Behind t body := by
    intro hbehind
    unfold splitView at hbehind
    split at hbehind
    · exact hbehind.cons_left '#'
    · exact hbehind.cons_left '!'
    · exact hbehind
  refine hview (behind_of_splitName? hname ?_)
  cases h
  split at ht
  · cases ht
  · -- the index stands behind its bracket
    rw [List.mem_singleton.1 ht]
    unfold splitIndex? at hindex
    split at hindex
    · split at hindex
      · rename_i c i d _ htake hdrop
        cases hindex
        refine ⟨[], '[', d :: r', ?_, by decide⟩
        rw [← htake, ← hdrop, List.nil_append, List.cons_append, List.takeWhile_append_dropWhile]
      · cases hindex
    · cases hindex

/-- A slice holds no text, however its operands are read. -/
theorem texts_of_slice {offset? : List Char → Option (List Char × List Char)}
    {length? : List Char → Option (Option (List Char))}
    (h : (do
      let (name, r) ← splitName? body
      match r with
      | ':' :: r =>
        let (offset, r) ← offset? r
        let length ← length? r
        return .slice name offset length
      | _ => none) = some reference) : reference.texts = [] := by
  obtain ⟨⟨name, r⟩, -, h⟩ := Option.bind_eq_some_iff.1 h
  dsimp only at h
  split at h
  · obtain ⟨⟨offset, r⟩, -, h⟩ := Option.bind_eq_some_iff.1 h
    obtain ⟨length, -, h⟩ := Option.bind_eq_some_iff.1 h
    cases h
    rfl
  · cases h

/-- A text that a reference holds has no more open `$` than the body it is read from. With
`openAfter_lt_of_mem_segments` this is why expansion comes to an end: each group costs its own
`$`. -/
theorem openAfter_le_of_read? {form : Form} (h : form.read? body = some reference)
    (ht : t ∈ reference.texts) :
    Reference.openAfter none t ≤ Reference.openAfter none body := by
  have hnone (hno : reference.texts = []) :
      Reference.openAfter none t ≤ Reference.openAfter none body := by
    rw [hno] at ht
    cases ht
  -- four of the forms hold texts that are expanded, and the others hold none
  cases form with
  | replace =>
    rcases behind_of_replace? h ht with rfl | hbehind
    · exact Nat.zero_le _
    · exact Reference.openAfter_le_of_behind hbehind
  | fallback => exact Reference.openAfter_le_of_behind (behind_of_fallback? h ht)
  | remove => exact Reference.openAfter_le_of_behind (behind_of_remove? h ht)
  | elements => exact Reference.openAfter_le_of_behind (behind_of_elements? h ht)
  | slice => exact hnone (texts_of_slice h)
  | endSlice => exact hnone (texts_of_slice h)
  | changeCase =>
    obtain ⟨⟨name, r⟩, -, h⟩ := Option.bind_eq_some_iff.1 h
    obtain ⟨change, -, h⟩ := Option.bind_eq_some_iff.1 h
    cases h
    exact hnone rfl
  | size =>
    change size? body = some reference at h
    unfold size? at h
    split at h
    · obtain ⟨name, -, rfl⟩ := Option.map_eq_some_iff.1 h
      exact hnone rfl
    · cases h
  | whole =>
    obtain ⟨name, -, rfl⟩ := Option.map_eq_some_iff.1 h
    exact hnone rfl

end Form

end CommandLanguage
