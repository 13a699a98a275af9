import CommandLanguage.Run.Command
import Mathlib.Data.List.Infix

/-!
# Cutting and joining

A text is cut at the occurrences of a separator that are met from left to right, none of which begins
within another one. Joined with the separator, the parts are the text again (`intercalate_split`),
also where the separator overlaps itself or occurs at an end of the text; and no part holds the
separator, since it would have been met there (`not_infix_of_mem_split`). So the command `join` undoes
what the command `split` does (`Command.run_join_split`).
-/

namespace CommandLanguage

namespace Text

variable {p q r s : List Char} {c : Char}

/-! ## Rules -/

/-- The characters of an occurrence are passed. -/
theorem splitFrom_eq (p : List Char) (n : Nat) (s : List Char) :
    splitFrom p n s = split p (s.drop n) := by
  induction s generalizing n with
  | nil => simp [split, splitFrom]
  | cons c s ih =>
    cases n with
    | zero => rfl
    | succ n => rw [splitFrom, ih, List.drop_succ_cons]

theorem split_nil (p : List Char) : split p [] = [[]] := rfl

/-- A text that begins with the separator has an empty part before it. -/
theorem split_append (hp : p ≠ []) (s : List Char) : split p (p ++ s) = [] :: split p s := by
  obtain ⟨a, p, rfl⟩ := List.exists_cons_of_ne_nil hp
  have hoccurs : (a :: p).isPrefixOf (a :: (p ++ s)) = true :=
    List.isPrefixOf_iff_prefix.2 (List.prefix_append (a :: p) s)
  rw [split, List.cons_append, splitFrom, if_pos hoccurs, splitFrom_eq, List.length_cons,
    Nat.add_sub_cancel, List.drop_left]

theorem split_ne_nil (p s : List Char) : split p s ≠ [] := by
  rw [split]
  generalize 0 = n
  fun_induction splitFrom p n s with
  | case1 => exact List.cons_ne_nil _ _
  | case2 _ _ _ ih => exact ih
  | _ => exact List.cons_ne_nil _ _

/-- Any other character belongs to the first part. -/
theorem exists_split_cons (h : ¬p <+: c :: s) :
    ∃ q qs, split p s = q :: qs ∧ split p (c :: s) = (c :: q) :: qs := by
  obtain ⟨q, qs, hsplit⟩ := List.exists_cons_of_ne_nil (split_ne_nil p s)
  refine ⟨q, qs, hsplit, ?_⟩
  rw [split] at hsplit
  rw [split, splitFrom, if_neg (by rwa [List.isPrefixOf_iff_prefix]), hsplit]

/-- To show something of all texts, it may be assumed of what is behind a separator or a character
that is met. -/
theorem split_induction {P : List Char → Prop} (hp : p ≠ []) (nil : P [])
    (occurs : ∀ s, P s → P (p ++ s)) (other : ∀ c s, ¬p <+: c :: s → P s → P (c :: s))
    (s : List Char) : P s := by
  induction hn : s.length using Nat.strongRecOn generalizing s with
  | _ n ih =>
    subst hn
    cases s with
    | nil => exact nil
    | cons c s =>
      by_cases h : p <+: c :: s
      · obtain ⟨r, hr⟩ := h
        have hpos := List.length_pos_iff.2 hp
        rw [← hr] at ih ⊢
        exact occurs r (ih r.length (by rw [List.length_append]; omega) r rfl)
      · exact other c s h (ih s.length (Nat.lt_succ_self _) s rfl)

/-! ## Parts

What is split off has no separator in it, and with the separators put back the parts are the
text. -/

theorem intercalate_cons_cons (p : List Char) (c : Char) (q : List Char) (qs : List (List Char)) :
    p.intercalate ((c :: q) :: qs) = c :: p.intercalate (q :: qs) := by
  cases qs with
  | nil => rw [List.intercalate_singleton, List.intercalate_singleton]
  | cons => rw [List.intercalate_cons_cons, List.intercalate_cons_cons]; rfl

/-- Joined with the separator, the parts are the text. -/
theorem intercalate_split (hp : p ≠ []) (s : List Char) : p.intercalate (split p s) = s := by
  induction s using split_induction hp with
  | nil => rfl
  | occurs s ih =>
    obtain ⟨q, qs, hsplit⟩ := List.exists_cons_of_ne_nil (split_ne_nil p s)
    rw [hsplit] at ih
    rw [split_append hp, hsplit, List.intercalate_cons_cons, ih, List.nil_append]
  | other c s h ih =>
    obtain ⟨q, qs, hsplit, hcons⟩ := exists_split_cons h
    rw [hcons, intercalate_cons_cons, ← hsplit, ih]

/-- A text begins with its first part. -/
theorem prefix_of_split (hp : p ≠ []) {qs : List (List Char)} (h : split p s = q :: qs) :
    q <+: s := by
  have hs := intercalate_split hp s
  rw [h] at hs
  cases qs with
  | nil =>
    rw [List.intercalate_singleton] at hs
    exact hs ▸ List.prefix_refl q
  | cons q' qs =>
    rw [List.intercalate_cons_cons, List.append_assoc] at hs
    exact ⟨_, hs⟩

/-- No part holds the separator, which would be met where it begins. -/
theorem not_infix_of_mem_split (hp : p ≠ []) (h : q ∈ split p s) : ¬p <:+: q := by
  induction s using split_induction hp generalizing q with
  | nil =>
    rw [split_nil, List.mem_singleton] at h
    rw [h, List.infix_nil]
    exact hp
  | occurs s ih =>
    rw [split_append hp] at h
    rcases List.mem_cons.1 h with rfl | h
    · rw [List.infix_nil]
      exact hp
    · exact ih h
  | other c s hc ih =>
    obtain ⟨q', qs, hsplit, hcons⟩ := exists_split_cons hc
    rw [hcons] at h
    rcases List.mem_cons.1 h with rfl | h
    · intro hinfix
      -- the separator would begin at the first character, or stand in what is behind it
      rcases List.infix_cons_iff.1 hinfix with hbegins | hinfix
      · have hfirst : c :: q' <+: c :: s := (List.prefix_cons_inj c).2 (prefix_of_split hp hsplit)
        exact hc (hbegins.trans hfirst)
      · exact ih (by rw [hsplit]; exact List.mem_cons_self) hinfix
    · exact ih (by rw [hsplit]; exact List.mem_cons_of_mem q' h)

end Text

namespace Command

theorem pieces_eq {separator : String} (h : separator ≠ "") (text : String) :
    pieces text separator = (Text.split separator.toList text.toList).map String.ofList := by
  rw [pieces, if_neg (by simpa using h)]

theorem intercalate_pieces {separator : String} (h : separator ≠ "") (text : String) :
    separator.intercalate (pieces text separator) = text := by
  have hp : separator.toList ≠ [] := by simpa using h
  have hparts : (pieces text separator).map String.toList =
      Text.split separator.toList text.toList := by
    simp [pieces_eq h, Function.comp_def]
  rw [← String.toList_inj, String.toList_intercalate, hparts, Text.intercalate_split hp]

/-- **Joining undoes cutting.** The pieces that a text is cut into at a separator do not hold the
separator, and the text is what they give when they are joined with it. -/
theorem run_join_split (text separator : String) (h : separator ≠ "") :
    ∃ items : List String,
      run .split [.text text, .text separator] = pure (.list (items.map .text)) ∧
      (∀ item ∈ items, ¬separator.toList <:+: item.toList) ∧
      run .join (.text separator :: items.map .text) = pure (.text text) := by
  have hp : separator.toList ≠ [] := by simpa using h
  refine ⟨pieces text separator, rfl, fun item hitem => ?_, ?_⟩
  · rw [pieces_eq h] at hitem
    obtain ⟨q, hq, rfl⟩ := List.mem_map.1 hitem
    rw [String.toList_ofList]
    exact Text.not_infix_of_mem_split hp hq
  · have htexts : ((pieces text separator).map Value.text).map Value.toText =
        pieces text separator := by
      rw [List.map_map]
      exact List.map_id _
    simp only [run, htexts, Value.toText, intercalate_pieces h]

/-- A separator that overlaps itself, in a text that begins and ends with it. -/
theorem run_join_split_overlap :
    "aa" ≠ "" ∧ ∃ items : List String,
      run .split [.text "aaabaa", .text "aa"] = pure (.list (items.map .text)) ∧
      (∀ item ∈ items, ¬"aa".toList <:+: item.toList) ∧
      run .join (.text "aa" :: items.map .text) = pure (.text "aaabaa") :=
  ⟨by decide, run_join_split "aaabaa" "aa" (by decide)⟩

end Command

end CommandLanguage
