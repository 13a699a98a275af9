import CommandLanguage.Proofs.Reference.Piece

/-!
# Passes over a text

How a text is cut into groups and what stands between them, if it is put together from escaped
texts and groups. A backslash at the end of an escaped text is where this can go wrong: it takes the
`$` of a group behind it. A pass leaves the escaped texts as they are.
-/

namespace CommandLanguage

/-- A group whose body has no braces ends at the next closing brace. -/
theorem Braces.splitGroup?_append {body : List Char}
    (h : ∀ c ∈ body, c ≠ '\x7b' ∧ c ≠ '\x7d') (r : List Char) :
    splitGroup? (body ++ '\x7d' :: r) = some (body, r) := by
  have hclosing : closing? 1 (body ++ '\x7d' :: r) = some body.length := by
    induction body with
    | nil => rfl
    | cons c body ih =>
      obtain ⟨hc, hbody⟩ := List.forall_mem_cons.1 h
      simp [closing?, hc, ih hbody]
  simp [splitGroup?, hclosing]

namespace Reference

/-! ## Cutting -/

/-- The parts of an escaped text: one for each character. -/
def literals (t : List Char) : List Segment := t.map fun c => .literal (escape [c])

/-- A character that neither begins a reference nor escapes one is a part of its own. The parts of a
text are cut from left to right, so what is behind the character is cut as it is alone. -/
theorem segments_cons {c : Char} {r : List Char} (hd : c ≠ '$')
    (hb : c = '\\' → r.head? ≠ some '$') : segments (c :: r) = .literal [c] :: segments r := by
  rw [segments.eq_def]
  split
  · rename_i heq
    cases heq
  · rename_i heq
    cases heq
    exact absurd rfl (hb rfl)
  · rename_i heq
    cases heq
    exact absurd rfl hd
  · rename_i heq
    cases heq
    rfl

/-- A group that ends where it should is a part. -/
theorem segments_group_of_splitGroup? {body r : List Char}
    (h : Braces.splitGroup? (body ++ '\x7d' :: r) = some (body, r)) :
    segments ((Segment.group body).text ++ r) = .group body :: segments r := by
  simp only [Segment.text, List.cons_append, List.append_assoc, List.nil_append]
  rw [segments.eq_def]
  simp only
  split
  · rename_i heq
    rw [h] at heq
    cases heq
    rfl
  · rename_i heq
    rw [h] at heq
    cases heq

/-- A group whose body has no braces is a part. -/
theorem segments_group {body : List Char} (h : ∀ c ∈ body, c ≠ '\x7b' ∧ c ≠ '\x7d')
    (r : List Char) :
    segments ((Segment.group body).text ++ r) = .group body :: segments r :=
  segments_group_of_splitGroup? (Braces.splitGroup?_append h r)

/-- An escaped text is cut into its characters, unless it ends in a backslash that escapes what
follows it. -/
theorem segments_escape_append {t r : List Char}
    (h : t.getLast? = some '\\' → r.head? ≠ some '$') :
    segments (escape t ++ r) = literals t ++ segments r := by
  induction t with
  | nil => rfl
  | cons c t ih =>
    have htail : segments (escape t ++ r) = literals t ++ segments r := by
      refine ih fun ht => h ?_
      rw [List.getLast?_cons, ht]
      rfl
    by_cases hd : c = '$'
    · subst hd
      simp only [escape_cons, if_true, List.cons_append, List.nil_append]
      rw [segments, htail]
      rfl
    · -- a backslash within the text is followed by no `$`, for that has one of its own
      have hb : c = '\\' → (escape t ++ r).head? ≠ some '$' := by
        rintro rfl
        cases t with
        | nil => exact h rfl
        | cons a t =>
          have hhead := head?_escape (a :: t)
          cases hesc : escape (a :: t) with
          | nil => exact absurd (escape_eq_nil.1 hesc) (List.cons_ne_nil a t)
          | cons b u => rwa [hesc] at hhead
      rw [escape_cons, if_neg hd, List.singleton_append, List.cons_append, segments_cons hd hb,
        htail]
      simp [literals, hd]

/-- After a backslash, a reference to a variable is text, and the backslash is part of the escape
for its `$`. -/
theorem segments_escape_hidden (t : List Char) (n : Name) (r : List Char) :
    segments (escape (t ++ ['\\']) ++ ((Segment.group n.text).text ++ r)) =
      literals (t ++ (Segment.group n.text).text) ++ segments r := by
  have hplain : '$' ∉ '\x7b' :: (n.text ++ ['\x7d']) := by
    have hn : '$' ∉ n.text := fun h => n.ne_of_mem h (by decide) rfl
    simp [hn]
  have hrest : segments ('\x7b' :: (n.text ++ ['\x7d']) ++ r) =
      literals ('\x7b' :: (n.text ++ ['\x7d'])) ++ segments r := by
    have hlast : ('\x7b' :: (n.text ++ ['\x7d'])).getLast? = some '\x7d' := by
      simp [List.getLast?_cons]
    have h := segments_escape_append (t := '\x7b' :: (n.text ++ ['\x7d'])) (r := r)
      (by simp [hlast])
    rwa [escape_of_not_mem hplain] at h
  have htext : escape (t ++ ['\\']) ++ ((Segment.group n.text).text ++ r) =
      escape t ++ '\\' :: '$' :: ('\x7b' :: (n.text ++ ['\x7d']) ++ r) := by
    simp [Segment.text]
  rw [htext, segments_escape_append (by simp), segments, hrest]
  simp [literals, Segment.text]

/-! ## Passing -/

variable {resolve : Reference → Run (List Char)} {form : Form}

/-- Escaped characters stay as they are, and what is behind them is gone over as if they were not
there. -/
theorem expandGroups_literals (t : List Char) (ps : List Segment) :
    expandGroups resolve form (literals t ++ ps) = do
      return escape t ++ (← expandGroups resolve form ps) := by
  induction t with
  | nil => simp [literals]
  | cons c t ih =>
    have hcons : literals (c :: t) = .literal (escape [c]) :: literals t := rfl
    have hescape : escape (c :: t) = escape [c] ++ escape t := escape_append [c] t
    simp only [hcons, List.cons_append, expandGroups, ih, hescape, bind_assoc, pure_bind,
      Segment.text, List.append_assoc]

end Reference

end CommandLanguage
