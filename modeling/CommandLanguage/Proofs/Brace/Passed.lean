import CommandLanguage.Brace.Expand

/-!
# Texts that searches pass by

Groups in braces are found by counting the braces that are open, and the alternatives of a list by
the commas that no brace stands around. A text in which every brace is matched does not change the
count, so that what is searched for lies behind it. `Passed` says so of both searches, and there is
a rule for each way in which such texts are put together.

* `splitGroup?_passed`, `splitCommas_comma` — a group and an alternative end where they should;
* `firstGroup?_plain` — the first group lies behind a text without braces.
-/

namespace CommandLanguage.Brace

/-- Puts a text before the first of several parts. -/
def beforeFirst (s : List Char) : List (List Char) → List (List Char)
  | [] => [s]
  | p :: ps => (s ++ p) :: ps

/-- Searches go on behind the text as they began before it: the one for a closing brace, and within
at least `least` open groups also the one for commas. A text with a comma of its own is passed only
within a group, and so `least` is one for it and zero for others. -/
structure Passed (least : Nat) (s : List Char) : Prop where
  closing?_append {depth : Nat} (h : 1 ≤ depth) (r : List Char) :
    Braces.closing? depth (s ++ r) = (Braces.closing? depth r).map (s.length + ·)
  splitCommas_append {depth : Nat} (h : least ≤ depth) (r : List Char) :
    splitCommas depth (s ++ r) = beforeFirst s (splitCommas depth r)

theorem splitCommas_ne_nil (depth : Nat) (s : List Char) : splitCommas depth s ≠ [] := by
  cases s with
  | nil => exact List.cons_ne_nil _ _
  | cons c r =>
    rw [splitCommas]
    split
    · exact List.cons_ne_nil _ _
    · dsimp only
      split <;> exact List.cons_ne_nil _ _

theorem beforeFirst_append (s t : List Char) {parts : List (List Char)} (h : parts ≠ []) :
    beforeFirst (s ++ t) parts = beforeFirst s (beforeFirst t parts) := by
  cases parts with
  | nil => exact absurd rfl h
  | cons p ps => simp [beforeFirst]

theorem splitCommas_open (depth : Nat) (r : List Char) :
    splitCommas depth ('\x7b' :: r) = beforeFirst ['\x7b'] (splitCommas (depth + 1) r) := rfl

theorem splitCommas_close (depth : Nat) (r : List Char) :
    splitCommas (depth + 1) ('\x7d' :: r) = beforeFirst ['\x7d'] (splitCommas depth r) := rfl

/-! ## Ways to put texts together -/

section

variable {least : Nat} {s t : List Char}

theorem passed_nil (least : Nat) : Passed least [] where
  closing?_append _ r := by simp
  splitCommas_append {depth} _ r := by
    obtain ⟨p, ps, h⟩ := List.exists_cons_of_ne_nil (splitCommas_ne_nil depth r)
    simp [h, beforeFirst]

theorem Passed.append (hs : Passed least s) (ht : Passed least t) : Passed least (s ++ t) where
  closing?_append h r := by
    rw [List.append_assoc, hs.closing?_append h, ht.closing?_append h, Option.map_map]
    simp [Function.comp_def, Nat.add_assoc]
  splitCommas_append h r := by
    rw [List.append_assoc, hs.splitCommas_append h, ht.splitCommas_append h,
      beforeFirst_append s t (splitCommas_ne_nil _ r)]

/-- What is passed outside of groups is passed within them. -/
theorem Passed.within (hs : Passed 0 s) : Passed least s where
  closing?_append := hs.closing?_append
  splitCommas_append _ := hs.splitCommas_append (Nat.zero_le _)

theorem passed_char {c : Char} (hc : c ≠ '\x7b' ∧ c ≠ '\x7d')
    (hcomma : c ≠ ',' ∨ 1 ≤ least) : Passed least [c] where
  closing?_append _ r := by simp [Braces.closing?, hc, Nat.add_comm]
  splitCommas_append {depth} h r := by
    have hinner : ¬ (c = ',' ∧ depth = 0) := by
      rintro ⟨rfl, rfl⟩
      rcases hcomma with hcomma | hcomma
      · exact hcomma rfl
      · omega
    simp only [List.singleton_append, splitCommas, Bool.and_eq_true, beq_iff_eq, hinner, hc,
      if_false]
    rfl

theorem passed_comma : Passed 1 [','] := passed_char (by decide) (.inr (Nat.le_refl 1))

/-- A text without braces and commas. -/
theorem passed_plain (h : ∀ c ∈ s, c ≠ '\x7b' ∧ c ≠ '\x7d' ∧ c ≠ ',') : Passed 0 s := by
  induction s with
  | nil => exact passed_nil 0
  | cons c s ih =>
    obtain ⟨hopen, hclose, hcomma⟩ := h c List.mem_cons_self
    exact (passed_char ⟨hopen, hclose⟩ (.inl hcomma)).append
      (ih fun a ha => h a (List.mem_cons_of_mem c ha))

/-- A group: within its braces one more group is open, so that the commas in it do not count
outside. -/
theorem Passed.group (hs : Passed 1 s) : Passed 0 ('\x7b' :: (s ++ ['\x7d'])) where
  closing?_append {depth} h r := by
    have hclose : Braces.closing? (depth + 1) ('\x7d' :: r) =
        (Braces.closing? depth r).map (· + 1) := by
      rw [Braces.closing?]
      simp [Nat.not_le.2 (Nat.lt_add_of_pos_left h)]
    simp only [List.cons_append, List.append_assoc, List.nil_append, Braces.closing?,
      beq_self_eq_true, if_true]
    rw [hs.closing?_append (by omega), hclose, Option.map_map, Option.map_map]
    refine congrArg (Option.map · _) (funext fun n => ?_)
    simp only [Function.comp_apply, List.length_cons, List.length_append, List.length_nil]
    omega
  splitCommas_append {depth} _ r := by
    have hne := splitCommas_ne_nil depth r
    rw [List.cons_append, List.append_assoc, List.singleton_append, splitCommas_open,
      hs.splitCommas_append (Nat.le_add_left 1 depth), splitCommas_close,
      ← beforeFirst_append s _ hne, ← beforeFirst_append _ _ hne]
    rfl

end

/-! ## What the searches find -/

section

variable {s r : List Char}

/-- A group ends with the brace after its body. -/
theorem splitGroup?_passed (hs : Passed 1 s) (r : List Char) :
    Braces.splitGroup? (s ++ '\x7d' :: r) = some (s, r) := by
  have hclose : Braces.closing? 1 ('\x7d' :: r) = some 0 := by simp [Braces.closing?]
  rw [Braces.splitGroup?, hs.closing?_append (Nat.le_refl 1), hclose]
  simp

/-- An alternative ends with the comma after it. -/
theorem splitCommas_comma (hs : Passed 0 s) (r : List Char) :
    splitCommas 0 (s ++ ',' :: r) = s :: splitCommas 0 r := by
  rw [hs.splitCommas_append (Nat.le_refl 0), splitCommas]
  simp [beforeFirst]

theorem splitCommas_passed (hs : Passed 0 s) : splitCommas 0 s = [s] := by
  have h := hs.splitCommas_append (Nat.le_refl 0) []
  rw [List.append_nil] at h
  rw [h, splitCommas, beforeFirst, List.append_nil]

/-- There is no group in a text without braces, and it does not end with a `$`. The group that is
found behind it is the same, with the text before it. -/
theorem firstGroup?_plain {before? : Option Char} (hbefore : before? ≠ some '$')
    (hs : ∀ c ∈ s, c ≠ '\x7b' ∧ c ≠ '$') (r : List Char) :
    ∃ last?, last? ≠ some '$' ∧ firstGroup? before? (s ++ r) =
      (firstGroup? last? r).map fun g => { g with before := s ++ g.before } := by
  induction s generalizing before? with
  | nil => exact ⟨before?, hbefore, by simp⟩
  | cons c s ih =>
    obtain ⟨hopen, hdollar⟩ := hs c List.mem_cons_self
    have hlater : some c ≠ some '$' := by simpa using hdollar
    obtain ⟨last?, hlast, heq⟩ := ih hlater fun a ha => hs a (List.mem_cons_of_mem c ha)
    refine ⟨last?, hlast, ?_⟩
    rw [List.cons_append, firstGroup?]
    simp only [beq_iff_eq, hopen, if_false, heq, Option.map_map]
    rfl

/-- A group is the first one if it stands for several texts and belongs to no `$`. -/
theorem firstGroup?_group {before? : Option Char} (hbefore : before? ≠ some '$')
    (hs : Passed 1 s) (hexpands : expands s = true) (r : List Char) :
    firstGroup? before? ('\x7b' :: (s ++ '\x7d' :: r)) = some ⟨[], s, r⟩ := by
  rw [firstGroup?]
  simp [splitGroup?_passed hs, hbefore, hexpands]

end

end CommandLanguage.Brace
