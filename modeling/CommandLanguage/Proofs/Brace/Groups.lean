import CommandLanguage.Proofs.Brace.Passed
import CommandLanguage.Proofs.Source.Semicolon

/-!
# Groups within groups

Two searches decide whether a word stands for several texts: one when it is read
(`Braces.isBraceWord`), one when it is expanded (`firstGroup?`). Both go from left to right, pass over
groups that stand for themselves and end at a brace that is not closed, but only the second one looks
into the groups that it passes over. `HasGroup` says what either of them finds.

What stands between the braces of a group is `Balanced`, and searches in it do not see what follows.
That is what the rules for the two searches rest on: there is one for each way in which a balanced text
is made.

* `balanced_of_splitGroup?`, `splitGroup?_of_balanced` — the body of a group is balanced, and a group
  with a balanced body is closed where the body ends;
* `hasGroup_char`, `hasGroup_group` — what a search finds, step by step.
-/

namespace CommandLanguage.Brace

open Braces (closing? splitGroup? isExpandable holdsExpandable)

/-! ## Balanced texts -/

/-- The braces of a text are matched. There is one rule for each way in which such a text can begin,
so that an induction on it meets a group as a whole. -/
inductive Balanced : List Char → Prop where
  /-- there is nothing -/
  | nil : Balanced []
  /-- a character that is no brace comes first -/
  | char {c : Char} {s : List Char} : c ≠ '\x7b' → c ≠ '\x7d' → Balanced s → Balanced (c :: s)
  /-- a group comes first -/
  | group {body s : List Char} : Balanced body → Balanced s →
      Balanced ('\x7b' :: (body ++ '\x7d' :: s))

/-- Where several groups are closed, the inner ones are closed before, and then the outer ones. The
search for all of them is one search behind the other. -/
theorem exists_of_closing?_add {s : List Char} {a b n : Nat} (ha : 1 ≤ a) (hb : 1 ≤ b)
    (h : closing? (a + b) s = some n) :
    ∃ k j, closing? a s = some k ∧ closing? b (s.drop (k + 1)) = some j ∧ n = k + 1 + j := by
  induction s generalizing a n with
  | nil => cases h
  | cons c s ih =>
    by_cases hopen : c = '\x7b'
    · simp only [closing?, hopen, beq_self_eq_true, if_true] at h ⊢
      obtain ⟨m, hm, rfl⟩ := Option.map_eq_some_iff.1 h
      -- one brace more to be closed before the first count is at its end
      rw [Nat.add_right_comm] at hm
      obtain ⟨k, j, hk, hj, rfl⟩ := ih (Nat.le_add_left 1 a) hm
      exact ⟨k + 1, j, by rw [hk]; rfl, hj, by omega⟩
    · by_cases hclose : c = '\x7d'
      · have hne : ('\x7d' == '\x7b') = false := rfl
        simp only [closing?, hclose, hne, beq_self_eq_true, if_true, Bool.false_eq_true,
          if_false] at h ⊢
        rw [if_neg (by omega)] at h
        obtain ⟨m, hm, rfl⟩ := Option.map_eq_some_iff.1 h
        by_cases hone : a = 1
        · -- the first count ends here, and the second search begins behind it
          subst hone
          rw [Nat.add_sub_cancel_left] at hm
          exact ⟨0, m, rfl, hm, by omega⟩
        · rw [Nat.sub_add_comm ha] at hm
          obtain ⟨k, j, hk, hj, rfl⟩ := ih (by omega) hm
          exact ⟨k + 1, j, by rw [if_neg (by omega), hk]; rfl, hj, by omega⟩
      · simp only [closing?, beq_iff_eq, hopen, hclose, if_false] at h ⊢
        obtain ⟨m, hm, rfl⟩ := Option.map_eq_some_iff.1 h
        obtain ⟨k, j, hk, hj, rfl⟩ := ih ha hm
        exact ⟨k + 1, j, by rw [hk]; rfl, hj, by omega⟩

/-- A group within a group is closed within it. -/
theorem exists_of_splitGroup?_open {s body rest : List Char}
    (h : splitGroup? ('\x7b' :: s) = some (body, rest)) : ∃ inner after,
      splitGroup? s = some (inner, after ++ '\x7d' :: rest) ∧
      splitGroup? (after ++ '\x7d' :: rest) = some (after, rest) ∧
      body = '\x7b' :: (inner ++ '\x7d' :: after) := by
  obtain ⟨n, hn, heq⟩ := Option.map_eq_some_iff.1 h
  obtain ⟨m, hm, rfl⟩ : ∃ m, closing? (1 + 1) s = some m ∧ m + 1 = n := by
    simpa [closing?] using hn
  -- with two braces open, the search closes one of them and then the other
  obtain ⟨k, j, hk, hj, rfl⟩ := exists_of_closing?_add (Nat.le_refl 1) (Nat.le_refl 1) hm
  have hinner : splitGroup? s = some (s.take k, s.drop (k + 1)) := by rw [splitGroup?, hk]; rfl
  have houter : splitGroup? (s.drop (k + 1)) =
      some ((s.drop (k + 1)).take j, (s.drop (k + 1)).drop (j + 1)) := by
    rw [splitGroup?, hj]
    rfl
  have hbody : ('\x7b' :: s).take (k + 1 + j + 1) =
      '\x7b' :: (s.take k ++ '\x7d' :: (s.drop (k + 1)).take j) := by
    rw [List.take_succ_cons, List.take_add, List.take_add_one, Braces.getElem?_closing? hk]
    simp
  have hrest : ('\x7b' :: s).drop (k + 1 + j + 1 + 1) = (s.drop (k + 1)).drop (j + 1) := by
    rw [List.drop_succ_cons, List.drop_drop]
    congr 1
  obtain ⟨rfl, rfl⟩ := Prod.mk.inj heq
  refine ⟨s.take k, (s.drop (k + 1)).take j, ?_, ?_, hbody⟩
  · rw [hrest, Braces.append_of_splitGroup? houter, hinner]
  · rw [hrest, Braces.append_of_splitGroup? houter, houter]

/-- What is split off as the body of a group is balanced, by induction on the length of the text: a
group in it is split off in turn. -/
theorem balanced_of_splitGroup? {s body rest : List Char} (h : splitGroup? s = some (body, rest)) :
    Balanced body := by
  induction hlength : s.length using Nat.strongRecOn generalizing s body rest with
  | ind n ih =>
    subst hlength
    cases s with
    | nil => cases h
    | cons c s =>
      by_cases hopen : c = '\x7b'
      · subst hopen
        -- a group within the text, and what is behind it: both are shorter
        obtain ⟨inner, after, hinner, hafter, rfl⟩ := exists_of_splitGroup?_open h
        have hshort := Braces.length_of_splitGroup? hinner
        refine .group (ih _ (by simp) hinner rfl) (ih _ ?_ hafter rfl)
        rw [List.length_cons]
        omega
      · obtain ⟨n, hn, heq⟩ := Option.map_eq_some_iff.1 h
        obtain ⟨rfl, rfl⟩ := Prod.mk.inj heq
        by_cases hclose : c = '\x7d'
        · simp only [closing?, hclose, beq_self_eq_true, if_true, Nat.le_refl] at hn
          rw [if_neg (by decide)] at hn
          obtain rfl := Option.some.inj hn
          exact .nil
        · simp only [closing?, beq_iff_eq, hopen, hclose, if_false] at hn
          obtain ⟨m, hm, rfl⟩ := Option.map_eq_some_iff.1 hn
          have hrest : splitGroup? s = some (s.take m, s.drop (m + 1)) := by
            rw [splitGroup?, hm]
            rfl
          exact .char hopen hclose (ih _ (by simp) hrest rfl)

section

variable {s body : List Char}

theorem Balanced.passed (h : Balanced s) : Passed 1 s := by
  induction h with
  | nil => exact passed_nil 1
  | char hopen hclose _ ih =>
    exact (passed_char ⟨hopen, hclose⟩ (.inr (Nat.le_refl 1))).append ih
  | group _ _ ihbody ih =>
    have hgroup := ihbody.group.within.append ih
    rwa [List.cons_append, List.append_assoc, List.singleton_append] at hgroup

theorem splitGroup?_of_balanced (h : Balanced body) (rest : List Char) :
    splitGroup? (body ++ '\x7d' :: rest) = some (body, rest) :=
  splitGroup?_passed h.passed rest

end

/-! ## What a search finds -/

/-- Whether what stands between braces has a comma or two dots of its own. -/
def IsChoice (body : List Char) : Prop := isExpandable 0 body = true

/-- A search from left to right comes to a group whose body meets `P`. It ends at a brace that is
not closed, and looks into groups only if it is to find groups within others. There are two searches
then, with one definition for both. -/
inductive HasGroup (P : List Char → Prop) (within : Bool) : List Char → Prop where
  /-- the first group is one -/
  | here {s body rest : List Char} : splitGroup? s = some (body, rest) → P body →
      HasGroup P within ('\x7b' :: s)
  /-- there is one in the first group -/
  | inside {s body rest : List Char} : splitGroup? s = some (body, rest) → within = true →
      HasGroup P within body → HasGroup P within ('\x7b' :: s)
  /-- there is one behind the first group -/
  | behind {s body rest : List Char} : splitGroup? s = some (body, rest) →
      HasGroup P within rest → HasGroup P within ('\x7b' :: s)
  /-- no group comes first -/
  | later {c : Char} {s : List Char} : c ≠ '\x7b' → HasGroup P within s →
      HasGroup P within (c :: s)

section

variable {P : List Char → Prop} {within : Bool} {s body rest : List Char} {c : Char}

theorem not_hasGroup_nil : ¬ HasGroup P within [] := nofun

theorem hasGroup_char (hc : c ≠ '\x7b') : HasGroup P within (c :: s) ↔ HasGroup P within s := by
  constructor
  · intro h
    cases h with
    | later _ h => exact h
    | _ => exact absurd rfl hc
  · exact .later hc

theorem not_hasGroup_open (h : splitGroup? s = none) : ¬ HasGroup P within ('\x7b' :: s) := by
  intro hgroup
  cases hgroup with
  | later hc _ => exact hc rfl
  | here hsplit _ => cases h.symm.trans hsplit
  | inside hsplit _ _ => cases h.symm.trans hsplit
  | behind hsplit _ => cases h.symm.trans hsplit

theorem hasGroup_group (h : splitGroup? s = some (body, rest)) :
    HasGroup P within ('\x7b' :: s) ↔
      P body ∨ (within = true ∧ HasGroup P within body) ∨ HasGroup P within rest := by
  constructor
  · intro hgroup
    cases hgroup with
    | later hc _ => exact absurd rfl hc
    | here hsplit hP =>
      obtain ⟨rfl, rfl⟩ := Prod.mk.inj (Option.some.inj (h.symm.trans hsplit))
      exact .inl hP
    | inside hsplit hwithin hinner =>
      obtain ⟨rfl, rfl⟩ := Prod.mk.inj (Option.some.inj (h.symm.trans hsplit))
      exact .inr (.inl ⟨hwithin, hinner⟩)
    | behind hsplit hlater =>
      obtain ⟨rfl, rfl⟩ := Prod.mk.inj (Option.some.inj (h.symm.trans hsplit))
      exact .inr (.inr hlater)
  · rintro (hP | ⟨hwithin, hinner⟩ | hlater)
    · exact .here h hP
    · exact .inside h hwithin hinner
    · exact .behind h hlater

/-- Groups that are not within others are found also by a search for groups within others. -/
theorem HasGroup.anywhere (h : HasGroup P false s) : HasGroup P true s := by
  induction h with
  | here hsplit hP => exact .here hsplit hP
  | inside _ hwithin _ _ => cases hwithin
  | behind hsplit _ ih => exact .behind hsplit ih
  | later hc _ ih => exact .later hc ih

end

end CommandLanguage.Brace
