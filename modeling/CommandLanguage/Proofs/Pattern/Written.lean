import CommandLanguage.Pattern.Glob
import CommandLanguage.Proofs.Pattern.Engine

/-!
# The text of the expression for a pattern

Whatever a pattern is, the text of its expression is `Engine.Written`: in its bracket expressions,
brackets stand only behind a backslash. For this, what is listed of a bracket expression has to end
where the search for its closing bracket does, so that neither a backslash nor the name of a set is cut
off.
-/

namespace CommandLanguage.Glob

open Engine (Enclosed Written isOrdinary)

variable {s : List Char} {n pass : Nat}

/-! ## Names of sets

The name of a set stands between brackets and colons within a bracket expression. To write the
expression for what is listed, only the part up to the closing bracket is looked at, so a name must
not reach beyond it. -/

/-- The name of a set is found in the beginning of a text too, if its end is there: the two
characters behind the name are all that is looked at. -/
theorem nameLength?_take {m : Nat} (h : nameLength? s = some n) (hm : n + 2 ≤ m) :
    nameLength? (s.take m) = some n := by
  induction s generalizing n m with
  | nil => cases h
  | cons c s ih =>
    obtain ⟨m, rfl⟩ : ∃ k, m = k + 1 := Nat.exists_eq_add_one.2 (by omega)
    rw [List.take_succ_cons, nameLength?]
    rw [nameLength?] at h
    have hhead : (s.take m).head? = s.head? := by
      rw [List.head?_take, if_neg (by omega)]
    rw [hhead]
    split
    · next hend =>
      rw [if_pos hend] at h
      exact h
    · next hend =>
      rw [if_neg hend] at h
      obtain ⟨k, hk, rfl⟩ := Option.map_eq_some_iff.1 h
      rw [ih hk (by omega)]
      rfl

/-- A name that ends in the beginning of a text ends there in the whole. -/
theorem nameLength?_of_take {m : Nat} (h : nameLength? (s.take m) = some n) :
    nameLength? s = some n := by
  induction s generalizing n m with
  | nil =>
    rw [List.take_nil] at h
    exact h
  | cons c s ih =>
    match m with
    | 0 => cases h
    | 1 =>
      rw [List.take_succ_cons, List.take_zero, nameLength?, List.head?_nil] at h
      simp [nameLength?] at h
    -- two characters have to be there to be looked at
    | m + 2 =>
      have hhead : (s.take (m + 1)).head? = s.head? := by rw [List.head?_take, if_neg (by omega)]
      rw [List.take_succ_cons, nameLength?, hhead] at h
      rw [nameLength?]
      split
      · next hend =>
        rw [if_pos hend] at h
        exact h
      · next hend =>
        rw [if_neg hend] at h
        obtain ⟨k, hk, rfl⟩ := Option.map_eq_some_iff.1 h
        rw [ih hk]
        rfl

/-- A named set with its brackets is found in the beginning of a text too, if its end is there. -/
theorem namedLength?_take {m : Nat} (h : namedLength? s = some n) (hm : n + 3 ≤ m) :
    namedLength? (s.take m) = some n := by
  obtain ⟨m, rfl⟩ : ∃ k, m = k + 1 := Nat.exists_eq_add_one.2 (by omega)
  unfold namedLength? at h
  split at h
  · exact nameLength?_take h (by omega)
  · cases h

/-- A named set that ends in the beginning of a text ends there in the whole. -/
theorem namedLength?_of_take {m : Nat} (h : namedLength? (s.take m) = some n) :
    namedLength? s = some n := by
  unfold namedLength? at h
  split at h
  · next r htake =>
    cases s with
    | nil => simp at htake
    | cons c s =>
      cases m with
      | zero => simp at htake
      | succ m =>
        rw [List.take_succ_cons] at htake
        obtain ⟨rfl, rfl⟩ := List.cons.inj htake
        exact nameLength?_of_take h
  · cases h

/-! ## Bracket expressions -/

/-- What closes its brackets may stand behind what closes its own. -/
theorem enclosed_append {u v : List Char} (hu : Enclosed u) (hv : Enclosed v) :
    Enclosed (u ++ v) := by
  induction hu with
  | nil => exact hv
  | ordinary hc _ ih => exact .ordinary hc ih
  | escaped _ ih => exact .escaped ih

/-- The members of a named set have their brackets and backslashes behind backslashes. -/
theorem enclosed_named? (name : String) : Enclosed ((named? name).getD "").toList := by
  unfold named?
  split
  all_goals
    simp only [Option.getD_some, Option.getD_none, String.toList]
    repeat first | exact .nil | refine .escaped ?_ | refine .ordinary rfl ?_

/-- What is passed over is before the end. -/
theorem le_of_closing? (h : closing? pass s = some n) : pass ≤ n := by
  induction s generalizing pass n with
  | nil => cases h
  | cons c s ih =>
    cases pass with
    | zero => exact Nat.zero_le n
    | succ pass =>
      obtain ⟨m, hm, rfl⟩ := Option.map_eq_some_iff.1 h
      exact Nat.succ_le_succ (ih hm)

/-- The ways in which the search for the end goes on behind a character. -/
theorem closing?_cases {c : Char} (h : closing? 0 (c :: s) = some n) :
    (c = ']' ∧ n = 0) ∨ ∃ m, n = m + 1 ∧
      ((c = '\\' ∧ closing? 1 s = some m) ∨
        (c = '[' ∧ ∃ k, namedLength? s = some k ∧ closing? (k + 3) s = some m) ∨
        (c = '[' ∧ namedLength? s = none ∧ closing? 0 s = some m) ∨
        (isOrdinary c = true ∧ closing? 0 s = some m)) := by
  rw [closing?] at h
  split at h
  · -- the tests in their order: a closing bracket, a backslash, an opening bracket, anything else
    next hclose => exact .inl ⟨eq_of_beq hclose, (Option.some.inj h).symm⟩
  · next hclose =>
    right
    split at h
    · next hbackslash =>
      obtain ⟨m, hm, rfl⟩ := Option.map_eq_some_iff.1 h
      exact ⟨m, rfl, .inl ⟨eq_of_beq hbackslash, hm⟩⟩
    · next hbackslash =>
      split at h
      · next hopen =>
        split at h
        · next k hname =>
          obtain ⟨m, hm, rfl⟩ := Option.map_eq_some_iff.1 h
          exact ⟨m, rfl, .inr (.inl ⟨eq_of_beq hopen, k, hname, hm⟩)⟩
        · next hname =>
          obtain ⟨m, hm, rfl⟩ := Option.map_eq_some_iff.1 h
          exact ⟨m, rfl, .inr (.inr (.inl ⟨eq_of_beq hopen, hname, hm⟩))⟩
      · next hopen =>
        obtain ⟨m, hm, rfl⟩ := Option.map_eq_some_iff.1 h
        refine ⟨m, rfl, .inr (.inr (.inr ⟨?_, hm⟩))⟩
        simp only [beq_iff_eq] at hclose hbackslash hopen
        simp [isOrdinary, hclose, hbackslash, hopen]

/-- What is written for the members of a bracket expression closes its brackets, by induction along
the search for its end. Where that search passes over something, a backslash with its character or a
named set, what is written passes over the same. -/
theorem enclosed_membersRegex (h : closing? pass s = some n) :
    Enclosed (membersRegex pass (s.take n)) := by
  induction s generalizing pass n with
  | nil => cases h
  | cons c s ih =>
    cases pass with
    | succ pass =>
      obtain ⟨m, hm, rfl⟩ := Option.map_eq_some_iff.1 h
      exact ih hm
    | zero =>
      rcases closing?_cases h with ⟨-, rfl⟩ | ⟨m, rfl, hcase⟩
      · exact .nil
      rw [List.take_succ_cons, membersRegex]
      rcases hcase with ⟨rfl, hm⟩ | ⟨rfl, k, hname, hm⟩ | ⟨rfl, hname, hm⟩ | ⟨hc, hm⟩
      · obtain ⟨m, rfl⟩ := Nat.exists_eq_add_of_le' (le_of_closing? hm)
        cases s with
        | nil => cases hm
        | cons d s => exact .escaped (ih hm)
      · rw [if_neg (by decide), if_pos (by decide), if_pos (by decide),
          namedLength?_take hname (le_of_closing? hm)]
        exact enclosed_append (enclosed_named? _) (ih hm)
      · -- what is cut off behind the end would not have made a name
        have hcut : namedLength? (s.take m) = none := by
          refine Option.eq_none_iff_forall_ne_some.2 fun k hk => ?_
          rw [namedLength?_of_take hk] at hname
          cases hname
        rw [if_neg (by decide), if_pos (by decide), if_pos (by decide), hcut]
        exact .escaped (ih hm)
      · obtain ⟨hopen, -, hbackslash⟩ : c ≠ '[' ∧ c ≠ ']' ∧ c ≠ '\\' := by simpa [isOrdinary] using hc
        rw [if_neg (by simpa using hbackslash)]
        split
        · rw [if_neg (by simpa using hopen)]
          exact .escaped (ih hm)
        · exact .ordinary hc (ih hm)

/-- The number of closing brackets in the first place, which are members. -/
def leading (s : List Char) : Nat := if s.head? = some ']' then 1 else 0

/-- The end of a bracket expression is searched for behind the negation and a member in the first
place. -/
theorem bracketLength?_cases (h : bracketLength? s = some n) :
    (∃ c t m, s = c :: t ∧ isNegation c = true ∧ n = leading t + m + 1 ∧
      closing? 0 (t.drop (leading t)) = some m) ∨
    s.head?.any isNegation = false ∧ ∃ m, n = leading s + m ∧
      closing? 0 (s.drop (leading s)) = some m := by
  unfold bracketLength? at h
  dsimp only at h
  obtain ⟨m, hm, rfl⟩ := Option.map_eq_some_iff.1 h
  by_cases hsign : s.head?.any isNegation = true
  · cases s with
    | nil => cases hsign
    | cons c t =>
      -- behind the negation, a closing bracket in the first place is passed as well
      have hliterals : (if (((c :: t).drop 1).head? == some ']') = true then 1 + 1 else 1) =
          leading t + 1 := by
        rw [List.drop_one, List.tail_cons, leading]
        split <;> simp_all
      rw [if_pos hsign, hliterals] at hm ⊢
      exact .inl ⟨c, t, m, rfl, hsign, Nat.add_right_comm _ _ _, hm⟩
  · have hliterals : (if ((s.drop 0).head? == some ']') = true then 0 + 1 else 0) = leading s := by
      rw [List.drop_zero, leading]
      split <;> simp_all
    rw [if_neg hsign, hliterals] at hm ⊢
    exact .inr ⟨Bool.eq_false_iff.2 hsign, m, rfl, hm⟩

/-- Whether a bracket expression is negated is decided by its first character. -/
theorem isNegation_take (h : s.head?.any isNegation = false) (n : Nat) :
    ¬(s.take n).head?.any isNegation = true := by
  rw [List.head?_take]
  split
  · exact Bool.false_ne_true
  · rw [h]
    exact Bool.false_ne_true

/-- A closing bracket in the first place is a member. -/
theorem enclosed_members (h : closing? 0 (s.drop (leading s)) = some n) :
    Enclosed (membersRegex 0 (s.take (leading s + n))) := by
  unfold leading at h ⊢
  split at h
  · next hhead =>
    cases s with
    | nil => cases hhead
    | cons c s =>
      obtain rfl := Option.some.inj hhead
      rw [if_pos hhead, Nat.add_comm, List.take_succ_cons]
      exact .escaped (enclosed_membersRegex h)
  · next hhead =>
    rw [if_neg hhead, Nat.zero_add]
    exact enclosed_membersRegex h

/-- A bracket expression is written as one. -/
theorem exists_bracketRegex (h : bracketLength? s = some n) :
    ∃ u, Enclosed u ∧ bracketRegex (s.take n) = '[' :: (u ++ [']']) := by
  rcases bracketLength?_cases h with ⟨c, t, m, rfl, hc, rfl, hm⟩ | ⟨hs, m, rfl, hm⟩
  · rw [List.take_succ_cons]
    exact ⟨'^' :: membersRegex 0 (t.take (leading t + m)), .ordinary rfl (enclosed_members hm),
      if_pos hc⟩
  · exact ⟨_, enclosed_members hm, if_neg (isNegation_take hs _)⟩

variable {ending : List Char}

/-- A literal is written with a backslash where it would be an operator, and brackets are
operators. -/
theorem written_literal (c : Char) (h : Written ending s) : Written ending (literal c ++ s) := by
  unfold literal
  split
  · next hc => exact .escaped hc h
  · next hc => exact .char (Bool.eq_false_iff.2 hc) h

/-- **The expression for a pattern is written with its brackets closed.** The induction is on the
pattern, along with the number of characters that are passed over since they are part of a bracket
expression that was written already. -/
theorem written_regexFrom (ending : List Char) (pass : Nat) (s : List Char) :
    Written ending (regexFrom true pass s ++ ending) := by
  induction s generalizing pass with
  | nil => exact .ending
  | cons c s ih =>
    cases pass with
    | succ pass => exact ih pass
    | zero =>
      rw [regexFrom.eq_def]
      dsimp only
      split
      · -- the tests of the pattern in their order: a backslash, a star, a question mark, an opening
        -- bracket, anything else
        split
        · exact .escaped rfl .ending
        · next d s =>
          rw [List.append_assoc]
          exact written_literal d (ih 1)
      · split
        · exact .star (ih 0)
        · split
          · exact .dot (ih 0)
          · split
            · split
              · next n hlength =>
                -- a bracket expression is written at once, and its characters are passed over
                obtain ⟨u, hu, heq⟩ := exists_bracketRegex hlength
                have happend : bracketRegex (s.take n) ++ regexFrom true (n + 1) s ++ ending =
                    '[' :: (u ++ ']' :: (regexFrom true (n + 1) s ++ ending)) := by
                  rw [heq]
                  simp
                rw [happend]
                exact .bracket hu (ih (n + 1))
              · exact .escaped rfl (ih 0)
            · rw [List.append_assoc]
              exact written_literal c (ih 0)

end CommandLanguage.Glob
