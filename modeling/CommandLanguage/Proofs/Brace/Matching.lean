import CommandLanguage.Proofs.Brace.Groups
import Mathlib.Order.Bounds.Basic

/-!
# Where a group is closed

A search for the brace that closes a group counts the groups that are open. `search` makes it by index
and counts from nothing, and says what could go wrong with it: that it starts where no group is opened,
or that it comes to a closing brace while none is open. Neither happens to a search that starts at an
opening brace, and then it finds what `matching?` finds.

* `search_eq_ok` — a search from an opening brace goes well;
* `isLeast_of_matching?`, `not_isEven_of_matching?_eq_none` — it ends at the first index up to which there
  are as many opening as closing braces, if there is one;
* `matching?_within` — a group that is opened within another one is closed within it.

The first of them rests on the counter, the others on `Closes`, which is what the counter is about: how many
braces there are up to an index.
-/

namespace CommandLanguage.Braces

/-! ## The search with its faults

The definition here has two faults more than the one that the expansion uses, so that it can be said
of each search that it does not run into them. -/

/-- What can go wrong with a search for a closing brace. -/
inductive Misuse where
  /-- there is no opening brace at the index where it starts -/
  | notOpening (start : Nat)
  /-- there is a closing brace while no group is open -/
  | noneOpen
  deriving DecidableEq, Repr

/-- The number of characters before the brace that closes the last of `depth` open groups. The number of
open groups is never taken below zero: a closing brace while there are none is a fault. -/
def countFrom (depth : Nat) : List Char → Except Misuse (Option Nat)
  | [] => .ok none
  | c :: r =>
    if c == '\x7b' then (countFrom (depth + 1) r).map (·.map (· + 1))
    else if c == '\x7d' then
      if depth == 0 then .error .noneOpen
      else if depth - 1 == 0 then .ok (some 0)
      else (countFrom (depth - 1) r).map (·.map (· + 1))
    else (countFrom depth r).map (·.map (· + 1))

/-- The index of the brace that matches the opening one at index `start`, counted from that one on. -/
def search (s : List Char) (start : Nat) : Except Misuse (Option Nat) :=
  if s[start]? = some '\x7b' then (countFrom 0 (s.drop start)).map (·.map (start + ·))
  else .error (.notOpening start)

/-- While a group is open, the counter stays above zero until the search ends. So the fault of a
closing brace too many cannot come up, and the counter does what the search without faults does. -/
theorem countFrom_succ (depth : Nat) (s : List Char) :
    countFrom (depth + 1) s = .ok (closing? (depth + 1) s) := by
  induction s generalizing depth with
  | nil => rfl
  | cons c r ih =>
    rw [countFrom, closing?]
    split
    · rw [ih]
      rfl
    · split
      · rw [if_neg (by simp), Nat.add_sub_cancel]
        cases depth with
        | zero => rfl
        | succ depth =>
          rw [if_neg (by simp), if_neg (by omega), ih]
          rfl
      · rw [ih]
        rfl

theorem getElem?_of_drop {s r : List Char} {i : Nat} {c : Char} (h : s.drop i = c :: r) :
    s[i]? = some c := by
  have hzero := congrArg (·[0]?) h
  simpa using hzero

theorem exists_drop {s : List Char} {i : Nat} {c : Char} (h : s[i]? = some c) :
    s.drop i = c :: s.drop (i + 1) := by
  obtain ⟨hlt, rfl⟩ := List.getElem?_eq_some_iff.1 h
  exact List.drop_eq_getElem_cons hlt

/-- A search from an opening brace finds where the group is closed. It counts that brace first, and
from then on a group is open. -/
theorem search_eq_ok {s : List Char} {i : Nat} (h : s[i]? = some '\x7b') :
    search s i = .ok (matching? s i) := by
  have hcount : countFrom 0 (s.drop i) = .ok ((closing? 1 (s.drop (i + 1))).map (· + 1)) := by
    rw [exists_drop h, countFrom, if_pos (beq_self_eq_true _), countFrom_succ]
    rfl
  have hadd : (i + ·) ∘ (· + 1) = (i + 1 + ·) := by
    funext n
    simp only [Function.comp_apply]
    omega
  rw [search, if_pos h, hcount, Except.map, Option.map_map, hadd, matching?]

section

variable {s : List Char} {i c : Nat}

theorem search_ne_error (h : s[i]? = some '\x7b') (f : Misuse) : search s i ≠ .error f := by
  rw [search_eq_ok h]
  exact nofun

/-- What is found closes the group that begins behind the opening brace. -/
theorem exists_of_search (h : s[i]? = some '\x7b') (hc : search s i = .ok (some c)) :
    ∃ n, closing? 1 (s.drop (i + 1)) = some n ∧ i + 1 + n = c := by
  rw [search_eq_ok h, matching?] at hc
  exact Option.map_eq_some_iff.1 (Except.ok.inj hc)

theorem closing?_of_search (h : s[i]? = some '\x7b') (hc : search s i = .ok none) :
    closing? 1 (s.drop (i + 1)) = none := by
  rw [search_eq_ok h, matching?] at hc
  exact Option.map_eq_none_iff.1 (Except.ok.inj hc)

/-- What is found is behind where the search starts. -/
theorem lt_of_search (h : search s i = .ok (some c)) : i < c := by
  by_cases hopen : s[i]? = some '\x7b'
  · obtain ⟨n, -, rfl⟩ := exists_of_search hopen h
    omega
  · rw [search, if_neg hopen] at h
    cases h

end

/-! ## As many opening as closing braces

What the search finds is described by counting braces from the first one on, without going through
the text. -/

/-- Up to index `n`, `depth` more groups are closed than opened. This counts all braces up to the
index, and does not ask whether the count was reached before. -/
def Closes (depth : Nat) (s : List Char) (n : Nat) : Prop :=
  n < s.length ∧ (s.take (n + 1)).count '\x7b' + depth = (s.take (n + 1)).count '\x7d'

/-- From one index to another one behind it, there are as many opening as closing braces, the ones
at both indexes included. -/
def IsEven (s : List Char) (start n : Nat) : Prop :=
  start < n ∧ n < s.length ∧
    ((s.drop start).take (n + 1 - start)).count '\x7b' =
      ((s.drop start).take (n + 1 - start)).count '\x7d'

section

variable {s r : List Char} {depth n : Nat}

theorem closes_open : Closes depth ('\x7b' :: r) (n + 1) ↔ Closes (depth + 1) r n := by
  have hne : ('\x7b' == '\x7d') = false := rfl
  simp only [Closes, List.length_cons, List.take_succ_cons, List.count_cons, beq_self_eq_true, hne,
    if_true, Bool.false_eq_true, if_false]
  omega

theorem closes_close : Closes (depth + 1) ('\x7d' :: r) (n + 1) ↔ Closes depth r n := by
  have hne : ('\x7d' == '\x7b') = false := rfl
  simp only [Closes, List.length_cons, List.take_succ_cons, List.count_cons, beq_self_eq_true, hne,
    if_true, Bool.false_eq_true, if_false]
  omega

theorem closes_other {c : Char} (hopen : c ≠ '\x7b') (hclose : c ≠ '\x7d') :
    Closes depth (c :: r) (n + 1) ↔ Closes depth r n := by
  simp only [Closes, List.length_cons, List.take_succ_cons, List.count_cons, beq_iff_eq, hopen,
    hclose, if_false]
  omega

/-- Only a closing brace closes a group. -/
theorem closes_zero {c : Char} (hdepth : 1 ≤ depth) :
    Closes depth (c :: r) 0 ↔ c = '\x7d' ∧ depth = 1 := by
  by_cases hclose : c = '\x7d'
  · subst hclose
    simp [Closes]
  · simp only [Closes, List.take_succ_cons, List.take_zero, List.count_singleton, beq_iff_eq,
      hclose, if_false, false_and, iff_false]
    omega

/-- What the search finds closes the groups. By induction on the text: each character changes the
count as it changes the number of open groups. -/
theorem closes_of_closing? (hdepth : 1 ≤ depth) (h : closing? depth s = some n) :
    Closes depth s n := by
  induction s generalizing depth n with
  | nil => cases h
  | cons c r ih =>
    rw [closing?] at h
    by_cases hopen : c = '\x7b'
    · rw [if_pos (beq_iff_eq.2 hopen)] at h
      obtain ⟨m, hm, rfl⟩ := Option.map_eq_some_iff.1 h
      rw [hopen, closes_open]
      exact ih (by omega) hm
    · rw [if_neg (by simpa using hopen)] at h
      by_cases hclose : c = '\x7d'
      · rw [if_pos (beq_iff_eq.2 hclose)] at h
        split at h
        · obtain rfl := Option.some.inj h
          exact (closes_zero hdepth).2 ⟨hclose, by omega⟩
        · obtain ⟨m, hm, rfl⟩ := Option.map_eq_some_iff.1 h
          obtain ⟨depth, rfl⟩ : ∃ d, depth = d + 1 := ⟨depth - 1, by omega⟩
          rw [hclose, closes_close]
          exact ih (by omega) hm
      · rw [if_neg (by simpa using hclose)] at h
        obtain ⟨m, hm, rfl⟩ := Option.map_eq_some_iff.1 h
        rw [closes_other hopen hclose]
        exact ih hdepth hm

/-- Where groups are closed, the search has ended, there or before. So what it finds is the least
such index. -/
theorem exists_closing?_of_closes (hdepth : 1 ≤ depth) (h : Closes depth s n) :
    ∃ m ≤ n, closing? depth s = some m := by
  induction s generalizing depth n with
  | nil => cases h.1
  | cons c r ih =>
    rw [closing?]
    by_cases hopen : c = '\x7b'
    · rw [if_pos (beq_iff_eq.2 hopen)]
      cases n with
      | zero =>
        -- an opening brace does not end anything, so there is more to come
        obtain ⟨hclose, -⟩ := (closes_zero hdepth).1 h
        cases hopen.symm.trans hclose
      | succ n =>
        rw [hopen, closes_open] at h
        obtain ⟨m, hle, hm⟩ := ih (by omega) h
        exact ⟨m + 1, by omega, by rw [hm]; rfl⟩
    · rw [if_neg (by simpa using hopen)]
      by_cases hclose : c = '\x7d'
      · rw [if_pos (beq_iff_eq.2 hclose)]
        split
        · -- the counter comes to zero here, which is at the index or before it
          exact ⟨0, Nat.zero_le n, rfl⟩
        · cases n with
          | zero =>
            obtain ⟨-, hone⟩ := (closes_zero hdepth).1 h
            omega
          | succ n =>
            obtain ⟨depth, rfl⟩ : ∃ d, depth = d + 1 := ⟨depth - 1, by omega⟩
            rw [hclose, closes_close] at h
            obtain ⟨m, hle, hm⟩ := ih (by omega) h
            exact ⟨m + 1, by omega, by rw [Nat.add_sub_cancel, hm]; rfl⟩
      · rw [if_neg (by simpa using hclose)]
        cases n with
        | zero => exact absurd ((closes_zero hdepth).1 h).1 hclose
        | succ n =>
          rw [closes_other hopen hclose] at h
          obtain ⟨m, hle, hm⟩ := ih hdepth h
          exact ⟨m + 1, by omega, by rw [hm]; rfl⟩

/-- A group that is opened before the end of a search is closed before it: otherwise the count of
the outer search could not have come down to nothing. -/
theorem exists_closing?_within (hdepth : 1 ≤ depth) (h : closing? depth s = some n) {m : Nat}
    (hlt : m < n) (hm : s[m]? = some '\x7b') :
    ∃ k, closing? 1 (s.drop (m + 1)) = some k ∧ m + 1 + k < n := by
  induction s generalizing depth n m with
  | nil => cases h
  | cons c r ih =>
    rw [closing?] at h
    cases m with
    | zero =>
      obtain rfl : c = '\x7b' := by simpa using hm
      rw [if_pos (beq_self_eq_true _), Nat.add_comm] at h
      obtain ⟨e, he, rfl⟩ := Option.map_eq_some_iff.1 h
      obtain ⟨k, j, hk, -, rfl⟩ := Brace.exists_of_closing?_add (Nat.le_refl 1) hdepth he
      exact ⟨k, hk, by omega⟩
    | succ m =>
      -- the search in the rest ends one index earlier, whatever the first character is
      have hrest : ∃ d e, 1 ≤ d ∧ closing? d r = some e ∧ n = e + 1 := by
        split at h
        · obtain ⟨e, he, rfl⟩ := Option.map_eq_some_iff.1 h
          exact ⟨depth + 1, e, by omega, he, rfl⟩
        · split at h
          · split at h
            · cases h
              omega
            · obtain ⟨e, he, rfl⟩ := Option.map_eq_some_iff.1 h
              exact ⟨depth - 1, e, by omega, he, rfl⟩
          · obtain ⟨e, he, rfl⟩ := Option.map_eq_some_iff.1 h
            exact ⟨depth, e, hdepth, he, rfl⟩
      obtain ⟨d, e, hd, he, rfl⟩ := hrest
      obtain ⟨k, hk, hend⟩ := ih hd he (Nat.lt_of_succ_lt_succ hlt) (by simpa using hm)
      exact ⟨k, hk, by omega⟩

end

/-! ## Matching braces -/

section

variable {s : List Char} {i c : Nat}

/-- The counts from an opening brace on are those of what follows it, where one group is open. -/
theorem isEven_iff_closes (h : s[i]? = some '\x7b') {n : Nat} :
    IsEven s i (i + 1 + n) ↔ Closes 1 (s.drop (i + 1)) n := by
  have hlength : i + 1 + n + 1 - i = n + 1 + 1 := by omega
  have hne : ('\x7b' == '\x7d') = false := rfl
  simp only [IsEven, Closes, hlength, exists_drop h, List.take_succ_cons, List.count_cons, hne,
    beq_self_eq_true, if_true, Bool.false_eq_true, if_false, List.length_drop, Nat.add_zero]
  omega

theorem matching?_eq_some_iff : matching? s i = some c ↔
    ∃ n, closing? 1 (s.drop (i + 1)) = some n ∧ i + 1 + n = c :=
  Option.map_eq_some_iff

theorem exists_matching?_of_isEven (h : s[i]? = some '\x7b') (heven : IsEven s i c) :
    ∃ m ≤ c, matching? s i = some m := by
  obtain ⟨n, rfl⟩ : ∃ n, c = i + 1 + n := ⟨c - (i + 1), by have := heven.1; omega⟩
  obtain ⟨m, hle, hm⟩ := exists_closing?_of_closes (Nat.le_refl 1) ((isEven_iff_closes h).1 heven)
  exact ⟨i + 1 + m, by omega, matching?_eq_some_iff.2 ⟨m, hm, rfl⟩⟩

theorem isLeast_of_matching? (h : s[i]? = some '\x7b') (hc : matching? s i = some c) :
    IsLeast {n | IsEven s i n} c := by
  constructor
  · obtain ⟨n, hn, rfl⟩ := matching?_eq_some_iff.1 hc
    exact (isEven_iff_closes h).2 (closes_of_closing? (Nat.le_refl 1) hn)
  · intro n hn
    obtain ⟨m, hle, hm⟩ := exists_matching?_of_isEven h hn
    obtain rfl := Option.some.inj (hc.symm.trans hm)
    exact hle

theorem not_isEven_of_matching?_eq_none (h : s[i]? = some '\x7b') (hc : matching? s i = none)
    (n : Nat) : ¬ IsEven s i n := by
  intro hn
  obtain ⟨m, -, hm⟩ := exists_matching?_of_isEven h hn
  cases hc.symm.trans hm

theorem matching?_within (hc : matching? s i = some c) {j : Nat} (hij : i < j) (hjc : j < c)
    (hj : s[j]? = some '\x7b') : ∃ d, matching? s j = some d ∧ j < d ∧ d < c := by
  obtain ⟨n, hn, rfl⟩ := matching?_eq_some_iff.1 hc
  obtain ⟨m, rfl⟩ : ∃ m, j = i + 1 + m := ⟨j - (i + 1), by omega⟩
  have hm : (s.drop (i + 1))[m]? = some '\x7b' := by rwa [List.getElem?_drop]
  obtain ⟨k, hk, hlt⟩ := exists_closing?_within (Nat.le_refl 1) hn (by omega) hm
  rw [List.drop_drop, ← Nat.add_assoc] at hk
  exact ⟨i + 1 + m + 1 + k, matching?_eq_some_iff.2 ⟨k, hk, rfl⟩, by omega, by omega⟩

end

end CommandLanguage.Braces
