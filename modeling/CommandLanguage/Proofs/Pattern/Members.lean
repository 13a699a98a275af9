import CommandLanguage.Proofs.Pattern.Written
import CommandLanguage.Proofs.Regex.Members

/-!
# What bracket expressions stand for

A bracket expression without ranges and named sets lists its members one by one, some of them behind a
backslash. It stands for the members that it lists, or for all other characters if it begins with a
negation, as long as a backslash makes the character behind it stand for itself in a regular expression
too. That is so of the ASCII characters but letters, digits and the angle brackets; with any other
character behind the backslash the engine refuses the expression or reads something else there.

* `Glob.members` — the members that are listed;
* `Glob.Denotes` — a bracket expression stands for what it lists;
* `denotes_listed` — which bracket expressions do.
-/

namespace CommandLanguage.Glob

open Engine (Item bracketText isEscapable letterSet?)

variable {c d : Char} {m : Member} {ms : List Member} {s u body : List Char} {n : Nat}

/-! ## Members -/

/-- A member that is listed as a single character. -/
inductive Member where
  /-- a character by itself -/
  | plain (c : Char)
  /-- a character behind a backslash -/
  | escaped (c : Char)
  deriving DecidableEq, Repr

namespace Member

/-- The character that a member is. -/
def char : Member → Char
  | plain c => c
  | escaped c => c

/-- The member of a regular expression that a member is written as. Brackets and carets get a backslash
that they need not have in a pattern. -/
def item : Member → Item
  | plain c => if c == ']' || c == '[' || c == '^' then .escaped c else .plain c
  | escaped c => .escaped c

/-- Whether a member by itself is neither part of a range or of the name of a set nor an operator. -/
def isSingle : Member → Bool
  | plain c => !"\\-:&~".toList.contains c
  | escaped _ => true

/-- Whether a member means in a regular expression what it means in a pattern. -/
def isLiteral : Member → Bool
  | plain c => isSingle (plain c)
  | escaped c => isEscapable c

/-- A member that means the same in both is one by itself. -/
theorem isSingle_of_isLiteral (h : m.isLiteral = true) : m.isSingle = true := by
  cases m with
  | plain c => exact h
  | escaped c => rfl

/-- A member that means the same in both stands for its character in an expression. -/
theorem set?_item (h : m.isLiteral = true) : m.item.set? = some (m.char == ·) := by
  cases m with
  | escaped c => exact if_pos h
  | plain c =>
    rw [item]
    split
    · next hbracket =>
      refine if_pos ?_
      simp only [Bool.or_eq_true, beq_iff_eq] at hbracket
      rcases hbracket with (rfl | rfl) | rfl <;> decide
    · next hbracket =>
      refine if_neg fun hsign => ?_
      simp [isLiteral, isSingle] at h
      simp_all

end Member

/-- The members that a text lists. -/
def members : List Char → List Member
  | [] => []
  | '\\' :: c :: r => .escaped c :: members r
  | c :: r => .plain c :: members r

/-- Whether what stands between the brackets begins with a negation. -/
def isNegated (s : List Char) : Bool := s.head?.any isNegation

/-- What stands between the brackets, without the negation. -/
def listed (s : List Char) : List Char := if isNegated s then s.drop 1 else s

/-- The members of an expression are written one after the other. The induction goes along the
members, since a backslash takes the character behind it with it, even if that is a backslash
again. -/
theorem membersRegex_eq (h : ∀ m ∈ members s, m.isSingle = true) :
    membersRegex 0 s = ((members s).map Member.item).flatMap Item.text := by
  induction s using members.induct with
  | case1 => rfl
  | case2 c r ih =>
    rw [members] at h ⊢
    rw [membersRegex]
    exact congrArg (fun t => '\\' :: c :: t) (ih (List.forall_mem_cons.1 h).2)
  | case3 c r hescape ih =>
    rw [members.eq_3 c r hescape] at h ⊢
    obtain ⟨hc, hr⟩ := List.forall_mem_cons.1 h
    have hbackslash : c ≠ '\\' := by
      rintro rfl
      cases hc
    -- no name of a set begins here, as the next member is no colon
    have hname : namedLength? r = none := by
      unfold namedLength?
      split
      · rw [members.eq_3 _ _ (by simp)] at hr
        cases (List.forall_mem_cons.1 hr).1
      · rfl
    rw [membersRegex, if_neg (by simpa using hbackslash), hname, ite_self, List.map_cons, List.flatMap_cons,
      ← ih hr, Member.item]
    split <;> rfl

/-- A bracket expression is written as one of its members. -/
theorem bracketRegex_eq (h : ∀ m ∈ members (listed s), m.isSingle = true) :
    bracketRegex s = bracketText (isNegated s) ((members (listed s)).map Member.item) := by
  rw [bracketText, ← membersRegex_eq h, bracketRegex, listed, isNegated]
  split <;> simp

/-! ## Where the expression ends -/

/-- Passing over characters is reading on behind them. -/
theorem regexFrom_pass (greedy : Bool) (pass : Nat) (s : List Char) :
    regexFrom greedy pass s = regex greedy (s.drop pass) := by
  induction s generalizing pass with
  | nil =>
    rw [List.drop_nil]
    cases pass <;> rfl
  | cons c s ih =>
    cases pass with
    | zero => rfl
    | succ pass => exact ih pass

/-- A bracket expression that is closed is one for itself, whatever follows it. -/
theorem regex_bracket (greedy : Bool) (h : bracketLength? s = some n) :
    regex greedy ('[' :: s) = bracketRegex (s.take n) ++ regex greedy (s.drop (n + 1)) := by
  rw [regex, regexFrom.eq_def]
  simp [h, regexFrom_pass]

/-- What comes before the closing bracket is not empty, as a bracket in the first place is a member. -/
theorem take_ne_nil_of_closing? (h : closing? 0 (s.drop (leading s)) = some n) :
    s.take (leading s + n) ≠ [] := by
  unfold leading at h ⊢
  cases s with
  | nil => cases h
  | cons c s =>
    by_cases hhead : (c :: s).head? = some ']'
    · rw [if_pos hhead, Nat.add_comm, List.take_succ_cons]
      exact List.cons_ne_nil _ _
    · rw [if_neg hhead] at h ⊢
      rcases closing?_cases h with ⟨rfl, -⟩ | ⟨m, rfl, -⟩
      · exact absurd rfl hhead
      · rw [Nat.zero_add, List.take_succ_cons]
        exact List.cons_ne_nil _ _

/-- A bracket expression lists at least one member, as a closing bracket in the first place is
one. -/
theorem listed_take_ne_nil (h : bracketLength? s = some n) : listed (s.take n) ≠ [] := by
  rcases bracketLength?_cases h with ⟨c, t, m, rfl, hc, rfl, hm⟩ | ⟨hs, m, rfl, hm⟩
  · have hlisted (t : List Char) : listed (c :: t) = t := if_pos hc
    rw [List.take_succ_cons, hlisted]
    exact take_ne_nil_of_closing? hm
  · rw [listed, isNegated, if_neg (isNegation_take hs _)]
    exact take_ne_nil_of_closing? hm

/-- Every text that is not empty lists a member. -/
theorem members_ne_nil (h : s ≠ []) : members s ≠ [] := by
  unfold members
  split
  · exact absurd rfl h
  · exact List.cons_ne_nil _ _
  · exact List.cons_ne_nil _ _

/-! ## What bracket expressions stand for -/

/-- A bracket expression, which is closed after `n` characters and with which a pattern begins, stands
for the characters that it lists, or for all others if it is negated: what is written for it, before the
rest of the pattern, is accepted and matches these characters. -/
def Denotes (E : Engine) (greedy : Bool) (s : List Char) (n : Nat) : Prop :=
  ∃ text m, regex greedy ('[' :: s) = text ++ regex greedy (s.drop (n + 1)) ∧
    E.compile text = .ok m ∧
    ∀ c, m.isMatch [c] =
      (isNegated (s.take n) != (members (listed (s.take n))).any (·.char == c))

/-- What a letter stands for behind a backslash is not the letter alone. -/
theorem exists_letterSet?_ne {set : Char → Bool} (h : letterSet? c = some set) :
    ∃ d, set d ≠ (c == d) := by
  unfold letterSet? at h
  split at h
  all_goals cases h
  -- a character that the set has and the letter is not, or the other way round
  · exact ⟨'0', by decide⟩
  · exact ⟨'!', by decide⟩
  · exact ⟨' ', by decide⟩
  · exact ⟨'!', by decide⟩
  · exact ⟨'0', by decide⟩
  · exact ⟨'!', by decide⟩
  · exact ⟨'a', by decide⟩
  · exact ⟨'f', by decide⟩
  · exact ⟨'t', by decide⟩
  · exact ⟨'n', by decide⟩
  · exact ⟨'r', by decide⟩
  · exact ⟨'v', by decide⟩

section

variable {E : Engine} (hE : E.ReadsBrackets)
include hE

/-- A bracket expression whose members all mean the same in both is accepted by every engine that
reads brackets, and holds what it lists: it is written member by member, and each is read as the
character that it is. -/
theorem denotes_of_isLiteral (greedy : Bool) (h : bracketLength? s = some n)
    (hms : ∀ m ∈ members (listed (s.take n)), m.isLiteral = true) : Denotes E greedy s n := by
  have hsets : ∀ m ∈ members (listed (s.take n)), m.item.set? = some (m.char == ·) :=
    fun m hm => Member.set?_item (hms m hm)
  have hne := members_ne_nil (listed_take_ne_nil h)
  obtain ⟨m, hm, hmatch⟩ := hE.union (isNegated (s.take n))
    (mt List.map_eq_nil_iff.1 hne) (List.forall_mem_map.2 fun m hm => by rw [hsets m hm]; rfl)
  have hsingle : ∀ m ∈ members (listed (s.take n)), m.isSingle = true :=
    fun m hm => Member.isSingle_of_isLiteral (hms m hm)
  rw [← bracketRegex_eq hsingle] at hm
  refine ⟨_, m, regex_bracket greedy h, hm, fun c => ?_⟩
  have hany : ((members (listed (s.take n))).map Member.item).any (·.holds c) =
      (members (listed (s.take n))).any (·.char == c) := by
    rw [List.any_map, Bool.eq_iff_iff, List.any_eq_true, List.any_eq_true]
    refine exists_congr fun m => and_congr_right fun hm => ?_
    rw [Function.comp_apply, Item.holds, hsets m hm]
    rfl
  rw [hmatch, hany]

/-- With a single member behind a backslash it is the other way round too. If the engine does not
take the backslash for the character itself, it refuses the expression, or there is a character on
which the set that it reads and the list differ. -/
theorem denotes_iff_isEscapable (greedy : Bool) (h : bracketLength? s = some n)
    (hc : members (listed (s.take n)) = [.escaped c]) :
    Denotes E greedy s n ↔ isEscapable c = true := by
  have hsingle : ∀ m ∈ members (listed (s.take n)), m.isSingle = true := by
    rw [hc]
    exact List.forall_mem_singleton.2 rfl
  have hwritten := bracketRegex_eq hsingle
  rw [hc] at hwritten
  constructor
  · rintro ⟨text, m, htext, hm, hmatch⟩
    by_contra hescapable
    obtain rfl : text = bracketRegex (s.take n) :=
      List.append_cancel_right (htext.symm.trans (regex_bracket greedy h))
    rw [hwritten] at hm
    cases hset : (Item.escaped c).set? with
    | none => exact hE.refused _ hset ⟨m, hm⟩
    | some set =>
      -- the expression is read, but not as the character
      have hletter : letterSet? c = some set := by rwa [Item.set?, if_neg hescapable] at hset
      obtain ⟨d, hd⟩ := exists_letterSet?_ne hletter
      obtain ⟨m', hm', hmatch'⟩ := hE.union (isNegated (s.take n)) (List.cons_ne_nil _ _)
        (List.forall_mem_singleton.2 (by rw [hset]; rfl))
      obtain rfl := Except.ok.inj (hm.symm.trans hm')
      have hsame := (hmatch d).symm.trans (hmatch' d)
      rw [hc, List.any_cons, List.any_nil, Bool.or_false, List.any_cons, List.any_nil, Bool.or_false,
        Item.holds, hset, Option.any_some, Member.char] at hsame
      cases hnegated : isNegated (s.take n) with
      | true =>
        rw [hnegated, Bool.true_bne, Bool.true_bne] at hsame
        exact hd (Bool.not_inj hsame).symm
      | false =>
        rw [hnegated, Bool.false_bne, Bool.false_bne] at hsame
        exact hd hsame.symm
  · intro hescapable
    refine denotes_of_isLiteral hE greedy h ?_
    rw [hc]
    exact List.forall_mem_singleton.2 hescapable

/-- **Bracket expressions stand for the members that they list**, if what is behind a backslash is ASCII
and neither a letter nor a digit nor an angle bracket. With any other character behind a backslash, and
nothing else listed, they do not. -/
theorem denotes_listed (greedy : Bool) (s : List Char) (n : Nat) (h : bracketLength? s = some n) :
    ((∀ m ∈ members (listed (s.take n)), m.isLiteral = true) → Denotes E greedy s n) ∧
      ∀ c, members (listed (s.take n)) = [.escaped c] →
        (Denotes E greedy s n ↔ isEscapable c = true) :=
  ⟨denotes_of_isLiteral hE greedy h, fun _ hc => denotes_iff_isEscapable hE greedy h hc⟩

end

/-- A negation, all of the brackets, and what only a pattern or only an expression takes for a sign. -/
theorem denotes_listed_signs :
    Regex.engine.ReadsBrackets ∧ bracketLength? "!]a\\*^[$\\]]b".toList = some 10 ∧
      Denotes Regex.engine true "!]a\\*^[$\\]]b".toList 10 :=
  have hclosed : bracketLength? "!]a\\*^[$\\]]b".toList = some 10 := by decide
  ⟨Regex.readsBrackets_engine, hclosed,
    (denotes_listed Regex.readsBrackets_engine true _ 10 hclosed).1 (by decide)⟩

/-- A letter behind a backslash is no longer a letter. -/
theorem denotes_letter_ne :
    bracketLength? "\\d]".toList = some 2 ∧
      members (listed ("\\d]".toList.take 2)) = [.escaped 'd'] ∧
      ¬Denotes Regex.engine true "\\d]".toList 2 := by
  have hclosed : bracketLength? "\\d]".toList = some 2 := by decide
  have hmembers : members (listed ("\\d]".toList.take 2)) = [.escaped 'd'] := by decide
  refine ⟨hclosed, hmembers, fun h => ?_⟩
  exact absurd ((denotes_iff_isEscapable Regex.readsBrackets_engine true hclosed hmembers).1 h)
    (by decide)

end CommandLanguage.Glob
