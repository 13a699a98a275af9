import CommandLanguage.Proofs.Regex.Engine

/-!
# The engine reads the members of bracket expressions

`Regex.engine` does what is relied on of an engine that reads bracket expressions
(`Engine.ReadsBrackets`). Each member is read on its own as the set of what it stands for, as long as
none is a dash and nothing but the escape itself is read of what follows it. What cannot be read of a
member cannot be read of the bracket expression, nor of an expression that begins with it.

* `exists_set_item`, `exists_run_items` — what a member is read as, and several of them;
* `escape_of_set?_eq_none` — no other character behind a backslash is read as a set;
* `readsBrackets_engine` — the engine does what is relied on.
-/

namespace CommandLanguage.Regex

open Engine (Item bracketText letterSet?)

/-- The characters that mean something else than themselves where a member may begin. -/
def isMemberSign (c : Char) : Bool := "[]\\-&~".toList.contains c

section

variable {c d : Char} {r s u : List Char} {e : Regex} {t : CharSet} {fault : Fault}

/-- Going on at a text that has a character takes that character. -/
theorem run_moveOn {α : Type} (f : Char × List Char → Read α) (c : Char) (s u : List Char)
    (fault : Fault) :
    (Read.moveOn (c :: s) fault >>= f).run (.plain u) = (f (c, s)).run (.plain (c :: s)) := rfl

/-! ## Members -/

/-- A backslash makes a character that is neither a letter nor a digit stand for itself. -/
theorem run_escape_of_isEscapable (hc : isEscapable c = true) (s u : List Char) :
    (escape (c :: s)).run (.plain u) = .ok (.char c, .plain s) := by
  have hdigit : ¬c.isDigit = true := by
    intro hdigit
    simp [isEscapable, Char.isAlphanum, hdigit] at hc
  unfold escape
  dsimp only
  rw [if_neg hdigit]
  split
  case h_24 =>
    rw [hc, Bool.or_true]
    rfl
  all_goals exact absurd hc (by decide)

theorem run_bracketItem_char (hc : c ≠ '\\') (r u : List Char) :
    (bracketItem c r).run (.plain u) = .ok (.char c, .plain r) := by
  rw [bracketItem, if_neg (by simpa using hc)]
  rfl

/-- A member without a dash behind it is not the start of a range: it is what its set is. -/
theorem run_bracketRange_item (hitem : (bracketItem c r).run (.plain u) = .ok (e, .plain (d :: s)))
    (hd : d ≠ '-') :
    (bracketRange c r).run (.plain u) = (itemSet e).map fun t => (t, .plain (d :: s)) := by
  have hnext (next : Option Char) :
      (d != '-' || next == some ']' || next == some '-') = true := by simp [hd]
  rw [bracketRange, StateT.run_bind, hitem]
  show StateT.run (ite _ _ _) _ = _
  rw [if_pos (hnext _)]
  cases itemSet e <;> rfl

theorem run_bracketRange (hitem : (bracketItem c r).run (.plain u) = .ok (e, .plain (d :: s)))
    (hset : itemSet e = .ok t) (hd : d ≠ '-') :
    (bracketRange c r).run (.plain u) = .ok (t, .plain (d :: s)) := by
  rw [run_bracketRange_item hitem hd, hset]
  rfl

theorem run_bracketRange_error (hitem : (bracketItem c r).run (.plain u) = .error fault) :
    (bracketRange c r).run (.plain u) = .error fault := by
  rw [bracketRange, StateT.run_bind, hitem]
  rfl

/-- A member that stands for no character is none. -/
theorem run_bracketRange_not_set (hitem : (bracketItem c r).run (.plain u) = .ok (e, .plain (d :: s)))
    (hset : itemSet e = .error fault) (hd : d ≠ '-') :
    (bracketRange c r).run (.plain u) = .error fault := by
  rw [run_bracketRange_item hitem hd, hset]
  rfl

/-! ## Members one after the other

A reader of members goes on until it sees the closing bracket. What it keeps on the way is the set
of all that it has read so far. -/

/-- One more member is read. -/
theorem run_bracketItems (seen : List CharSet) (fuel : Nat) (hc : c = '\\' ∨ isMemberSign c = false) :
    (bracketItems seen (fuel + 1)).run (.plain (c :: r)) =
      (bracketRange c r >>= fun t => bracketItems (seen ++ [t]) fuel).run (.plain (c :: r)) := by
  have hne {d : Char} (hd : isMemberSign d = true) (hbackslash : d ≠ '\\') : c ≠ d := by
    rintro rfl
    rcases hc with hc | hc
    · exact hbackslash hc
    · rw [hd] at hc
      cases hc
  rw [bracketItems, run_rest]
  split
  case h_1 heq => cases heq
  case h_7 heq =>
    obtain ⟨rfl, rfl⟩ := List.cons.inj heq
    rfl
  all_goals exact absurd (List.cons.inj ‹_ = _›).1 (hne (by decide) (by decide))

theorem run_bracketItems_close (seen : List CharSet) (fuel : Nat) (s : List Char) :
    (bracketItems seen (fuel + 1)).run (.plain (']' :: s)) = .ok (.ofList seen, .plain s) := rfl

/-! ## Bracket expressions -/

/-- The members of a bracket expression that begins with one of them, and not with a sign. -/
theorem run_bracket_items (negated : Bool) (hc : c = '\\' ∨ isMemberSign c = false) (hsign : c ≠ '^')
    (r u : List Char) :
    (bracket (if negated then '^' :: c :: r else c :: r)).run (.plain u) =
      (do
        let members ← bracketItems [] (r.length + 2)
        let members := if (← Read.flags).foldCase then members.foldCase else members
        return Regex.set (if negated then .complement members else members) : Read Regex).run
        (.plain (c :: r)) := by
  -- a dash or a closing bracket in the first place would be read apart
  have hdash : c ≠ '-' := by
    rintro rfl
    exact absurd hc (by decide)
  have hclose : c ≠ ']' := by
    rintro rfl
    exact absurd hc (by decide)
  have hstart : bracketStart [] (r.length + 2) c r = (return []) := by
    simp [bracketStart, hdash, hclose]
  cases negated with
  | true =>
    rw [if_pos rfl, bracket, run_moveOn]
    dsimp only
    rw [if_pos (by decide), run_moveOn]
    dsimp only
    rw [hstart]
    rfl
  | false =>
    rw [if_neg Bool.false_ne_true, bracket, run_moveOn]
    dsimp only
    rw [if_neg (by simpa using hsign), pure_bind]
    dsimp only
    rw [hstart, beq_eq_false_iff_ne.2 hsign]
    rfl

theorem run_bracket (negated : Bool) (hc : c = '\\' ∨ isMemberSign c = false) (hsign : c ≠ '^')
    (h : (bracketItems [] (r.length + 2)).run (.plain (c :: r)) = .ok (t, .plain s)) (u : List Char) :
    (bracket (if negated then '^' :: c :: r else c :: r)).run (.plain u) =
      .ok (.set (if negated then .complement t else t), .plain s) := by
  rw [run_bracket_items negated hc hsign, StateT.run_bind, h]
  rfl

theorem run_bracket_error (negated : Bool) (hc : c = '\\' ∨ isMemberSign c = false) (hsign : c ≠ '^')
    (h : (bracketItems [] (r.length + 2)).run (.plain (c :: r)) = .error fault) (u : List Char) :
    (bracket (if negated then '^' :: c :: r else c :: r)).run (.plain u) = .error fault := by
  rw [run_bracket_items negated hc hsign, StateT.run_bind, h]
  rfl

/-! ## Expressions of one bracket expression

Such an expression is a set, and to search for it is to look for the first character that is in
it. -/

/-- A set has no layers, so that the engine takes an expression of nothing else. -/
theorem accept_set (t : CharSet) : accept (.set t) = .ok (.set t) := by
  rw [accept, if_neg (by simp [depth])]

theorem run_alternation_bracket (fuel : Nat) (r : List Char) :
    (alternation (fuel + 1) 0 [] []).run (.plain ('[' :: r)) =
      (bracket r >>= fun part => alternation fuel 0 [] [part]).run (.plain ('[' :: r)) := by
  rw [alternation, run_rest]
  rfl

theorem parse_bracket (h : (bracket r).run (.plain ('[' :: r)) = .ok (.set t, .plain [])) :
    parse ('[' :: r) = .ok (.set t) := by
  have hrun : (alternation (('[' :: r).length + 1) 0 [] []).run (.plain ('[' :: r)) =
      .ok (.set t, .plain []) := by
    rw [run_alternation_bracket, StateT.run_bind, h]
    exact run_end r.length 0 [] [.set t]
  exact (parse_of_ok hrun).trans (accept_set t)

theorem parse_bracket_error (h : (bracket r).run (.plain ('[' :: r)) = .error fault) :
    parse ('[' :: r) = .error fault := by
  refine parse_of_error ?_
  rw [run_alternation_bracket, StateT.run_bind, h]
  rfl

/-- A set matches the characters that it contains. -/
theorem isMatch_set (t : CharSet) (c : Char) : (Regex.set t).isMatch [c] = t.contains c := by
  cases h : t.contains c <;>
    simp [isMatch, find?, findFrom?, ends, Place.start, Place.advance?, h]

end

/-! ## Members -/

section

variable {i : Item} {items : List Item} {d : Char} {s : List Char}

theorem contains_space (d : Char) : CharSet.space.contains d = letterSet?.isSpace d := by
  rw [CharSet.space, CharSet.contains_union, CharSet.contains_single, letterSet?.isSpace,
    CharSet.contains_range, beq_eq_decide, decide_eq_decide.2 (eq_comm (a := d))]

theorem contains_word (d : Char) : CharSet.word.contains d = letterSet?.isWord d := by
  rw [CharSet.word, CharSet.contains_ofList, letterSet?.isWord]
  simp [CharSet.contains_single, Bool.or_assoc, eq_comm, beq_eq_decide]

/-- What a letter behind a backslash is read as. -/
theorem exists_escape_letterSet? {c : Char} {set : Char → Bool} (h : letterSet? c = some set) :
    ∃ e t, (∀ s u, (escape (c :: s)).run (.plain u) = .ok (e, .plain s)) ∧ itemSet e = .ok t ∧
      ∀ d, t.contains d = set d := by
  have hchar {c' : Char} (hrun : ∀ s u, (escape (c :: s)).run (.plain u) = .ok (.char c', .plain s))
      (hset : set = (· == c')) : ∃ e t,
      (∀ s u, (escape (c :: s)).run (.plain u) = .ok (e, .plain s)) ∧ itemSet e = .ok t ∧
        ∀ d, t.contains d = set d := by
    refine ⟨_, _, hrun, rfl, fun d => ?_⟩
    rw [hset, CharSet.contains_single]
    exact decide_eq_decide.2 eq_comm
  unfold letterSet? at h
  split at h
  all_goals cases h
  -- the sets
  · exact ⟨_, _, fun _ _ => rfl, rfl, fun d => rfl⟩
  · exact ⟨_, _, fun _ _ => rfl, rfl, fun d => CharSet.contains_complement _ d⟩
  · exact ⟨_, _, fun _ _ => rfl, rfl, contains_space⟩
  · exact ⟨_, _, fun _ _ => rfl, rfl, fun d =>
      (CharSet.contains_complement _ d).trans (congrArg not (contains_space d))⟩
  · exact ⟨_, _, fun _ _ => rfl, rfl, contains_word⟩
  · exact ⟨_, _, fun _ _ => rfl, rfl, fun d =>
      (CharSet.contains_complement _ d).trans (congrArg not (contains_word d))⟩
  -- the characters with a letter
  all_goals exact hchar (fun _ _ => rfl) rfl

/-- What is known of a member that stands for a set: it begins like a member, and is read as the set
if it is not the start of a range. What follows it may be anything else, another member or the end
of the brackets. -/
def IsRead (i : Item) (t : CharSet) : Prop :=
  ∃ c r, i.text = c :: r ∧ (c = '\\' ∨ isMemberSign c = false) ∧ c ≠ '^' ∧ c ≠ '-' ∧
    ∀ {d : Char} (s u : List Char), d ≠ '-' →
      (bracketRange c (r ++ d :: s)).run (.plain u) = .ok (t, .plain (d :: s))

/-- A member that stands for a set is read as this set. -/
theorem exists_isRead {set : Char → Bool} (h : i.set? = some set) :
    ∃ t, IsRead i t ∧ ∀ c, t.contains c = set c := by
  cases i with
  | plain c =>
    rw [Item.set?] at h
    split at h
    · cases h
    · next hsign =>
      cases h
      have hne {d : Char} (hd : d ∈ "[]\\^-&~".toList) : c ≠ d := by
        rintro rfl
        exact hsign (List.contains_iff_mem.2 hd)
      -- none of the signs that would be read apart
      have hmember : isMemberSign c = false := by
        rw [isMemberSign]
        simp_all
      refine ⟨.single c, ⟨c, [], rfl, .inr hmember, hne (by decide), hne (by decide), ?_⟩, fun d => ?_⟩
      · intro d s u hd
        exact run_bracketRange (run_bracketItem_char (hne (by decide)) (d :: s) u) rfl hd
      · exact (CharSet.contains_single c d).trans (beq_eq_decide c d).symm
  | escaped c =>
    -- behind a backslash there is a character that stands for itself, or a letter with a set
    obtain ⟨e, t, hrun, hset, hcontains⟩ : ∃ e t,
        (∀ s u, (escape (c :: s)).run (.plain u) = .ok (e, .plain s)) ∧ itemSet e = .ok t ∧
          ∀ d, t.contains d = set d := by
      rw [Item.set?] at h
      split at h
      · next hc =>
        cases h
        exact ⟨_, _, run_escape_of_isEscapable hc, rfl, fun d =>
          (CharSet.contains_single c d).trans (beq_eq_decide c d).symm⟩
      · exact exists_escape_letterSet? h
    refine ⟨t, ⟨'\\', [c], rfl, .inl rfl, by decide, by decide, fun s u hd => ?_⟩, hcontains⟩
    exact run_bracketRange (hrun _ u) hset hd

/-- The members that are read as sets. -/
abbrev AreRead (items : List Item) (ts : List CharSet) : Prop := List.Forall₂ IsRead items ts

/-- What follows a member is another one, or the end of the expression. -/
theorem exists_items_append {ts : List CharSet} (h : AreRead items ts) (s : List Char) :
    ∃ d r, items.flatMap Item.text ++ ']' :: s = d :: r ∧ d ≠ '-' := by
  cases h with
  | nil => exact ⟨']', s, rfl, by decide⟩
  | @cons i t items ts hi h =>
    obtain ⟨c, r, htext, -, -, hdash, -⟩ := hi
    exact ⟨c, r ++ (items.flatMap Item.text ++ ']' :: s), by simp [htext], hdash⟩

/-- Members are read one after the other, by induction on them. What was read so far is kept in the
order in which it was read, and the fuel is one step for each member and one for the bracket. -/
theorem run_items {ts : List CharSet} (h : AreRead items ts) (seen : List CharSet) (fuel : Nat)
    (s : List Char) :
    (bracketItems seen (fuel + 1 + items.length)).run
        (.plain (items.flatMap Item.text ++ ']' :: s)) =
      .ok (.ofList (seen ++ ts), .plain s) := by
  induction h generalizing seen with
  | nil =>
    rw [List.append_nil]
    exact run_bracketItems_close seen fuel s
  | @cons i t items ts hi h ih =>
    obtain ⟨c, r, htext, hc, -, -, hrange⟩ := hi
    obtain ⟨d, rest, hrest, hd⟩ := exists_items_append h s
    rw [List.flatMap_cons, List.append_assoc, hrest, List.length_cons, ← Nat.add_assoc, htext,
      List.cons_append, run_bracketItems seen _ hc, StateT.run_bind, hrange rest _ hd]
    show (bracketItems (seen ++ [t]) _).run (.plain (d :: rest)) = _
    rw [← hrest, ih, List.append_assoc, List.singleton_append]

theorem length_le_length_text (items : List Item) :
    items.length ≤ (items.flatMap Item.text).length := by
  induction items with
  | nil => exact Nat.le_refl 0
  | cons i items ih =>
    have hi : 1 ≤ i.text.length := by cases i <;> simp [Item.text]
    rw [List.flatMap_cons, List.length_append, List.length_cons]
    omega

/-- A bracket expression of such members is read as the union of their sets, or as what is in none
of them. A negation in front is read first, and no member is mistaken for one. -/
theorem parse_bracketText {ts : List CharSet} (negated : Bool) (h : AreRead items ts)
    (hne : items ≠ []) :
    parse (bracketText negated items) =
      .ok (.set (if negated then .complement (.ofList ts) else .ofList ts)) := by
  have hlength := length_le_length_text items
  have hitems := run_items h []
  cases h with
  | nil => exact absurd rfl hne
  | @cons i t items ts hi h =>
    obtain ⟨c, r, htext, hc, hsign, -⟩ := hi
    have hcons : (i :: items).flatMap Item.text ++ [']'] =
        c :: (r ++ (items.flatMap Item.text ++ [']'])) := by simp [htext]
    generalize r ++ (items.flatMap Item.text ++ [']']) = rest at hcons
    have hrest := congrArg List.length hcons
    rw [List.length_append, List.length_singleton, List.length_cons (a := c)] at hrest
    -- the reader is given fuel for every character, of which it uses one step for each member
    have hrun := hitems (rest.length + 1 - (i :: items).length) []
    rw [show rest.length + 1 - (i :: items).length + 1 + (i :: items).length = rest.length + 2 by omega,
      hcons, List.nil_append] at hrun
    have htext : bracketText negated (i :: items) = '[' :: if negated then '^' :: c :: rest
        else c :: rest := by
      rw [bracketText, hcons]
      cases negated <;> rfl
    rw [htext]
    exact parse_bracket (run_bracket negated hc hsign hrun _)

/-- With any other character behind a backslash, what is read of it is no member, if anything is: it
is a fault, or a condition such as the edge of a word, which cannot stand within brackets. -/
theorem escape_of_set?_eq_none {c : Char} (hc : (Item.escaped c).set? = none) (u : List Char) :
    (∃ fault, (escape [c, ']']).run (.plain u) = .error fault) ∨
      ∃ e fault, (escape [c, ']']).run (.plain u) = .ok (e, .plain [']']) ∧
        itemSet e = .error fault := by
  rw [Item.set?] at hc
  split at hc
  · cases hc
  next hescapable =>
    have hmeta : isMeta c = false := by
      have hall : "\\.+*?()|[]\x7b\x7d^$#&-~".toList.all Engine.isEscapable = true := by decide
      exact Bool.eq_false_iff.2 fun h =>
        hescapable (List.all_eq_true.1 hall c (List.contains_iff_mem.1 h))
    unfold escape
    dsimp only
    split
    · exact .inl ⟨_, rfl⟩
    · split
      -- the sets of properties and the numbers
      iterate 5 exact .inl ⟨_, rfl⟩
      -- the letters that stand for something
      iterate 12 cases hc
      -- the conditions
      iterate 6 exact .inr ⟨_, _, rfl, rfl⟩
      · have hrefused : isEscapable c = false := Bool.eq_false_iff.2 hescapable
        rw [hmeta, hrefused]
        exact .inl ⟨_, rfl⟩

/-- A bracket expression of such an escape is not read. -/
theorem parse_bracketText_escaped (negated : Bool) {c : Char} (hc : (Item.escaped c).set? = none) :
    ∃ fault, parse (bracketText negated [.escaped c]) = .error fault := by
  have hrange : ∃ fault, (bracketRange '\\' [c, ']']).run (.plain ('\\' :: [c, ']'])) =
      .error fault := by
    rcases escape_of_set?_eq_none hc ('\\' :: [c, ']']) with ⟨fault, h⟩ | ⟨e, fault, h, hset⟩
    · exact ⟨fault, run_bracketRange_error h⟩
    · exact ⟨fault, run_bracketRange_not_set h hset (by decide)⟩
  obtain ⟨fault, hfault⟩ := hrange
  have hitems : (bracketItems [] ([c, ']'].length + 2)).run (.plain ('\\' :: [c, ']'])) =
      .error fault := by
    refine (run_bracketItems [] 3 (.inl rfl)).trans ?_
    rw [StateT.run_bind, hfault]
    rfl
  have htext : bracketText negated [.escaped c] =
      '[' :: if negated then '^' :: '\\' :: [c, ']'] else '\\' :: [c, ']'] := by
    cases negated <;> rfl
  rw [htext]
  exact ⟨fault, parse_bracket_error
    (run_bracket_error negated (.inl rfl) (by decide) hitems _)⟩

/-- **The engine reads the members of bracket expressions one by one**, each of them as what it is
known to stand for. Of everything else that may stand in brackets, ranges and named sets and
operators between sets, nothing is said. -/
theorem readsBrackets_engine : engine.ReadsBrackets := by
  constructor
  · intro negated items hne hitems
    -- the sets of the members hold the same characters as the members
    obtain ⟨ts, hread, hcontains⟩ : ∃ ts, AreRead items ts ∧
        ∀ c, (CharSet.ofList ts).contains c = items.any (·.holds c) := by
      clear hne
      induction items with
      | nil => exact ⟨[], .nil, fun c => rfl⟩
      | cons i items ih =>
        obtain ⟨hi, hitems⟩ := List.forall_mem_cons.1 hitems
        obtain ⟨set, hset⟩ := Option.isSome_iff_exists.1 hi
        obtain ⟨t, hread, hcontains⟩ := exists_isRead hset
        obtain ⟨ts, hreads, hcontainss⟩ := ih hitems
        refine ⟨t :: ts, .cons hread hreads, fun c => ?_⟩
        rw [CharSet.ofList, CharSet.contains_union, hcontains, hcontainss, List.any_cons, Item.holds,
          hset]
        rfl
    refine ⟨_, compile_of_parse (parse_bracketText negated hread hne), fun c => ?_⟩
    show isMatch _ [c] = _
    rw [isMatch_set, ← hcontains]
    cases negated with
    | true => rw [if_pos rfl, CharSet.contains_complement, Bool.true_bne]
    | false => rw [if_neg Bool.false_ne_true, Bool.false_bne]
  · intro negated c hc
    obtain ⟨fault, hfault⟩ := parse_bracketText_escaped negated hc
    exact not_accepts_of_error hfault

end

end CommandLanguage.Regex
