import CommandLanguage.Proofs.Source.Quoted

/-!
# Semicolons that separate nothing

`Source.Sheds q before s t` says that `t` is `s` without some `;` after which there is nothing to
end: each of them stands unquoted after a blank, a `;`, an opening brace or nothing, or it comes
last. `q` is where the scan for quotes stands and `before` the character before the text. Statements
without content are dropped in this way, and the `;` at the end of a line is put there in the other
direction; both leave alone which words need quotes.
-/

namespace CommandLanguage

/-- Only a scan outside of quotes finds a character that is not quoted, and stays where it is. A
backslash is found to be quoted, as it takes the next character with it. -/
theorem Quotes.feed_of_fst_eq_false {q : Quotes} {c : Char} (h : (q.feed c).1 = false) :
    q = {} ∧ q.feed c = (false, {}) := by
  obtain ⟨within, escaped⟩ := q
  rw [feed_fst] at h
  simp only [Bool.or_eq_false_iff, Option.isSome_eq_false_iff, Option.isNone_iff_eq_none] at h
  obtain ⟨⟨rfl, rfl⟩, hc⟩ := h
  have hquote : Quote.ofChar? c = none := by
    simpa using (Bool.or_eq_false_iff.1 hc).2
  have hbackslash : c ≠ '\\' := by
    simpa using (Bool.or_eq_false_iff.1 hc).1
  exact ⟨rfl, by simp [feed, hquote, hbackslash]⟩

/-! ## Groups, character by character

The checks for groups are rewritten here one character at a time, since that is how the rules of
`Sheds` go. -/

namespace Braces

/-- A `${` is a `$` before a group. -/
theorem holdsParameter_cons (c : Char) (s : List Char) : holdsParameter (c :: s) =
    (c == '$' && (s.head? == some '\x7b' && (closing? 0 s).isSome) || holdsParameter s) := by
  by_cases hc : c = '$'
  · subst hc
    cases s with
    | nil => rfl
    | cons d s =>
      by_cases hd : d = '\x7b'
      · subst hd
        simp [holdsParameter, closing?]
      · simp [holdsParameter, hd]
  · simp [holdsParameter, hc]

/-- A word that is one `${…}` holds one. -/
theorem holdsParameter_of_isParameterWord {s : List Char} (h : isParameterWord s = true) :
    holdsParameter s = true := by
  unfold isParameterWord at h
  split at h
  · rename_i body
    rw [holdsParameter_cons]
    rw [beq_iff_eq] at h
    simp [closing?, h]
  · cases h

/-- A character that was found wanting is passed. -/
theorem holdsExpandable_append (s t : List Char) (before : Option Char) :
    holdsExpandable s.length before (s ++ t) = holdsExpandable 0 (s.getLast?.or before) t := by
  induction s generalizing before with
  | nil => rfl
  | cons c s ih =>
    rw [List.length_cons, List.cons_append, holdsExpandable, ih, List.getLast?_cons]
    cases s.getLast? <;> rfl

theorem holdsExpandable_of_ne {c : Char} (h : c ≠ '\x7b') (before : Option Char)
    (s : List Char) : holdsExpandable 0 before (c :: s) = holdsExpandable 0 (some c) s := by
  simp [holdsExpandable, h]

/-- After a group that was found wanting, the search goes on behind it. It does not look into the
group, so that groups further inside are not found. -/
theorem holdsExpandable_brace (before : Option Char) (s : List Char) :
    holdsExpandable 0 before ('\x7b' :: s) =
      match closing? 1 s with
      | none => false
      | some n => (before != some '$' && isExpandable 0 (s.take n)) ||
          holdsExpandable 0 (some '\x7d') (s.drop (n + 1)) := by
  rw [holdsExpandable]
  simp only [beq_self_eq_true, if_true]
  cases hn : closing? 1 s with
  | none => rfl
  | some n =>
    have hlength : (s.take (n + 1)).length = n + 1 := by
      have := closing?_lt hn
      rw [List.length_take]
      omega
    have hlast : (s.take (n + 1)).getLast? = some '\x7d' := by
      rw [List.getLast?_take]
      simp [getElem?_closing? hn]
    -- the whole group is passed, up to its closing brace
    have hpass := holdsExpandable_append (s.take (n + 1)) (s.drop (n + 1)) (some '\x7b')
    rw [List.take_append_drop, hlength, hlast] at hpass
    dsimp only
    rw [hpass]
    rfl

end Braces

namespace Source

theorem needsQuotes_eq (w : List Char) :
    needsQuotes w = (Braces.holdsParameter w || Braces.isBraceWord w) := by
  unfold needsQuotes
  cases h : Braces.isParameterWord w with
  | false => rw [Bool.false_or]
  | true => rw [Braces.holdsParameter_of_isParameterWord h, Bool.true_or, Bool.true_or]

/-- Whether a `;` after the character separates nothing. A blank alone does not tell, but what is
told of it here is only used where what stands before the blank does. -/
def endsNothing (c : Char) : Bool := c == ';' || c == '\x7b' || Text.isBlank c

/-- A text without some `;` that separate nothing. All other characters stay, in their order, and
with them the places where quotes begin and end. -/
inductive Sheds : Quotes → Option Char → List Char → List Char → Prop where
  /-- nothing is left -/
  | nil {q : Quotes} {before : Option Char} : Sheds q before [] []
  /-- a character stays -/
  | keep {q : Quotes} {before : Option Char} {c : Char} {s t : List Char}
      (rest : Sheds (q.feed c).2 (some c) s t) : Sheds q before (c :: s) (c :: t)
  /-- a `;` that separates nothing does not -/
  | drop {q : Quotes} {before : Option Char} {s t : List Char} (unquoted : (q.feed ';').1 = false)
      (useless : before.all endsNothing = true) (rest : Sheds q before s t) :
      Sheds q before (';' :: s) t
  /-- a `;` at the end does not -/
  | last {q : Quotes} {before : Option Char} : Sheds q before [';'] []

namespace Sheds

variable {q : Quotes} {before : Option Char} {s t : List Char}

/-- A `;` at the end may go. -/
theorem append_semicolon (s : List Char) : Sheds q before (s ++ [';']) s := by
  induction s generalizing q before with
  | nil => exact .last
  | cons c s ih => exact .keep ih

/-- A `;` that is dropped for lack of content separates nothing: the last character that is not
blank is a `;` or an opening brace. It may stand further back, and then the character right before
the `;` is a blank. -/
theorem dropBlankStatementsFrom {last : Option Char} (parens : Nat)
    (h : before = last ∨ before.any Text.isBlank = true) :
    Sheds q before s (dropBlankStatementsFrom q parens last s) := by
  induction s generalizing q before parens last with
  | nil => exact .nil
  | cons c r ih =>
    rw [Source.dropBlankStatementsFrom]
    dsimp only
    split
    · exact .keep (ih parens (.inl rfl))
    · rename_i hquoted
      split
      · rename_i hdrop
        simp only [Bool.and_eq_true, beq_iff_eq] at hdrop
        -- what is dropped is a `;` outside of quotes, behind another one, an opening brace or
        -- nothing
        obtain ⟨⟨rfl, -⟩, hlast⟩ := hdrop
        have hunquoted := Bool.eq_false_iff.2 hquoted
        obtain ⟨rfl, hfeed⟩ := Quotes.feed_of_fst_eq_false hunquoted
        rw [hfeed]
        refine .drop hunquoted ?_ (ih parens h)
        rcases h with rfl | hblank
        · cases before with
          | none => rfl
          | some b =>
            rw [Option.all_some] at hlast ⊢
            rw [endsNothing, hlast, Bool.true_or]
        · cases before with
          | none => rfl
          | some b =>
            rw [Option.any_some] at hblank
            rw [Option.all_some, endsNothing, hblank, Bool.or_true]
      · refine .keep (ih _ ?_)
        -- a blank is not remembered as the last character, and the character before is one then
        by_cases hc : Text.isBlank c = true
        · exact .inr hc
        · rw [if_neg hc]
          exact .inl rfl

/-! ## What stays the same

None of what is looked at to decide whether a word needs quotes is changed by a `;` that separates
nothing. -/

/-- After a character that does not make a `;` useless, another character comes first as before. So
words begin, groups open and lines end as before. -/
theorem head?_beq (h : Sheds q before s t) (hbefore : before.all endsNothing = false) {c : Char}
    (hc : c ≠ ';') : (t.head? == some c) = (s.head? == some c) := by
  cases h with
  | nil => rfl
  | keep _ => rfl
  | drop _ huseless _ =>
    rw [hbefore] at huseless
    cases huseless
  | last => simp [hc.symm]

theorem any_isBlank (h : Sheds q before s t) : t.any Text.isBlank = s.any Text.isBlank := by
  have hsemicolon : Text.isBlank ';' = false := by decide
  induction h with
  | nil => rfl
  | keep _ ih => rw [List.any_cons, List.any_cons, ih]
  | drop _ _ _ ih => rw [List.any_cons, hsemicolon, Bool.false_or, ih]
  | last => rfl

/-- A group is closed as before, and its body and what follows it only lose useless `;`. The places
of the closing brace are two numbers then, as `;` may be lost on the way to it. -/
theorem closing? (h : Sheds q before s t) (depth : Nat) :
    (Braces.closing? depth s = none ∧ Braces.closing? depth t = none) ∨
      ∃ m n, Braces.closing? depth s = some m ∧ Braces.closing? depth t = some n ∧
        Sheds q before (s.take m) (t.take n) ∧
        ∃ q', Sheds q' (some '\x7d') (s.drop (m + 1)) (t.drop (n + 1)) := by
  induction h generalizing depth with
  | nil => exact .inl ⟨rfl, rfl⟩
  | @keep q before c s t rest ih =>
    -- the character is part of the body, unless it is the brace that closes the group
    have hinside {d : Nat} (hstep : ∀ r, Braces.closing? depth (c :: r) =
        (Braces.closing? d r).map (· + 1)) :
        (Braces.closing? depth (c :: s) = none ∧ Braces.closing? depth (c :: t) = none) ∨
          ∃ m n, Braces.closing? depth (c :: s) = some m ∧ Braces.closing? depth (c :: t) = some n ∧
            Sheds q before ((c :: s).take m) ((c :: t).take n) ∧
            ∃ q', Sheds q' (some '\x7d') ((c :: s).drop (m + 1)) ((c :: t).drop (n + 1)) := by
      rw [hstep, hstep]
      obtain ⟨hs, ht⟩ | ⟨m, n, hs, ht, hbody, hrest⟩ := ih d
      · exact .inl ⟨by rw [hs]; rfl, by rw [ht]; rfl⟩
      · exact .inr ⟨m + 1, n + 1, by rw [hs]; rfl, by rw [ht]; rfl, .keep hbody, hrest⟩
    by_cases hopen : c = '\x7b'
    · exact hinside (d := depth + 1) fun r => by simp [Braces.closing?, hopen]
    by_cases hclose : c = '\x7d'
    · by_cases hdepth : depth ≤ 1
      · subst hclose
        exact .inr ⟨0, 0, by simp [Braces.closing?, hdepth], by simp [Braces.closing?, hdepth], .nil,
          _, rest⟩
      · exact hinside (d := depth - 1) fun r => by simp [Braces.closing?, hclose, hdepth]
    · exact hinside (d := depth) fun r => by simp [Braces.closing?, hopen, hclose]
  | @drop q before s t hunquoted huseless rest ih =>
    have hstep : Braces.closing? depth (';' :: s) = (Braces.closing? depth s).map (· + 1) := by
      simp [Braces.closing?]
    rw [hstep]
    obtain ⟨hs, ht⟩ | ⟨m, n, hs, ht, hbody, hrest⟩ := ih depth
    · exact .inl ⟨by rw [hs]; rfl, ht⟩
    · exact .inr ⟨m + 1, n, by rw [hs]; rfl, ht, .drop hunquoted huseless hbody, hrest⟩
  | last => exact .inl ⟨by simp [Braces.closing?], rfl⟩

/-- Whether a group is a list or a range is no matter of a `;`. What is looked for is a comma or two
dots, and a `;` that is lost from between two dots would not have been useless. -/
theorem isExpandable (h : Sheds q before s t) (depth : Nat) :
    Braces.isExpandable depth t = Braces.isExpandable depth s := by
  induction h generalizing depth with
  | nil => rfl
  | @keep q before c s t rest ih =>
    have hdots : (c == '.' && t.head? == some '.') = (c == '.' && s.head? == some '.') := by
      by_cases hc : c = '.'
      · subst hc
        rw [rest.head?_beq (by decide) (by decide)]
      · rw [beq_eq_false_iff_ne.2 hc, Bool.false_and, Bool.false_and]
    simp only [Braces.isExpandable, ih, hdots]
  | drop _ _ _ ih => rw [ih]; simp [Braces.isExpandable]
  | last => simp [Braces.isExpandable]

/-- A group begins as before, closed or not. -/
theorem opensGroup (h : Sheds q before s t) (hbefore : before.all endsNothing = false) :
    (t.head? == some '\x7b' && (Braces.closing? 0 t).isSome) =
      (s.head? == some '\x7b' && (Braces.closing? 0 s).isSome) := by
  rw [h.head?_beq hbefore (by decide)]
  obtain ⟨hs, ht⟩ | ⟨m, n, hs, ht, -⟩ := h.closing? 0 <;> rw [hs, ht]
  simp only [Option.isSome_some]

theorem holdsParameter (h : Sheds q before s t) :
    Braces.holdsParameter t = Braces.holdsParameter s := by
  induction h with
  | nil => rfl
  | @keep q before c s t rest ih =>
    rw [Braces.holdsParameter_cons, Braces.holdsParameter_cons, ih]
    by_cases hc : c = '$'
    · subst hc
      rw [rest.opensGroup (by decide)]
    · rw [beq_eq_false_iff_ne.2 hc, Bool.false_and, Bool.false_and]
  | drop _ _ _ ih =>
    rw [Braces.holdsParameter_cons, ih]
    rfl
  | last => rfl

theorem holdsExpandable (h : Sheds q before s t) {e : Option Char}
    (he : (e == some '$') = (before == some '$')) :
    Braces.holdsExpandable 0 before t = Braces.holdsExpandable 0 e s := by
  -- a group is passed as a whole, so that the induction is on the length of the text
  induction hn : s.length using Nat.strongRecOn generalizing q before s t e with
  | ind n ih =>
    subst hn
    cases h with
    | nil => rfl
    | @keep _ _ c s t rest =>
      by_cases hc : c = '\x7b'
      · subst hc
        rw [Braces.holdsExpandable_brace, Braces.holdsExpandable_brace]
        obtain ⟨hs, ht⟩ | ⟨m, n, hs, ht, hbody, q', hrest⟩ := rest.closing? 1
        · rw [hs, ht]
        · have hlength : (s.drop (m + 1)).length < ('\x7b' :: s).length := by
            simp only [List.length_drop, List.length_cons]
            omega
          simp only [hs, ht, hbody.isExpandable, bne, he, ih _ hlength hrest rfl rfl]
      · rw [Braces.holdsExpandable_of_ne hc, Braces.holdsExpandable_of_ne hc]
        exact ih _ (by simp) rest rfl rfl
    | @drop _ _ s _ hunquoted huseless rest =>
      rw [Braces.holdsExpandable_of_ne (by decide)]
      refine ih _ (by simp) rest ?_ rfl
      cases before with
      | none => rfl
      | some b =>
        rw [Option.all_some] at huseless
        have hb : b ≠ '$' := Text.ne_of_kind huseless (by decide)
        simp [hb]
    | last => simp [Braces.holdsExpandable]

/-- A word needs quotes as before. Its first character is the same, so that nothing is lost before
it. -/
theorem needsQuotes {c : Char} (h : Sheds q none (c :: s) (c :: t)) :
    needsQuotes (c :: t) = needsQuotes (c :: s) := by
  rw [needsQuotes_eq, needsQuotes_eq, Braces.isBraceWord, Braces.isBraceWord, h.holdsParameter,
    h.holdsExpandable rfl, h.any_isBlank]
  rfl

end Sheds

end Source

end CommandLanguage
