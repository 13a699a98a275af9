import CommandLanguage.Proofs.Brace.Groups
import CommandLanguage.Proofs.Brace.Range

/-!
# Words that are read for several texts, and words that expand to them

A word is read as one that stands for several texts if it has a group with a comma or two dots, outside
of other groups (`holdsExpandable_iff`). It expands to something else than itself if it has such a group
anywhere (`words_eq_singleton_iff`): expansion looks into groups that stand for themselves, and two dots
make a range of every group around them. So the two differ exactly for words in which all such groups
are within others (`isBraceWord_iff_words`).

That nothing expands to itself by way of a group is seen by counting: each text has fewer opening braces
than the word.
-/

namespace CommandLanguage.Brace

open Braces (closing? splitGroup? isExpandable holdsExpandable isBraceWord)

variable {s t body rest : List Char} {c : Char}

/-! ## The search of the reader

It passes over a group that stands for itself without looking into it. This is where it differs from
the search of the expansion. -/

/-- Without dollar signs it does not matter what stands before, and the search of the reader finds
exactly a group of its own that is a choice. It goes on behind a group that it has passed, so the
induction is on the length of the text. -/
theorem holdsExpandable_iff (hdollar : '$' ∉ s) {before : Option Char} (hbefore : before ≠ some '$') :
    holdsExpandable 0 before s = true ↔ HasGroup IsChoice false s := by
  induction hlength : s.length using Nat.strongRecOn generalizing s before with
  | ind n ih =>
    subst hlength
    cases s with
    | nil => simp [holdsExpandable, not_hasGroup_nil]
    | cons c s =>
      obtain ⟨hc, hs⟩ := List.ne_and_not_mem_of_not_mem_cons hdollar
      by_cases hopen : c = '\x7b'
      · subst hopen
        rw [Braces.holdsExpandable_brace]
        cases hn : closing? 1 s with
        | none =>
          have hsplit : splitGroup? s = none := by rw [splitGroup?, hn]; rfl
          simp [not_hasGroup_open hsplit]
        | some n =>
          have hsplit : splitGroup? s = some (s.take n, s.drop (n + 1)) := by
            rw [splitGroup?, hn]
            rfl
          have hrest : '$' ∉ s.drop (n + 1) := fun h => hs (List.mem_of_mem_drop h)
          -- the search goes on behind the closing brace, and that is no `$`
          have hlater := ih _ (by simp) hrest (show some '\x7d' ≠ some '$' by decide) rfl
          rw [hasGroup_group hsplit, ← hlater]
          simp [hbefore, IsChoice]
      · rw [Braces.holdsExpandable_of_ne hopen, hasGroup_char hopen]
        exact ih _ (by simp) hs (by simpa using Ne.symm hc) rfl

/-! ## The search of the expansion -/

theorem firstGroup?_congr {before before' : Option Char} (h : before ≠ some '$')
    (h' : before' ≠ some '$') (s : List Char) : firstGroup? before s = firstGroup? before' s := by
  cases s with
  | nil => rfl
  | cons c s => simp [firstGroup?, h, h']

theorem isSome_firstGroup?_char (hopen : c ≠ '\x7b') (hc : '$' ≠ c) (s : List Char) :
    (firstGroup? none (c :: s)).isSome = (firstGroup? none s).isSome := by
  have hlater : firstGroup? (some c) s = firstGroup? none s :=
    firstGroup?_congr (by simpa using Ne.symm hc) (by simp) s
  simp [firstGroup?, hopen, hlater]

theorem firstGroup?_open (h : splitGroup? s = none) : firstGroup? none ('\x7b' :: s) = none := by
  simp [firstGroup?, h]

/-- The search looks at a group and then into it. What it finds further inside counts as much as the
group itself, and only then does it go on behind. -/
theorem isSome_firstGroup?_group (h : splitGroup? s = some (body, rest)) :
    (firstGroup? none ('\x7b' :: s)).isSome = true ↔
      expands body = true ∨ (firstGroup? none s).isSome = true := by
  have hlater : firstGroup? (some '\x7b') s = firstGroup? none s :=
    firstGroup?_congr (by decide) (by simp) s
  rw [firstGroup?]
  cases hexpands : expands body <;> simp [h, hexpands, hlater]

/-- A search in a balanced text does not see what follows, and goes on there if it has found
nothing. -/
theorem isSome_firstGroup?_append (h : Balanced s) (hdollar : '$' ∉ s) (t : List Char) :
    (firstGroup? none (s ++ t)).isSome = true ↔
      (firstGroup? none s).isSome = true ∨ (firstGroup? none t).isSome = true := by
  induction h generalizing t with
  | nil => simp [firstGroup?]
  | char hopen _ _ ih =>
    obtain ⟨hc, hs⟩ := List.ne_and_not_mem_of_not_mem_cons hdollar
    rw [List.cons_append, isSome_firstGroup?_char hopen hc, isSome_firstGroup?_char hopen hc, ih hs]
  | @group body s hbody _ ihbody ih =>
    obtain ⟨-, hrest⟩ := List.ne_and_not_mem_of_not_mem_cons hdollar
    have hdbody : '$' ∉ body := fun h => hrest (List.mem_append_left _ h)
    obtain ⟨hclose, hds⟩ : '$' ≠ '\x7d' ∧ '$' ∉ s :=
      List.ne_and_not_mem_of_not_mem_cons fun h => hrest (List.mem_append_right _ h)
    rw [List.cons_append, List.append_assoc, List.cons_append,
      isSome_firstGroup?_group (splitGroup?_of_balanced hbody _),
      isSome_firstGroup?_group (splitGroup?_of_balanced hbody _), ihbody hdbody, ihbody hdbody,
      isSome_firstGroup?_char (by decide) hclose, isSome_firstGroup?_char (by decide) hclose, ih hds]
    tauto

/-! ## Lists and ranges

A group is a list if there is a comma of its own in it, and a range if there are two dots anywhere.
The check for a choice counts only two dots of its own. -/

/-- How many groups are open behind a character, of those that were open before and the one that it
may open or close. -/
def depthBehind (depth : Nat) (c : Char) : Nat :=
  if c = '\x7b' then depth + 1 else if c = '\x7d' then depth - 1 else depth

theorem splitCommas_cut (s : List Char) :
    (splitCommas 0 (',' :: s)).length = (splitCommas 0 s).length + 1 := rfl

theorem length_splitCommas {depth : Nat} (h : ¬ (c = ',' ∧ depth = 0)) (s : List Char) :
    (splitCommas depth (c :: s)).length = (splitCommas (depthBehind depth c) s).length := by
  simp only [splitCommas, depthBehind, Bool.and_eq_true, beq_iff_eq, h, if_false]
  split
  · rename_i hparts
    exact absurd hparts (splitCommas_ne_nil _ s)
  · rename_i hparts
    rw [hparts]
    rfl

theorem isExpandable_cons {depth : Nat} (h : ¬ (c = ',' ∧ depth = 0)) (s : List Char) :
    isExpandable depth (c :: s) = ((depth == 0 && c == '.' && s.head? == some '.') ||
      isExpandable (depthBehind depth c) s) := by
  rw [isExpandable]
  by_cases hopen : c = '\x7b'
  · simp [hopen, depthBehind]
  · by_cases hclose : c = '\x7d'
    · simp [hclose, depthBehind]
    · by_cases hdepth : depth = 0
      · have hcomma : c ≠ ',' := fun hc => h ⟨hc, hdepth⟩
        cases hdots : (c == '.' && s.head? == some '.') <;>
          simp [hopen, hclose, hdepth, hcomma, depthBehind, hdots]
      · simp [hopen, hclose, hdepth, depthBehind]

/-- A comma outside of the groups in a text is where it is cut, so a text that is cut anywhere has
one and is expandable. -/
theorem isExpandable_of_splitCommas {depth : Nat} (h : 1 < (splitCommas depth s).length) :
    isExpandable depth s = true := by
  induction s generalizing depth with
  | nil => simp [splitCommas] at h
  | cons c s ih =>
    by_cases hcomma : c = ',' ∧ depth = 0
    · obtain ⟨rfl, rfl⟩ := hcomma
      rfl
    · rw [length_splitCommas hcomma] at h
      rw [isExpandable_cons hcomma, ih h, Bool.or_true]

/-- What is expandable has a comma where it is cut, or two dots. The dots may then stand anywhere,
since the search for them does not count braces. -/
theorem splitCommas_or_isRange {depth : Nat} (h : isExpandable depth s = true) :
    1 < (splitCommas depth s).length ∨ isRange s = true := by
  induction s generalizing depth with
  | nil => cases h
  | cons c s ih =>
    by_cases hcomma : c = ',' ∧ depth = 0
    · obtain ⟨rfl, rfl⟩ := hcomma
      have hparts := List.length_pos_iff.2 (splitCommas_ne_nil 0 s)
      rw [splitCommas_cut]
      exact .inl (by omega)
    · rw [isExpandable_cons hcomma] at h
      rw [length_splitCommas hcomma, isRange]
      rcases Bool.or_eq_true_iff.1 h with hdots | hrest
      · refine .inr ?_
        simp only [Bool.and_eq_true] at hdots
        simp [hdots]
      · exact (ih hrest).imp_right fun h => by rw [h, Bool.or_true]

theorem alternatives?_isSome_iff : (alternatives? s).isSome = true ↔ 1 < (splitCommas 0 s).length := by
  rw [alternatives?]
  split
  · rename_i heq
    simp [heq]
  · rename_i hfew
    rcases hparts : splitCommas 0 s with _ | ⟨p, _ | ⟨q, ps⟩⟩
    · simp
    · simp
    · exact absurd hparts (hfew p q ps)

/-- Behind a balanced text as many groups are open as before. Within a group no comma counts, and
neither do two dots. -/
theorem isExpandable_append (h : Balanced s) (depth : Nat) (t : List Char) :
    isExpandable (depth + 1) (s ++ t) = isExpandable (depth + 1) t := by
  induction h generalizing depth t with
  | nil => rfl
  | char hopen hclose _ ih =>
    rw [List.cons_append, isExpandable_cons (by omega), depthBehind, if_neg hopen, if_neg hclose, ih]
    rfl
  | group _ _ ihbody ih =>
    rw [List.cons_append, List.append_assoc, List.cons_append, isExpandable_cons (by omega)]
    exact (ihbody (depth + 1) _).trans ((isExpandable_cons (by omega) _).trans (ih depth t))

/-- There are no two dots with a brace between them. -/
theorem isRange_append (s t : List Char) :
    isRange (s ++ '\x7d' :: t) = (isRange s || isRange t) := by
  induction s with
  | nil => simp [isRange]
  | cons c s ih =>
    rw [List.cons_append, isRange, isRange, ih]
    cases s <;> simp [Bool.or_assoc]

/-- Two dots make a range of some group around them, unless there is none. They stand within some
innermost group, and that one has them as its own; or in none, and then the text itself has them. -/
theorem isExpandable_or_hasGroup (h : Balanced s) (hrange : isRange s = true) :
    isExpandable 0 s = true ∨ HasGroup IsChoice true s := by
  induction h with
  | nil => cases hrange
  | @char c s hopen hclose _ ih =>
    rw [isRange, Bool.or_eq_true] at hrange
    by_cases hcomma : c = ','
    · exact .inl (by simp [isExpandable, hcomma])
    · rw [isExpandable_cons (fun h => hcomma h.1), depthBehind, if_neg hopen, if_neg hclose]
      -- the two dots begin here, or they stand further on
      rcases hrange with hdots | hrange
      · refine .inl ?_
        simp only [Bool.and_eq_true] at hdots
        simp [hdots]
      · refine (ih hrange).imp (fun h => ?_) fun h => .later hopen h
        rw [h, Bool.or_true]
  | @group body s hbody _ ihbody ih =>
    have hsplit := splitGroup?_of_balanced hbody s
    have hdots : isRange ('\x7b' :: (body ++ '\x7d' :: s)) = (isRange body || isRange s) :=
      isRange_append body s
    rw [hdots, Bool.or_eq_true] at hrange
    rcases hrange with hrange | hrange
    · refine .inr ?_
      -- dots within the group make the group itself a choice, or there is one in it
      rcases ihbody hrange with hchoice | hinner
      · exact .here hsplit hchoice
      · exact .inside hsplit rfl hinner
    · refine (ih hrange).imp (fun h => ?_) fun h => .behind hsplit h
      exact (isExpandable_append hbody 0 _).trans h

/-- A group is passed over by the search of the expansion if nothing in it is found by that of the
reader. The two differ about the group alone, and agree about the group with all that is in it. -/
theorem expands_or_hasGroup (h : Balanced body) :
    expands body = true ∨ HasGroup IsChoice true body ↔
      IsChoice body ∨ HasGroup IsChoice true body := by
  rw [expands, Bool.or_eq_true, alternatives?_isSome_iff, IsChoice]
  constructor
  · rintro ((hcommas | hrange) | hinner)
    · exact .inl (isExpandable_of_splitCommas hcommas)
    · exact isExpandable_or_hasGroup h hrange
    · exact .inr hinner
  · exact .imp_left splitCommas_or_isRange

/-- Without dollar signs, the search of the expansion finds a group with a comma or two dots, within
others or not. By induction on the length of the text, since a group is passed as a whole. -/
theorem isSome_firstGroup?_iff (hdollar : '$' ∉ s) :
    (firstGroup? none s).isSome = true ↔ HasGroup IsChoice true s := by
  induction hlength : s.length using Nat.strongRecOn generalizing s with
  | ind n ih =>
    subst hlength
    cases s with
    | nil => simp [firstGroup?, not_hasGroup_nil]
    | cons c s =>
      obtain ⟨hc, hs⟩ := List.ne_and_not_mem_of_not_mem_cons hdollar
      by_cases hopen : c = '\x7b'
      · subst hopen
        cases hsplit : splitGroup? s with
        | none => simp [firstGroup?_open hsplit, not_hasGroup_open hsplit]
        | some split =>
          -- what is between the braces and what is behind them are shorter, and hold no `$` either
          obtain ⟨body, rest⟩ := split
          have happend := Braces.append_of_splitGroup? hsplit
          have hlength := Braces.length_of_splitGroup? hsplit
          have hbody := balanced_of_splitGroup? hsplit
          rw [← happend] at hs
          have hdbody : '$' ∉ body := fun h => hs (List.mem_append_left _ h)
          obtain ⟨hclose, hdrest⟩ : '$' ≠ '\x7d' ∧ '$' ∉ rest :=
            List.ne_and_not_mem_of_not_mem_cons fun h => hs (List.mem_append_right _ h)
          -- the group itself, or one within it, or one behind it
          rw [isSome_firstGroup?_group hsplit, hasGroup_group hsplit]
          nth_rewrite 1 [← happend]
          rw [isSome_firstGroup?_append hbody hdbody, isSome_firstGroup?_char (by decide) hclose,
            ih _ (by rw [List.length_cons]; omega) hdbody rfl,
            ih _ (by rw [List.length_cons]; omega) hdrest rfl, ← or_assoc,
            expands_or_hasGroup hbody]
          tauto
      · rw [isSome_firstGroup?_char hopen hc, hasGroup_char hopen]
        exact ih _ (by simp) hs rfl

/-! ## Opening braces

To see that a word which is expanded never comes out as itself, the opening braces are counted. The
group that is expanded loses its own, and nothing that is put in its place has more than was written
there. -/

theorem sublist_of_mem_splitCommas {depth : Nat} {part : List Char} (h : part ∈ splitCommas depth s) :
    part.Sublist s := by
  induction s generalizing depth part with
  | nil =>
    obtain rfl := List.mem_singleton.1 h
    exact .slnil
  | cons c s ih =>
    by_cases hcomma : c = ',' ∧ depth = 0
    · obtain ⟨rfl, rfl⟩ := hcomma
      rcases List.mem_cons.1 h with rfl | h
      · exact List.nil_sublist _
      · exact (ih h).cons _
    · simp only [splitCommas, Bool.and_eq_true, beq_iff_eq, hcomma, if_false] at h
      split at h
      · rename_i heq
        exact absurd heq (splitCommas_ne_nil _ s)
      · rename_i heq
        rcases List.mem_cons.1 h with rfl | h
        · exact (ih (heq ▸ List.mem_cons_self)).cons_cons _
        · exact (ih (heq ▸ List.mem_cons_of_mem _ h)).cons _

/-- A part of a group has no more of a character than the group. -/
theorem count_le_of_alternatives? {parts : List (List Char)} (h : alternatives? body = some parts)
    {part : List Char} (hpart : part ∈ parts) (c : Char) : part.count c ≤ body.count c := by
  rw [alternatives?] at h
  split at h
  · obtain rfl := Option.some.inj h
    rename_i hparts
    exact (sublist_of_mem_splitCommas (hparts ▸ hpart)).count_le c
  · cases h

/-- A word is the group that is found, with what stands before and behind it and the two braces
around it. -/
theorem eq_of_firstGroup? {before : Option Char} {g : Group} (h : firstGroup? before s = some g) :
    s = g.before ++ '\x7b' :: (g.body ++ '\x7d' :: g.after) := by
  induction s generalizing before g with
  | nil => cases h
  | cons c s ih =>
    -- a group further on has one character more before it
    have hlater (h : (firstGroup? (some c) s).map (fun g => { g with before := c :: g.before }) =
        some g) : c :: s = g.before ++ '\x7b' :: (g.body ++ '\x7d' :: g.after) := by
      obtain ⟨g', hg', rfl⟩ := Option.map_eq_some_iff.1 h
      rw [ih hg']
      rfl
    rw [firstGroup?] at h
    split at h
    · rename_i hopen
      split at h
      · cases h
      · rename_i body rest hsplit
        split at h
        · obtain rfl := Option.some.inj h
          rw [eq_of_beq hopen, ← Braces.append_of_splitGroup? hsplit]
          rfl
        · exact hlater h
    · exact hlater h

theorem brace_not_mem_item (width : Nat) (i : Int) : '\x7b' ∉ item width i := by
  have hdigits := (isDigits_itemDigits width i).isDigit '\x7b'
  rw [item_eq_withSign, Decimal.withSign]
  split
  · intro hmem
    rcases List.mem_cons.1 hmem with hsign | hmem
    · cases hsign
    · cases hdigits hmem
  · intro hmem
    cases hdigits hmem

theorem isAlpha_of_letters? {a b : Char} {step : Option (List Char)}
    (h : letters? body = some (a, b, step)) : a.isAlpha = true ∧ b.isAlpha = true := by
  have hletter {s r : List Char} {c : Char} (h : splitLetter? s = some (c, r)) :
      c.isAlpha = true := by
    cases s with
    | nil => cases h
    | cons d s =>
      rw [splitLetter?] at h
      split at h
      · cases h
        assumption
      · cases h
  obtain ⟨⟨a', r⟩, ha, h⟩ := Option.bind_eq_some_iff.1 h
  obtain ⟨s, -, h⟩ := Option.bind_eq_some_iff.1 h
  obtain ⟨⟨b', r⟩, hb, h⟩ := Option.bind_eq_some_iff.1 h
  obtain ⟨step', -, h⟩ := Option.bind_eq_some_iff.1 h
  cases h
  exact ⟨hletter ha, hletter hb⟩

/-- The items of a range have no braces: they are numbers or letters. For letters it has to be seen
that a step that wraps around does not lead to a brace, which comes right behind the last of
them. -/
theorem brace_not_mem_of_range {items : List (List Char)} (h : range body = .ok items)
    {x : List Char} (hx : x ∈ items) : '\x7b' ∉ x := by
  rw [range] at h
  dsimp only at h
  split at h
  · obtain ⟨first, -, h⟩ := exists_of_bind h
    obtain ⟨last, -, h⟩ := exists_of_bind h
    obtain ⟨step, -, h⟩ := exists_of_bind h
    split at h
    · cases h
    · cases h
      obtain ⟨i, -, rfl⟩ := List.mem_map.1 hx
      exact brace_not_mem_item _ i
  · rename_i a b _ hletters
    obtain ⟨step, hstep, h⟩ := exists_of_bind h
    split at h
    · cases h
    · cases h
      obtain ⟨c, hc, rfl⟩ := List.mem_map.1 hx
      obtain ⟨ha, hb⟩ := isAlpha_of_letters? hletters
      have hfirst := Text.toNat_of_isAlpha ha
      have hlast := Text.toNat_of_isAlpha hb
      obtain ⟨hpositive, hmax⟩ := stepSize_bounds hstep
      -- the brace comes right behind the last of the letters, and a step that wraps around leads down
      have hle := toNat_le_of_mem_letters (by omega) (by omega) hpositive hmax hc
      intro hmem
      have hcode : 123 = c.toNat := congrArg Char.toNat (List.mem_singleton.1 hmem)
      omega
  · cases h

/-- What several texts give, each of them gives. -/
theorem exists_of_mapM {α β : Type} {f : α → Except Fault β} {as : List α} {bs : List β}
    (h : as.mapM f = .ok bs) {b : β} (hb : b ∈ bs) : ∃ a ∈ as, f a = .ok b := by
  induction as generalizing bs with
  | nil =>
    cases h
    cases hb
  | cons a as ih =>
    rw [List.mapM_cons] at h
    obtain ⟨b', hb', h⟩ := exists_of_bind h
    obtain ⟨bs', hbs', h⟩ := exists_of_bind h
    cases h
    rcases List.mem_cons.1 hb with rfl | hb
    · exact ⟨a, List.mem_cons_self, hb'⟩
    · obtain ⟨c, hc, hfc⟩ := ih hbs' hb
      exact ⟨c, List.mem_cons_of_mem a hc, hfc⟩

/-- A text that a group stands for has no more opening braces than what is between its braces, if
this holds of the words in it. Each of the words is a part of the body, and a range has no
braces. -/
theorem count_brace_le_of_groupTexts {fuel : Nat} {middles : List (List Char)}
    (hwords : ∀ {word texts x}, wordsFrom fuel word = .ok texts → x ∈ texts →
      x.count '\x7b' ≤ word.count '\x7b')
    (h : groupTexts fuel body = .ok middles) {m : List Char} (hm : m ∈ middles) :
    m.count '\x7b' ≤ body.count '\x7b' := by
  rw [groupTexts] at h
  split at h
  · rename_i parts hparts
    obtain ⟨lists, hlists, hflatten⟩ := exists_of_bind h
    cases hflatten
    obtain ⟨list, hlist, hm⟩ := List.mem_flatten.1 hm
    obtain ⟨part, hpart, hword⟩ := exists_of_mapM hlists hlist
    exact Nat.le_trans (hwords hword hm) (count_le_of_alternatives? hparts hpart _)
  · rw [List.count_eq_zero_of_not_mem (brace_not_mem_of_range h hm)]
    exact Nat.zero_le _

/-- A text that a word expands to has no more opening braces than the word, and fewer if there is a
group to expand: the brace of the group itself is gone. So no expansion leads back to the word. -/
theorem count_brace_le {fuel : Nat} {word : List Char} {texts : List (List Char)}
    (h : wordsFrom fuel word = .ok texts) {x : List Char} (hx : x ∈ texts) :
    x.count '\x7b' ≤ word.count '\x7b' ∧
      (0 < fuel → (firstGroup? none word).isSome = true →
        x.count '\x7b' < word.count '\x7b') := by
  induction fuel generalizing word texts x with
  | zero =>
    cases h
    -- without fuel a word stands for itself
    obtain rfl := List.mem_singleton.1 hx
    exact ⟨Nat.le_refl _, nofun⟩
  | succ fuel ih =>
    cases hgroup : firstGroup? none word with
    | none =>
      rw [wordsFrom_plain hgroup] at h
      cases h
      obtain rfl := List.mem_singleton.1 hx
      exact ⟨Nat.le_refl _, nofun⟩
    | some g =>
      rw [wordsFrom_group hgroup] at h
      -- a word that comes of it has something from the group in the middle, and the brace of the
      -- group is gone
      obtain ⟨middles, hmiddles, h⟩ := exists_of_bind h
      obtain ⟨tails, htails, h⟩ := exists_of_bind h
      split at h
      · cases h
      cases h
      obtain ⟨m, hm, hx⟩ := List.mem_flatMap.1 hx
      obtain ⟨t, ht, rfl⟩ := List.mem_map.1 hx
      have hmiddle := count_brace_le_of_groupTexts (fun h hx => (ih h hx).1) hmiddles hm
      have htail := (ih htails ht).1
      have hword := congrArg (List.count '\x7b') (eq_of_firstGroup? hgroup)
      simp only [List.count_append, List.count_cons_self,
        List.count_cons_of_ne (show '\x7d' ≠ '\x7b' by decide)] at hword ⊢
      exact ⟨by omega, fun _ _ => by omega⟩

/-- A word stands for itself alone if and only if the search of the expansion finds no group. -/
theorem words_eq_singleton_iff_firstGroup? (word : List Char) :
    words word = .ok [word] ↔ firstGroup? none word = none := by
  constructor
  · intro h
    by_contra hgroup
    exact Nat.lt_irrefl _ ((count_brace_le h List.mem_cons_self).2 (Nat.succ_pos _)
      (Option.isSome_iff_ne_none.2 hgroup))
  · exact fun h => wordsFrom_plain h _

/-! ## Reading and expanding -/

/-- **Which words stand for themselves.** A word without blanks and dollar signs is read as a plain one
if none of its outermost groups has a comma or two dots of its own, and it expands to itself if no group
at all has. So the reader and the expansion agree about a word unless it has such groups, but all of
them within other groups. -/
theorem isBraceWord_iff_words {word : List Char} (hne : word ≠ [])
    (hblank : ∀ c ∈ word, Text.isBlank c = false) (hdollar : '$' ∉ word) :
    (isBraceWord word = false ↔ ¬ HasGroup IsChoice false word) ∧
    (words word = .ok [word] ↔ ¬ HasGroup IsChoice true word) ∧
    ((isBraceWord word = false ↔ words word = .ok [word]) ↔
      (HasGroup IsChoice true word → HasGroup IsChoice false word)) := by
  have hread : isBraceWord word = false ↔ ¬ HasGroup IsChoice false word := by
    have hany : word.any Text.isBlank = false := List.any_eq_false.2 fun c hc => by simp [hblank c hc]
    rw [← holdsExpandable_iff hdollar (show none ≠ some '$' by simp), isBraceWord, hany]
    simp [hne]
  have hexpand : words word = .ok [word] ↔ ¬ HasGroup IsChoice true word := by
    rw [words_eq_singleton_iff_firstGroup?, ← isSome_firstGroup?_iff hdollar]
    simp
  refine ⟨hread, hexpand, ?_⟩
  rw [hread, hexpand]
  have := HasGroup.anywhere (P := IsChoice) (s := word)
  tauto

/-- A list within a group that stands for itself. -/
theorem isBraceWord_iff_words_nested : ∃ word, word = "\x7ba\x7bb,c\x7d\x7d".toList ∧ word ≠ [] ∧
    (∀ c ∈ word, Text.isBlank c = false) ∧ '$' ∉ word ∧
    HasGroup IsChoice true word ∧ ¬ HasGroup IsChoice false word := by
  have hne : "\x7ba\x7bb,c\x7d\x7d".toList ≠ [] := nofun
  have hblank : ∀ c ∈ "\x7ba\x7bb,c\x7d\x7d".toList, Text.isBlank c = false :=
    List.forall_mem_iff_forall_getElem.2 (by decide)
  have hdollar : '$' ∉ "\x7ba\x7bb,c\x7d\x7d".toList := by simp
  obtain ⟨hread, hexpand, -⟩ := isBraceWord_iff_words hne hblank hdollar
  refine ⟨_, rfl, hne, hblank, hdollar, ?_, hread.1 rfl⟩
  have hwords : words "\x7ba\x7bb,c\x7d\x7d".toList =
    .ok ["\x7bab\x7d".toList, "\x7bac\x7d".toList] := rfl
  by_contra hno
  cases hwords.symm.trans (hexpand.2 hno)

/-- The reader takes such a word for a plain one, and the expansion makes two of it. -/
theorem isBraceWord_ne_words :
    isBraceWord "\x7ba\x7bb,c\x7d\x7d".toList = false ∧
    words "\x7ba\x7bb,c\x7d\x7d".toList =
      .ok ["\x7bab\x7d".toList, "\x7bac\x7d".toList] :=
  ⟨rfl, rfl⟩

end CommandLanguage.Brace
