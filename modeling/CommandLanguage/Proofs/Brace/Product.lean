import CommandLanguage.Proofs.Brace.Passed
import CommandLanguage.Proofs.Brace.Range

/-!
# Words are ordered products

A word is put together from literal texts and groups, which are lists of words again, or ranges. It
stands for all texts that one choice for each part gives, the choice for the first part varying
slowest.

* `Word`, `Choice`, `Alternatives` — words as trees;
* `text`, `denoted` — how they are written, and the texts they stand for;
* `Word.split?` — a word at its first group, which is where expansion begins;
* `Word.words_text` — expansion gives the denoted texts, unless they are too many.
-/

namespace CommandLanguage.Brace

/-- A text that has no part in a group. It may hold dots, as a range is told by what stands between
two braces. -/
structure Literal where
  /-- its characters -/
  text : List Char
  /-- no braces, commas and dollar signs -/
  plain : ∀ c ∈ text, c ≠ '\x7b' ∧ c ≠ '\x7d' ∧ c ≠ ',' ∧ c ≠ '$'

/-- A range with its items. What it stands for is not computed here: that the body is read as a
range is part of the structure. -/
structure Span where
  /-- what stands between the braces -/
  body : List Char
  /-- what it stands for -/
  items : List (List Char)
  /-- no braces and commas -/
  plain : ∀ c ∈ body, c ≠ '\x7b' ∧ c ≠ '\x7d' ∧ c ≠ ','
  range_eq : range body = .ok items

mutual

/-- A word, part by part. The texts between groups hold no braces, commas or dollar signs, so that
nothing in them is taken for part of a group. -/
inductive Word where
  /-- nothing more -/
  | nil
  /-- a literal text, and more -/
  | literal (l : Literal) (rest : Word)
  /-- a group, and more -/
  | group (choice : Choice) (rest : Word)

/-- What stands between the braces of a group. -/
inductive Choice where
  /-- a list of words -/
  | list (as : Alternatives)
  /-- a range -/
  | range (r : Span)

/-- At least two words with commas between them. -/
inductive Alternatives where
  /-- the last two -/
  | two (first second : Word)
  /-- one before others -/
  | cons (first : Word) (others : Alternatives)

end

/-! ## Words and what they stand for

A word is a tree here, and its text is what is written. Every word that can be written without
dollar signs and with its braces matched is one, but for groups that stand for themselves. -/

/-- All ways to choose one text and then another one, the first choice varying slowest. The order is
that in which the words come out. -/
def product (firsts seconds : List (List Char)) : List (List Char) :=
  firsts.flatMap fun s => seconds.map fun t => s ++ t

mutual

/-- How a word is written. -/
def Word.text : Word → List Char
  | .nil => []
  | .literal l rest => l.text ++ rest.text
  | .group choice rest => '\x7b' :: (choice.text ++ '\x7d' :: rest.text)

/-- How the body of a group is written. -/
def Choice.text : Choice → List Char
  | .list as => as.text
  | .range r => r.body

/-- How alternatives are written. -/
def Alternatives.text : Alternatives → List Char
  | .two first second => first.text ++ ',' :: second.text
  | .cons first others => first.text ++ ',' :: others.text

end

mutual

/-- The texts that a word stands for. -/
def Word.denoted : Word → List (List Char)
  | .nil => [[]]
  | .literal l rest => product [l.text] rest.denoted
  | .group choice rest => product choice.denoted rest.denoted

/-- The texts that a group stands for. -/
def Choice.denoted : Choice → List (List Char)
  | .list as => as.denoted
  | .range r => r.items

/-- The texts that alternatives stand for, those of the first one first. -/
def Alternatives.denoted : Alternatives → List (List Char)
  | .two first second => first.denoted ++ second.denoted
  | .cons first others => first.denoted ++ others.denoted

end

/-- The words in between the commas. -/
def Alternatives.words : Alternatives → List Word
  | .two first second => [first, second]
  | .cons first others => first :: others.words

theorem length_product (firsts seconds : List (List Char)) :
    (product firsts seconds).length = firsts.length * seconds.length := by
  rw [product, List.length_flatMap]
  simp only [List.length_map, List.map_const', List.sum_replicate_nat]

theorem product_ne_nil {firsts seconds : List (List Char)} (hf : firsts ≠ []) (hs : seconds ≠ []) :
    product firsts seconds ≠ [] := by
  rw [← List.length_pos_iff, length_product]
  exact Nat.mul_pos (List.length_pos_iff.2 hf) (List.length_pos_iff.2 hs)

/-- A text before the first choices is one before the product. -/
theorem product_product (s : List Char) (firsts seconds : List (List Char)) :
    product [s] (product firsts seconds) = combine s firsts seconds := by
  simp [product, combine, List.map_flatMap, Function.comp_def]

theorem product_combine (s t : List Char) (firsts seconds : List (List Char)) :
    product [s] (combine t firsts seconds) = combine (s ++ t) firsts seconds := by
  simp [product, combine, List.map_flatMap, Function.comp_def]

mutual

theorem Word.denoted_ne_nil : (w : Word) → w.denoted ≠ []
  | .nil => List.cons_ne_nil _ _
  | .literal _ rest => product_ne_nil (List.cons_ne_nil _ _) rest.denoted_ne_nil
  | .group choice rest => product_ne_nil choice.denoted_ne_nil rest.denoted_ne_nil

theorem Choice.denoted_ne_nil : (choice : Choice) → choice.denoted ≠ []
  | .list as => as.denoted_ne_nil
  | .range r => (isRange_of_range r.range_eq).2

theorem Alternatives.denoted_ne_nil : (as : Alternatives) → as.denoted ≠ []
  | .two first _ => List.append_ne_nil_of_left_ne_nil first.denoted_ne_nil _
  | .cons first _ => List.append_ne_nil_of_left_ne_nil first.denoted_ne_nil _

end

/-! ## Searches in words

The searches of the expansion find in the text of a word what the tree says: the first group ends
where it ends, and the alternatives of a list are the texts of its words. -/

mutual

/-- Every brace of a word is matched, and its commas are within groups. So the search for a comma or
a closing brace passes over the whole word. -/
theorem Word.passed_text : (w : Word) → Passed 0 w.text
  | .nil => passed_nil 0
  | .literal l rest =>
    (passed_plain fun c hc => ⟨(l.plain c hc).1, (l.plain c hc).2.1, (l.plain c hc).2.2.1⟩).append
      rest.passed_text
  | .group choice rest => by
    have h := choice.passed_text.group.append rest.passed_text
    rwa [List.cons_append, List.append_assoc, List.singleton_append] at h

theorem Choice.passed_text : (choice : Choice) → Passed 1 choice.text
  | .list as => as.passed_text
  | .range r => (passed_plain r.plain).within

theorem Alternatives.passed_text : (as : Alternatives) → Passed 1 as.text
  | .two first second =>
    first.passed_text.within.append (passed_comma.append second.passed_text.within)
  | .cons first others =>
    first.passed_text.within.append (passed_comma.append others.passed_text)

end

theorem Alternatives.splitCommas_text : (as : Alternatives) →
    splitCommas 0 as.text = as.words.map Word.text
  | .two first second => by
    rw [text, splitCommas_comma first.passed_text, splitCommas_passed second.passed_text]
    rfl
  | .cons first others => by
    rw [text, splitCommas_comma first.passed_text, others.splitCommas_text]
    rfl

/-- Alternatives are found as such. -/
theorem Alternatives.alternatives?_text (as : Alternatives) :
    alternatives? as.text = some (as.words.map Word.text) := by
  rw [alternatives?, as.splitCommas_text]
  cases as with
  | two first second => rfl
  | cons first as => cases as <;> rfl

theorem Span.alternatives?_body (r : Span) : alternatives? r.body = none := by
  rw [alternatives?, splitCommas_passed (passed_plain r.plain)]

theorem Choice.expands_text (choice : Choice) : expands choice.text = true := by
  cases choice with
  | list as => simp [expands, text, as.alternatives?_text]
  | range r => simp [expands, text, (isRange_of_range r.range_eq).1]

namespace Word

/-- A word cut at its first group: the text before it, the group, and the rest. -/
def split? : Word → Option (List Char × Choice × Word)
  | .nil => none
  | .literal l rest =>
    rest.split?.map fun (before, choice, after) => (l.text ++ before, choice, after)
  | .group choice rest => some ([], choice, rest)

/-- The search finds the first group. The character before the word matters only in that a `$` there
would make the group a reference. -/
theorem firstGroup?_text {before? : Option Char} (hbefore : before? ≠ some '$') : (w : Word) →
    firstGroup? before? w.text =
      w.split?.map fun (before, choice, after) => ⟨before, choice.text, after.text⟩
  | .nil => rfl
  | .literal l rest => by
    obtain ⟨last?, hlast, heq⟩ := firstGroup?_plain hbefore
      (fun c hc => ⟨(l.plain c hc).1, (l.plain c hc).2.2.2⟩) rest.text
    rw [text, heq, firstGroup?_text hlast rest, split?, Option.map_map, Option.map_map]
    rfl
  | .group choice rest => firstGroup?_group hbefore choice.passed_text choice.expands_text rest.text

theorem text_of_split? {w after : Word} {before : List Char} {choice : Choice}
    (h : w.split? = some (before, choice, after)) :
    w.text = before ++ '\x7b' :: (choice.text ++ '\x7d' :: after.text) := by
  match w with
  | .nil => cases h
  | .literal l rest =>
    obtain ⟨⟨b, c, a⟩, hrest, heq⟩ := Option.map_eq_some_iff.1 h
    cases heq
    rw [text, text_of_split? hrest, List.append_assoc]
  | .group c rest =>
    cases h
    rfl

theorem denoted_of_split? {w after : Word} {before : List Char} {choice : Choice}
    (h : w.split? = some (before, choice, after)) :
    w.denoted = combine before choice.denoted after.denoted := by
  match w with
  | .nil => cases h
  | .literal l rest =>
    obtain ⟨⟨b, c, a⟩, hrest, heq⟩ := Option.map_eq_some_iff.1 h
    cases heq
    rw [denoted, denoted_of_split? hrest, product_combine]
  | .group c rest =>
    cases h
    simp [denoted, product, combine]

/-- A word without groups stands for itself. -/
theorem denoted_of_split?_eq_none {w : Word} (h : w.split? = none) :
    w.denoted = [w.text] := by
  match w with
  | .nil => rfl
  | .literal l rest =>
    rw [denoted, denoted_of_split?_eq_none (Option.map_eq_none_iff.1 h), text]
    simp [product]
  | .group c rest => cases h

end Word

theorem Alternatives.denoted_eq : (as : Alternatives) →
    as.denoted = as.words.flatMap Word.denoted
  | .two first second => by simp [denoted, words]
  | .cons first others => by simp [denoted, words, others.denoted_eq]

/-- An alternative is shorter than all of them together. The fuel of the expansion is the length of
the word, and so it is enough for the words within. -/
theorem Alternatives.length_of_mem_words {w : Word} : (as : Alternatives) → w ∈ as.words →
    w.text.length < as.text.length
  | .two first second, h => by
    simp only [words, List.mem_cons, List.not_mem_nil, or_false] at h
    rcases h with rfl | rfl <;> simp only [text, List.length_append, List.length_cons] <;> omega
  | .cons first others, h => by
    simp only [text, List.length_append, List.length_cons]
    rcases List.mem_cons.1 h with rfl | h
    · omega
    · have := others.length_of_mem_words h
      omega

/-! ## Expansion

The expansion of a word is an induction over its length, as it goes on with the texts of the parts.
That there may be too many texts is carried along with each statement. -/

/-- The texts are what is found, unless they are too many. Within a group this is all that can be
said: where it is too large by itself, the whole word is. -/
def UnlessTooLarge (texts : List (List Char)) (x : Except Fault (List (List Char))) : Prop :=
  x = .ok texts ∨
    maxItems < texts.length ∧ ∃ text, x = .error (.range text .expansionTooLarge)

/-- The texts are what is found if they are not too many, and only then. For a whole word the check
on the product is exact. -/
def IfNotTooLarge (texts : List (List Char)) (x : Except Fault (List (List Char))) : Prop :=
  if texts.length ≤ maxItems then x = .ok texts
  else ∃ text, x = .error (.range text .expansionTooLarge)

theorem IfNotTooLarge.unless {texts : List (List Char)} {x : Except Fault (List (List Char))}
    (h : IfNotTooLarge texts x) : UnlessTooLarge texts x := by
  rw [IfNotTooLarge] at h
  split at h
  · exact .inl h
  · exact .inr ⟨by omega, h⟩

/-- Alternatives are expanded one after the other. If one of them is too large, then all of them
together are, whichever comes first. -/
theorem unlessTooLarge_flatten {f : List Char → Except Fault (List (List Char))} {ws : List Word}
    (h : ∀ w ∈ ws, UnlessTooLarge w.denoted (f w.text)) :
    UnlessTooLarge (ws.flatMap Word.denoted)
      (((ws.map Word.text).mapM f).map List.flatten) := by
  induction ws with
  | nil => exact .inl rfl
  | cons w ws ih =>
    rw [List.map_cons, List.mapM_cons, List.flatMap_cons, UnlessTooLarge, List.length_append]
    rcases h w List.mem_cons_self with hw | ⟨hlarge, text, hw⟩
    · rw [hw]
      -- the first alternative gives its words, and the fault may come of the others
      have hws := ih fun v hv => h v (List.mem_cons_of_mem w hv)
      cases hrest : (ws.map Word.text).mapM f with
      | ok parts =>
        rw [hrest] at hws
        rcases hws with hws | ⟨-, _, hws⟩
        · rw [← Except.ok.inj hws]
          exact .inl rfl
        · cases hws
      | error e =>
        rw [hrest] at hws
        rcases hws with hws | ⟨hlarge, text, hws⟩
        · cases hws
        · cases hws
          exact .inr ⟨by omega, text, rfl⟩
    · rw [hw]
      exact .inr ⟨by omega, text, rfl⟩

/-- Choices for a group and for the rest are put together. If either of the two are too many, then
so are the texts, as there is always a choice: a product is no smaller than its factors if none is
empty. -/
theorem ifNotTooLarge_combine {middles tails : List (List Char)}
    {x y : Except Fault (List (List Char))} (hx : UnlessTooLarge middles x)
    (hy : UnlessTooLarge tails y) (hmiddles : middles ≠ []) (htails : tails ≠ [])
    (before : List Char) (text : String) :
    IfNotTooLarge (combine before middles tails) (do
      let middles ← x
      let tails ← y
      if maxItems < middles.length * tails.length then .error (.range text .expansionTooLarge)
      else return combine before middles tails) := by
  have hlength : (combine before middles tails).length = middles.length * tails.length := by
    rw [← product_product, length_product, length_product, List.length_singleton, Nat.one_mul]
  -- neither factor is zero, so what is too large for one of them is so for the product
  have hleft := Nat.le_mul_of_pos_right middles.length (List.length_pos_iff.2 htails)
  have hright := Nat.le_mul_of_pos_left tails.length (List.length_pos_iff.2 hmiddles)
  rw [IfNotTooLarge, hlength]
  rcases hx with rfl | ⟨hlarge, t, rfl⟩
  · rcases hy with rfl | ⟨hlarge, t, rfl⟩
    · by_cases hlarge : maxItems < middles.length * tails.length
      · rw [if_neg (by omega)]
        exact ⟨text, if_pos hlarge⟩
      · rw [if_pos (by omega)]
        exact if_neg hlarge
    · rw [if_neg (by omega)]
      exact ⟨t, rfl⟩
  · rw [if_neg (by omega)]
    exact ⟨t, rfl⟩

/-- What a group stands for is found, if what the words in it stand for is. -/
theorem Choice.unlessTooLarge_groupTexts {fuel : Nat} (choice : Choice)
    (hwords : ∀ w : Word, w.text.length < choice.text.length →
      IfNotTooLarge w.denoted (wordsFrom fuel w.text)) :
    UnlessTooLarge choice.denoted (groupTexts fuel choice.text) := by
  cases choice with
  | list as =>
    rw [Choice.text, groupTexts, as.alternatives?_text, Choice.denoted, as.denoted_eq]
    exact unlessTooLarge_flatten fun v hv => (hwords v (as.length_of_mem_words hv)).unless
  | range r =>
    rw [Choice.text, groupTexts, r.alternatives?_body]
    exact .inl r.range_eq

/-- One round of expansion, with fuel for the length of the word. By induction on the fuel: what is
expanded within a group, and behind it, is shorter than the word. -/
theorem wordsFrom_text {fuel : Nat} (w : Word) (hfuel : w.text.length < fuel) :
    IfNotTooLarge w.denoted (wordsFrom fuel w.text) := by
  induction fuel generalizing w with
  | zero => omega
  | succ fuel ih =>
    have hstart : none ≠ some '$' := nofun
    have hfirst := w.firstGroup?_text hstart
    cases hsplit : w.split? with
    | none =>
      rw [hsplit] at hfirst
      rw [wordsFrom_plain hfirst, Word.denoted_of_split?_eq_none hsplit, IfNotTooLarge,
        List.length_singleton, if_pos (by decide)]
    | some cut =>
      obtain ⟨before, choice, after⟩ := cut
      have hlength := congrArg List.length (Word.text_of_split? hsplit)
      simp only [List.length_append, List.length_cons] at hlength
      rw [hsplit] at hfirst
      rw [wordsFrom_group hfirst, Word.denoted_of_split? hsplit]
      exact ifNotTooLarge_combine
        (choice.unlessTooLarge_groupTexts fun v hv => ih v (by omega)) (ih after (by omega)).unless
        choice.denoted_ne_nil after.denoted_ne_nil before _

/-- **Words expand to ordered products.** A word of literal texts, lists and ranges, within each
other to any depth, expands to exactly the texts that it denotes and in their order; if there are
more than `maxItems` of them, it is refused for this reason and no other. -/
theorem Word.words_text (w : Word) :
    if w.denoted.length ≤ maxItems then words w.text = .ok w.denoted
    else ∃ text, words w.text = .error (.range text .expansionTooLarge) :=
  wordsFrom_text w (Nat.lt_succ_self _)

/-- Lists lie within each other, and may hold the empty word. -/
example : words "x\x7ba,\x7bb,\x7d\x7d\x7b1..2\x7d".toList =
    .ok (["xa1", "xa2", "xb1", "xb2", "x1", "x2"].map String.toList) := by rfl

end CommandLanguage.Brace
