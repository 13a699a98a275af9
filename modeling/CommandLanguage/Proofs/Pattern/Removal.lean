import CommandLanguage.Proofs.Regex.Engine

/-!
# Shortest and longest removals

A removal takes a match of a pattern off one end of a text. At the front it is for the engine to choose
among the matches: each star takes as little or as much as it can, one after the other. At the back one
place after the other is tried, and it is only asked whether all of the rest is a match. Both come down
to the shortest or longest match there is, for every engine that searches as engines of this kind do.

* `Removed` — what it is to take off the shortest or longest match;
* `leftmost?_front`, `isMatch_iff` — what is searched for, from the start of a text on;
* `Removal.removed_apply`, `Removal.apply_regex` — removal does so, for each operator.
-/

namespace CommandLanguage

/-- A text and the rest of another text, which it stands at one end of. What is taken off is named
first, whichever end it stands at. -/
def End.Splits (side : End) (value s rest : List Char) : Prop :=
  match side with
  | .front => value = s ++ rest
  | .back => value = rest ++ s

/-- What is left, `rest`, of `value` when the shortest or longest match of a pattern is taken off
one end, and all of `value` if there is no match. The empty text may be the shortest match, and then
`rest` is all of `value` too. -/
def Removed (side : End) (longest : Bool) (pattern value rest : List Char) : Prop :=
  (∃ s, side.Splits value s rest ∧ Glob.Matches pattern s ∧
    ∀ s' rest', side.Splits value s' rest' → Glob.Matches pattern s' →
      if longest then s'.length ≤ s.length else s.length ≤ s'.length) ∨
  (rest = value ∧ ∀ s rest', side.Splits value s rest' → ¬ Glob.Matches pattern s)

/-! ## Searching from the start of a text -/

open Engine (Part lengths mem_lengths not_before_head Before ordered_range rel_of_findSome?)

/-- A match that has to begin with the text is searched for in one place only. All other places have
no match at all, so which one comes first does not depend on them. -/
theorem leftmost?_front (back : Bool) (lengths : List Char → List Nat) (text : List Char) :
    leftmost? (Anchors.ends ⟨true, back⟩ lengths) text =
      (Anchors.ends ⟨true, back⟩ lengths text 0).head?.map (0, ·) := by
  have hlater : ((List.range text.length).map Nat.succ).findSome? (fun n =>
      (Anchors.ends ⟨true, back⟩ lengths text n).head?.map (n, ·)) = none := by
    refine List.findSome?_eq_none_iff.2 fun n hn => ?_
    obtain ⟨m, -, rfl⟩ := List.mem_map.1 hn
    rfl
  rw [leftmost?, List.range_succ_eq_map, List.findSome?_cons, hlater]
  cases (Anchors.ends ⟨true, back⟩ lengths text 0).head? <;> rfl

section

variable {greedy : Bool} {pattern : List Char} {m : Matcher}

/-- What is looked for from the start of a text up to its end is the text as a whole. Here it only
matters that there is a match, and not which of them the engine comes to first. -/
theorem isMatch_iff (hm : m.Searches (Anchors.ends ⟨true, true⟩ (lengths greedy (Glob.parts pattern))))
    (text : List Char) : m.isMatch text = true ↔ Glob.Matches pattern text := by
  rw [hm.isMatch, leftmost?_front, Option.isSome_map, List.isSome_head?, Anchors.ends,
    Glob.matches_iff]
  simp only [bne_self_eq_false, Bool.and_false, Bool.false_eq_true, if_false, List.drop_zero,
    Nat.zero_add, List.map_id', Bool.not_true, Bool.false_or, ne_eq, List.filter_eq_nil_iff,
    beq_iff_eq, not_forall, Decidable.not_not, mem_lengths]
  constructor
  · rintro ⟨n, ⟨s, hs, hprefix, rfl⟩, hlength⟩
    rwa [← hprefix.eq_of_length hlength]
  · intro h
    exact ⟨_, ⟨text, h, List.prefix_refl text, rfl⟩, rfl⟩

/-- The match that is found at the front is the shortest or the longest one, as no other one comes
before it. -/
theorem replaceFirst_removed
    (hm : m.Searches (Anchors.ends ⟨true, false⟩ (lengths greedy (Glob.parts pattern))))
    (value : List Char) : Removed .front greedy pattern value (m.replaceFirst [] value) := by
  -- the place where the match begins is fixed, so a better match would be one that ends better
  have hfound {s rest : List Char} (hsplit : End.front.Splits value s rest)
      (hs : Glob.Matches pattern s) : s.length ∈ lengths greedy (Glob.parts pattern) value :=
    mem_lengths.2 ⟨s, Glob.matches_iff.1 hs, ⟨rest, hsplit.symm⟩, rfl⟩
  have hends : Anchors.ends ⟨true, false⟩ (lengths greedy (Glob.parts pattern)) value 0 =
      lengths greedy (Glob.parts pattern) value := by simp [Anchors.ends]
  rw [hm.replaceFirst, leftmost?_front, hends]
  cases hfirst : (lengths greedy (Glob.parts pattern) value).head? with
  | none =>
    rw [List.head?_eq_none_iff] at hfirst
    refine .inr ⟨rfl, fun s rest hsplit hs => ?_⟩
    have hmem := hfound hsplit hs
    rw [hfirst] at hmem
    cases hmem
  | some first =>
    obtain ⟨s, hs, ⟨rest, rfl⟩, rfl⟩ := mem_lengths.1 (List.mem_of_mem_head? hfirst)
    refine .inl ⟨s, ?_, Glob.matches_iff.2 hs, fun s' rest' hsplit hs' => ?_⟩
    · show s ++ rest = s ++ ((s ++ rest).take 0 ++ [] ++ (s ++ rest).drop s.length)
      rw [List.take_zero, List.drop_left]
      rfl
    · have hplace : ¬Before greedy 0 0 := by cases greedy <;> simp [Before]
      have hbefore := not_before_head hfirst (hfound hsplit hs') hplace
      cases greedy <;> simp [Before] at hbefore ⊢ <;> omega

end

/-! ## Trying one place after the other -/

namespace Removal

variable (r : Removal)

/-- Every removal looks from the start of a text, and one at the back looks for the end of it
too. -/
theorem anchored_eq (regex : List Char) :
    r.anchored regex = Anchors.text ⟨true, r.side == .back⟩ regex := by
  obtain ⟨side, greedy⟩ := r
  cases side <;> simp [anchored, Anchors.text]

/-- At the front the engine does the cutting. -/
theorem cut_front (hside : r.side = .front) (m : Matcher) (value : List Char) :
    r.cut m value = m.replaceFirst [] value := by
  obtain ⟨side, greedy⟩ := r
  obtain rfl : side = .front := hside
  rfl

/-- The places in the order in which they are tried: from the front for the longest rest, and from
the back for the shortest one. -/
theorem ordered_places (greedy : Bool) (n : Nat) :
    (if greedy then List.range n else (List.range n).reverse).Pairwise (Before (!greedy)) := by
  cases greedy <;> exact ordered_range _ n

/-- The first place from which on the rest is matched is the last or the first one, so that the rest
is the shortest or longest text that is matched. -/
theorem cut_removed {pattern : List Char} (hside : r.side = .back) {m : Matcher}
    (hm : ∀ text, m.isMatch text = true ↔ Glob.Matches pattern text) (value : List Char) :
    Removed .back r.greedy pattern value (r.cut m value) := by
  obtain ⟨side, greedy⟩ := r
  obtain rfl : side = .back := hside
  have hordered := ordered_places greedy (value.length + 1)
  have hmem {m : Nat} : m ∈ (if greedy then List.range (value.length + 1)
      else (List.range (value.length + 1)).reverse) ↔ m < value.length + 1 := by
    cases greedy <;> simp
  rw [cut]
  dsimp only
  generalize (if greedy then List.range (value.length + 1)
    else (List.range (value.length + 1)).reverse) = places at hordered hmem ⊢
  -- the place where a match at the end of the text begins is tried
  have htried {s rest : List Char} (hsplit : value = rest ++ s) (hs : Glob.Matches pattern s) :
      rest.length ∈ places ∧ m.isMatch (value.drop rest.length) = true := by
    rw [hmem, hm, hsplit, List.drop_left, List.length_append]
    exact ⟨by omega, hs⟩
  cases hfind : places.find? fun n => m.isMatch (value.drop n) with
  | none =>
    refine .inr ⟨rfl, fun s rest hsplit hs => ?_⟩
    obtain ⟨hplace, hmatch⟩ := htried hsplit hs
    exact absurd hmatch (List.find?_eq_none.1 hfind _ hplace)
  | some n =>
    have hn := hmem.1 (List.mem_of_find?_eq_some hfind)
    have hfound : m.isMatch (value.drop n) = true := by
      simpa using List.find?_some hfind
    refine .inl ⟨value.drop n, (List.take_append_drop n value).symm, (hm _).1 hfound,
      fun s rest hsplit hs => ?_⟩
    obtain ⟨hplace, hmatch⟩ := htried hsplit hs
    have hlength := congrArg List.length hsplit
    rw [List.length_append] at hlength
    rw [← List.findSome?_guard] at hfind
    obtain ⟨k, -, hk, hrel⟩ := rel_of_findSome? hordered hfind
    obtain ⟨rfl, -⟩ := Option.guard_eq_some_iff.1 hk
    have hrel := hrel rest.length hplace (by simp [Option.guard, hmatch])
    cases greedy <;> simp [Before] at hrel ⊢ <;> omega

/-! ## All operators -/

section

variable {E : Engine} (hE : E.LeftmostFirst)
include hE

/-- A removal takes off the shortest or longest match at its end of the text. Parts stand for what
the pattern matches (`Glob.matches_iff`), and the laws of the engine say how it searches for
parts. -/
theorem removed_apply {pattern : List Char} (hpattern : '[' ∉ pattern)
    (haccepted : E.Accepts (r.anchored (Glob.regex r.greedy pattern))) (value : List Char) :
    Removed r.side r.greedy pattern value (r.apply E (Glob.regex r.greedy pattern) value) := by
  obtain ⟨m, hm⟩ := haccepted
  have hsearches : m.Searches
      (Anchors.ends ⟨true, r.side == .back⟩ (lengths r.greedy (Glob.parts pattern))) := by
    rw [anchored_eq, Glob.regex_eq r.greedy hpattern] at hm
    exact hE.parts _ _ _ hm
  rw [apply, hm]
  dsimp only
  cases hside : r.side with
  | front =>
    rw [hside] at hsearches
    rw [r.cut_front hside]
    exact replaceFirst_removed hsearches value
  | back =>
    rw [hside] at hsearches
    exact r.cut_removed hside (isMatch_iff hsearches) value

/-- **Removals take off the shortest or longest match.** Whatever the text and the pattern are, as
long as the pattern has no bracket expressions and the engine accepts the expression for it: `#` and
`##` take off the shortest and the longest of the texts at the front that the pattern matches, `%`
and `%%` those at the back, and a text without a match stays as it is. -/
theorem apply_regex {operator : String} {r : Removal} (hoperator : ofOperator? operator = some r)
    {pattern : List Char} (hpattern : '[' ∉ pattern)
    (haccepted : E.Accepts (r.anchored (Glob.regex r.greedy pattern))) (value : List Char) :
    let rest := r.apply E (Glob.regex r.greedy pattern) value
    (operator = "#" → Removed .front false pattern value rest) ∧
    (operator = "##" → Removed .front true pattern value rest) ∧
    (operator = "%" → Removed .back false pattern value rest) ∧
    (operator = "%%" → Removed .back true pattern value rest) := by
  have hremoved := r.removed_apply hE hpattern haccepted value
  refine ⟨?_, ?_, ?_, ?_⟩ <;> rintro rfl <;> cases hoperator <;> exact hremoved

end

/-- The longest start of `a/b/c` up to a slash, with the engine that the program has. -/
theorem apply_regex_path :
    let r : Removal := ⟨.front, true⟩
    Regex.engine.LeftmostFirst ∧ ofOperator? "##" = some r ∧ '[' ∉ ['*', '/'] ∧
      Regex.engine.Accepts (r.anchored (Glob.regex true ['*', '/'])) ∧
      Removed .front true ['*', '/'] "a/b/c".toList
        (r.apply Regex.engine (Glob.regex true ['*', '/']) "a/b/c".toList) := by
  have haccepted : Regex.engine.Accepts
      ((⟨.front, true⟩ : Removal).anchored (Glob.regex true ['*', '/'])) := by
    rw [anchored_eq, Glob.regex_eq true (by decide)]
    exact (Regex.accepts_iff (Regex.parse_parts _ true _)).2 (by decide)
  exact ⟨Regex.leftmostFirst_engine, rfl, by decide, haccepted,
    (apply_regex Regex.leftmostFirst_engine rfl (by decide) haccepted "a/b/c".toList).2.1 rfl⟩

end Removal

end CommandLanguage
