import CommandLanguage.Proofs.Pattern.Removal
import CommandLanguage.Proofs.Pattern.Written

/-!
# Replacing by nothing

To replace the match at one end of a text by nothing is to take the longest one off there
(`Replacement.apply_nil`). At the front both search for the same expression. At the back, replacement
searches once, from left to right, for a match that ends with the text, and removal tries one place after
the other, each as the start of a text. What an expression matches depends on nothing but the text ahead
(`Engine.LeftmostFirst.ahead`), so that both find the same place.

Brackets do not matter for this, and neither does how the engine reads them, as long as no condition is
among the parts of an expression (`Glob.written_regexFrom`).
-/

namespace CommandLanguage

/-! ## Matches up to the end of a text

A match that has to end with the text is found by trying where it begins. Both ways of searching do
this, one within the engine and the other around it. -/

section

variable {lengths : List Char → List Nat} {text : List Char} {n : Nat}

/-- There is a match up to the end where the rest, as a text of its own, is one. The lengths that an
expression may take depend on the text ahead alone, and so it does not matter what was cut off
before. -/
theorem head?_ends_back (hn : n ≤ text.length) :
    (Anchors.ends ⟨false, true⟩ lengths text n).head? =
      if (leftmost? (Anchors.ends ⟨true, true⟩ lengths) (text.drop n)).isSome then
        some text.length else none := by
  have hmem : (leftmost? (Anchors.ends ⟨true, true⟩ lengths) (text.drop n)).isSome = true ↔
      text.length ∈ Anchors.ends ⟨false, true⟩ lengths text n := by
    rw [leftmost?_front, Option.isSome_map, List.isSome_head?, Ne, List.eq_nil_iff_forall_not_mem,
      not_forall]
    simp only [Anchors.ends, bne_self_eq_false, Bool.and_false, Bool.false_eq_true, if_false,
      List.drop_zero, Nat.zero_add, List.map_id', Bool.not_true, Bool.false_or, Bool.false_and,
      List.mem_filter, List.mem_map, List.length_drop, beq_iff_eq, Decidable.not_not]
    constructor
    · rintro ⟨l, hl, rfl⟩
      exact ⟨⟨_, hl, by omega⟩, trivial⟩
    · rintro ⟨⟨l, hl, hlength⟩, -⟩
      exact ⟨l, hl, by omega⟩
  -- all matches up to the end have the same end
  have hend {k : Nat} (hk : k ∈ Anchors.ends ⟨false, true⟩ lengths text n) : k = text.length := by
    simpa [Anchors.ends] using (List.mem_filter.1 hk).2
  split
  · next hsome =>
    obtain ⟨k, hk⟩ := Option.isSome_iff_exists.1
      (List.isSome_head?.2 (List.ne_nil_of_mem (hmem.1 hsome)))
    rw [hk, hend (List.mem_of_mem_head? hk)]
  · next hnone =>
    refine List.head?_eq_none_iff.2 (List.eq_nil_iff_forall_not_mem.2 fun k hk => hnone ?_)
    exact hmem.2 (hend hk ▸ hk)

/-- The leftmost match up to the end begins at the first place from which on all of the text is a
match. -/
theorem leftmost?_back (lengths : List Char → List Nat) (text : List Char) :
    leftmost? (Anchors.ends ⟨false, true⟩ lengths) text =
      ((List.range (text.length + 1)).find? fun n =>
        (leftmost? (Anchors.ends ⟨true, true⟩ lengths) (text.drop n)).isSome).map
          (·, text.length) := by
  rw [leftmost?, ← List.findSome?_guard, List.map_findSome?, ← List.head?_filterMap,
    ← List.head?_filterMap]
  refine congrArg List.head? (List.filterMap_congr fun n hn => ?_)
  rw [head?_ends_back (Nat.le_of_lt_succ (List.mem_range.1 hn)), Function.comp_apply, Option.guard]
  split <;> rfl

end

/-! ## Removing nothing -/

namespace Removal

variable {E : Engine} (r : Removal) {regex : List Char} {value : List Char}

/-- A removal whose expression is accepted takes off what the matcher finds. -/
theorem apply_of_ok {m : Matcher} (h : E.compile (r.anchored regex) = .ok m) :
    r.apply E regex value = r.cut m value := by
  rw [apply, h]

/-- A removal whose expression is refused takes nothing off. -/
theorem apply_of_not_accepts (h : ¬E.Accepts (r.anchored regex)) : r.apply E regex value = value := by
  rw [apply]
  split
  · next m hm => exact absurd ⟨m, hm⟩ h
  · rfl

/-- The empty expression takes nothing off. -/
theorem apply_empty (hE : E.LeftmostFirst) : r.apply E [] value = value := by
  by_cases haccepted : E.Accepts (r.anchored (Glob.regex r.greedy []))
  · rcases r.removed_apply hE List.not_mem_nil haccepted value with ⟨s, hsplits, hs, -⟩ | ⟨hrest, -⟩
    · obtain rfl : s = [] := by
        cases hs
        rfl
      cases hside : r.side <;> rw [hside] at hsplits
      · exact hsplits.symm
      · exact (hsplits.trans (List.append_nil _)).symm
    · exact hrest
  · exact r.apply_of_not_accepts haccepted

end Removal

/-! ## Replacing by nothing -/

namespace Replacement

variable {E : Engine} {regex : List Char} {value : List Char}

/-- A replacement at the back searches once for the expression with the end of the text behind
it. -/
theorem apply_back_of_ok (hregex : regex ≠ []) {m : Matcher}
    (h : E.compile (Anchors.text ⟨false, true⟩ regex) = .ok m) :
    apply E ⟨false, some .back⟩ regex [] value = m.replaceFirst [] value := by
  have hanchored : E.compile (anchored ⟨false, some .back⟩ regex) = .ok m := by
    simpa [anchored, Anchors.text] using h
  rw [apply, if_neg (mt List.isEmpty_iff.1 hregex), hanchored]
  rfl

/-- A replacement whose expression is refused replaces nothing. -/
theorem apply_back_of_not_accepts (h : ¬E.Accepts (Anchors.text ⟨false, true⟩ regex)) :
    apply E ⟨false, some .back⟩ regex [] value = value := by
  have hanchored : ¬E.Accepts (anchored ⟨false, some .back⟩ regex) := by
    simpa [anchored, Anchors.text] using h
  rw [apply]
  split
  · rfl
  · split
    · next m hm => exact absurd ⟨m, hm⟩ hanchored
    · rfl

variable (hE : E.LeftmostFirst)
include hE

/-- At the front, replacing and removing search for the same expression, and cut out the same match
of it. -/
theorem apply_nil_front (regex value : List Char) :
    apply E ⟨false, some .front⟩ regex [] value = Removal.apply E ⟨.front, true⟩ regex value := by
  cases regex with
  | nil => exact (Removal.apply_empty _ hE).symm
  | cons c s => rfl

/-- At the back, the one search finds the place that is tried first of those where there is a match.
That the engine accepts both expressions or none is needed, since each of them is compiled by
itself. -/
theorem apply_nil_back (hwritten : Engine.Written [] regex) (halike : E.AcceptsAlike regex)
    (value : List Char) :
    apply E ⟨false, some .back⟩ regex [] value = Removal.apply E ⟨.back, true⟩ regex value := by
  by_cases hempty : regex = []
  · rw [hempty, Removal.apply_empty _ hE]
    rfl
  · by_cases haccepted : E.Accepts (Anchors.text ⟨false, true⟩ regex)
    · obtain ⟨once, honce⟩ := haccepted
      obtain ⟨tried, htried⟩ := halike.2 ⟨once, honce⟩
      have hanchored : E.compile (Removal.anchored ⟨.back, true⟩ regex) = .ok tried := by
        rw [Removal.anchored_eq]
        exact htried
      -- the same lengths serve the search from everywhere and the one at the front of what is left
      obtain ⟨lengths, hlengths⟩ := hE.ahead hwritten
      have hmatch (n : Nat) : tried.isMatch (value.drop n) =
          (leftmost? (Anchors.ends ⟨true, true⟩ lengths) (value.drop n)).isSome :=
        (hlengths true htried).isMatch _
      rw [apply_back_of_ok hempty honce, (hlengths false honce).replaceFirst, leftmost?_back,
        Removal.apply_of_ok _ hanchored, Removal.cut]
      simp only [if_true, hmatch]
      -- both find the first place from which on the rest of the text matches
      cases (List.range (value.length + 1)).find? fun n =>
          (leftmost? (Anchors.ends ⟨true, true⟩ lengths) (value.drop n)).isSome with
      | none => rfl
      | some n => simp
    · rw [apply_back_of_not_accepts haccepted, Removal.apply_of_not_accepts]
      rw [Removal.anchored_eq]
      exact fun h => haccepted (halike.1 h)

/-- **To replace a match at one end by nothing is to take off the longest one.** Whatever the text and
the pattern are, bracket expressions and the empty pattern included, and whether the engine accepts the
expression for it or not. Only if its limit lay between this expression with the start of the text in
front and without, then the one that is within would find what the other one does not look for. -/
theorem apply_nil (pattern value : List Char) (halike : E.AcceptsAlike (Glob.regex true pattern)) :
    let regex := Glob.regex true pattern
    apply E ⟨false, some .back⟩ regex [] value = Removal.apply E ⟨.back, true⟩ regex value ∧
      apply E ⟨false, some .front⟩ regex [] value = Removal.apply E ⟨.front, true⟩ regex value := by
  have hwritten : Engine.Written [] (Glob.regex true pattern) := by
    have happend := Glob.written_regexFrom [] 0 pattern
    rwa [List.append_nil] at happend
  exact ⟨apply_nil_back hE hwritten halike value, apply_nil_front hE _ value⟩

omit hE in
/-- A bracket expression and a star, with the engine that the program has. -/
theorem apply_nil_bracket :
    let regex := Glob.regex true "[!a-c\\]]*".toList
    Regex.engine.LeftmostFirst ∧ Regex.engine.AcceptsAlike regex ∧
      apply Regex.engine ⟨false, some .back⟩ regex [] "abxyc".toList =
        Removal.apply Regex.engine ⟨.back, true⟩ regex "abxyc".toList ∧
      apply Regex.engine ⟨false, some .front⟩ regex [] "abxyc".toList =
        Removal.apply Regex.engine ⟨.front, true⟩ regex "abxyc".toList := by
  have hwritten : Engine.Written [] (Glob.regex true "[!a-c\\]]*".toList) := by
    have happend := Glob.written_regexFrom [] 0 "[!a-c\\]]*".toList
    rwa [List.append_nil] at happend
  have halike := Regex.acceptsAlike_engine hwritten
  exact ⟨Regex.leftmostFirst_engine, halike,
    apply_nil Regex.leftmostFirst_engine "[!a-c\\]]*".toList "abxyc".toList halike⟩

end Replacement

end CommandLanguage
