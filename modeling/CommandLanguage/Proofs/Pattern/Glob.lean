import Mathlib
import CommandLanguage.Proofs.Pattern.Engine

/-!
# What patterns match

`Glob.Matches` says which texts a pattern without bracket expressions matches, character by
character of the pattern. The expression that is written for it has one part for each part of the
pattern, and the matches of these parts are exactly the texts that the pattern matches.

An engine tries the choices of the first star in order, and those of the others for each of them. It is
not obvious that the match it comes to first is the shortest or longest one: an early star might prefer
a choice that makes a later one come out worse. For patterns it is so, as the text that one star does
not take can be taken by the next one (`Engine.not_before_head`).

* `Engine.mem_lengths` — which matches the parts have;
* `Engine.not_before_head` — which of them comes first;
* `Glob.matches_iff` — the parts of a pattern, put together, match what the pattern does;
* `Glob.regex_eq` — how the expression for a pattern is written.
-/

namespace CommandLanguage

namespace Engine

/-! ## What parts match -/

/-- What a part matches. Neither a star nor a question mark goes beyond the end of a line, since the
dot of an expression does not. -/
def Part.Matches : Part → List Char → Prop
  | .char c, s => s = [c]
  | .any, s => ∃ c, c ≠ '\n' ∧ s = [c]
  | .star, s => '\n' ∉ s

/-- What several parts match, one after the other. -/
def PartsMatch : List Part → List Char → Prop
  | [], u => u = []
  | p :: ps, u => ∃ s t, u = s ++ t ∧ p.Matches s ∧ PartsMatch ps t

/-- What begins with a character matches what begins with it. -/
theorem partsMatch_char {c : Char} {ps : List Part} {u : List Char} :
    PartsMatch (.char c :: ps) u ↔ ∃ t, u = c :: t ∧ PartsMatch ps t := by
  constructor
  · rintro ⟨_, t, rfl, rfl, ht⟩
    exact ⟨t, rfl, ht⟩
  · rintro ⟨t, rfl, ht⟩
    exact ⟨[c], t, rfl, rfl, ht⟩

/-! ## Which matches there are -/

section

variable {greedy : Bool} {t : List Char} {n : Nat}

/-- A star can take what begins the text ahead and is on one line. -/
theorem lt_takeWhile_iff : n < (t.takeWhile (· != '\n')).length + 1 ↔
    ∃ s, '\n' ∉ s ∧ s <+: t ∧ n = s.length := by
  have hline {s : List Char} : '\n' ∉ s ↔ ∀ c ∈ s, (c != '\n') = true :=
    ⟨fun h c hc => bne_iff_ne.2 fun heq => h (heq ▸ hc), fun h hn => bne_iff_ne.1 (h _ hn) rfl⟩
  constructor
  · intro hn
    have htake : t.takeWhile (· != '\n') <+: t := List.takeWhile_prefix _
    refine ⟨(t.takeWhile (· != '\n')).take n, hline.2 fun c hc => ?_, ?_, ?_⟩
    · exact (List.all_eq_true.1 List.all_takeWhile) c (List.mem_of_mem_take hc)
    · exact (List.take_prefix n _).trans htake
    · rw [List.length_take]
      omega
  · rintro ⟨s, hs, ⟨r, rfl⟩, rfl⟩
    rw [List.takeWhile_append_of_pos (hline.1 hs), List.length_append]
    omega

/-- A part takes what it matches. -/
theorem Part.mem_lengths (p : Part) :
    n ∈ p.lengths greedy t ↔ ∃ s, p.Matches s ∧ s <+: t ∧ n = s.length := by
  cases p with
  | char c =>
    cases t with
    | nil => simp [lengths, Matches]
    | cons d t => by_cases h : d = c <;> simp [lengths, Matches, h, Ne.symm]
  | any => cases t <;> simp [lengths, Matches]
  | star =>
    have hchoices : n ∈ Part.star.lengths greedy t ↔
        n < (t.takeWhile (· != '\n')).length + 1 := by
      cases greedy <;> simp [lengths]
    rw [hchoices, lt_takeWhile_iff]
    rfl

/-- The matches of several parts are the texts that they match one after the other. By induction on
the parts, for all texts at once: behind the first part the others match the text that is then
ahead. -/
theorem mem_lengths {ps : List Part} :
    n ∈ lengths greedy ps t ↔ ∃ s, PartsMatch ps s ∧ s <+: t ∧ n = s.length := by
  induction ps generalizing t n with
  | nil => simp [lengths, PartsMatch]
  | cons p ps ih =>
    simp only [lengths, List.mem_flatMap, List.mem_map, Part.mem_lengths, ih]
    constructor
    · rintro ⟨_, ⟨s, hs, ⟨r, rfl⟩, rfl⟩, _, ⟨u, hu, hprefix, rfl⟩, rfl⟩
      rw [List.drop_left] at hprefix
      refine ⟨s ++ u, ⟨s, u, rfl, hs, hu⟩, ?_, List.length_append.symm⟩
      exact (List.prefix_append_right_inj s).2 hprefix
    · rintro ⟨_, ⟨s, u, rfl, hs, hu⟩, ⟨r, rfl⟩, rfl⟩
      refine ⟨_, ⟨s, hs, ⟨u ++ r, (List.append_assoc _ _ _).symm⟩, rfl⟩, _, ⟨u, hu, ?_, rfl⟩,
        List.length_append.symm⟩
      rw [List.append_assoc, List.drop_left]
      exact List.prefix_append u r

end

/-! ## Which match comes first -/

section

variable {greedy : Bool} {t : List Char} {i j n first : Nat}

/-- What is found first in a list that is in order comes before all else that could be found. -/
theorem rel_of_findSome? {α : Type} {R : Nat → Nat → Prop} {f : Nat → Option α} {ns : List Nat}
    {a : α} (hordered : ns.Pairwise R) (ha : ns.findSome? f = some a) :
    ∃ n ∈ ns, f n = some a ∧ ∀ m ∈ ns, f m ≠ none → m = n ∨ R n m := by
  obtain ⟨before, n, after, rfl, hn, hbefore⟩ := List.findSome?_eq_some_iff.1 ha
  refine ⟨n, List.mem_append_right _ List.mem_cons_self, hn, fun m hm hfound => ?_⟩
  rcases List.mem_append.1 hm with hm | hm
  · exact absurd (hbefore m hm) hfound
  · rcases List.mem_cons.1 hm with rfl | hm
    · exact .inl rfl
    · exact .inr ((List.pairwise_cons.1 (List.pairwise_append.1 hordered).2.1).1 m hm)

/-- The numbers up to a bound in the order of a star. -/
theorem ordered_range (greedy : Bool) (n : Nat) :
    (if greedy then (List.range n).reverse else List.range n).Pairwise (Before greedy) := by
  cases greedy with
  | false => exact List.pairwise_lt_range
  | true =>
    rw [if_pos rfl, List.pairwise_reverse]
    exact List.pairwise_lt_range

/-- A part tries its choices in order. Only a star has more than one. -/
theorem Part.ordered_lengths (p : Part) (greedy : Bool) (t : List Char) :
    (p.lengths greedy t).Pairwise (Before greedy) := by
  cases p with
  | char c =>
    rw [Part.lengths]
    split <;> simp
  | any =>
    rw [Part.lengths]
    split <;> simp
  | star => exact ordered_range greedy _

/-- What a star can take from some place on, it can take from any two places in between. -/
theorem mem_lengths_star_between {k l : Nat} (h : k ∈ Part.star.lengths greedy (t.drop j))
    (hj : j ≤ i) (hi : i ≤ l) (hl : l ≤ j + k) : l - i ∈ Part.star.lengths greedy (t.drop i) := by
  rw [Part.mem_lengths] at h ⊢
  obtain ⟨s, hs, ⟨r, hr⟩, rfl⟩ := h
  have hdrop : t.drop i = s.drop (i - j) ++ r := by
    rw [← List.drop_append_of_le_length (by omega), hr, List.drop_drop]
    congr 1
    omega
  refine ⟨(s.drop (i - j)).take (l - i), fun h => ?_, ?_, ?_⟩
  · exact hs (List.mem_of_mem_drop (List.mem_of_mem_take h))
  · rw [hdrop]
    exact (List.take_prefix _ _).trans (List.prefix_append _ r)
  · rw [List.length_take, List.length_drop]
    omega

/-- **What a search comes to first from a place, no match from a worse place comes before.** The
induction is on the parts, for two places at once. If the first choice of a star leads to a worse place
than that of the other match, then the star could have taken just as much as is needed to come to the
better one, and would have tried so first. -/
theorem not_before_head {ps : List Part} (hfirst : (lengths greedy ps (t.drop i)).head? = some first)
    (hn : n ∈ lengths greedy ps (t.drop j)) (hij : ¬Before greedy j i) :
    ¬Before greedy (j + n) (i + first) := by
  induction ps generalizing i j first n with
  | nil =>
    obtain rfl := List.mem_singleton.1 hn
    obtain rfl := Option.some.inj hfirst
    exact hij
  | cons p ps ih =>
    rw [lengths, List.head?_flatMap] at hfirst
    obtain ⟨a, ha, hhead, hchoices⟩ := rel_of_findSome? (p.ordered_lengths greedy _) hfirst
    rw [List.head?_map, Option.map_eq_some_iff, List.drop_drop] at hhead
    obtain ⟨first', hhead, rfl⟩ := hhead
    simp only [lengths, List.mem_flatMap, List.mem_map, List.drop_drop] at hn
    obtain ⟨b, hb, n', hn', rfl⟩ := hn
    have hgoOn (h : ¬Before greedy (j + b) (i + a)) :
        ¬Before greedy (j + (b + n')) (i + (a + first')) := by
      rw [← Nat.add_assoc, ← Nat.add_assoc]
      exact ih hhead hn' h
    refine hgoOn fun hbefore => ?_
    cases p with
    | char c =>
      obtain ⟨_, rfl, -, rfl⟩ := (Part.mem_lengths _).1 ha
      obtain ⟨_, rfl, -, rfl⟩ := (Part.mem_lengths _).1 hb
      cases greedy <;> simp [Before] at hbefore hij <;> omega
    | any =>
      obtain ⟨_, ⟨c, -, rfl⟩, -, rfl⟩ := (Part.mem_lengths _).1 ha
      obtain ⟨_, ⟨d, -, rfl⟩, -, rfl⟩ := (Part.mem_lengths _).1 hb
      cases greedy <;> simp [Before] at hbefore hij <;> omega
    | star =>
      -- the star could have gone on where the other match does
      have hreach : j + b - i ∈ Part.star.lengths greedy (t.drop i) := by
        cases greedy with
        | false =>
          simp only [Before, Bool.false_eq_true, if_false] at hij hbefore
          exact mem_lengths_star_between ha (Nat.le_refl i) (by omega) (by omega)
        | true =>
          simp only [Before, if_true] at hij hbefore
          exact mem_lengths_star_between hb (by omega) (by omega) (Nat.le_refl _)
      have hplace : i ≤ j + b := by
        cases greedy <;> simp [Before] at hbefore hij <;> omega
      have hfound : ((lengths greedy ps ((t.drop i).drop (j + b - i))).map (j + b - i + ·)).head? ≠
          none := by
        rw [List.drop_drop, Nat.add_sub_cancel' hplace]
        exact fun h => List.ne_nil_of_mem (List.mem_map_of_mem hn') (List.head?_eq_none_iff.1 h)
      have hfirst := hchoices _ hreach hfound
      cases greedy <;> simp [Before] at hfirst hbefore <;> omega

end

end Engine

namespace Glob

open Engine (Part PartsMatch partsMatch_char)

/-- What a pattern without bracket expressions matches. There is one rule for each thing that a
pattern can begin with, so that a text may match by several choices of its stars. -/
inductive Matches : List Char → List Char → Prop where
  | nil : Matches [] []
  /-- a star matches any text on one line -/
  | star {p t : List Char} (s : List Char) : '\n' ∉ s → Matches p t → Matches ('*' :: p) (s ++ t)
  /-- a question mark matches any character but the end of a line -/
  | any {p t : List Char} {c : Char} : c ≠ '\n' → Matches p t → Matches ('?' :: p) (c :: t)
  /-- a backslash makes the next character match itself -/
  | escaped {p t : List Char} (c : Char) : Matches p t → Matches ('\\' :: c :: p) (c :: t)
  /-- a backslash in the end matches itself -/
  | backslash : Matches ['\\'] ['\\']
  /-- other characters match themselves -/
  | char {p t : List Char} {c : Char} : c ≠ '*' → c ≠ '?' → c ≠ '\\' → Matches p t →
    Matches (c :: p) (c :: t)

/-! ## Parts of patterns -/

/-- The parts of a pattern without bracket expressions. Escaping is gone here: a character that a
backslash stands before is like any other that matches itself. -/
def parts : List Char → List Part
  | [] => []
  | ['\\'] => [.char '\\']
  | '\\' :: c :: r => .char c :: parts r
  | '*' :: r => .star :: parts r
  | '?' :: r => .any :: parts r
  | c :: r => .char c :: parts r

/-- A backslash is a part of its own only in the end. -/
theorem ne_backslash {c : Char} {r : List Char} (hlast : c = '\\' → r = [] → False)
    (hescape : ∀ d r', c = '\\' → r = d :: r' → False) : c ≠ '\\' := by
  intro hc
  cases r with
  | nil => exact hlast hc rfl
  | cons d r => exact hescape d r hc rfl

/-- The parts of a pattern, put together, match what the pattern does. One direction goes along the
rules of `Matches`, and the other one along the parts. -/
theorem matches_iff {p t : List Char} : Matches p t ↔ PartsMatch (parts p) t := by
  constructor
  · intro h
    induction h with
    | nil => rfl
    | star s hs _ ih => exact ⟨s, _, rfl, hs, ih⟩
    | any hc _ ih => exact ⟨[_], _, rfl, ⟨_, hc, rfl⟩, ih⟩
    | escaped c _ ih => exact partsMatch_char.2 ⟨_, rfl, ih⟩
    | backslash => exact partsMatch_char.2 ⟨_, rfl, rfl⟩
    | char hstar hany hbackslash _ ih =>
      rw [parts]
      · exact partsMatch_char.2 ⟨_, rfl, ih⟩
      · exact fun h _ => hbackslash h
      · exact fun _ _ h _ => hbackslash h
      · exact hstar
      · exact hany
  · intro h
    -- the other way round, along the parts of the pattern
    fun_induction parts p generalizing t with
    | case1 =>
      cases h
      exact .nil
    | case2 =>
      obtain ⟨_, rfl, rfl⟩ := partsMatch_char.1 h
      exact .backslash
    | case3 c r ih =>
      obtain ⟨t, rfl, ht⟩ := partsMatch_char.1 h
      exact .escaped c (ih ht)
    | case4 r ih =>
      obtain ⟨s, t, rfl, hs, ht⟩ := h
      exact .star s hs (ih ht)
    | case5 r ih =>
      obtain ⟨_, t, rfl, ⟨c, hc, rfl⟩, ht⟩ := h
      exact .any hc (ih ht)
    | case6 c r hlast hescape hstar hany ih =>
      obtain ⟨t, rfl, ht⟩ := partsMatch_char.1 h
      exact .char hstar hany (ne_backslash hlast hescape) (ih ht)

/-! ## The expression for a pattern -/

/-- The expression for a pattern is that for its parts. Both are written from left to right, and
without brackets nothing is looked for further ahead than the next character. -/
theorem regex_eq (greedy : Bool) {p : List Char} (hp : '[' ∉ p) :
    regex greedy p = (parts p).flatMap (Part.text greedy) := by
  rw [regex]
  fun_induction parts p with
  | case1 => rfl
  | case2 => rfl
  | case3 c r ih =>
    have hr := List.not_mem_of_not_mem_cons (List.not_mem_of_not_mem_cons hp)
    rw [List.flatMap_cons, ← ih hr]
    rfl
  | case4 r ih =>
    have hr := List.not_mem_of_not_mem_cons hp
    rw [List.flatMap_cons, ← ih hr]
    rfl
  | case5 r ih =>
    have hr := List.not_mem_of_not_mem_cons hp
    rw [List.flatMap_cons, ← ih hr]
    rfl
  | case6 c r hlast hescape hstar hany ih =>
    have hr := List.not_mem_of_not_mem_cons hp
    have hc := (List.ne_of_not_mem_cons hp).symm
    rw [List.flatMap_cons, ← ih hr, regexFrom.eq_def]
    simp only [beq_iff_eq]
    rw [if_neg (ne_backslash hlast hescape), if_neg hstar, if_neg hany, if_neg hc]
    rfl

end Glob

end CommandLanguage
