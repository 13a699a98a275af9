import CommandLanguage.Proofs.Pattern.Glob
import CommandLanguage.Proofs.Regex.Floats

/-!
# The engine finds the leftmost match

`Regex.engine` does what is relied on of an engine that searches (`Engine.LeftmostFirst`). Its search
does not try the choices of one star after those of another: it goes from lists of places to lists of
places, each place in them once. What both have in common is that the order of the matches is that of
their lengths, and this is enough for the first match to be the same.

* `searches_of_leads` — an expression between conditions, if it is known where it leads;
* `parse_anchored` — such an expression is read as what is between the conditions, and these;
* `leftmostFirst_engine`, `acceptsAlike_engine` — the engine does what is relied on, and has no limit
  that could lie between two expressions which differ in a condition only.
-/

namespace CommandLanguage

open Engine (Part PartsMatch Before Written lengths mem_lengths not_before_head isOrdinary)

/-! ## Conditions

The two conditions that may stand around the expression for a pattern, at the start of the text and
at its end. They take no characters, and leave or drop the places that they are asked about. -/

namespace Anchors

/-- What is written behind the group. -/
def ending (a : Anchors) : List Char := if a.back then ['$'] else []

/-- The parts that an expression between conditions is read as. -/
def around (a : Anchors) (e : Regex) : List Regex :=
  (if a.front then [.look .start] else []) ++ e :: if a.back then [.look .finish] else []

theorem text_eq (a : Anchors) (s : List Char) :
    a.text s = (if a.front then ['^'] else []) ++ '(' :: '?' :: ':' :: (s ++ ')' :: a.ending) := by
  obtain ⟨front, back⟩ := a
  cases front <;> cases back <;> simp [text, grouped, ending]

end Anchors

namespace Regex

/-! ## Matches between conditions -/

/-- Two lists of the same numbers begin alike if nothing in either comes before its head. -/
theorem head?_eq {greedy : Bool} {ns ms : List Nat} (hsame : ∀ k, k ∈ ns ↔ k ∈ ms)
    (hns : ∀ n, ns.head? = some n → ∀ k ∈ ns, ¬Before greedy k n)
    (hms : ∀ m, ms.head? = some m → ∀ k ∈ ms, ¬Before greedy k m) : ns.head? = ms.head? := by
  cases hn : ns.head? with
  | none =>
    obtain rfl := List.head?_eq_none_iff.1 hn
    refine (List.head?_eq_none_iff.2 (List.eq_nil_iff_forall_not_mem.2 fun k hk => ?_)).symm
    cases (hsame k).2 hk
  | some n =>
    have hmem := (hsame n).1 (List.mem_of_mem_head? hn)
    obtain ⟨m, hm⟩ := Option.isSome_iff_exists.1 (List.isSome_head?.2 (List.ne_nil_of_mem hmem))
    have hle := hns n hn m ((hsame m).2 (List.mem_of_mem_head? hm))
    have hge := hms m hm n hmem
    rw [hm]
    cases greedy <;> simp [Before] at hle hge <;> simp <;> omega

/-- In a list that is in order nothing comes before its head. -/
theorem not_before_of_pairwise {greedy : Bool} {ns : List Nat} {n k : Nat}
    (h : ns.Pairwise (Before greedy)) (hn : ns.head? = some n) (hk : k ∈ ns) :
    ¬Before greedy k n := by
  obtain ⟨ns, rfl⟩ := List.head?_eq_some_iff.1 hn
  rcases List.mem_cons.1 hk with rfl | hk
  · cases greedy <;> simp [Before]
  · have := (List.pairwise_cons.1 h).1 k hk
    cases greedy <;> simp [Before] at this ⊢ <;> omega

section

variable {greedy : Bool} {e : Regex} {P : List Char → Prop} {lengths : List Char → List Nat}

/-- The places that an expression between conditions leads to are those that meet the conditions.
The one in front is asked before anything else, so it leaves all matches or none. -/
theorem ends_around (a : Anchors) (hnil : e.ends [] = []) (p : Place) :
    (ofSequence (a.around e)).ends [p] =
      if a.front && p.before?.isSome then []
      else (e.ends [p]).filter fun q => !a.back || Look.finish.holds q := by
  -- the condition behind takes out the places that are not at the end
  have hback (ps : List Place) : endsSequence (if a.back then [.look .finish] else []) ps =
      ps.filter fun q => !a.back || Look.finish.holds q := by
    cases a.back with
    | false => simp [endsSequence]
    | true => rw [if_pos rfl, endsSequence, endsSequence, ends]; rfl
  rw [ends_ofSequence, Anchors.around]
  -- the condition in front lets nothing begin behind another character
  cases a.front with
  | false =>
    rw [if_neg Bool.false_ne_true, List.nil_append, endsSequence, hback]
    rfl
  | true =>
    rw [if_pos rfl, List.singleton_append, endsSequence, endsSequence, hback, ends, Bool.true_and,
      List.filter_cons, Look.holds]
    cases p.before? with
    | none => rfl
    | some c =>
      rw [if_neg (by simp), List.filter_nil, hnil]
      rfl

/-- Something is before all places of a text but the first one. -/
theorem isSome_before?_after {text : List Char} {n : Nat} (hn : n ≤ text.length) :
    (Place.after text n).before?.isSome = (n != 0) := by
  cases n with
  | zero => rfl
  | succ n =>
    have htake : text.take (n + 1) ≠ [] := by
      rw [Ne, List.take_eq_nil_iff]
      rintro (h | rfl)
      · cases h
      · cases hn
    simp [Place.after, htake]

/-- Nothing is behind the last place of a text. -/
theorem holds_finish_after {text : List Char} {n : Nat} (hn : n ≤ text.length) :
    Look.finish.holds (.after text n) = (n == text.length) := by
  rw [Look.holds, Place.after, Bool.eq_iff_iff, List.isEmpty_iff, List.drop_eq_nil_iff, beq_iff_eq]
  omega

/-- **An expression between conditions finds the leftmost match.** It is enough to know where the
expression leads by itself, and to have the lengths of its matches in any order in which none comes
before the first one. -/
theorem searches_of_leads (a : Anchors) (hleads : ∀ text, Leads greedy text e.ends P)
    (hmem : ∀ t n, n ∈ lengths t ↔ ∃ s, P s ∧ s <+: t ∧ n = s.length)
    (hfirst : ∀ t first, (lengths t).head? = some first → ∀ n ∈ lengths t, ¬Before greedy n first) :
    (ofSequence (a.around e)).matcher.Searches (a.ends lengths) := by
  refine searches_matcher fun text n hn => ?_
  obtain ⟨ms, hordered, heq, hms⟩ := (hleads text).from_place hn
  rw [ends_around a (hleads text).nil, isSome_before?_after hn, Anchors.ends]
  split
  · rfl
  · have hfilter : (e.ends [.after text n]).filter (fun q => !a.back || Look.finish.holds q) =
        (ms.filter fun m => !a.back || m == text.length).map (.after text) := by
      rw [heq, List.filter_map]
      refine congrArg (List.map _) (List.filter_congr fun m hm => ?_)
      obtain ⟨s, -, hs, rfl⟩ := (hms m).1 hm
      rw [Function.comp_apply, holds_finish_after (add_length_le hn hs)]
    rw [hfilter, List.head?_map]
    refine congrArg (Option.map _) (head?_eq (fun m => ?_)
      (fun m hm k hk => not_before_of_pairwise (hordered.filter _) hm hk) fun m hm k hk => ?_)
    · simp only [List.mem_filter, hms, List.mem_map, hmem]
      refine and_congr_left fun _ => ⟨?_, ?_⟩
      · rintro ⟨s, hs, hprefix, rfl⟩
        exact ⟨_, ⟨s, hs, hprefix, rfl⟩, rfl⟩
      · rintro ⟨_, ⟨s, hs, hprefix, rfl⟩, rfl⟩
        exact ⟨s, hs, hprefix, rfl⟩
    · cases hback : a.back with
      | true =>
        -- up to the end of the text, all matches that begin at one place are the same
        simp only [hback, Bool.not_true, Bool.false_or] at hm hk
        have hend {l : Nat} (hl : l ∈ ((lengths (text.drop n)).map (n + ·)).filter (· == text.length)) :
            l = text.length := by simpa using (List.mem_filter.1 hl).2
        rw [hend hk, hend (List.mem_of_mem_head? hm)]
        cases greedy <;> simp [Before]
      | false =>
        simp only [hback, Bool.not_false, Bool.true_or, List.filter_true, List.head?_map,
          Option.map_eq_some_iff, List.mem_map] at hm hk
        obtain ⟨first, hhead, rfl⟩ := hm
        obtain ⟨l, hl, rfl⟩ := hk
        have hbefore := hfirst _ _ hhead l hl
        cases greedy <;> simpa [Before] using hbefore

end

/-! ## Reading what is between conditions

A condition in front or behind is one more part of the sequence that is read. What is between the
two is read as it would be alone. -/

section

variable {s : List Char}

/-- What is behind the group is read up to its end. -/
theorem run_around (a : Anchors) (fuel : Nat) (e : Regex) :
    (alternation (fuel + 2) 0 [] (e :: if a.front then [.look .start] else [])).run
      (.plain a.ending) = .ok (ofSequence (a.around e), .plain []) := by
  obtain ⟨front, back⟩ := a
  cases front <;> cases back
  · exact run_end _ _ _ _
  · exact (run_finish _ _ _ _ _).trans (run_end _ _ _ _)
  · exact run_end _ _ _ _
  · exact (run_finish _ _ _ _ _).trans (run_end _ _ _ _)

/-- The fuel that is left when the group begins does not depend on the condition in front of it. Its
character takes one step, and the text is longer by just that character. -/
theorem run_front (a : Anchors) :
    ∃ fuel, (alternation ((a.text s).length + 1) 0 [] []).run (.plain (a.text s)) =
      (alternation (fuel + 2 + 1) 0 [] (if a.front then [.look .start] else [])).run
        (.plain ('(' :: '?' :: ':' :: (s ++ ')' :: a.ending))) ∧
      fuel = (s ++ ')' :: a.ending).length + 1 := by
  refine ⟨_, ?_, rfl⟩
  rw [a.text_eq]
  obtain ⟨front, back⟩ := a
  cases front with
  | false => rfl
  | true => exact run_start _ _ _ _ _

/-- An expression between conditions is read as what is read in the group, and the conditions.
Whether it is then accepted is asked of the whole. -/
theorem parse_anchored (a : Anchors) {e : Regex}
    (h : (alternation ((s ++ ')' :: a.ending).length + 3) 1 [] []).run
      (.plain (s ++ ')' :: a.ending)) = .ok (e, .plain (')' :: a.ending))) :
    parse (a.text s) = (ofSequence (a.around e)).accept := by
  obtain ⟨fuel, hrun, rfl⟩ := run_front (s := s) a
  exact parse_of_ok (hrun.trans ((run_group _ _ _ _ _ (by decide) h).trans (run_around a _ e)))

theorem parse_anchored_error (a : Anchors) {fault : Fault}
    (h : (alternation ((s ++ ')' :: a.ending).length + 3) 1 [] []).run
      (.plain (s ++ ')' :: a.ending)) = .error fault) :
    parse (a.text s) = .error fault := by
  obtain ⟨fuel, hrun, rfl⟩ := run_front (s := s) a
  exact parse_of_error (hrun.trans (run_group_error _ _ _ _ (by decide) h))

/-- What the engine makes of a text depends on how the text is read. -/
theorem compile_of_parse {e : Regex} (h : parse s = .ok e) : engine.compile s = .ok e.matcher := by
  rw [engine]
  dsimp only
  rw [h]

theorem compile_of_parse_error {fault : Fault} (h : parse s = .error fault) :
    engine.compile s = .error fault.message := by
  rw [engine]
  dsimp only
  rw [h]

/-- An expression is accepted if it is not nested too deeply, and becomes its own matcher. So for
expressions that can be read, acceptance is a matter of their depth and nothing else. -/
theorem compile_eq_ok {m : Matcher} {e : Regex} (hparse : parse s = e.accept) :
    engine.compile s = .ok m ↔ e.depth ≤ nestingLimit ∧ m = e.matcher := by
  rw [accept] at hparse
  split at hparse
  · next hdepth =>
    rw [compile_of_parse_error hparse]
    constructor
    · intro h
      cases h
    · rintro ⟨h, -⟩
      exact absurd h (Nat.not_le.2 hdepth)
  · next hdepth =>
    rw [compile_of_parse hparse, Except.ok.injEq, eq_comm]
    exact (and_iff_right (Nat.not_lt.1 hdepth)).symm

theorem accepts_iff {e : Regex} (hparse : parse s = e.accept) :
    engine.Accepts s ↔ e.depth ≤ nestingLimit := by
  simp [Engine.Accepts, compile_eq_ok hparse]

theorem not_accepts_of_error {fault : Fault} (h : parse s = .error fault) : ¬engine.Accepts s := by
  rintro ⟨m, hm⟩
  rw [compile_of_parse_error h] at hm
  cases hm

end

/-! ## Expressions without brackets

Here it is known exactly which matches there are and in which order they are tried, and these are
those of the parts of a pattern. -/

/-- The set that a dot stands for. -/
def dotSet : CharSet := .complement (.single '\n')

theorem contains_dotSet (c : Char) : dotSet.contains c = true ↔ c ≠ '\n' := by
  rw [dotSet, CharSet.contains_complement, CharSet.contains_single, Bool.not_eq_true',
    decide_eq_false_iff_not]
  exact ne_comm

/-- The expression that a part is read as. A star stands over a dot, so that it does not go beyond a
line. -/
def ofPart (greedy : Bool) : Part → Regex
  | .char c => .char c
  | .any => .set dotSet
  | .star => .repetition 0 none greedy (.set dotSet)

/-- A part leads through what it matches. -/
theorem leads_part (greedy : Bool) (text : List Char) (p : Part) :
    Leads greedy text (ofPart greedy p).ends p.Matches := by
  cases p with
  | char c =>
    refine (leads_advance (· == c)).congr (fun ps => ?_) fun s => ?_
    · rw [ofPart, ends]
    · simp [Part.Matches]
  | any =>
    refine (leads_advance dotSet.contains).congr (fun ps => ?_) fun s => ?_
    · rw [ofPart, ends]
    · simp only [Part.Matches, contains_dotSet]
  | star =>
    refine (leads_star dotSet).congr (fun ps => rfl) fun s => ?_
    simp only [Part.Matches, contains_dotSet]
    exact ⟨fun h c hc hn => h (hn ▸ hc), fun h hn => h _ hn rfl⟩

/-- Several parts lead through what they match one after the other, by induction on the parts: each
leads from places in order to places in order. -/
theorem leads_parts (greedy : Bool) (text : List Char) (ps : List Part) :
    Leads greedy text (ofSequence (ps.map (ofPart greedy))).ends (PartsMatch ps) := by
  have hsequence : Leads greedy text (endsSequence (ps.map (ofPart greedy))) (PartsMatch ps) := by
    induction ps with
    | nil =>
      refine leads_id.congr (fun ps => ?_) fun s => Iff.rfl
      rw [List.map_nil, endsSequence]
    | cons p ps ih =>
      refine (leads_comp (leads_part greedy text p) ih).congr (fun qs => ?_) fun s => Iff.rfl
      rw [List.map_cons, endsSequence]
  exact hsequence.congr (fun qs => ends_ofSequence _ qs) fun s => Iff.rfl

/-- How many steps the reader takes for a part: a star comes behind its dot. -/
def partSteps : Part → Nat
  | .star => 2
  | _ => 1

theorem partSteps_le (greedy : Bool) (p : Part) : partSteps p ≤ (p.text greedy).length := by
  cases p with
  | char c =>
    rw [Part.text]
    split <;> simp [partSteps]
  | any => simp [partSteps, Part.text]
  | star => cases greedy <;> simp [partSteps, Part.text]

theorem sum_partSteps_le (greedy : Bool) (ps : List Part) :
    (ps.map partSteps).sum ≤ (ps.flatMap (Part.text greedy)).length := by
  induction ps with
  | nil => exact Nat.le_refl 0
  | cons p ps ih =>
    have hp := partSteps_le greedy p
    rw [List.map_cons, List.sum_cons, List.flatMap_cons, List.length_append]
    omega

/-- No part begins with the sign that would make a star before it reluctant. -/
theorem head?_text_ne (greedy : Bool) (p : Part) (r : List Char) :
    (p.text greedy ++ r).head? ≠ some '?' := by
  cases p with
  | char c =>
    rw [Part.text]
    split
    · simp
    · rename_i hc
      rintro ⟨⟩
      exact hc (by decide)
  | any => simp [Part.text]
  | star => cases greedy <;> simp [Part.text]

/-- A part is read as its expression. -/
theorem run_part (greedy : Bool) (p : Part) (fuel depth : Nat) (alternatives done : List Regex)
    {r : List Char} (hr : r.head? ≠ some '?') :
    (alternation (fuel + partSteps p) depth alternatives done).run (.plain (p.text greedy ++ r)) =
      (alternation fuel depth alternatives (ofPart greedy p :: done)).run (.plain r) := by
  cases p with
  | char c =>
    rw [Part.text]
    split
    · rename_i hc
      exact run_escaped fuel depth alternatives done r hc
    · rename_i hc
      exact run_char fuel depth alternatives done r (Bool.eq_false_iff.2 hc)
  | any => exact run_dot fuel depth alternatives done r
  | star =>
    refine Eq.trans ?_ (run_star fuel depth alternatives done r (dot {}) greedy hr)
    rw [← run_dot]
    cases greedy <;> rfl

/-- Parts are read one after the other. What is read so far stands in reverse, as the reader has it,
and the fuel is what all of them take together. -/
theorem run_parts (greedy : Bool) (ps : List Part) (fuel depth : Nat)
    (alternatives done : List Regex) {r : List Char} (hr : r.head? ≠ some '?') :
    (alternation (fuel + (ps.map partSteps).sum) depth alternatives done).run
      (.plain (ps.flatMap (Part.text greedy) ++ r)) =
      (alternation fuel depth alternatives ((ps.map (ofPart greedy)).reverse ++ done)).run
        (.plain r) := by
  induction ps generalizing done with
  | nil => rfl
  | cons p ps ih =>
    have hnext : (ps.flatMap (Part.text greedy) ++ r).head? ≠ some '?' := by
      cases ps with
      | nil => exact hr
      | cons q ps =>
        rw [List.flatMap_cons, List.append_assoc]
        exact head?_text_ne greedy q _
    rw [List.map_cons, List.sum_cons, List.flatMap_cons, List.append_assoc,
      Nat.add_comm (partSteps p), ← Nat.add_assoc, run_part greedy p _ depth alternatives done hnext,
      ih]
    simp

/-- In a group, the text of several parts is read as the expressions of these. -/
theorem run_inner_parts (greedy : Bool) (ps : List Part) (r : List Char) {fuel : Nat}
    (hfuel : (ps.flatMap (Part.text greedy)).length < fuel) :
    (alternation fuel 1 [] []).run (.plain (ps.flatMap (Part.text greedy) ++ ')' :: r)) =
      .ok (ofSequence (ps.map (ofPart greedy)), .plain (')' :: r)) := by
  have hsteps := sum_partSteps_le greedy ps
  obtain ⟨extra, rfl⟩ : ∃ extra, fuel = extra + 1 + (ps.map partSteps).sum :=
    ⟨fuel - 1 - (ps.map partSteps).sum, by omega⟩
  rw [run_parts greedy _ _ _ _ _ (by simp), run_close, List.append_nil, ofAlternatives,
    List.reverse_reverse]
  rfl

/-- Whether it is accepted or not, this is what an expression of parts between conditions is read
as. -/
theorem parse_parts (a : Anchors) (greedy : Bool) (ps : List Part) :
    parse (a.text (ps.flatMap (Part.text greedy))) =
      (ofSequence (a.around (ofSequence (ps.map (ofPart greedy))))).accept := by
  refine parse_anchored a (run_inner_parts greedy ps _ ?_)
  rw [List.length_append]
  omega

/-! ## Expressions with brackets

Here it is only known that the matches depend on the text ahead alone. That is enough to compare two
searches for the same expression. -/

section

variable {s : List Char}

/-- A text may come behind an expression. -/
theorem written_append {r : List Char} (h : Written [] s) : Written r (s ++ r) := by
  induction h with
  | ending => exact .ending
  | char hc _ ih => exact .char hc ih
  | escaped hc _ ih => exact .escaped hc ih
  | dot _ ih => exact .dot ih
  | star _ ih => exact .star ih
  | bracket hu _ ih =>
    rw [List.cons_append, List.append_assoc]
    exact .bracket hu ih

/-- The conditions have no part in what is read of an expression between them, or in whether it is
read. A fault is the same in both cases, and so is the expression. -/
theorem parse_written (h : Written [] s) :
    (∃ fault, ∀ front, parse (Anchors.text ⟨front, true⟩ s) = .error fault) ∨
    ∃ e, Floats e ∧ ∀ front, parse (Anchors.text ⟨front, true⟩ s) =
      (ofSequence (Anchors.around ⟨front, true⟩ e)).accept := by
  have hfinish : ∀ c ∈ ['$'], isOrdinary c = true := List.forall_mem_singleton.2 rfl
  have hleaves := leaves_alternation hfinish ((s ++ [')', '$']).length + 3) 0 (List.forall_mem_nil _)
    (written_append h)
  cases hinner : (alternation ((s ++ [')', '$']).length + 3) 1 [] []).run
      (.plain (s ++ [')', '$'])) with
  | error fault => exact .inl ⟨fault, fun front => parse_anchored_error ⟨front, true⟩ hinner⟩
  | ok p =>
    obtain ⟨e, rd⟩ := p
    obtain ⟨r, rfl, hfloats, rfl⟩ := hleaves e rd hinner
    exact .inr ⟨e, hfloats, fun front => parse_anchored ⟨front, true⟩ hinner⟩

open Classical in
/-- The lengths of all matches of which it is only known what they are, the longest first. They are
chosen among the numbers up to the length of the text, so this is not meant to be computed. -/
noncomputable def lengthsOf (P : List Char → Prop) (t : List Char) : List Nat :=
  (List.range (t.length + 1)).reverse.filter fun n => P (t.take n)

theorem mem_lengthsOf {P : List Char → Prop} {t : List Char} {n : Nat} :
    n ∈ lengthsOf P t ↔ ∃ s, P s ∧ s <+: t ∧ n = s.length := by
  simp only [lengthsOf, List.mem_filter, List.mem_reverse, List.mem_range, decide_eq_true_eq]
  constructor
  · rintro ⟨hn, hP⟩
    exact ⟨t.take n, hP, List.take_prefix n t, by rw [List.length_take]; omega⟩
  · rintro ⟨s, hs, ⟨r, rfl⟩, rfl⟩
    rw [List.take_left, List.length_append]
    exact ⟨by omega, hs⟩

theorem ordered_lengthsOf (P : List Char → Prop) (t : List Char) :
    (lengthsOf P t).Pairwise (Before true) :=
  (Engine.ordered_range true _).filter _

end

/-! ## The engine -/

/-- **The engine searches for the leftmost match**, and for the first one of those in the order in
which stars make their choices. For expressions without brackets this is the order of the parts, and
for those with brackets any order in which the longest match comes first. -/
theorem leftmostFirst_engine : engine.LeftmostFirst := by
  constructor
  · intro a greedy ps m hm
    obtain ⟨-, rfl⟩ := (compile_eq_ok (parse_parts a greedy ps)).1 hm
    refine searches_of_leads a (fun text => leads_parts greedy text ps) (fun t n => mem_lengths)
      fun t first hfirst n hn => ?_
    have hplace : ¬Before greedy 0 0 := by cases greedy <;> simp [Before]
    have hbefore := not_before_head (t := t) hfirst hn hplace
    rwa [Nat.zero_add, Nat.zero_add] at hbefore
  · intro s hs
    rcases parse_written hs with ⟨fault, hfault⟩ | ⟨e, ⟨P, hP⟩, hparse⟩
    · -- what is refused need not be searched for
      refine ⟨fun _ => [], fun front m hm => ?_⟩
      rw [compile_of_parse_error (hfault front)] at hm
      cases hm
    · refine ⟨lengthsOf P, fun front m hm => ?_⟩
      obtain ⟨-, rfl⟩ := (compile_eq_ok (hparse front)).1 hm
      exact searches_of_leads _ hP (fun t n => mem_lengthsOf) fun t first hfirst n hn =>
        not_before_of_pairwise (ordered_lengthsOf P t) hfirst hn

/-- The engine accepts an expression up to the end of the text wherever the match may begin, or
nowhere. -/
theorem acceptsAlike_engine {s : List Char} (h : Written [] s) : engine.AcceptsAlike s := by
  rcases parse_written h with ⟨fault, hfault⟩ | ⟨e, -, hparse⟩
  · exact iff_of_false (not_accepts_of_error (hfault true)) (not_accepts_of_error (hfault false))
  · -- the condition in front is one more part of a sequence, and no layer of its own
    have hdepth : (ofSequence (Anchors.around ⟨true, true⟩ e)).depth =
        (ofSequence (Anchors.around ⟨false, true⟩ e)).depth := by
      simp [Anchors.around, ofSequence, depth, depthList]
    rw [Engine.AcceptsAlike, accepts_iff (hparse true), accepts_iff (hparse false), hdepth]

end Regex

end CommandLanguage
