import CommandLanguage.Proofs.Pattern.Engine
import CommandLanguage.Regex.Parse

/-!
# How expressions are read

One step of the reader for each of the signs that plain expressions are made of, without flags and
numbered groups. What changes is the text that is left and the parts read so far, and nothing else.
-/

namespace CommandLanguage.Regex

open Engine (isSign)

/-- A reader without flags that has not come to any group with a number. -/
abbrev Reader.plain (s : List Char) : Reader := { rest := s }

section

variable (fuel depth : Nat) (alternatives parts : List Regex) (r : List Char)

/-- Nothing is skipped without the flag for it. -/
theorem run_rest {α : Type} (f : List Char → Read α) (s : List Char) :
    (do Read.skip; f (← Read.rest)).run (.plain s) = (f s).run (.plain s) := rfl

/-- A character that stands for itself. -/
theorem run_char {c : Char} (hc : isSign c = false) :
    (alternation (fuel + 1) depth alternatives parts).run (.plain (c :: r)) =
      (alternation fuel depth alternatives (.char c :: parts)).run (.plain r) := by
  have hne {d : Char} {s : List Char} (hd : isSign d = true) : c :: r ≠ d :: s := by
    intro h
    rw [(List.cons.inj h).1, hd] at hc
    cases hc
  have hoperator : ¬ (c == '?' || c == '*' || c == '+') = true := by
    simp only [Bool.or_eq_true, beq_iff_eq]
    rintro ((rfl | rfl) | rfl) <;> cases hc
  rw [alternation, run_rest]
  split
  case h_1 heq => cases heq
  case h_11 heq =>
    obtain ⟨rfl, rfl⟩ := List.cons.inj heq
    rw [if_neg hoperator]
    rfl
  all_goals exact absurd ‹_ = _› (hne (by decide))

/-- A character that a backslash makes stand for itself. -/
theorem run_escaped {c : Char} (hc : isSign c = true) :
    (alternation (fuel + 1) depth alternatives parts).run (.plain ('\\' :: c :: r)) =
      (alternation fuel depth alternatives (.char c :: parts)).run (.plain r) := by
  have hmem := List.contains_iff_mem.1 hc
  simp only [List.mem_cons, List.not_mem_nil, or_false] at hmem
  rcases hmem with rfl | rfl | rfl | rfl | rfl | rfl | rfl | rfl | rfl | rfl | rfl | rfl | rfl | rfl
  all_goals rfl

theorem run_dot :
    (alternation (fuel + 1) depth alternatives parts).run (.plain ('.' :: r)) =
      (alternation fuel depth alternatives (dot {} :: parts)).run (.plain r) := rfl

theorem run_start :
    (alternation (fuel + 1) depth alternatives parts).run (.plain ('^' :: r)) =
      (alternation fuel depth alternatives (.look .start :: parts)).run (.plain r) := rfl

theorem run_finish :
    (alternation (fuel + 1) depth alternatives parts).run (.plain ('$' :: r)) =
      (alternation fuel depth alternatives (.look .finish :: parts)).run (.plain r) := rfl

theorem run_end :
    (alternation (fuel + 1) depth alternatives parts).run (.plain []) =
      .ok (ofAlternatives alternatives parts, .plain []) := rfl

theorem run_close :
    (alternation (fuel + 1) (depth + 1) alternatives parts).run (.plain (')' :: r)) =
      .ok (ofAlternatives alternatives parts, .plain (')' :: r)) := rfl

/-- A star, with a question mark behind it if it is reluctant. -/
theorem run_star (e : Regex) (greedy : Bool) (hr : r.head? ≠ some '?') :
    (alternation (fuel + 1) depth alternatives (e :: parts)).run
      (.plain ('*' :: if greedy then r else '?' :: r)) =
      (alternation fuel depth alternatives (.repetition 0 none greedy e :: parts)).run
        (.plain r) := by
  cases greedy with
  | false => rfl
  | true =>
    -- without a question mark behind it, the star is greedy
    have hprefix : ¬ ['?'].isPrefixOf r = true := by
      cases r with
      | nil => nofun
      | cons c r =>
        intro h
        rw [List.isPrefixOf, Bool.and_eq_true, beq_iff_eq] at h
        exact hr (congrArg some h.1.symm)
    have haccept : (Read.accept ['?']).run (.plain r) = .ok (false, .plain r) := by
      show StateT.run (ite (['?'].isPrefixOf r = true) _ _) _ = _
      rw [if_neg hprefix]
      rfl
    have hgreedy : greediness.run (.plain r) = .ok (true, .plain r) := by
      rw [greediness, StateT.run_bind, haccept]
      rfl
    show (greediness >>= fun greedy => alternation fuel depth alternatives
      (ofRepetition 0 none greedy e :: parts)).run (.plain r) = _
    rw [StateT.run_bind, hgreedy]
    rfl

/-- A group without a number is no more than what stands in it. -/
theorem run_group {s : List Char} {inner : Regex} (hdepth : depth < nestingLimit)
    (hinner : (alternation fuel (depth + 1) [] []).run (.plain s) =
      .ok (inner, .plain (')' :: r))) :
    (alternation (fuel + 1) depth alternatives parts).run (.plain ('(' :: '?' :: ':' :: s)) =
      (alternation fuel depth alternatives (inner :: parts)).run (.plain r) := by
  show StateT.run (ite (nestingLimit < depth + 1) _ _) (Reader.plain s) = _
  rw [if_neg (by omega)]
  show (alternation fuel (depth + 1) [] [] >>= _).run (Reader.plain s) = _
  rw [StateT.run_bind, hinner]
  rfl

/-- What is wrong in a group is wrong with the expression. -/
theorem run_group_error {s : List Char} {fault : Fault} (hdepth : depth < nestingLimit)
    (hinner : (alternation fuel (depth + 1) [] []).run (.plain s) = .error fault) :
    (alternation (fuel + 1) depth alternatives parts).run (.plain ('(' :: '?' :: ':' :: s)) =
      .error fault := by
  show StateT.run (ite (nestingLimit < depth + 1) _ _) (Reader.plain s) = _
  rw [if_neg (by omega)]
  show (alternation fuel (depth + 1) [] [] >>= _).run (Reader.plain s) = _
  rw [StateT.run_bind, hinner]
  rfl

end

/-! ## Whole expressions -/

/-- An expression, unless it is nested too deeply. -/
def accept (e : Regex) : Except Fault Regex :=
  if nestingLimit < e.depth then .error .nesting else .ok e

section

variable {s : List Char}

theorem parse_of_ok {e : Regex} {rd : Reader}
    (h : (alternation (s.length + 1) 0 [] []).run (.plain s) = .ok (e, rd)) :
    parse s = e.accept := by
  rw [parse, h, accept]
  dsimp only [bind, Except.bind]
  split <;> rfl

theorem parse_of_error {fault : Fault}
    (h : (alternation (s.length + 1) 0 [] []).run (.plain s) = .error fault) :
    parse s = .error fault := by
  rw [parse, h]
  rfl

end

end CommandLanguage.Regex
