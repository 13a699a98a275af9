import CommandLanguage.Proofs.Regex.Bracket
import CommandLanguage.Proofs.Regex.Ends

/-!
# Expressions that match alike everywhere

An expression without conditions `Floats`: what it matches is a matter of the text from some place on,
and neither of what stands before nor of where the place is. All expressions that are `Written` are
read as such ones, if they are read at all (`leaves_alternation`).
-/

namespace CommandLanguage.Regex

open Engine (isOrdinary Written)

/-! ## Floating expressions

What they match depends on nothing but the text ahead. Conditions are what would break this, and
there are none in the expression for a pattern but those that are put around it. -/

/-- The expression matches the same texts at all places. Which texts these are is left open, and so
is whether they can be computed. -/
def Floats (e : Regex) : Prop := ∃ P, ∀ text, Leads true text e.ends P

theorem floats_char (c : Char) : Floats (.char c) := by
  refine ⟨_, fun text => (leads_advance (· == c)).congr (fun ps => ?_) fun s => Iff.rfl⟩
  rw [ends]

theorem floats_set (s : CharSet) : Floats (.set s) := by
  refine ⟨_, fun text => (leads_advance s.contains).congr (fun ps => ?_) fun s => Iff.rfl⟩
  rw [ends]

theorem floats_star (s : CharSet) : Floats (.repetition 0 none true (.set s)) :=
  ⟨_, fun _ => leads_star s⟩

/-- A sequence floats if all of its parts do: what it matches is what they match one after the
other. -/
theorem floats_ofSequence {rs : List Regex} (h : ∀ r ∈ rs, Floats r) : Floats (ofSequence rs) := by
  have hsequence : ∃ P, ∀ text, Leads true text (endsSequence rs) P := by
    induction rs with
    | nil =>
      refine ⟨_, fun text => leads_id.congr (fun ps => ?_) fun s => Iff.rfl⟩
      rw [endsSequence]
    | cons r rs ih =>
      obtain ⟨⟨P, hP⟩, hrs⟩ := List.forall_mem_cons.1 h
      obtain ⟨Q, hQ⟩ := ih hrs
      refine ⟨_, fun text => (leads_comp (hP text) (hQ text)).congr (fun ps => ?_) fun s => Iff.rfl⟩
      rw [endsSequence]
  obtain ⟨P, hP⟩ := hsequence
  exact ⟨P, fun text => (hP text).congr (fun ps => ends_ofSequence rs ps) fun s => Iff.rfl⟩

/-! ## Reading them -/

section

variable {ending s : List Char} {c : Char}

theorem head?_ne_of_written (h : Written (')' :: ending) s) : s.head? ≠ some '?' := by
  rintro hhead
  cases h with
  | char hc _ =>
    obtain rfl := Option.some.inj hhead
    cases hc
  | _ => cases hhead

/-- Up to the end of the group around, an expression that floats is read. By induction on the fuel:
a character, a dot with or without its star, or a bracket expression comes first, and each of them
is one more part that floats. -/
theorem leaves_alternation (hending : ∀ c ∈ ending, isOrdinary c = true) (fuel depth : Nat)
    {done : List Regex} (hdone : ∀ r ∈ done, Floats r) (h : Written (')' :: ending) s) :
    Leaves (alternation fuel (depth + 1) [] done) s fun e r => Floats e ∧ r = ')' :: ending := by
  induction fuel using Nat.strongRecOn generalizing done s with
  | ind fuel ih =>
    cases fuel with
    | zero => exact .throw _
    | succ fuel =>
      -- one part is read, and the rest is read by the same loop with less fuel
      have goOn {r : List Char} {part : Regex} (hpart : Floats part) (hr : Written (')' :: ending) r) :
          Leaves (alternation fuel (depth + 1) [] (part :: done)) r
            fun e r => Floats e ∧ r = ')' :: ending :=
        ih fuel (Nat.lt_succ_self fuel) (List.forall_mem_cons.2 ⟨hpart, hdone⟩) hr
      cases h with
      | ending =>
        refine .of_run (run_close fuel depth [] done ending) ⟨?_, rfl⟩
        exact floats_ofSequence fun r hr => hdone r (List.mem_reverse.1 hr)
      | char hc hs => exact .of_eq (run_char fuel _ [] done _ hc) (goOn (floats_char _) hs)
      | escaped hc hs => exact .of_eq (run_escaped fuel _ [] done _ hc) (goOn (floats_char _) hs)
      | dot hs => exact .of_eq (run_dot fuel _ [] done _) (goOn (floats_set _) hs)
      | star hs =>
        -- the star belongs to the dot that was just read, and takes a step of its own
        refine .of_eq (run_dot fuel _ [] done _) ?_
        cases fuel with
        | zero => exact .throw _
        | succ fuel =>
          refine .of_eq (run_star fuel _ [] done _ (dot {}) true (head?_ne_of_written hs)) ?_
          exact ih fuel (by omega) (List.forall_mem_cons.2 ⟨floats_star _, hdone⟩) hs
      | bracket hu hs =>
        rw [alternation]
        refine .skip_rest ?_
        refine (leaves_bracket (List.forall_mem_cons.2 ⟨rfl, hending⟩) (amid_of_enclosed hu (.closes hs))).bind ?_
        rintro e r ⟨⟨cs, rfl⟩, hr⟩
        exact goOn (floats_set cs) hr

end

end CommandLanguage.Regex
