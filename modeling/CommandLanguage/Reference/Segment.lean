import CommandLanguage.Source.Braces
import CommandLanguage.Text.Name

/-!
# Texts with references

How a text is searched for references and how the texts that take their places are kept apart
from it.

* `segments` — a text cut into its `${…}` groups and what stands between them;
* `bareSegments` — a text cut into its `$name` references and what stands between them;
* `escape`, `unescape` — a `$` with a backslash before it begins no reference. Values get such
  backslashes before they enter a text, so that nothing in them is ever taken for a reference;
* `openDollars` — the number of `$` that could begin a reference, which bounds how deep
  references lie within each other.
-/

namespace CommandLanguage

namespace Reference

/-- Puts a backslash before every `$`. -/
def escape (s : List Char) : List Char := s.flatMap fun c => if c == '$' then ['\\', '$'] else [c]

/-- Takes the backslash away before every `$`. -/
def unescape : List Char → List Char
  | [] => []
  | '\\' :: '$' :: r => '$' :: unescape r
  | c :: r => c :: unescape r

/-- The number of `$` without a backslash before them. -/
def openDollars : List Char → Nat
  | [] => 0
  | '\\' :: '$' :: r => openDollars r
  | c :: r => (if c == '$' then 1 else 0) + openDollars r

/-- A part of a text. -/
inductive Segment where
  /-- text without a reference -/
  | literal (s : List Char)
  /-- a `${…}`, given by what stands between the braces -/
  | group (body : List Char)
  /-- a `$name` -/
  | bare (name : List Char)
  deriving DecidableEq, Repr

/-- How a part of a text is written. -/
def Segment.text : Segment → List Char
  | .literal s => s
  | .group body => '$' :: '\x7b' :: body ++ ['\x7d']
  | .bare name => '$' :: name

/-- The groups of a text and what stands between them. A group that is not closed is none. -/
def segments (s : List Char) : List Segment :=
  match s with
  | [] => []
  | '\\' :: '$' :: r => .literal ['\\', '$'] :: segments r
  | '$' :: '\x7b' :: r =>
    match h : Braces.splitGroup? r with
    | some (body, rest) =>
      have := Braces.length_of_splitGroup? h
      .group body :: segments rest
    | none => .literal ['$'] :: segments ('\x7b' :: r)
  | c :: r => .literal [c] :: segments r
  termination_by s.length
  decreasing_by all_goals simp only [List.length_cons]; omega

/-- The references of a text that are not in braces and what stands between them. -/
def bareSegments (s : List Char) : List Segment :=
  match s with
  | [] => []
  | '\\' :: '$' :: r => .literal ['\\', '$'] :: bareSegments r
  | '$' :: r =>
    match h : Text.splitName? r with
    | some (name, rest) =>
      have := Text.length_of_splitName? h
      .bare name :: bareSegments rest
    | none => .literal ['$'] :: bareSegments r
  | c :: r => .literal [c] :: bareSegments r
  termination_by s.length
  decreasing_by all_goals simp only [List.length_cons]; omega

/-! ## Nothing is lost

A text is what its segments are written as, and escaping can be undone. -/

theorem flatMap_text_segments (s : List Char) : (segments s).flatMap Segment.text = s := by
  fun_induction segments s with
  | case1 => rfl
  | case2 r ih => simp [Segment.text, ih]
  | case3 r body rest h _ ih => simp [Segment.text, ih, Braces.append_of_splitGroup? h]
  | case4 r h ih => simp [Segment.text, ih]
  | case5 c r _ _ ih => simp [Segment.text, ih]

theorem flatMap_text_bareSegments (s : List Char) :
    (bareSegments s).flatMap Segment.text = s := by
  fun_induction bareSegments s with
  | case1 => rfl
  | case2 r ih => simp [Segment.text, ih]
  | case3 r name rest h _ ih => simp [Segment.text, ih, Text.append_of_splitName? h]
  | case4 r h ih => simp [Segment.text, ih]
  | case5 c r _ _ ih => simp [Segment.text, ih]

@[simp] theorem escape_nil : escape [] = [] := rfl

@[simp] theorem escape_cons (c : Char) (s : List Char) :
    escape (c :: s) = (if c = '$' then ['\\', '$'] else [c]) ++ escape s := by
  simp [escape]

/-- No escaped text begins with a `$`. -/
theorem head?_escape (s : List Char) : (escape s).head? ≠ some '$' := by
  cases s with
  | nil => simp
  | cons c r => by_cases h : c = '$' <;> simp [h]

theorem unescape_cons {c : Char} {s : List Char} (h : c = '\\' → s.head? ≠ some '$') :
    unescape (c :: s) = c :: unescape s := by
  rw [unescape.eq_def]
  split
  · simp_all
  · rename_i heq
    obtain ⟨rfl, rfl⟩ := List.cons.inj heq
    simp at h
  · rename_i heq
    obtain ⟨rfl, rfl⟩ := List.cons.inj heq
    rfl

theorem unescape_escape (s : List Char) : unescape (escape s) = s := by
  induction s with
  | nil => rfl
  | cons c r ih =>
    by_cases h : c = '$'
    · subst h
      simp [unescape, ih]
    · rw [escape_cons, if_neg h, List.singleton_append,
        unescape_cons fun _ => head?_escape r, ih]

theorem openDollars_cons {c : Char} {s : List Char} (h : c = '\\' → s.head? ≠ some '$') :
    openDollars (c :: s) = (if c = '$' then 1 else 0) + openDollars s := by
  rw [openDollars.eq_def]
  split
  · simp_all
  · rename_i heq
    obtain ⟨rfl, rfl⟩ := List.cons.inj heq
    simp at h
  · rename_i heq
    obtain ⟨rfl, rfl⟩ := List.cons.inj heq
    simp

/-- Nothing in an escaped text begins a reference. -/
theorem openDollars_escape (s : List Char) : openDollars (escape s) = 0 := by
  induction s with
  | nil => rfl
  | cons c r ih =>
    by_cases h : c = '$'
    · subst h
      simp [openDollars, ih]
    · rw [escape_cons, if_neg h, List.singleton_append,
        openDollars_cons fun _ => head?_escape r, ih, if_neg h]

end Reference

end CommandLanguage
