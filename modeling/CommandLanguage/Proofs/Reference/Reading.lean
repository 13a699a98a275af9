import CommandLanguage.Proofs.Fault.Computed

/-!
# Reasoning about expansion

A `Reading` is something that can be said of runs which read names and take notes, step by step: it
holds of a run that is put together from runs of which it holds. Expanding a text reads names, and
writes to one only where a reference assigns its word to it. So all that is left to show of the
expansion of a text is what is so of that one step, which comes after the name was read
(`Reading.runs_resolve_fallback`), and of the texts that are expanded within it
(`Reading.runs_expandStep`).
-/

namespace CommandLanguage.Reference

/-- Something that is said of runs which read names. What is said is a parameter, and the rules that
it has to have are its fields, so that expansion is gone through only once for all that is said of
it. -/
structure Reading where
  /-- what is said of a run, whose value meets a condition -/
  Keeps {α : Type} (Q : α → Prop) (m : Run α) : Prop
  /-- to give a value -/
  keeps_pure {α : Type} {Q : α → Prop} {a : α} : Q a → Keeps Q (pure a)
  /-- one run after the other -/
  keeps_bind {α β : Type} {P : α → Prop} {R : β → Prop} {m : Run α} {f : α → Run β} :
    Keeps P m → (∀ a, P a → Keeps R (f a)) → Keeps R (m >>= f)
  /-- faults of computations -/
  keeps_fault {α : Type} {Q : α → Prop} {f : Fault} : f.isComputed = true →
    Keeps Q (Run.fault f : Run α)
  /-- to take a note -/
  keeps_note (level : Level) (text : Unit → String) : Keeps (fun _ => True) (Run.note level text)
  /-- to ask what reads expressions -/
  keeps_engine : Keeps (fun _ => True) Run.engine
  /-- to read a name -/
  keeps_read (s : ScopeId) (name : String) : Keeps (fun _ => True) (Run.read s name)

namespace Reading

variable {α β : Type} {L : Reading} {P : α → Prop} {R : β → Prop} {s : ScopeId}

/-! ## Rules -/

namespace Keeps

theorem pure {Q : α → Prop} {a : α} (h : Q a) : L.Keeps Q (Pure.pure a) := L.keeps_pure h

/-- What is said of the value of the first run may be used for the second one. -/
theorem bind {m : Run α} {f : α → Run β} (hm : L.Keeps P m) (hf : ∀ a, P a → L.Keeps R (f a)) :
    L.Keeps R (m >>= f) :=
  L.keeps_bind hm hf

end Keeps

variable (L)

/-- A run of whose value nothing is said. -/
abbrev Runs (m : Run α) : Prop := L.Keeps (fun _ => True) m

/-- A computation that may fail, with a fault that says so. -/
theorem runs_ofExcept {x : Except Fault α} (h : Computed x) : L.Runs (Run.ofExcept x) := by
  cases x with
  | ok a => exact .pure trivial
  | error f => exact L.keeps_fault (h f rfl)

/-! ## Single references

One lemma for the forms that only read, and one for the form that may write. -/

theorem runs_readValue (s : ScopeId) (name : String) : L.Runs (readValue s name) :=
  .bind (L.keeps_read s name) fun _ _ => .pure trivial

theorem runs_readText (s : ScopeId) (name : String) : L.Runs (readText s name) :=
  .bind (L.runs_readValue s name) fun _ _ => .pure trivial

/-- An operand of a slice is digits, or a name whose text is read as a number. -/
theorem runs_operand (s : ScopeId) (text : List Char) : L.Runs (operand s text) := by
  unfold operand
  split
  · exact .pure trivial
  · refine .bind (L.runs_readValue s _) fun v _ => ?_
    exact L.runs_ofExcept (.map _ (Value.computed_toInteger v))

theorem runs_operand? (s : ScopeId) (text : Option (List Char)) : L.Runs (operand? s text) := by
  cases text with
  | none => exact .pure trivial
  | some text => exact .bind (L.runs_operand s text) fun _ _ => .pure trivial

section

variable {inner : List Char → Run (List Char)}

/-- A reference to several elements. -/
theorem runs_resolve_elements (name : String) (view : View) (filter : Option (List Char))
    (part : Option (List Char × Option (List Char))) :
    L.Runs (resolve inner s (.elements name view filter part)) := by
  refine .bind (L.runs_readValue s name) fun v _ => ?_
  refine .bind L.keeps_engine fun E _ => ?_
  refine .bind (L.runs_ofExcept (computed_filterOut E _ _)) fun items _ => ?_
  cases part with
  | none => exact .bind (.pure trivial) fun _ (_ : True) => .pure trivial
  | some part =>
    refine .bind (L.runs_operand s _) fun offset _ => ?_
    refine .bind (L.runs_operand? s _) fun length _ => ?_
    exact .bind (.pure trivial) fun _ (_ : True) => .pure trivial

/-- A reference with a word for a missing value. Nothing else in a text is assigned, and only if the
value that was read before is missing. -/
theorem runs_resolve_fallback {name : String} {emptyCounts : Bool} {P : Option Value → Prop}
    (hin : ∀ t, L.Runs (inner t)) (hread : L.Keeps P (Run.read s name))
    (hassign : ∀ v?, P v? → isMissing emptyCounts v? = true → ∀ x,
      L.Runs (Run.assign s name (.text x))) (action : Fallback) (word : List Char) :
    L.Runs (resolve inner s (.fallback name emptyCounts action word)) := by
  refine .bind hread fun v? hv => ?_
  -- the actions in their order; the second one writes
  split
  · exact hin word
  · rename_i hmissing
    exact .bind (hin word) fun w _ => .bind (hassign v? hv hmissing _) fun _ _ => .pure trivial
  · exact .pure trivial
  · exact hin word
  · have hfault (t : List Char) :
        L.Runs (Run.fault (.requested name (String.ofList t)) : Run (List Char)) := L.keeps_fault rfl
    split
    · exact .bind (.pure trivial) fun _ (_ : True) => hfault _
    · exact .bind (hin word) fun t _ => hfault t
  · exact .pure trivial

/-- A reference of any form, if it is so of those with words for missing values. -/
theorem runs_resolve (hin : ∀ t, L.Runs (inner t))
    (hfallback : ∀ name emptyCounts action word,
      L.Runs (resolve inner s (.fallback name emptyCounts action word))) (r : Reference) :
    L.Runs (resolve inner s r) := by
  cases r with
  | replace name which pattern replacement =>
    -- each form reads its variable, then expands the texts that it holds
    refine .bind (L.runs_readText s name) fun _ _ => .bind (hin pattern) fun _ _ => ?_
    exact .bind (hin replacement) fun _ _ => .bind L.keeps_engine fun _ _ => .pure trivial
  | slice name offset length =>
    refine .bind (L.runs_readText s name) fun _ _ => ?_
    refine .bind (L.runs_operand s offset) fun _ _ => ?_
    exact .bind (L.runs_operand? s length) fun _ _ => .pure trivial
  | fallback name emptyCounts action word => exact hfallback name emptyCounts action word
  | remove name how pattern =>
    refine .bind (L.runs_readText s name) fun _ _ => .bind (hin pattern) fun _ _ => ?_
    exact .bind L.keeps_engine fun _ _ => .pure trivial
  | changeCase name change => exact .bind (L.runs_readText s name) fun _ _ => .pure trivial
  | element name view index =>
    refine .bind (L.runs_readValue s name) fun _ _ => .bind (hin index) fun key _ => ?_
    refine .bind (L.runs_ofExcept ?_) fun _ _ => .pure trivial
    exact computed_element? _ _ _
  | elements name view filter part => exact L.runs_resolve_elements name view filter part
  | size name => exact .bind (L.runs_readValue s name) fun _ _ => .pure trivial
  | whole name => exact L.runs_readText s name

end

/-! ## Texts -/

/-- A pass over parts, by induction on them: a literal is handed on, and a group is resolved or left
as it is. -/
theorem runs_expandGroups {resolve : Reference → Run (List Char)} (h : ∀ r, L.Runs (resolve r))
    (form : Form) (segments : List Segment) : L.Runs (expandGroups resolve form segments) := by
  induction segments with
  | nil => exact .pure trivial
  | cons segment rest ih =>
    cases segment with
    | group body =>
      unfold expandGroups
      split
      · exact .bind ih fun _ _ => .pure trivial
      · refine .bind (h _) fun _ _ => .bind (L.keeps_note _ _) fun _ _ => ?_
        exact .bind ih fun _ _ => .pure trivial
    | literal _ | bare _ => exact .bind ih fun _ _ => .pure trivial

/-- All passes, by induction on the forms. Each one cuts the text that the one before has left. -/
theorem runs_expandForms {resolve : Reference → Run (List Char)} (h : ∀ r, L.Runs (resolve r))
    (forms : List Form) (text : List Char) : L.Runs (expandForms resolve forms text) := by
  induction forms generalizing text with
  | nil => exact .pure trivial
  | cons form forms ih => exact .bind (L.runs_expandGroups h form _) fun text _ => ih text

/-- The last pass reads the names behind a `$`, and nothing else. -/
theorem runs_expandBare (s : ScopeId) (segments : List Segment) :
    L.Runs (expandBare s segments) := by
  induction segments with
  | nil => exact .pure trivial
  | cons segment rest ih =>
    cases segment with
    | bare name =>
      exact .bind (L.runs_readText s _) fun _ _ => .bind ih fun _ _ => .pure trivial
    | literal _ | group _ => exact .bind ih fun _ _ => .pure trivial

/-- Expanding a text, given how to expand the texts in its references. -/
theorem runs_expandStep {inner : List Char → Run (List Char)} (hin : ∀ t, L.Runs (inner t))
    (hfallback : ∀ name emptyCounts action word,
      L.Runs (resolve inner s (.fallback name emptyCounts action word))) (text : List Char) :
    L.Runs (expandStep inner s text) := by
  unfold expandStep
  split
  · refine .bind (L.runs_expandForms (L.runs_resolve hin hfallback) _ _) fun _ _ => ?_
    exact .bind (L.runs_expandBare s _) fun _ _ => .pure trivial
  · exact .pure trivial

/-- The words of a text, given how it is expanded. -/
theorem runs_expandWords {text : List Char} (h : L.Runs (expand s text)) :
    L.Runs (expandWords s text) := by
  refine .bind h fun expanded _ => ?_
  refine .bind (L.runs_ofExcept (Brace.computed_words expanded)) fun words _ => ?_
  exact .bind (L.keeps_note _ _) fun _ _ => .pure trivial

end Reading

end CommandLanguage.Reference
