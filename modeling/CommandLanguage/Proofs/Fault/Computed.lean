import CommandLanguage.Reference.Expand
import CommandLanguage.Run.Command

/-!
# Faults of computations

Only operators and parameters can be at fault for the shape of an expression, and only a call for
how many calls are going on. Everything that is computed from values and texts alone has other
faults: of numbers, of indices, of filters, of ranges, of commands.

Evaluation has many places where such a computation may fail. What is to be known of the fault is the
same in all of them, namely what it is not; so `Computed` says that once, and there is one lemma for
each function. How the computations are put together is followed by the lemmas in `Computed`, which
is why no proof below looks at a fault that is passed on.
-/

namespace CommandLanguage

/-- Whether a fault may come of a computation: it is neither about the shape of an expression nor
about the number of calls. -/
def Fault.isComputed : Fault → Bool
  | .unknownOperator _ | .notAParameter _ | .tooManyCalls _ => false
  | _ => true

/-- So a fault of a computation tells nothing about the expression it occurs in. -/
theorem Fault.isAboutShape_of_isComputed {f : Fault} (h : f.isComputed = true) :
    f.isAboutShape = false := by
  cases f with
  | unknownOperator | notAParameter => cases h
  | _ => rfl

/-- A computation from values and texts alone. -/
def Computed {α : Type} (x : Except Fault α) : Prop :=
  ∀ f, x = .error f → f.isComputed = true

namespace Computed

variable {α β : Type}

/-- A result is no fault. -/
theorem ok (a : α) : Computed (.ok a) := fun _ h => nomatch h

/-- A fault that a computation ends in by itself. Where this is used, `rfl` decides what it is
about. -/
theorem error {f : Fault} (h : f.isComputed = true) :
    Computed (.error f : Except Fault α) := by
  intro e he
  cases he
  exact h

/-- One computation after the other. The second one is asked for every value of the first, also for
those that do not come out of it, as that is true of all functions here. -/
theorem bind {x : Except Fault α} {f : α → Except Fault β} (hx : Computed x)
    (hf : ∀ a, Computed (f a)) : Computed (x >>= f) := by
  cases x with
  | ok a => exact hf a
  | error e => exact error (hx e rfl)

/-- What is made of the result has no part in the fault. -/
theorem map {x : Except Fault α} (f : α → β) (hx : Computed x) :
    Computed (x.map f) := by
  cases x with
  | ok a => exact ok (f a)
  | error e => exact error (hx e rfl)

/-- A computation for each item of a list. The fault, if there is one, is that of the first item
that has one. -/
theorem mapM {f : α → Except Fault β} (hf : ∀ a, Computed (f a)) (as : List α) :
    Computed (as.mapM f) := by
  induction as with
  | nil => exact ok []
  | cons a as ih =>
    -- the list of results is put together by binds, so that the rule for one bind will do
    rw [List.mapM_cons]
    exact bind (hf a) fun b => bind ih fun bs => ok (b :: bs)

end Computed

/-! ## Values

Each function that may fail is gone through once, and the faults that it can raise are looked at
where it raises them. -/

/-! Below, a function that ends in a fault by itself has a case for it, and any other one is put
together from functions that were treated before. -/

/-- Of a value that is no number it is said that it is none, and nothing else can go wrong. -/
theorem Value.computed_toInteger (v : Value) : Computed v.toInteger := by
  intro f hf
  rw [eq_notANumber_of_toInteger hf]
  rfl

/-- An element of a list needs an integer for its index, and an element of what is no collection is
a fault that names the variable. -/
theorem Value.computed_element (name : String) (base key : Value) :
    Computed (Value.element name base key) := by
  unfold Value.element
  -- a list, a map, and any other value
  split
  · exact .map _ (computed_toInteger key)
  · exact .ok _
  · exact .error rfl

/-! ## References -/

namespace Reference

/-- In a reference there are no elements beyond the end, and an index has to be a number. -/
theorem computed_element? (name : String) (v : Value) (key : List Char) :
    Computed (element? name v key) := by
  -- nothing, a list, a map, and any other value
  unfold element?
  split
  · exact .ok _
  · split
    · exact .ok _
    · exact .error rfl
  · exact .ok _
  · exact .error rfl

/-- A filter that cannot be read is the only fault. Whether it can is up to the engine, of which
nothing is asked here. -/
theorem computed_filterOut (E : Engine) (filter : Option (List Char)) (items : List String) :
    Computed (filterOut E filter items) := by
  unfold filterOut
  split
  · exact .ok _
  · split
    · exact .ok _
    · exact .error rfl

end Reference

/-! ## Words from braces -/

namespace Brace

/-- Bounds and steps are integers; a text that is none is named in the fault. -/
theorem computed_bound (text : String) (s : List Char) : Computed (bound text s) := by
  unfold bound
  split
  · exact .ok _
  · exact .error rfl

/-- Without a step there is nothing to read. -/
theorem computed_stepSize (text : String) (s : Option (List Char)) :
    Computed (stepSize text s) := by
  cases s with
  | none => exact .ok _
  | some s => exact .map _ (computed_bound text s)

/-- A range of numbers has three texts to be read, and one of letters only its step. Both are
refused if there are too many items. -/
theorem computed_range (body : List Char) : Computed (range body) := by
  unfold range
  -- numbers, letters, and a body that is no range
  split
  · refine .bind (computed_bound _ _) fun first => ?_
    refine .bind (computed_bound _ _) fun last => ?_
    refine .bind (computed_stepSize _ _) fun step => ?_
    split
    · exact .error rfl
    · exact .ok _
  · refine .bind (computed_stepSize _ _) fun step => ?_
    split
    · exact .error rfl
    · exact .ok _
  · exact .error rfl

/-- What is between braces is expanded with less fuel, and so is what comes behind it. The only
fault besides theirs is that there would be too many words. -/
theorem computed_wordsFrom (fuel : Nat) (word : List Char) :
    Computed (wordsFrom fuel word) := by
  -- the fuel bounds how many groups may be nested or follow each other
  induction fuel generalizing word with
  | zero => exact .ok _
  | succ fuel ih =>
    cases hgroup : firstGroup? none word with
    | none =>
      rw [wordsFrom_plain hgroup]
      exact .ok _
    | some g =>
      -- alternatives are expanded in turn, and a range is counted out
      have hmiddles : Computed (groupTexts fuel g.body) := by
        unfold groupTexts
        split
        · exact .map _ (.mapM ih _)
        · exact computed_range _
      rw [wordsFrom_group hgroup]
      refine .bind hmiddles fun middles => .bind (ih _) fun tails => ?_
      split
      · exact .error rfl
      · exact .ok _

/-- Enough fuel is chosen from the word, which makes no difference here. -/
theorem computed_words (word : List Char) : Computed (words word) :=
  computed_wordsFrom _ word

end Brace

/-! ## Commands -/

namespace Command

/-- An argument of `printf` that is to be an integer and is none is a fault of the command. -/
theorem computed_integerText (arg : Option Value) : Computed (integerText arg) := by
  unfold integerText
  split
  · exact .ok _
  · split
    · exact .ok _
    · exact .error rfl

/-- The format is read from left to right, by its own recursion. -/
theorem computed_formatted (format : List Char) (args : List Value) :
    Computed (formatted format args) := by
  fun_induction formatted format args with
  | case1 => exact .ok _
  -- only `%d` can fail by itself; the other cases pass a fault on
  | case3 r args ih => exact .bind (computed_integerText _) fun _ => .bind ih fun _ => .ok _
  | _ => exact .bind (by assumption) fun _ => .ok _

end Command

end CommandLanguage
