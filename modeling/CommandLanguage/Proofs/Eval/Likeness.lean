import CommandLanguage.Eval.Basic
import CommandLanguage.Proofs.Reference.Reading

/-!
# Two evaluations side by side

A `Likeness` is something that can be said of two runs at once, step by step: it holds of two runs
that are put together in the same way from runs of which it holds. Every step of evaluation is like
itself, so two ways to evaluate are alike at every expression if they are at the calls of functions.

That is what evaluation is given here a parameter for: `evaluateCalling how` evaluates as evaluation
does, but calls functions as `how` says. With `callClosure` for `how` it is evaluation itself
(`evaluateCalling_eq`), and `Likeness.alike_evaluateCalling` is what is said above. The proof has one
lemma for each part of evaluation, and a new likeness needs none of them again.
-/

namespace CommandLanguage

/-! ## Faults that are not about calls -/

/-- What is computed from values and texts alone does not know how many calls are going on. A
likeness may compare runs that differ in just this fault, so it has to be ruled out wherever else a
fault is passed on. -/
theorem Computed.ne_tooManyCalls {α : Type} {x : Except Fault α} (h : Computed x) (n : Nat) :
    x ≠ .error (.tooManyCalls n) := by
  intro hx
  cases h _ hx

/-- Operators have faults of their own: that two values do not go together, or that the operator is
not one for two values. Neither counts calls. -/
theorem Value.binary_ne_tooManyCalls (o : Operator) (a b : Value) (n : Nat) :
    Value.binary o a b ≠ .error (.tooManyCalls n) := by
  intro h
  cases ho : o.hasTable with
  | true =>
    rcases Value.binary_cases ho a b with ⟨x, h'⟩ | ⟨x, h'⟩ | h' | ⟨x, h'⟩ <;>
      cases h.symm.trans h'
  | false => cases h.symm.trans (Value.binary_of_not_hasTable ho a b)

/-- The same for an operator in front of a value. -/
theorem Value.unary_ne_tooManyCalls (o : Operator) (a : Value) (n : Nat) :
    Value.unary o a ≠ .error (.tooManyCalls n) := by
  intro h
  cases ho : o.isSign with
  | true =>
    rcases Value.unary_cases ho a with ⟨x, h'⟩ | ⟨x, h'⟩ | h' <;> cases h.symm.trans h'
  | false => cases h.symm.trans (Value.unary_of_not_isSign ho a)

namespace Eval

/-! ## Other ways to call functions

The two evaluations differ in how they call functions. They are compared as long as no call is one
for which that makes a difference. -/

/-- A way to call functions, given how to evaluate: from a scope, with arguments. Evaluation is
defined for any such way, and is the one of the program for `callClosure`. -/
abbrev Calling := Evaluator → ScopeId → Closure → List Value → Run Value

/-- Calls a value, functions being called as `how` says. -/
def callValueCalling (how : Calling) (ev : Evaluator) (caller : ScopeId) (v : Value)
    (args : List Value) : Run Value :=
  match v with
  | .function c => how ev caller c args
  | v => callValue ev caller v args

/-- One level of an expression, functions being called as `how` says. -/
def stepCalling (how : Calling) (ev : Evaluator) (fuel : Nat) (e : Expr) (s : ScopeId) :
    Run Value :=
  match e with
  | .call e args => do
    let f ← callee ev s e
    let vs ← arguments ev s args
    callValueCalling how ev s f vs
  | e => step ev fuel e s

/-- The value of an expression, functions being called as `how` says. It is the recursion of
evaluation with this one step left open. -/
def evaluateCalling (how : Calling) : Nat → Evaluator
  | 0 => fun _ _ => Run.outOfFuel
  | fuel + 1 => stepCalling how (evaluateCalling how fuel) fuel

/-- A value is called as it is called, if functions are. Nothing is said of `how` for other ways to
evaluate than `ev`. -/
theorem callValueCalling_eq {how : Calling} {ev : Evaluator} (h : how ev = callClosure ev) :
    callValueCalling how ev = callValue ev := by
  funext caller v args
  cases v with
  -- only a function is called as `how` says; commands and faults do not depend on it
  | function c => rw [callValueCalling, h, callValue]
  | _ => rfl

/-- To call functions as they are called is all that matters: evaluation with the parameter is then
the evaluation that runs. So nothing is proved of a copy of it. -/
theorem evaluateCalling_eq {how : Calling}
    (h : ∀ fuel, how (evaluateFrom fuel) = callClosure (evaluateFrom fuel)) (fuel : Nat) :
    evaluateCalling how fuel = evaluateFrom fuel := by
  induction fuel with
  | zero => rfl
  | succ fuel ih =>
    funext e s
    rw [evaluateCalling, ih, evaluateFrom]
    -- only the level of a call is written out again in `stepCalling`
    cases e with
    | call e args => rw [stepCalling, callValueCalling_eq (h fuel), step, call]
    | _ => rfl

/-- Something that is said of two runs, and that every step of evaluation keeps. The fields ask for
the steps on the world, and the lemmas below give it for all expressions. -/
structure Likeness where
  /-- what is said of two runs, whose values meet a condition -/
  Like {α : Type} (Q : α → Prop) (m m' : Run α) : Prop
  /-- to give a value -/
  like_pure {α : Type} {Q : α → Prop} {a : α} : Q a → Like Q (pure a) (pure a)
  /-- one run after the other -/
  like_bind {α β : Type} {P : α → Prop} {R : β → Prop} {m m' : Run α} {f f' : α → Run β} :
    Like P m m' → (∀ a, P a → Like R (f a) (f' a)) → Like R (m >>= f) (m' >>= f')
  /-- to end for want of fuel -/
  like_outOfFuel {α : Type} {Q : α → Prop} : Like Q (Run.outOfFuel : Run α) Run.outOfFuel
  /-- faults that are not about the number of calls -/
  like_fault {α : Type} {Q : α → Prop} {f : Fault} : (∀ n, f ≠ .tooManyCalls n) →
    Like Q (Run.fault f : Run α) (Run.fault f)
  /-- to take a note -/
  like_note (level : Level) (text : Unit → String) :
    Like (fun _ => True) (Run.note level text) (Run.note level text)
  /-- to look at the settings -/
  like_settings : Like (fun _ => True) Run.settings Run.settings
  /-- to count calls -/
  like_calls : Like (fun _ => True) Run.calls Run.calls
  /-- to read a name -/
  like_read (s : ScopeId) (name : String) :
    Like (fun _ => True) (Run.read s name) (Run.read s name)
  /-- to change the scopes -/
  like_modifyScopes (f : Scopes → Scopes) :
    Like (fun _ => True) (Run.modifyScopes f) (Run.modifyScopes f)
  /-- to make a scope -/
  like_extend (s : ScopeId) : Like (fun _ => True) (Run.extend s) (Run.extend s)
  /-- to call a command -/
  like_command (k : Command) (args : List Value) :
    Like (fun _ => True) (k.run args) (k.run args)

namespace Likeness

variable {α β : Type} (L : Likeness)

/-- What is said of two runs whose values are not looked at. -/
abbrev Likes (m m' : Run α) : Prop := L.Like (fun _ => True) m m'

/-- Two ways to evaluate that are alike: whatever is evaluated, and in whatever scope, the likeness
holds of the two runs. This is the hypothesis that every part of evaluation has of the levels
below. -/
def Alike (ev ev' : Evaluator) : Prop := ∀ e s, L.Likes (ev e s) (ev' e s)

/-! ## Rules -/

namespace Likes

variable {L} {m m' : Run α}

/-! The values in between are of no interest to most of evaluation, so that its rules ask nothing of
them. Only texts are read by a logic that follows the values. -/

theorem pure (a : α) : L.Likes (Pure.pure a) (Pure.pure a) := L.like_pure trivial

theorem bind {f f' : α → Run β} (hm : L.Likes m m') (hf : ∀ a, L.Likes (f a) (f' a)) :
    L.Likes (m >>= f) (m' >>= f') :=
  L.like_bind hm fun a _ => hf a

theorem fault {f : Fault} (h : ∀ n, f ≠ .tooManyCalls n) :
    L.Likes (Run.fault f : Run α) (Run.fault f) :=
  L.like_fault h

end Likes

/-- A computation is like itself, unless its fault is the one that is excepted. That fault is for
calls to make, and no operator makes it. -/
theorem likes_ofExcept {x : Except Fault α} (h : ∀ n, x ≠ .error (.tooManyCalls n)) :
    L.Likes (Run.ofExcept x) (Run.ofExcept x) := by
  cases x with
  | ok a => exact .pure a
  | error f => exact .fault fun n hf => h n (by rw [hf])

/-! ## Texts -/

/-- What is said of a run that reads names and of itself. Texts and their references are expanded in
the same way on both sides, so what `Reading` proves of one run serves for both. -/
def reading : Reference.Reading where
  Keeps Q m := L.Like Q m m
  keeps_pure := L.like_pure
  keeps_bind := L.like_bind
  keeps_fault h := L.like_fault fun n hf => by
    rw [hf] at h
    cases h
  keeps_note := L.like_note
  keeps_engine := L.like_bind L.like_settings fun _ _ => L.like_pure trivial
  keeps_read := L.like_read

/-- Expansion is like itself, however much fuel there is. What a reference assigns to a name is a
change of the scopes, which is like itself as well. -/
theorem likes_expandFrom (s : ScopeId) (fuel : Nat) (text : List Char) :
    L.Likes (Reference.expandFrom fuel s text) (Reference.expandFrom fuel s text) := by
  -- the fuel is that of nested references: a default value is expanded with one unit less
  induction fuel generalizing text with
  | zero => exact L.like_outOfFuel
  | succ fuel ih =>
    refine L.reading.runs_expandStep ih (fun name _ => ?_) text
    exact L.reading.runs_resolve_fallback ih (L.like_read s name) fun _ _ _ _ =>
      L.like_modifyScopes _

theorem likes_expandWords (s : ScopeId) (t : List Char) :
    L.Likes (Reference.expandWords s t) (Reference.expandWords s t) :=
  L.reading.runs_expandWords (L.likes_expandFrom s _ t)

/-- Only a text between double quotes is expanded; any other one is a value as it stands. -/
theorem likes_text (s : ScopeId) (t : String) (l : Literal) :
    L.Likes (text s t l) (text s t l) := by
  simp only [text]
  split
  · exact .bind (L.likes_expandFrom s _ _) fun _ => .pure _
  · exact .pure _

/-! ## Variables -/

section

variable {L} {ev ev' : Evaluator} (hev : L.Alike ev ev')

include hev

/-- The name is read before the index is evaluated. What comes of the two is a computation. -/
theorem likes_readElement (s : ScopeId) (name : String) (index : Expr) :
    L.Likes (readElement ev s name index) (readElement ev' s name index) := by
  refine .bind (L.like_read s name) fun base => .bind (hev index s) fun key => ?_
  exact L.likes_ofExcept (Value.computed_element _ _ _).ne_tooManyCalls

/-- To store a value in a variable changes the scopes and nothing else, and so does storing it in an
element, once the index has a value. -/
theorem likes_store (s : ScopeId) (t : Target) (v : Value) :
    L.Likes (store ev s t v) (store ev' s t v) := by
  cases t with
  | whole name =>
    simp only [store]
    split
    · exact L.like_modifyScopes _
    · exact L.like_modifyScopes _
  | element name index =>
    refine .bind (hev index s) fun key => .bind (L.like_read s name) fun base => ?_
    exact L.like_modifyScopes _

/-- An assignment whose target is none is at fault before its value is evaluated. This is a fault of
the expression, so it is the same on both sides. -/
theorem likes_assign (s : ScopeId) (target value : Expr) :
    L.Likes (Eval.assign ev s target value) (Eval.assign ev' s target value) := by
  simp only [Eval.assign]
  split
  · exact .fault fun _ => nofun
  · refine .bind (hev value s) fun v => ?_
    exact .bind (likes_store hev s _ v) fun _ => .pure v

/-! ## Operators -/

/-- The left operand has been evaluated by now. It may decide alone, and then the right one is
evaluated on neither side. -/
theorem likes_operate (s : ScopeId) (o : Operator) (a : Value) (right : Expr) :
    L.Likes (operate ev s o a right) (operate ev' s o a right) := by
  simp only [operate]
  -- `&&` and `||`, postfix operators, and those that need both operands
  split
  · split
    · exact hev right s
    · exact .pure a
  · split
    · exact .pure a
    · exact hev right s
  · exact L.likes_ofExcept (Value.binary_ne_tooManyCalls _ _ _)
  · exact L.likes_ofExcept (Value.binary_ne_tooManyCalls _ _ _)
  · exact .bind (hev right s) fun b => L.likes_ofExcept (Value.binary_ne_tooManyCalls _ _ _)

/-- What is written back depends on the settings, which are the same on both sides, and on the
operator. -/
theorem likes_writeBack (s : ScopeId) (o : Operator) (left : Expr) (v : Value) :
    L.Likes (writeBack ev s o left v) (writeBack ev' s o left v) := by
  refine .bind L.like_settings fun c => ?_
  -- not every operator writes back; of those that do, not every one has a left operand that takes a
  -- value
  split
  · split
    · exact likes_store hev s _ _
    · split
      · exact .fault fun _ => nofun
      · exact .pure ()
  · exact .pure ()

theorem likes_binary (s : ScopeId) (o : Operator) (left right : Expr) :
    L.Likes (binary ev s o left right) (binary ev' s o left right) := by
  refine .bind (hev left s) fun a => .bind (likes_operate hev s o a right) fun v => ?_
  exact .bind (likes_writeBack hev s o left v) fun _ => .pure v

/-! ## Sequences, branches and loops -/

/-- The value of the last statement is carried along, so it is what the induction is for all values
of. -/
theorem likes_statements (s : ScopeId) (last : Value) (es : List Expr) :
    L.Likes (statements ev s last es) (statements ev' s last es) := by
  induction es generalizing last with
  | nil => exact .pure last
  | cons e es ih => exact .bind (hev e s) ih

/-- The items of an array literal, from left to right. -/
theorem likes_values (s : ScopeId) (es : List Expr) :
    L.Likes (Eval.values ev s es) (Eval.values ev' s es) := by
  induction es with
  | nil => exact .pure []
  | cons e es ih => exact .bind (hev e s) fun _ => .bind ih fun _ => .pure _

/-- Conditions are evaluated up to the first one that is false, which is the same one on both sides
as their values are. -/
theorem likes_conditionsHold (s : ScopeId) (es : List Expr) :
    L.Likes (conditionsHold ev s es) (conditionsHold ev' s es) := by
  induction es with
  | nil => exact .pure true
  | cons e es ih =>
    refine .bind (hev e s) fun v => ?_
    split
    · exact ih
    · exact .pure false

theorem likes_branch (s : ScopeId) (condition yes : Expr) (no : Option Expr) :
    L.Likes (branch ev s condition yes no) (branch ev' s condition yes no) := by
  refine .bind (hev condition s) fun c => ?_
  split
  · exact hev yes s
  · -- without an `else` the value is nothing
    cases no with
    | none => exact .pure _
    | some no => exact hev no s

omit hev in
/-- Of rounds that are alike, any number is: the test before a round has the same value on both
sides, so that both stop after the same round or use up their fuel in the same one. -/
theorem likes_rounds {test test' : Run Bool} {round round' : Run Value} (htest : L.Likes test test')
    (hround : L.Likes round round') (fuel : Nat) (last : Value) (count : Nat) :
    L.Likes (rounds test round fuel last count) (rounds test' round' fuel last count) := by
  induction fuel generalizing last count with
  | zero => exact L.like_outOfFuel
  | succ fuel ih =>
    refine .bind htest fun b => ?_
    split
    · exact .bind hround fun v => ih v (count + 1)
    · exact .pure _

/-- A loop that counts makes one scope for itself, in which all its parts are evaluated. Only the
test and the round take part in the repetition. -/
theorem likes_countedLoop (fuel : Nat) (s : ScopeId) (init condition step : List Expr)
    (body : Expr) :
    L.Likes (countedLoop ev fuel s init condition step body)
      (countedLoop ev' fuel s init condition step body) := by
  refine .bind (L.like_extend s) fun inside => ?_
  refine .bind (likes_statements hev inside .null init) fun _ => ?_
  -- a round is the body and then the step, and has the value of the body
  have hround : L.Likes
      (do let v ← ev body inside; let _ ← statements ev inside .null step; return v)
      (do let v ← ev' body inside; let _ ← statements ev' inside .null step; return v) :=
    .bind (hev body inside) fun v => .bind (likes_statements hev inside .null step) fun _ => .pure v
  refine .bind (likes_rounds (likes_conditionsHold hev inside condition) hround fuel .null 0) ?_
  exact fun _ => .bind (L.like_note _ _) fun _ => .pure _

/-- A loop with a condition has a scope of its own as well, and its round is its body alone. -/
theorem likes_whileLoop (fuel : Nat) (s : ScopeId) (condition : List Expr) (body : Expr) :
    L.Likes (whileLoop ev fuel s condition body) (whileLoop ev' fuel s condition body) := by
  refine .bind (L.like_extend s) fun inside => ?_
  have htest := likes_conditionsHold hev inside condition
  refine .bind (likes_rounds htest (hev body inside) fuel .null 0) fun _ => ?_
  exact .bind (L.like_note _ _) fun _ => .pure _

/-- What a loop runs over is read, or evaluated, once and before the first round. -/
theorem likes_rangeItems (s : ScopeId) (range : Expr) :
    L.Likes (rangeItems ev s range) (rangeItems ev' s range) := by
  simp only [rangeItems]
  -- a variable, an array, a reference in braces, and any other expression
  split
  · exact .bind (L.like_read s _) fun _ => .pure _
  · exact .bind (likes_values hev s _) fun _ => .pure _
  · exact .bind (hev _ s) fun _ => .pure _
  · exact .bind (hev _ s) fun _ => .pure _

/-- There is a round for every item. The fuel of evaluation has no part in it. -/
theorem likes_itemRounds (s : ScopeId) (name : String) (body : Expr) (last : Value)
    (items : List Value) :
    L.Likes (itemRounds ev s name body last items) (itemRounds ev' s name body last items) := by
  induction items generalizing last with
  | nil => exact .pure last
  | cons item items ih => exact .bind (L.like_modifyScopes _) fun _ => .bind (hev body s) ih

theorem likes_itemLoop (s : ScopeId) (name : String) (range body : Expr) :
    L.Likes (itemLoop ev s name range body) (itemLoop ev' s name range body) := by
  refine .bind (likes_rangeItems hev s range) fun items => .bind (L.like_note _ _) fun _ => ?_
  exact .bind (L.like_extend s) fun inside => likes_itemRounds hev inside name body .null items

/-! ## Functions and calls -/

/-- A name is looked up and anything else evaluated. What was found may then be something that
cannot be called, which is a fault, but not the one that is excepted. -/
theorem likes_callee (s : ScopeId) (e : Expr) : L.Likes (callee ev s e) (callee ev' s e) := by
  have hcallable (v : Value) : L.Likes
      (if v.isCallable then return v else Run.fault (.notAFunction e.calleeName))
      (if v.isCallable then return v else Run.fault (.notAFunction e.calleeName)) := by
    split
    · exact .pure v
    · exact .fault fun _ => nofun
  simp only [callee]
  split
  · refine .bind (L.like_read s _) fun found => ?_
    cases found with
    | none => exact .fault fun _ => nofun
    | some v => exact hcallable v
  · refine .bind (hev _ s) fun v => .bind (.pure (some v)) fun found => ?_
    cases found with
    | none => exact .fault fun _ => nofun
    | some v => exact hcallable v

/-- A word is not evaluated but passed as it is, so it is like itself whatever the ways to evaluate
are. -/
theorem likes_argument (s : ScopeId) (e : Expr) :
    L.Likes (argument ev s e) (argument ev' s e) := by
  simp only [argument]
  split
  · exact .pure _
  · exact .bind (hev e s) fun _ => .pure _

theorem likes_arguments (s : ScopeId) (es : List Expr) :
    L.Likes (arguments ev s es) (arguments ev' s es) := by
  induction es with
  | nil => exact .pure []
  | cons e es ih => exact .bind (likes_argument hev s e) fun _ => .bind ih fun _ => .pure _

/-- A default value is evaluated in the scope of the caller, and only if it is needed. Then the
parameter is bound, which is a change of the scopes. -/
theorem likes_bindParameter (caller s : ScopeId) (p : Expr) (arg : Option Value) :
    L.Likes (bindParameter ev caller s p arg) (bindParameter ev' caller s p arg) := by
  have hdefault (default : Expr) :
      L.Likes (argumentOr ev caller default arg) (argumentOr ev' caller default arg) := by
    simp only [argumentOr]
    split
    · exact hev default caller
    · exact hev default caller
    · exact .pure _
  simp only [bindParameter]
  -- a parameter with a default value, then one without
  split
  · split
    · exact .bind (hdefault _) fun _ => L.like_modifyScopes _
    · exact .fault fun _ => nofun
  · split
    · exact L.like_modifyScopes _
    · exact .fault fun _ => nofun

/-- Parameters are bound in their order, each with the next argument. Where the arguments have run
out, the rest of them is empty. -/
theorem likes_bindParameters (caller s : ScopeId) (ps : List Expr) (args : List Value) :
    L.Likes (bindParameters ev caller s ps args) (bindParameters ev' caller s ps args) := by
  induction ps generalizing args with
  | nil => exact .pure ()
  | cons p ps ih => exact .bind (likes_bindParameter hev caller s p _) fun _ => ih args.tail

/-- Entering a function: its default values and its body are evaluated alike. This is what a
`Calling` that keeps to the rules of a call will use of the ways to evaluate it is given. -/
theorem likes_enter (caller : ScopeId) (c : Closure) (args : List Value) :
    L.Likes (enter ev caller c args) (enter ev' caller c args) := by
  refine .bind L.like_calls fun depth => .bind (L.like_note _ _) fun _ => ?_
  refine .bind (L.like_extend c.scope) fun inside => ?_
  exact .bind (likes_bindParameters hev caller inside c.parameters args) fun _ =>
    hev c.body inside

end

/-! ## Whole evaluations -/

variable {L} {how how' : Calling}

/-- Two ways to call functions are alike if they are for alike ways to evaluate. That is all that
has to be shown of a likeness besides its rules. -/
def CallsAlike (L : Likeness) (how how' : Calling) : Prop :=
  ∀ ev ev', L.Alike ev ev' → ∀ caller c args, L.Likes (how ev caller c args) (how' ev' caller c args)

/-- For functions this is the hypothesis. Commands are the same on both sides, and other values
cannot be called on either. -/
theorem likes_callValueCalling (hhow : L.CallsAlike how how') {ev ev' : Evaluator}
    (hev : L.Alike ev ev') (caller : ScopeId) (v : Value) (args : List Value) :
    L.Likes (callValueCalling how ev caller v args) (callValueCalling how' ev' caller v args) := by
  cases v with
  | function c => exact hhow ev ev' hev caller c args
  | command k => exact .bind (L.like_note _ _) fun _ => L.like_command k args
  | _ => exact .fault fun _ => nofun

/-- One level of an expression, by what the expression is. Each case is the lemma about that part of
evaluation, and the levels below enter by `hev` only. -/
theorem likes_stepCalling (hhow : L.CallsAlike how how') {ev ev' : Evaluator}
    (hev : L.Alike ev ev') (fuel : Nat) :
    L.Alike (stepCalling how ev fuel) (stepCalling how' ev' fuel) := by
  intro e s
  cases e with
  | number | boolean | null => exact .pure _
  | text t l => exact L.likes_text s t l
  | parameter raw => exact .bind (L.likes_expandFrom s _ _) fun _ => .pure _
  | braces raw => exact .bind (L.likes_expandWords s _) fun _ => .pure _
  | «variable» name deref => exact .bind (L.like_read s name) fun _ => .pure _
  | element name _ index => exact likes_readElement hev s name index
  | array items => exact .bind (likes_values hev s items) fun _ => .pure _
  | unary o operand =>
    exact .bind (hev operand s) fun v => L.likes_ofExcept (Value.unary_ne_tooManyCalls o v)
  | binary o left right => exact likes_binary hev s o left right
  | assign target value => exact likes_assign hev s target value
  | block es => exact likes_statements hev s .null es
  | function id name parameters body =>
    cases name with
    | none => exact .bind (.pure ()) fun _ => .pure _
    | some n =>
      exact .bind (L.like_note _ _) fun _ => .bind (L.like_modifyScopes _) fun _ => .pure _
  | call e args =>
    refine .bind (likes_callee hev s e) fun f => .bind (likes_arguments hev s args) fun vs => ?_
    -- the one case in which the two ways of calling come in
    exact likes_callValueCalling hhow hev s f vs
  | ifThen c y => exact likes_branch hev s c y none
  | ifThenElse c y n => exact likes_branch hev s c y (some n)
  | «for» init condition step body => exact likes_countedLoop hev fuel s init condition step body
  | forIn name range body => exact likes_itemLoop hev s name range body
  | «while» condition body => exact likes_whileLoop hev fuel s condition body

/-- Evaluation is alike for alike ways to call functions, however much fuel there is. The induction
is on the fuel, which is the same on both sides. -/
theorem alike_evaluateCalling (hhow : L.CallsAlike how how') (fuel : Nat) :
    L.Alike (evaluateCalling how fuel) (evaluateCalling how' fuel) := by
  induction fuel with
  | zero => exact fun _ _ => L.like_outOfFuel
  | succ fuel ih => exact likes_stepCalling hhow ih fuel

/-- The statements of a script, each of which a note is taken on. -/
theorem likes_runFrom {ev ev' : Evaluator} (hev : L.Alike ev ev') (s : ScopeId) (last : Value)
    (es : List Expr) :
    L.Likes (Program.runFrom ev s last es) (Program.runFrom ev' s last es) := by
  induction es generalizing last with
  | nil => exact .pure last
  | cons e es ih => exact .bind (L.like_note _ _) fun _ => .bind (hev e s) ih

end Likeness

end Eval

end CommandLanguage
