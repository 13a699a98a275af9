import CommandLanguage.Proofs.Eval.Logic
import CommandLanguage.Proofs.Reference.Reading

/-!
# Evaluation keeps to a logic

One lemma for every part of evaluation, each given that the levels below keep to the logic, and
`Logic.evaluates_evaluateFrom`, which puts them together by induction on the fuel. A property of
scripts that is a `Logic` then holds of all of them by `keeps_program`, and of single calls by
`keeps_valueCall`, without a look at what evaluation does.

Three things are carried along: that an expression meets `L.expr`, which its parts then do as well;
that a scope meets `L.scope`; and that all functions and commands in a value meet `L.callable`, which
is written `L.value`. The last one is why the lemmas about variables and items below ask what may be
called of what is read or taken apart.

Where something is evaluated in a scope that was just made, nothing is asked of the scope around:
`keeps_countedLoop` and `keeps_whileLoop` have no hypothesis on it.
-/

namespace CommandLanguage.Eval.Logic

variable (L : Logic) {ev : Evaluator} {s : ScopeId}

/-! ## Expansion

Expanding a text reads names, and writes to one only where a reference assigns its word to it. -/

/-- What a logic says of runs that read names. Nothing is asked of the values, since a text is made
of them and a text cannot be called. -/
def reading : Reference.Reading where
  Keeps := L.Keeps
  keeps_pure := L.keeps_pure
  keeps_bind := L.keeps_bind
  keeps_fault := L.keeps_fault
  keeps_note := L.keeps_note
  keeps_engine := L.keeps_engine
  keeps_read s name := .mono (L.keeps_read s name) fun _ _ => trivial

/-- Expansion keeps to a logic if the scope may be written to, as a reference may assign its
word. -/
theorem keeps_expandFrom (hs : L.scope s) (fuel : Nat) (text : List Char) :
    L.Keeps (fun _ => True) (Reference.expandFrom fuel s text) := by
  -- default values of references are expanded with less fuel
  induction fuel generalizing text with
  | zero => exact .outOfFuel
  | succ fuel ih =>
    refine L.reading.runs_expandStep ih (fun name _ => ?_) text
    exact L.reading.runs_resolve_fallback ih (L.reading.keeps_read s name) fun _ _ _ _ =>
      L.keeps_assign name hs (Value.allCallables_text _)

/-- The same with the fuel that expansion is given, which depends on the text. -/
theorem keeps_expand (hs : L.scope s) (text : List Char) :
    L.Keeps (fun _ => True) (Reference.expand s text) :=
  L.keeps_expandFrom hs _ text

/-- The words from braces come of expansion, and of a computation that comes behind it. -/
theorem keeps_expandWords (hs : L.scope s) (text : List Char) :
    L.Keeps (fun _ => True) (Reference.expandWords s text) :=
  L.reading.runs_expandWords (L.keeps_expand hs text)

/-! ## Variables -/

/-- What is read from a scope may be called as far as the logic allows. A word that is not bound
stands for a text, and a reference that is not bound for nothing. -/
theorem keeps_readVariable (s : ScopeId) (name : String) (deref : Bool) :
    L.Keeps L.value (readVariable s name deref) := by
  refine .bind (L.keeps_read s name) fun v? hv => .pure ?_
  -- nothing is found, or a value that the logic says something about
  cases v? with
  | none => cases deref <;> simp
  | some v => exact hv v rfl

/-- An element is taken out of what was read, so what may be called in it could be called there. The
index is evaluated in between, but what was read does not change by that. -/
theorem keeps_readElement (hev : L.Evaluates ev) (hs : L.scope s) (name : String)
    {index : Expr} (hi : L.expr index) : L.Keeps L.value (readElement ev s name index) := by
  refine .bind (L.keeps_read s name) fun base hbase => ?_
  refine .bind (hev index s hi hs) fun key _ => ?_
  refine (L.keeps_ofExcept (Value.computed_element _ _ _)).mono fun v hv => ?_
  exact Value.allCallables_element (Value.allCallables_getD_null hbase) hv

/-- Storing writes to a scope, and only what may be called. For an element that is the collection
around it, in which both the new element and the others may be called. -/
theorem keeps_store (hev : L.Evaluates ev) (hs : L.scope s) {target : Expr} {t : Target}
    (ht : target.target? = some t) (he : L.expr target) {v : Value} (hv : L.value v) :
    L.Keeps (fun _ => True) (store ev s t v) := by
  unfold Expr.target? at ht
  -- a variable, then an element, whose index is evaluated before the variable is read
  split at ht
  · cases ht
    simp only [store]
    split
    · exact L.keeps_remove _ hs
    · exact L.keeps_assign _ hs hv
  · rename_i index
    cases ht
    refine .bind (hev index s (L.child he List.mem_cons_self) hs) fun key _ => ?_
    refine .bind (L.keeps_read s _) fun base hbase => ?_
    refine L.keeps_assign _ hs ?_
    exact Value.allCallables_setElement (Value.allCallables_getD_null hbase) hv
  · cases ht

/-- The value is stored before it becomes the value of the assignment. -/
theorem keeps_assignment (hev : L.Evaluates ev) (hs : L.scope s) {target value : Expr}
    (he : L.expr (.assign target value)) :
    L.Keeps L.value (Eval.assign ev s target value) := by
  have htarget : L.expr target := L.child he (by simp [Expr.children])
  have hvalue : L.expr value := L.child he (by simp [Expr.children])
  unfold Eval.assign
  split
  · exact L.keeps_fault rfl
  · rename_i t ht
    refine .bind (hev value s hvalue hs) fun v hv => ?_
    exact .bind (L.keeps_store hev hs ht htarget hv) fun _ _ => .pure hv

/-! ## Operators -/

/-- The operator whose table is looked at, if that is not that of the operator itself. A compound
assignment looks into the table of its operator, and others into their own. -/
theorem base_or_self (o : Operator) :
    (o.base?.elim o .arithmetic).hasTable = true ∨ o.base?.elim o .arithmetic = o := by
  cases o with
  | compound a => exact .inl rfl
  | _ => exact .inr rfl

/-- What comes of a table is no function. An operator without one is at fault for its shape, which
an expression that was read does not have. -/
theorem keeps_table {o : Operator} {left right : Expr} (he : L.expr (.binary o left right))
    (ho : o ≠ .both ∧ o ≠ .either) (a b : Value) :
    L.Keeps L.value (Run.ofExcept (Value.binary (o.base?.elim o .arithmetic) a b)) := by
  cases ht : (o.base?.elim o .arithmetic).hasTable with
  | true =>
    rcases Value.binary_cases ht a b with ⟨n, h⟩ | ⟨x, h⟩ | h | ⟨x, h⟩ <;> rw [h]
    · exact .pure (Value.allCallables_number n)
    · exact .pure (Value.allCallables_boolean x)
    · exact L.keeps_fault rfl
    · exact L.keeps_fault rfl
  | false =>
    -- then the operator is no compound assignment, and its own table is missing
    rw [Value.binary_of_not_hasTable ht]
    obtain hb | hb := base_or_self o
    · rw [hb] at ht
      cases ht
    · rw [hb] at ht ⊢
      refine L.keeps_unknownBinary he ?_
      cases o <;> simp_all [Operator.hasTable, Operator.isBinary, Operator.precedence?,
        Operator.base?]

/-- The value of an operator is a number or a truth value, or for `&&` and `||` that of an operand,
which may then be called. -/
theorem keeps_operate (hev : L.Evaluates ev) (hs : L.scope s) {o : Operator}
    {left right : Expr} (he : L.expr (.binary o left right)) {a : Value} (ha : L.value a) :
    L.Keeps L.value (operate ev s o a right) := by
  have hright : L.Keeps L.value (ev right s) := hev right s (L.child he (by
    simp [Expr.children])) hs
  unfold operate
  -- `&&` and `||`, postfix operators, and those that need both operands
  split
  · split
    · exact hright
    · exact .pure ha
  · split
    · exact .pure ha
    · exact hright
  · exact L.keeps_table he (by simp) a .null
  · exact L.keeps_table he (by simp) a .null
  · rename_i h₁ h₂ _ _
    exact .bind hright fun b _ => L.keeps_table he ⟨h₁, h₂⟩ a b

/-- An operator between two expressions, or behind one. That the value may be stored in the left
operand is left to the logic, which is told how storing keeps to it. -/
theorem keeps_binary (hev : L.Evaluates ev) (hs : L.scope s) {o : Operator}
    {left right : Expr} (he : L.expr (.binary o left right)) :
    L.Keeps L.value (binary ev s o left right) := by
  have hl : L.expr left := L.child he (by simp [Expr.children])
  refine .bind (hev left s hl hs) fun a ha => ?_
  refine .bind (L.keeps_operate hev hs he ha) fun v hv => ?_
  -- what is stored is the value, but for truth values, which become numbers
  have hstore : L.Keeps (fun _ => True) (writeBack ev s o left v) :=
    L.keeps_writeBack he fun t ht =>
      L.keeps_store hev hs ht hl (Value.allCallables_truthAsNumber hv)
  exact .bind hstore fun _ _ => .pure hv

/-- A sign or `!` in front of an expression gives a number or a truth value. -/
theorem keeps_unary (hev : L.Evaluates ev) (hs : L.scope s) {o : Operator} {operand : Expr}
    (he : L.expr (.unary o operand)) :
    L.Keeps L.value (ev operand s >>= fun v => Run.ofExcept (Value.unary o v)) := by
  refine .bind (hev operand s (L.child he List.mem_cons_self) hs) fun v _ => ?_
  cases ho : o.isSign with
  | true =>
    rcases Value.unary_cases ho v with ⟨n, h⟩ | ⟨x, h⟩ | h <;> rw [h]
    · exact .pure (Value.allCallables_number n)
    · exact .pure (Value.allCallables_boolean x)
    · exact L.keeps_fault rfl
  | false =>
    rw [Value.unary_of_not_isSign ho]
    exact L.keeps_unknownUnary he ho

/-! ## Sequences, branches and loops -/

/-- The value of a sequence is that of its last statement, so the logic has to be kept by each of
them. -/
theorem keeps_statements (hev : L.Evaluates ev) (hs : L.scope s) {last : Value}
    {es : List Expr} (hl : L.value last) (he : ∀ e ∈ es, L.expr e) :
    L.Keeps L.value (statements ev s last es) := by
  induction es generalizing last with
  | nil => exact .pure hl
  | cons e es ih =>
    obtain ⟨he, hes⟩ := List.forall_mem_cons.1 he
    exact .bind (hev e s he hs) fun v hv => ih hv hes

/-- What is in the list can be called as far as each of its items can. -/
theorem keeps_values (hev : L.Evaluates ev) (hs : L.scope s) {es : List Expr}
    (he : ∀ e ∈ es, L.expr e) : L.Keeps L.values (Eval.values ev s es) := by
  induction es with
  | nil => exact .pure fun _ h => nomatch h
  | cons e es ih =>
    obtain ⟨he, hes⟩ := List.forall_mem_cons.1 he
    refine .bind (hev e s he hs) fun v hv => .bind (ih hes) fun vs hvs => .pure ?_
    exact List.forall_mem_cons.2 ⟨hv, hvs⟩

/-- Of conditions only the truth is looked at, which is not a value of a script. -/
theorem keeps_conditionsHold (hev : L.Evaluates ev) (hs : L.scope s) {es : List Expr}
    (he : ∀ e ∈ es, L.expr e) : L.Keeps (fun _ => True) (conditionsHold ev s es) := by
  induction es with
  | nil => exact .pure trivial
  | cons e es ih =>
    obtain ⟨he, hes⟩ := List.forall_mem_cons.1 he
    refine .bind (hev e s he hs) fun v _ => ?_
    split
    · exact ih hes
    · exact .pure trivial

/-- A branch is evaluated in the scope around, for which the logic therefore has to allow that. -/
theorem keeps_branch (hev : L.Evaluates ev) (hs : L.scope s) {condition yes : Expr}
    {no : Option Expr} (hc : L.expr condition) (hy : L.expr yes)
    (hn : ∀ e, no = some e → L.expr e) :
    L.Keeps L.value (branch ev s condition yes no) := by
  refine .bind (hev condition s hc hs) fun c _ => ?_
  split
  · exact hev yes s hy hs
  · cases no with
    | none => exact .pure (Value.allCallables_boolean false)
    | some no => exact hev no s (hn no rfl) hs

/-- What every round keeps, all rounds keep. The value is that of the last one, or the one before
the loop, if there is none. -/
theorem keeps_rounds {test : Run Bool} {round : Run Value}
    (htest : L.Keeps (fun _ => True) test) (hround : L.Keeps L.value round) (fuel : Nat)
    {last : Value} (hl : L.value last) (count : Nat) :
    L.Keeps (fun r => L.value r.1) (rounds test round fuel last count) := by
  induction fuel generalizing last count with
  | zero => exact .outOfFuel
  | succ fuel ih =>
    refine .bind htest fun b _ => ?_
    split
    · exact .bind hround fun v hv => ih hv (count + 1)
    · exact .pure hl

/-- A loop that counts. All its parts are evaluated in a scope of its own, which is a child of `s`
and as such allowed by the logic. -/
theorem keeps_countedLoop (hev : L.Evaluates ev) (fuel : Nat) (s : ScopeId)
    {init condition step : List Expr} {body : Expr}
    (he : L.expr (.for init condition step body)) :
    L.Keeps L.value (countedLoop ev fuel s init condition step body) := by
  -- the four parts are lists of expressions, all of which are children of the loop
  have part {es : List Expr} (h : ∀ e ∈ es, e ∈ init ++ condition ++ step ++ [body]) :
      ∀ e ∈ es, L.expr e := fun e hmem => L.child he (h e hmem)
  -- nothing is evaluated in `s` itself, which is why nothing is asked of it
  refine .bind (L.keeps_extend s) fun inside hin => ?_
  refine .bind (L.keeps_statements hev hin Value.allCallables_null
    (part fun e h => by simp [h])) fun _ _ => ?_
  -- a round has the value of its body, whatever the step comes to
  have hround : L.Keeps L.value (do
      let v ← ev body inside
      let _ ← statements ev inside .null step
      return v) := by
    refine .bind (hev body inside (L.child he (by simp [Expr.children])) hin) fun v hv => ?_
    exact .bind (L.keeps_statements hev hin Value.allCallables_null
      (part fun e h => by simp [h])) fun _ _ => .pure hv
  refine .bind (L.keeps_rounds (L.keeps_conditionsHold hev hin (part fun e h => by simp [h]))
    hround fuel Value.allCallables_null 0) fun r hr => ?_
  exact .bind (.note _ _) fun _ _ => .pure hr

/-- A loop with conditions, in a scope of its own as well. -/
theorem keeps_whileLoop (hev : L.Evaluates ev) (fuel : Nat) (s : ScopeId)
    {condition : List Expr} {body : Expr} (he : L.expr (.while condition body)) :
    L.Keeps L.value (whileLoop ev fuel s condition body) := by
  refine .bind (L.keeps_extend s) fun inside hin => ?_
  have htest : L.Keeps (fun _ => True) (conditionsHold ev inside condition) :=
    L.keeps_conditionsHold hev hin fun e h => L.child he (by simp [Expr.children, h])
  have hround := hev body inside (L.child he (by simp [Expr.children])) hin
  refine .bind (L.keeps_rounds htest hround fuel Value.allCallables_null 0) fun r hr => ?_
  exact .bind (.note _ _) fun _ _ => .pure hr

/-- The words of a text are texts, and the items of a list could be called in the list. -/
theorem values_wordsOrItems {v : Value} (hv : L.value v) : L.values (wordsOrItems v) := by
  intro x hx
  unfold wordsOrItems at hx
  split at hx
  · obtain ⟨t, -, rfl⟩ := List.mem_map.1 hx
    exact Value.allCallables_text t
  · exact Value.allCallables_of_mem_items hv hx

/-- What a loop runs over is evaluated in the scope around it, so that scope has to be allowed. -/
theorem keeps_rangeItems (hev : L.Evaluates ev) (hs : L.scope s) {range : Expr}
    (hr : L.expr range) : L.Keeps L.values (rangeItems ev s range) := by
  unfold rangeItems
  -- a variable, an array, a reference in braces, and any other expression
  split
  · refine .bind (L.keeps_read s _) fun v hv => .pure ?_
    exact L.values_wordsOrItems (Value.allCallables_getD_null hv)
  · refine .bind (L.keeps_values hev hs fun e h => L.child hr h) fun vs hvs => .pure ?_
    intro x hx
    obtain ⟨v, hv, hxv⟩ := List.mem_flatMap.1 hx
    exact Value.allCallables_of_mem_spread (hvs v hv) hxv
  · exact .bind (hev _ s hr hs) fun v hv => .pure (L.values_wordsOrItems hv)
  · exact .bind (hev _ s hr hs) fun v hv => .pure fun x hx =>
      Value.allCallables_of_mem_items hv hx

/-- In each round the next item is bound and the body evaluated, both in the scope of the loop. -/
theorem keeps_itemRounds (hev : L.Evaluates ev) (hs : L.scope s) (name : String) {body : Expr}
    (hb : L.expr body) {last : Value} {items : List Value} (hl : L.value last)
    (hi : L.values items) : L.Keeps L.value (itemRounds ev s name body last items) := by
  induction items generalizing last with
  | nil => exact .pure hl
  | cons item items ih =>
    obtain ⟨hitem, hitems⟩ := List.forall_mem_cons.1 hi
    refine .bind (L.keeps_define name hs hitem) fun _ _ => ?_
    exact .bind (hev body s hb hs) fun v hv => ih hv hitems

/-- A loop over items. The range belongs to the scope around, and the rounds to the one that is
made. -/
theorem keeps_itemLoop (hev : L.Evaluates ev) (hs : L.scope s) (name : String)
    {range body : Expr} (hr : L.expr range) (hb : L.expr body) :
    L.Keeps L.value (itemLoop ev s name range body) := by
  refine .bind (L.keeps_rangeItems hev hs hr) fun items hitems => ?_
  refine .bind (.note _ _) fun _ _ => .bind (L.keeps_extend s) fun inside hin => ?_
  exact L.keeps_itemRounds hev hin name hb Value.allCallables_null hitems

/-! ## Functions and calls -/

/-- A function that is defined remembers its scope, and may be called from now on. This is the one
place where something comes up that may be called, and `L.function` allows it. -/
theorem keeps_defineFunction (hs : L.scope s) {id : Nat} {name : Option String}
    {parameters : List Expr} {body : Expr} (he : L.expr (.function id name parameters body)) :
    L.Keeps L.value (defineFunction s id name parameters body) := by
  have hf : L.value (.function ⟨id, name, parameters, body, s⟩) :=
    Value.allCallables_function.2 (L.function s he)
  cases name with
  | none => exact .pure hf
  | some n =>
    refine .bind (.note _ _) fun _ _ => ?_
    exact .bind (L.keeps_define n hs hf) fun _ _ => .pure hf

/-- A value that was found is called if it can be. -/
theorem keeps_found (e : Expr) (found : Option Value) :
    (∀ v, found = some v → L.value v) → L.Keeps L.value (match found with
      | some v => if v.isCallable then return v else Run.fault (.notAFunction e.calleeName)
      | none => Run.fault (.undefinedFunction e.calleeName)) := by
  intro hf
  cases found with
  | none => exact L.keeps_fault rfl
  | some v =>
    dsimp only
    split
    · exact .pure (hf v rfl)
    · exact L.keeps_fault rfl

/-- What is called was found in a scope or is the value of an expression. Both may be called as far
as the logic allows. -/
theorem keeps_callee (hev : L.Evaluates ev) (hs : L.scope s) {e : Expr} (he : L.expr e) :
    L.Keeps L.value (callee ev s e) := by
  unfold callee
  split
  · exact .bind (L.keeps_read s _) (L.keeps_found _)
  · refine .bind (hev _ s he hs) fun v hv => .bind (.pure ?_) (L.keeps_found _)
    intro x hx
    cases hx
    exact hv

/-- A word is passed as a text, and a list by its items. -/
theorem keeps_argument (hev : L.Evaluates ev) (hs : L.scope s) {e : Expr} (he : L.expr e) :
    L.Keeps L.values (argument ev s e) := by
  unfold argument
  split
  · exact .pure fun v hv => by rw [List.mem_singleton.1 hv]; exact Value.allCallables_text _
  · exact .bind (hev e s he hs) fun v hv => .pure fun x hx =>
      Value.allCallables_of_mem_spread hv hx

/-- The arguments are in one list, in which those of each expression keep to what is true of them
alone. -/
theorem keeps_arguments (hev : L.Evaluates ev) (hs : L.scope s) {es : List Expr}
    (he : ∀ e ∈ es, L.expr e) : L.Keeps L.values (arguments ev s es) := by
  induction es with
  | nil => exact .pure fun _ h => nomatch h
  | cons e es ih =>
    obtain ⟨he, hes⟩ := List.forall_mem_cons.1 he
    refine .bind (L.keeps_argument hev hs he) fun vs hvs => ?_
    refine .bind (ih hes) fun ws hws => .pure fun v hv => ?_
    rcases List.mem_append.1 hv with hv | hv
    · exact hvs v hv
    · exact hws v hv

/-- A parameter is bound in the scope of the call, and its default value is evaluated in the scope
of the caller. So the logic has to allow both, and it has to know that a default value is part of a
function that may be called. -/
theorem keeps_bindParameter (hev : L.Evaluates ev) {caller : ScopeId} (hcaller : L.scope caller)
    (hs : L.scope s) {c : Closure} (hc : L.callable (.function c)) {p : Expr}
    (hp : p ∈ c.parameters) {arg : Option Value} (ha : ∀ v, arg = some v → L.value v) :
    L.Keeps (fun _ => True) (bindParameter ev caller s p arg) := by
  have he : L.expr p := L.parameter hc hp
  unfold bindParameter
  -- a parameter with a default value, then one without
  split
  · rename_i target default
    split
    · rename_i name _
      refine .bind (P := L.value) ?_ fun v hv => L.keeps_define name hs hv
      unfold argumentOr
      -- the default value is asked for if there is no argument or it is nothing
      split
      · exact hev default caller (L.child he (by simp [Expr.children])) hcaller
      · exact hev default caller (L.child he (by simp [Expr.children])) hcaller
      · exact .pure (ha _ rfl)
    · rename_i ht
      -- a target without a name is no parameter, which the logic may rule out by the shape of the
      -- function
      refine L.keeps_notAParameter none hc hp ?_
      cases target <;> simp_all [Grammar.isParameter, Expr.variableName?, Expr.bareWord?]
  · split
    · exact L.keeps_define _ hs (Value.allCallables_getD_null ha)
    · rename_i hassign hn
      refine L.keeps_notAParameter _ hc hp ?_
      cases p <;> simp_all [Grammar.isParameter, Expr.variableName?, Expr.bareWord?]

/-- Arguments are used up one by one, so that all that are left may be called as before. -/
theorem keeps_bindParameters (hev : L.Evaluates ev) {caller : ScopeId}
    (hcaller : L.scope caller) (hs : L.scope s) {c : Closure}
    (hc : L.callable (.function c)) {ps : List Expr} (hp : ∀ p ∈ ps, p ∈ c.parameters)
    {args : List Value} (ha : L.values args) :
    L.Keeps (fun _ => True) (bindParameters ev caller s ps args) := by
  induction ps generalizing args with
  | nil => exact .pure trivial
  | cons p ps ih =>
    obtain ⟨hp, hps⟩ := List.forall_mem_cons.1 hp
    refine .bind (L.keeps_bindParameter hev hcaller hs hc hp ?_) fun _ _ => ih hps ?_
    · intro v hv
      exact ha v (List.mem_of_head? hv)
    · intro v hv
      exact ha v (List.mem_of_mem_tail hv)

/-- To enter a function is to make a scope below the one it remembers, to bind its parameters there
and to evaluate its body. The caller's scope is needed for default values alone. -/
theorem keeps_enter (hev : L.Evaluates ev) {caller : ScopeId} (hcaller : L.scope caller)
    {c : Closure} (hc : L.callable (.function c)) {args : List Value} (ha : L.values args) :
    L.Keeps L.value (enter ev caller c args) := by
  refine .bind .calls fun depth _ => .bind (.note _ _) fun _ _ => ?_
  refine .bind (L.keeps_extend c.scope) fun inside hin => ?_
  refine .bind (L.keeps_bindParameters hev hcaller hin hc (fun _ h => h) ha) fun _ _ => ?_
  exact hev c.body inside (L.body hc) hin

/-- A command or a function is called; what to do about the number of calls is left to the logic.
This is where logics for different limits differ. -/
theorem keeps_callValue (hev : L.Evaluates ev) {caller : ScopeId} (hcaller : L.scope caller)
    {v : Value} (hv : L.value v) {args : List Value} (ha : L.values args) :
    L.Keeps L.value (callValue ev caller v args) := by
  unfold callValue
  split
  · refine .bind (.note _ _) fun _ _ => ?_
    exact L.keeps_command (Value.allCallables_command.1 hv) ha
  · have hc := Value.allCallables_function.1 hv
    exact L.keeps_callClosure hc (L.keeps_enter hev hcaller hc ha)
  · exact L.keeps_fault rfl

/-- A call looks for what is called before it evaluates its arguments. A value that cannot be called
is a fault, and the arguments are not looked at then. -/
theorem keeps_call (hev : L.Evaluates ev) (hs : L.scope s) {e : Expr} {args : List Expr}
    (he : L.expr (.call e args)) : L.Keeps L.value (call ev s e args) := by
  refine .bind (L.keeps_callee hev hs (L.child he List.mem_cons_self)) fun f hf => ?_
  refine .bind (L.keeps_arguments hev hs fun a h => L.child he (List.mem_cons_of_mem _ h))
    fun vs hvs => ?_
  exact L.keeps_callValue hev hs hf hvs

/-! ## Whole runs -/

/-- A text is a value as it stands, or what it expands to; neither can be called. -/
theorem keeps_text (hs : L.scope s) (t : String) (l : Literal) :
    L.Keeps L.value (text s t l) := by
  unfold text
  split
  · exact .bind (L.keeps_expand hs _) fun _ _ => .pure (Value.allCallables_text _)
  · exact .pure (Value.allCallables_text _)

/-- One level of evaluation keeps to a logic that the levels below keep to. There is one case for
each kind of expression, with the lemma about it; the fuel is what a loop may use up at this
level. -/
theorem keeps_step (hev : L.Evaluates ev) (fuel : Nat) {e : Expr} (he : L.expr e)
    (hs : L.scope s) : L.Keeps L.value (step ev fuel e s) := by
  have hchild {c : Expr} (h : c ∈ e.children) : L.expr c := L.child he h
  cases e with
  | number n => exact .pure (Value.allCallables_number n)
  | boolean b => exact .pure (Value.allCallables_boolean b)
  | null => exact .pure Value.allCallables_null
  | text t l => exact L.keeps_text hs t l
  | parameter raw =>
    exact .bind (L.keeps_expand hs _) fun _ _ => .pure (Value.allCallables_text _)
  -- the words are texts, none of which can be called
  | braces raw =>
    refine .bind (L.keeps_expandWords hs _) fun words _ => .pure ?_
    refine Value.allCallables_list.2 fun v hv => ?_
    obtain ⟨w, -, rfl⟩ := List.mem_map.1 hv
    exact Value.allCallables_text _
  | «variable» name deref => exact L.keeps_readVariable s name deref
  | element name _ index => exact L.keeps_readElement hev hs name (hchild List.mem_cons_self)
  | array items =>
    refine .bind (L.keeps_values hev hs fun e h => hchild h) fun vs hvs => .pure ?_
    exact Value.allCallables_list.2 hvs
  | unary o operand => exact L.keeps_unary hev hs he
  | binary o left right => exact L.keeps_binary hev hs he
  | assign target value => exact L.keeps_assignment hev hs he
  | block es =>
    exact L.keeps_statements hev hs Value.allCallables_null fun e h => hchild h
  | function id name parameters body => exact L.keeps_defineFunction hs he
  | call e args => exact L.keeps_call hev hs he
  | ifThen c y =>
    have hc : L.expr c := hchild (by simp [Expr.children])
    have hy : L.expr y := hchild (by simp [Expr.children])
    have hn : ∀ e, none = some e → L.expr e := nofun
    exact L.keeps_branch hev hs hc hy hn
  | ifThenElse c y n =>
    have hc : L.expr c := hchild (by simp [Expr.children])
    have hy : L.expr y := hchild (by simp [Expr.children])
    have hn : ∀ e, some n = some e → L.expr e := by
      intro e h
      cases h
      exact hchild (by simp [Expr.children])
    exact L.keeps_branch hev hs hc hy hn
  | «for» init condition step body => exact L.keeps_countedLoop hev fuel s he
  | forIn name range body =>
    have hr : L.expr range := hchild (by simp [Expr.children])
    have hb : L.expr body := hchild (by simp [Expr.children])
    exact L.keeps_itemLoop hev hs name hr hb
  | «while» condition body => exact L.keeps_whileLoop hev fuel s he

/-- Evaluation keeps to the logic, however much fuel there is. With none it ends for want of it,
which every logic allows. -/
theorem evaluates_evaluateFrom (fuel : Nat) : L.Evaluates (evaluateFrom fuel) := by
  induction fuel with
  | zero => exact fun _ _ _ _ => .outOfFuel
  | succ fuel ih => exact fun e s he hs => L.keeps_step ih fuel he hs

/-- So evaluation does with as much fuel as it is given. -/
theorem evaluates_evaluate : L.Evaluates Expr.evaluate := L.evaluates_evaluateFrom enough

/-- A call from a scope keeps to the logic, also if no script is running that it is part of. -/
theorem keeps_valueCall {v : Value} (hv : L.value v) {args : List Value} (ha : L.values args)
    {caller : ScopeId} (hcaller : L.scope caller) :
    L.Keeps L.value (v.call args caller) :=
  L.keeps_callValue L.evaluates_evaluate hcaller hv ha

/-- A script keeps to the logic if all of its statements meet what the logic asks of expressions. -/
theorem keeps_program (hs : L.scope s) {es : List Expr} (he : ∀ e ∈ es, L.expr e) :
    L.Keeps L.value (Program.run es s) := by
  -- the value of the last statement so far is carried along
  suffices ∀ last, L.value last →
      L.Keeps L.value (Program.runFrom Expr.evaluate s last es) from
    this .null Value.allCallables_null
  induction es with
  | nil => exact fun last hl => .pure hl
  | cons e es ih =>
    intro last _
    obtain ⟨he, hes⟩ := List.forall_mem_cons.1 he
    refine .bind (.note _ _) fun _ _ => ?_
    exact .bind (L.evaluates_evaluate e s he hs) fun v hv => ih hes v hv

end CommandLanguage.Eval.Logic
