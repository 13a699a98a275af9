import CommandLanguage.Proofs.Eval.Invariant
import CommandLanguage.Proofs.Scope.Names

/-!
# Names stay where they are made

Evaluation binds new names in the scope that it is given and in scopes that it makes, and in no
other one: not in the scopes around, in those of callers, or in those that functions remember.

The invariant is about one scope at a time, which nothing is evaluated in: it is there, and what
is bound in it is among some given names. Loops need a second look, since nothing is evaluated in
the scope of a loop but in a new one. So does the body of a function: default values of parameters
may add names to the scope of the caller, but the body may not.
-/

namespace CommandLanguage

/-- From one world to another one, no name is added to a scope. -/
def World.NoNewName (t : ScopeId) (before after : World) : Prop :=
  after.scopes.names t ⊆ before.scopes.names t

/-- The scope `t` is there and binds none but the given names. -/
structure Scopes.Guarded (t : ScopeId) (names : List String) (σ : Scopes) : Prop where
  /-- it has been made -/
  made : t < σ.size
  /-- no name is new -/
  known : σ.names t ⊆ names

namespace Eval

variable {t : ScopeId} {names : List String}

/-- No scope is taken away. -/
def present (t : ScopeId) : Invariant :=
  .ofScopes (t < ·.size) (fun _ => True)
    (fun _ _ h _ => by rw [Scopes.size_define]; exact h)
    (fun _ _ h _ => by rw [Scopes.size_assign]; exact h)
    (fun _ h _ => by rw [Scopes.size_remove]; exact h)
    (fun s h => ⟨trivial, by rw [Scopes.size_extend s]; exact Nat.lt_succ_of_lt h⟩)

/-- What is evaluated in other scopes keeps a scope guarded. -/
def guarded (t : ScopeId) (names : List String) : Invariant :=
  .ofScopes (Scopes.Guarded t names) (· ≠ t)
    (fun _ _ h hs => by
      refine ⟨by rw [Scopes.size_define]; exact h.made, ?_⟩
      exact List.Subset.trans
        (Scopes.names_define_subset _ h.made fun hst => absurd hst hs) h.known)
    (fun _ _ h hs => by
      refine ⟨by rw [Scopes.size_assign]; exact h.made, ?_⟩
      exact List.Subset.trans (Scopes.names_assign_subset _ h.made hs) h.known)
    (fun _ h _ => by
      refine ⟨by rw [Scopes.size_remove]; exact h.made, ?_⟩
      exact List.Subset.trans (Scopes.names_remove_subset _ _ h.made) h.known)
    (fun s h => by
      refine ⟨Scopes.extend_ne h.made, ?_, ?_⟩
      · rw [Scopes.size_extend]
        exact Nat.lt_succ_of_lt h.made
      · have hsame := Scopes.names_subset_of_bindings (Scopes.bindings_extend (s := s) h.made)
        exact List.Subset.trans hsame h.known)

/-- A run that keeps a scope guarded, whatever the names, adds no name to it. -/
theorem noNewName_of_keeps {m : Run Value}
    (h : ∀ names, (guarded t names).Keeps (guarded t names).value m) {w : World}
    (ht : t < w.scopes.size) (c : Settings) : w.NoNewName t (m c w).2 :=
  (h (w.scopes.names t) c w ⟨ht, List.Subset.refl _⟩).1.known

/-! ## Loops

The scope that a loop is evaluated in may be the guarded one. -/

theorem keeps_for (fuel : Nat) (init condition step : List Expr) (body : Expr) (s : ScopeId) :
    (guarded t names).Keeps (guarded t names).value
      (evaluateFrom fuel (.for init condition step body) s) := by
  cases fuel with
  | zero => exact .outOfFuel
  | succ fuel =>
    have hev := (guarded t names).evaluates_evaluateFrom fuel
    exact (guarded t names).logic.keeps_countedLoop hev fuel s trivial

theorem keeps_while (fuel : Nat) (condition : List Expr) (body : Expr) (s : ScopeId) :
    (guarded t names).Keeps (guarded t names).value
      (evaluateFrom fuel (.while condition body) s) := by
  cases fuel with
  | zero => exact .outOfFuel
  | succ fuel =>
    have hev := (guarded t names).evaluates_evaluateFrom fuel
    exact (guarded t names).logic.keeps_whileLoop hev fuel s trivial

/-! ## Bodies of functions

The body of a function runs in a scope of its own, below the one that the function was made in. What
it may write to are that scope and those further outwards. -/

/-- What goes before the body of a function that is called: a scope is made for it, and the
parameters are bound there. -/
def openCall (ev : Evaluator) (caller : ScopeId) (c : Closure) (args : List Value) :
    Run ScopeId := do
  let depth ← Run.calls
  Run.note .trace fun _ =>
    s!"call function name={c.shownName} argc={args.length} depth={depth}"
  let s ← Run.extend c.scope
  bindParameters ev caller s c.parameters args
  return s

theorem enter_eq_openCall (ev : Evaluator) (caller : ScopeId) (c : Closure) (args : List Value) :
    enter ev caller c args = openCall ev caller c args >>= ev c.body := by
  simp only [enter, openCall, bind_assoc, pure_bind]

/-- The scope of a call is a new one, also when the caller's own scope is the guarded one. -/
theorem openCall_ne (caller : ScopeId) (k : Closure) (args : List Value) :
    (present t).Keeps (· ≠ t) (openCall Expr.evaluate caller k args) := by
  refine .bind .calls fun depth _ => .bind (Run.Keeps.note _ _) fun _ _ => ?_
  refine .bind (P := (· ≠ t)) (fun c w hw => ?_) fun inside hin => ?_
  · exact ⟨((present t).extend k.scope hw).2, Scopes.extend_ne (s := k.scope) hw⟩
  · have hbind : (present t).Keeps (fun _ => True)
        (bindParameters Expr.evaluate caller inside k.parameters args) :=
      (present t).logic.keeps_bindParameters (present t).evaluates_evaluate trivial trivial (c := k)
        trivial (fun _ h => h) fun _ _ _ _ => trivial
    exact .bind hbind fun _ _ => .pure hin

/-- **Evaluation confines names.** In a scope `t` that is there before, no name is bound afterwards
that was not bound before, as long as nothing is evaluated in `t` itself; for loops with conditions
and for the bodies of functions, also if it is. -/
theorem evaluate_noNewName {t : ScopeId} {w : World} (ht : t < w.scopes.size) (c : Settings) :
    (∀ (e : Expr) (s : ScopeId), s ≠ t → w.NoNewName t (e.evaluate s c w).2) ∧
    (∀ (condition : List Expr) (body : Expr) (s : ScopeId),
      w.NoNewName t ((Expr.while condition body).evaluate s c w).2) ∧
    (∀ (init condition step : List Expr) (body : Expr) (s : ScopeId),
      w.NoNewName t ((Expr.for init condition step body).evaluate s c w).2) ∧
    (∀ (v : Value) (args : List Value) (caller : ScopeId), caller ≠ t →
      w.NoNewName t (v.call args caller c w).2) ∧
    ∀ (k : Closure) (args : List Value) (caller : ScopeId),
      enter Expr.evaluate caller k args =
        openCall Expr.evaluate caller k args >>= k.body.evaluate ∧
      ∀ inside w', openCall Expr.evaluate caller k args c w = (.value inside, w') →
        w'.NoNewName t (k.body.evaluate inside c w').2 := by
  refine ⟨fun e s hs => ?_, fun condition body s => ?_, fun init condition step body s => ?_,
    fun v args caller hcaller => ?_, fun k args caller => ⟨?_, fun inside w' h => ?_⟩⟩
  · exact noNewName_of_keeps
      (fun names => (guarded t names).evaluates_evaluate e s trivial hs) ht c
  · exact noNewName_of_keeps (fun names => keeps_while enough condition body s) ht c
  · exact noNewName_of_keeps (fun names => keeps_for enough init condition step body s) ht c
  · exact noNewName_of_keeps (fun names => (guarded t names).keeps_valueCall
      (fun _ _ => trivial) (fun _ _ _ _ => trivial) hcaller) ht c
  · exact enter_eq_openCall Expr.evaluate caller k args
  · -- the scope of a call is a new one, so it is not the one in question
    obtain ⟨hpresent, hne⟩ := openCall_ne caller k args c w ht
    rw [h] at hpresent hne
    exact noNewName_of_keeps
      (fun names => (guarded t names).evaluates_evaluate k.body inside trivial hne) hpresent c

/-- An assignment in a child of the root adds no name to the root, and neither does a call from
there of a function that makes it. -/
theorem evaluate_noNewName_root :
    let w : World := { scopes := #[{}, { parent? := some 0 }] }
    let e : Expr := .assign (.variable "x" false) (.number 1)
    let f : Value := .function ⟨0, none, [], e, 1⟩
    0 < w.scopes.size ∧ (1 : ScopeId) ≠ 0 ∧ w.NoNewName 0 (e.evaluate 1 {} w).2 ∧
      w.NoNewName 0 (f.call [] 1 {} w).2 :=
  have h := evaluate_noNewName (t := 0) (w := { scopes := #[{}, { parent? := some 0 }] })
    (by decide) {}
  ⟨by decide, by decide, h.1 _ 1 (by decide), h.2.2.2.1 _ [] 1 (by decide)⟩

end Eval

end CommandLanguage
