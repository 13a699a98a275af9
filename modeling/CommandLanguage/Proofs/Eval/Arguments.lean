import CommandLanguage.Eval.Basic
import CommandLanguage.Proofs.Run.Returns

/-!
# What calls pass

A call passes the text of a word and the items of a list, where an array literal holds the value of
the word and the list itself. So a call that is given its arguments in an array literal passes
something else than a call that is given them one by one, unless each of them passes just its own
value (`Eval.PassValues`).
-/

namespace CommandLanguage

namespace Eval

variable {ev : Evaluator} {s : ScopeId} {c : Settings} {w : World} {es : List Expr}

/-! ## Expressions without parts -/

/-- Whether an expression is evaluated without evaluating others. The arguments of a command as they
are written are all of this kind. -/
def isAtomic : Expr → Bool
  | .number _ | .text _ _ | .boolean _ | .variable _ _ | .braces _ | .parameter _ => true
  | _ => false

/-- Little fuel suffices for an expression without parts. -/
theorem evaluateFrom_of_isAtomic {e : Expr} (h : isAtomic e = true) (m n : Nat) (s : ScopeId) :
    evaluateFrom (m + 1) e s = evaluateFrom (n + 1) e s := by
  cases e <;> first | rfl | cases h

theorem arguments_of_isAtomic (h : ∀ e ∈ es, isAtomic e = true) (m n : Nat) (s : ScopeId) :
    arguments (evaluateFrom (m + 1)) s es = arguments (evaluateFrom (n + 1)) s es := by
  induction es with
  | nil => rfl
  | cons e es ih =>
    obtain ⟨he, hes⟩ := List.forall_mem_cons.1 h
    rw [arguments, arguments, ih hes, argument, argument, evaluateFrom_of_isAtomic he m n]

theorem values_of_isAtomic (h : ∀ e ∈ es, isAtomic e = true) (m n : Nat) (s : ScopeId) :
    values (evaluateFrom (m + 1)) s es = values (evaluateFrom (n + 1)) s es := by
  induction es with
  | nil => rfl
  | cons e es ih =>
    obtain ⟨he, hes⟩ := List.forall_mem_cons.1 h
    rw [values, values, ih hes, evaluateFrom_of_isAtomic he m n]

/-! ## Arguments and values -/

/-- What an expression with a value passes to a call. -/
def passed (e : Expr) (v : Value) : List Value :=
  match e.bareWord? with
  | some word => [.text word]
  | none => v.spread

/-- Each of several expressions, evaluated in order, passes its value as it is. A list passes its
items instead, and a word its text, which may not be its value. -/
def PassValues (ev : Evaluator) (s : ScopeId) (c : Settings) : World → List Expr → Prop
  | _, [] => True
  | w, e :: es =>
    match ev e s c w with
    | (.value v, w') => passed e v = [v] ∧ PassValues ev s c w' es
    | _ => True

theorem eq_of_bareWord? {e : Expr} {word : String} (h : e.bareWord? = some word) :
    e = .variable word false := by
  unfold Expr.bareWord? at h
  split at h
  · cases h
    rfl
  · cases h

/-- A name is read without a fault, and nothing changes unless a random number is drawn. Only the
one name for that makes reading more than looking something up. -/
theorem exists_read (s : ScopeId) (name : String) (c : Settings) (w : World) :
    ∃ v? w', Run.read s name c w = (.value v?, w') ∧
      (w' = w ∨ name = Run.randomName ∧ ∃ n, v? = some (.number n)) := by
  cases hget : w.scopes.get? s name with
  | some v => exact ⟨some v, w, Run.read_of_get? hget, .inl rfl⟩
  | none =>
    by_cases hname : name = Run.randomName
    · subst hname
      obtain ⟨w', hread, -⟩ := Run.exists_read_random hget
      exact ⟨_, w', hread, .inr ⟨rfl, _, rfl⟩⟩
    · exact ⟨none, w, Run.read_of_unbound hget hname, .inl rfl⟩

/-- A word is read without a change if its value is its own text, or if it is another name than that
of the random numbers. -/
theorem exists_readVariable (s : ScopeId) (word : String) (c : Settings) (w : World) :
    ∃ v w', readVariable s word false c w = (.value v, w') ∧
      (v = .text word ∨ word ≠ Run.randomName → w' = w) := by
  obtain ⟨v?, w', hread, hsame⟩ := exists_read s word c w
  refine ⟨v?.getD (.text word), w', by rw [readVariable, Run.bind_apply hread]; rfl, fun hv => ?_⟩
  rcases hsame with hsame | ⟨rfl, n, rfl⟩
  · exact hsame
  · rcases hv with hv | hv
    · cases hv
    · exact absurd rfl hv

/-- An unbound word stands for its own text. -/
theorem readVariable_of_unbound {s : ScopeId} {word : String} {c : Settings} {w : World}
    (h : (w.scopes.get? s word).isNone = true) (hword : word ≠ Run.randomName) :
    readVariable s word false c w = (.value (.text word), w) := by
  have hread := Run.read_of_unbound (c := c) (Option.isNone_iff_eq_none.1 h) hword
  rw [readVariable, Run.bind_apply hread]
  rfl

/-- Expressions that pass their values pass what an array literal of them holds. -/
theorem arguments_eq_values
    (hword : ∀ word, ev (.variable word false) s = readVariable s word false)
    (h : PassValues ev s c w es) : arguments ev s es c w = values ev s es c w := by
  induction es generalizing w with
  | nil => rfl
  | cons e es ih =>
    rw [arguments, values, argument]
    cases hbare : e.bareWord? with
    | some word =>
      -- only the array literal reads the word, which changes nothing if it stands for itself
      obtain rfl := eq_of_bareWord? hbare
      obtain ⟨v, w', hread, hsame⟩ := exists_readVariable s word c w
      rw [PassValues, hword, hread] at h
      obtain ⟨hpassed, hrest⟩ := h
      obtain rfl : .text word = v := by simpa [passed, hbare] using hpassed
      obtain rfl := hsame (.inl rfl)
      rw [Run.bind_apply (m := ev _ s) (by rw [hword]; exact hread)]
      simp only [pure_bind]
      exact Run.bind_congr (ih hrest) fun _ _ _ => rfl
    | none =>
      simp only [bind_assoc, pure_bind]
      refine Run.bind_congr rfl fun v w' hv => ?_
      rw [PassValues, hv] at h
      obtain ⟨hpassed, hrest⟩ := h
      have hspread : v.spread = [v] := by simpa [passed, hbare] using hpassed
      rw [hspread]
      exact Run.bind_congr (ih hrest) fun _ _ _ => rfl

/-! ## Where they differ

An argument is a text for itself if it is a word, and is evaluated otherwise. The items of an array
literal are evaluated all, so a word in one is looked up. -/

/-- What a call passes for a value is one item, or has not the value itself among its items. -/
theorem passed_eq_or_not_mem (e : Expr) (v : Value) :
    (∃ x, passed e v = [x]) ∨ v ∉ passed e v := by
  unfold passed
  split
  · exact .inl ⟨_, rfl⟩
  · cases v with
    | list items =>
      refine .inr fun h => ?_
      have hsize := List.sizeOf_lt_of_mem (show Value.list items ∈ items from h)
      simp only [Value.list.sizeOf_spec] at hsize
      omega
    | _ => exact .inl ⟨_, rfl⟩

/-- Lists of items, each with an item that it does not hold unless it is its only one: put together,
they lag behind these items for ever once they do. -/
theorem flatten_ne_append {α : Type} {ps : List (List α × α)}
    (h : ∀ p ∈ ps, (∃ x, p.1 = [x]) ∨ p.2 ∉ p.1) {lag : List α} (hlag : lag ≠ []) :
    (ps.map Prod.fst).flatten ≠ lag ++ ps.map Prod.snd := by
  induction ps generalizing lag with
  | nil => simpa [eq_comm] using hlag
  | cons p ps ih =>
    obtain ⟨hp, hps⟩ := List.forall_mem_cons.1 h
    obtain ⟨xs, v⟩ := p
    intro heq
    simp only [List.map_cons, List.flatten_cons] at heq
    rcases List.append_eq_append_iff.1 heq with ⟨lag', -, hrest⟩ | ⟨xs', hxs, hrest⟩
    · have hlag' : lag' ++ [v] ≠ [] := by simp
      exact ih hps hlag' (by simpa using hrest)
    · cases xs' with
      | nil => exact ih hps (List.cons_ne_nil v []) (by simpa using hrest.symm)
      | cons x xs' =>
        -- the items reach as far as the one that they do not hold
        obtain ⟨rfl, -⟩ := List.cons.inj hrest
        rcases hp with ⟨y, hy⟩ | hp
        · obtain ⟨u, us, rfl⟩ := List.exists_cons_of_ne_nil hlag
          simp [hxs] at hy
        · exact hp (by simp [hxs])

/-- Put together, such lists of items are these items only if each is just its own. -/
theorem eq_singleton_of_flatten_eq {α : Type} {ps : List (List α × α)}
    (h : ∀ p ∈ ps, (∃ x, p.1 = [x]) ∨ p.2 ∉ p.1)
    (heq : (ps.map Prod.fst).flatten = ps.map Prod.snd) : ∀ p ∈ ps, p.1 = [p.2] := by
  induction ps with
  | nil => exact nofun
  | cons p ps ih =>
    obtain ⟨hp, hps⟩ := List.forall_mem_cons.1 h
    obtain ⟨xs, v⟩ := p
    simp only [List.map_cons, List.flatten_cons] at heq
    match xs, hp with
    -- without an item of its own, the first list leaves the others behind by one
    | [], _ => exact absurd heq (flatten_ne_append hps (List.cons_ne_nil v []))
    | [x], _ =>
      obtain ⟨rfl, hrest⟩ := List.cons.inj heq
      exact List.forall_mem_cons.2 ⟨rfl, ih hps hrest⟩
    | x :: y :: xs, hp =>
      obtain ⟨rfl, -⟩ := List.cons.inj heq
      rcases hp with ⟨z, hz⟩ | hp
      · cases hz
      · exact absurd List.mem_cons_self hp

/-- What is passed for values one by one, if no word is read with a change. -/
theorem exists_passed (hword : ∀ word, ev (.variable word false) s = readVariable s word false)
    (hfixed : ∀ e ∈ es, e.bareWord? ≠ some Run.randomName) {vs : List Value} {w' : World}
    (h : values ev s es c w = (.value vs, w')) :
    ∃ ps : List (List Value × Value), ps.map Prod.snd = vs ∧
      (∀ p ∈ ps, (∃ x, p.1 = [x]) ∨ p.2 ∉ p.1) ∧
      arguments ev s es c w = (.value (ps.map Prod.fst).flatten, w') ∧
      ((∀ p ∈ ps, p.1 = [p.2]) → PassValues ev s c w es) := by
  induction es generalizing w vs with
  | nil =>
    cases h
    exact ⟨[], rfl, nofun, rfl, fun _ => trivial⟩
  | cons e es ih =>
    obtain ⟨he, hes⟩ := List.forall_mem_cons.1 hfixed
    obtain ⟨v, w₁, hv, hrest⟩ := Run.exists_of_bind h
    obtain ⟨vs₁, w₂, hvs, hpure⟩ := Run.exists_of_bind hrest
    cases hpure
    obtain ⟨ps, hsnd, hps, harguments, hpass⟩ := ih hes hvs
    -- a word passes its text without being read, and reading it would have changed nothing
    have hargument : argument ev s e c w = (.value (passed e v), w₁) := by
      unfold argument passed
      cases hbare : e.bareWord? with
      | some word =>
        obtain rfl := eq_of_bareWord? hbare
        obtain ⟨v', w'', hread, hsame⟩ := exists_readVariable s word c w
        rw [hword, hread] at hv
        cases hv
        rw [hsame (.inr fun hname => he (by rw [hbare, hname]))]
        rfl
      | none => exact Run.bind_apply hv
    refine ⟨(passed e v, v) :: ps, by simp [hsnd],
      List.forall_mem_cons.2 ⟨passed_eq_or_not_mem e v, hps⟩, ?_, fun hall => ?_⟩
    · rw [arguments, Run.bind_apply hargument, Run.bind_apply harguments]
      rfl
    · obtain ⟨hown, hall⟩ := List.forall_mem_cons.1 hall
      rw [PassValues, hv]
      exact ⟨hown, hpass hall⟩

/-- Expressions that pass what an array literal of them holds pass their values, if all of them have
values and no word is read with a change. -/
theorem passValues_of_arguments_eq
    (hword : ∀ word, ev (.variable word false) s = readVariable s word false)
    (hfixed : ∀ e ∈ es, e.bareWord? ≠ some Run.randomName) {vs : List Value} {w' : World}
    (hvalues : values ev s es c w = (.value vs, w'))
    (h : arguments ev s es c w = values ev s es c w) : PassValues ev s c w es := by
  obtain ⟨ps, hsnd, hps, harguments, hpass⟩ := exists_passed hword hfixed hvalues
  rw [hvalues, harguments] at h
  obtain ⟨hflatten, -⟩ := Prod.mk.inj h
  cases hflatten
  exact hpass (eq_singleton_of_flatten_eq hps hsnd.symm)

/-- An array literal passes the values of its items. -/
theorem arguments_array (h : ∀ e ∈ es, isAtomic e = true) (n : Nat) (s : ScopeId) :
    arguments (evaluateFrom (n + 2)) s [.array es] = values (evaluateFrom (n + 2)) s es := by
  have harray : evaluateFrom (n + 2) (.array es) s =
      (do return .list (← values (evaluateFrom (n + 1)) s es)) := rfl
  rw [values_of_isAtomic h (n + 1) n, arguments, argument]
  change (do return (← evaluateFrom (n + 2) (.array es) s).spread) >>= _ = _
  rw [harray]
  simp [arguments, Value.spread]

/-! ## Calls -/

/-- A name that can be called is found without a change. The name that stands for a random number is
read with a change, but what is read there is a number, and it cannot be called. -/
theorem eq_of_callee {name : String} {deref : Bool} {v : Value} {w' : World}
    (h : callee ev s (.variable name deref) c w = (.value v, w')) : w' = w := by
  obtain ⟨v?, w₁, hread, hsame⟩ := exists_read s name c w
  unfold callee at h
  dsimp only at h
  rw [Run.bind_apply hread] at h
  rcases hsame with rfl | ⟨-, n, rfl⟩
  · cases v? with
    | none => cases h
    | some v₁ =>
      dsimp only at h
      split at h <;> cases h
      rfl
  · cases h

/-- A call of a name does what another one does that passes the same. What is called is found before
the arguments are looked at, and in the same world. -/
theorem call_congr {name : String} {deref : Bool} {es' : List Expr}
    (h : arguments ev s es c w = arguments ev s es' c w) :
    call ev s (.variable name deref) es c w = call ev s (.variable name deref) es' c w := by
  refine Run.bind_congr rfl fun f w' hf => ?_
  obtain rfl := eq_of_callee hf
  exact Run.bind_congr h fun _ _ _ => rfl

/-! ## Commands that are called by name

What a statement that gives words to a command does can be computed: its arguments are the words,
and the command is found under its name. -/

theorem callee_command {k : Command} {f : String} (hf : w.scopes.get? s f = some (.command k)) :
    callee ev s (.variable f false) c w = (.value (.command k), w) := by
  rw [callee]
  dsimp only
  rw [Run.bind_apply (Run.read_of_get? hf)]
  rfl

/-- A command is run with what is passed to it. All that is done before is to take a note, which the
settings may ask for or not. -/
theorem exists_call_command {k : Command} {f : String} {vs : List Value}
    (hf : w.scopes.get? s f = some (.command k)) (hes : arguments ev s es c w = (.value vs, w)) :
    ∃ notes, call ev s (.variable f false) es c w = k.run vs c { w with notes } := by
  obtain ⟨notes, hnotes⟩ :=
    Run.exists_note .trace (fun _ => s!"call builtin name={k.name} argc={vs.length}") c w
  refine ⟨notes, ?_⟩
  rw [call, Run.bind_apply (callee_command hf), Run.bind_apply hes, callValue, Run.note_bind_apply,
    hnotes]

/-- There is fuel for a call, an array literal and its items. -/
theorem exists_enough : ∃ n, enough = n + 3 := ⟨enough - 3, by decide⟩

end Eval

namespace Expr

open Eval

variable {s : ScopeId} {c : Settings} {w : World} {es : List Expr}

theorem evaluate_word (word : String) (s : ScopeId) :
    evaluate (.variable word false) s = readVariable s word false := by
  obtain ⟨n, hn⟩ := exists_enough
  rw [evaluate, hn]
  rfl

/-- Expressions in an array literal pass what they pass one by one if each of them passes its own
value, and only then if all have values and no word is read with a change. For then the two lists
are as long as each other and can be compared item by item. -/
theorem arguments_array_eq_iff (hes : ∀ e ∈ es, isAtomic e = true)
    (hfixed : ∀ e ∈ es, e.bareWord? ≠ some Run.randomName) {vs : List Value} {w' : World}
    (hvalues : values evaluate s es c w = (.value vs, w')) :
    arguments evaluate s [.array es] c w = arguments evaluate s es c w ↔
      PassValues evaluate s c w es := by
  have harray : arguments evaluate s [.array es] = values evaluate s es := by
    obtain ⟨n, hn⟩ := exists_enough
    rw [evaluate, hn]
    exact arguments_array hes (n + 1) s
  rw [harray]
  constructor
  · intro h
    exact passValues_of_arguments_eq (evaluate_word · s) hfixed hvalues h.symm
  · intro h
    exact (arguments_eq_values (evaluate_word · s) h).symm

/-- A call of a name that is given its arguments in an array literal does what one does that is
given them one by one, if each of them passes its own value. A fault is passed on by both in the
same way. -/
theorem evaluate_call_array {name : String} (hes : ∀ e ∈ es, isAtomic e = true)
    (h : PassValues evaluate s c w es) :
    evaluate (.call (.variable name false) [.array es]) s c w =
      evaluate (.call (.variable name false) es) s c w := by
  have hpassed := arguments_eq_values (evaluate_word · s) h
  obtain ⟨n, hn⟩ := exists_enough
  rw [evaluate, hn] at hpassed ⊢
  refine call_congr ?_
  rw [arguments_array hes n, arguments_of_isAtomic hes (n + 1) (n + 2), hpassed,
    values_of_isAtomic hes (n + 1) (n + 2)]

end Expr

end CommandLanguage
