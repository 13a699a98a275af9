import CommandLanguage.Proofs.Grammar.Carries

/-!
# Statements before others

One lemma for each part of the grammar: what it reads, it reads with more tokens behind (`Carries`),
and the last of the tokens that a tree takes is no `;`. All of them take this for granted of the trees
further down, which `tree_carries` then shows by induction on how deep trees may go.

So a script ends where it ends: if its tokens end in a `;`, then with those of another script behind
them the statements of both are read (`program_append`).

The grades are as low as they have to be. Trees, statements and blocks are solid, since they end in a
token of their own; what may be empty, like arguments, is closed; and where semicolons are passed,
nothing is known. A block may have semicolons in it all the same, because the token that closes it is
still to come when it is left to its statements.
-/

namespace CommandLanguage.Grammar

open Token (Alike)

variable {self self' : Nat → Parse Expr} {P : Option Token → Prop} {t t' : Token}
  {ts ts' : List Token}

/-! ## Values -/

/-- Where an index stands only shows in its faults. If there is none, then the index can be read
anywhere. -/
theorem index_position {raw : String} {p : Position} {e : Expr} (h : index self raw p = .ok e)
    (p' : Position) : index self raw p' = .ok e := by
  unfold index at h ⊢
  simp only [StateT.run, Bind.bind, StateT.bind] at h ⊢
  -- only an empty index is at fault at that place
  cases hpeek : peek (.ofText raw.toList) with
  | error f =>
    rw [hpeek] at h
    cases h
  | ok x =>
    obtain ⟨t?, s⟩ := x
    rw [hpeek] at h
    cases t? with
    | none => cases h
    | some t => exact h

/-- An index is read apart, from its own text, so that tokens behind it are of no concern. All that
changes are the trees it is read with. -/
theorem index_carries (hx : ∀ limit, Extends (self limit) (self' limit)) {raw : String}
    {p : Position} {e : Expr} (h : index self raw p = .ok e) (p' : Position) :
    index self' raw p' = .ok e := by
  have h' := index_position h p'
  rcases index_extends hx raw p' with htoo | heq
  · rw [h'] at htoo
    cases htoo
  · rw [heq, h']

mutual

/-- A token that stands for a value stands for the same one in another place. An array literal holds
tokens, so this is by induction along the definition, with the items in turn. -/
theorem value_carries (hx : ∀ limit, Extends (self limit) (self' limit)) :
    ∀ {t t' : Token} {e : Expr},
      t.unplaced = t'.unplaced → value self t = .ok e → value self' t' = .ok e
  | .plain l p, t', e, ht, h => by
    obtain ⟨p', rfl⟩ : ∃ p', t' = .plain l p' := by
      obtain ⟨_, _, p', heq, rfl⟩ | ⟨_, _, _, _, heq, -⟩ := plain_or_array ht
      · cases heq
        exact ⟨p', rfl⟩
      · cases heq
    cases l with
    | «variable» n d raw =>
      cases raw with
      | none => exact h
      | some raw =>
        obtain ⟨i, hi, rfl⟩ : ∃ i, index self raw p.start = .ok i ∧ .element n d i = e := by
          cases hi : index self raw p.start with
          | error f => simp [value, hi, Except.map] at h
          | ok i => exact ⟨i, rfl, by simpa [value, hi, Except.map] using h⟩
        simp only [value, index_carries hx hi p'.start, Except.map]
    | keyword => cases h
    | operator => cases h
    | punctuation => cases h
    | _ => exact h
  -- an array in another place has items alike, which are read by `values_carries`
  | .array items p, t', e, ht, h => by
    obtain ⟨items', p', rfl, hitems⟩ : ∃ items' p', t' = .array items' p' ∧ Alike items items' := by
      obtain ⟨_, _, _, heq, -⟩ | ⟨_, items', _, p', heq, rfl, hitems⟩ := plain_or_array ht
      · cases heq
      · cases heq
        exact ⟨items', p', rfl, hitems⟩
    cases hes : values self items with
    | error f => simp [value, hes, Except.map] at h
    | ok es =>
      simp only [value, hes, Except.map] at h
      simp only [value, values_carries hx hitems hes, Except.map, h]

/-- The items of an array, each of them by itself. -/
theorem values_carries (hx : ∀ limit, Extends (self limit) (self' limit)) :
    ∀ {ts ts' : List Token} {es : List Expr},
      Alike ts ts' → values self ts = .ok es → values self' ts' = .ok es
  | [], ts', es, hts, h => by
    obtain rfl := hts.symm.eq_nil
    exact h
  | t :: ts, ts', es, hts, h => by
    obtain ⟨t', ts', rfl, ht, hts'⟩ := hts.symm.exists_cons
    cases he : value self t with
    | error f => simp [values, he, Bind.bind, Except.bind] at h
    | ok e =>
      cases hes : values self ts with
      | error f => simp [values, he, hes, Bind.bind, Except.bind] at h
      | ok es' =>
        simp only [values, he, hes, Bind.bind, Except.bind] at h
        simp only [values, value_carries hx ht.symm he, values_carries hx hts'.symm hes, Bind.bind,
          Except.bind, h]

end

/-! ## Calls and operators -/

variable (hx : ∀ limit, Extends (self limit) (self' limit))
  (h : ∀ limit P, Carries P .solid Eq (self limit) (self' limit))

include h

/-- Trees between commas. The last of them is solid, and so is the list. -/
theorem listItems_carries {fuel fuel' : Nat} (hfuel : fuel ≤ fuel') :
    Carries P .solid Eq (listItems self fuel) (listItems self' fuel') := by
  induction fuel generalizing fuel' P with
  | zero => exact .throw _
  | succ fuel ih =>
    obtain ⟨fuel', rfl⟩ : ∃ f, fuel' = f + 1 := Nat.exists_eq_add_one.2 (by omega)
    refine .bind_eq (h 0 P) fun e => .bind_eq (.acceptPunctuation (by decide)) fun more => ?_
    exact .ite (.bind_eq (.of_solid (ih (by omega))) fun es => .pure rfl) (.pure rfl)

/-- A list may be empty, so it is closed and not more. What closes it is taken by the caller, and
with it what the caller reads is solid. -/
theorem list_carries (stop : Char) :
    Carries P .closed Eq (list self stop) (list self' stop) := by
  refine .atPunctuation (fun _ _ => .pure rfl) ?_
  exact .bind .budget fun _ _ hfuel => .of_solid (listItems_carries h hfuel)

/-- The operators behind a tree. An operator that binds too weakly is not taken, and would be looked
at again by the tree around. -/
theorem operators_carries {limit fuel fuel' : Nat} (hfuel : fuel ≤ fuel') (left : Expr) :
    Carries P .closed Eq (operators self limit fuel left) (operators self' limit fuel' left) := by
  -- one unit of fuel for each operator; with more tokens there is more of it
  induction fuel generalizing fuel' left P with
  | zero => exact .throw _
  | succ fuel ih =>
    obtain ⟨fuel', rfl⟩ : ∃ f, fuel' = f + 1 := Nat.exists_eq_add_one.2 (by omega)
    refine .operator? (.pure rfl) fun o p q => .ite (.pure rfl) ?_
    refine .bind (.of_solid (.advance rfl)) fun _ _ _ => .ite (ih (by omega) _) ?_
    exact .bind_eq (.of_solid (h _ _)) fun right => ih (by omega) _

omit h

include hx

/-- A token ends the arguments of a command, or it stands for an argument and is no `;`. So a
command whose arguments come to an end before some token ends there in both. -/
theorem argument?_carries (ht : t.unplaced = t'.unplaced) :
    (argument? self t = none ∧ argument? self' t' = none) ∨
      ∃ x y, argument? self t = some x ∧ argument? self' t' = some y ∧
        t.isPunctuation ';' = false ∧ ∀ e, x = .ok e → y = .ok e := by
  have hvalue (e : Expr) (he : value self t = .ok e) : value self' t' = .ok e :=
    value_carries hx ht he
  obtain ⟨l, p, p', rfl, rfl⟩ | ⟨items, items', p, p', rfl, rfl, -⟩ := plain_or_array ht
  · cases l with
    | keyword w =>
      by_cases hw : ["then", "else", "do", "done"].contains w = true
      · exact .inl ⟨if_pos hw, if_pos hw⟩
      · exact .inr ⟨_, _, if_neg hw, if_neg hw, rfl, fun _ he => he⟩
    | operator o => exact .inl ⟨rfl, rfl⟩
    | punctuation c => exact .inl ⟨rfl, rfl⟩
    | _ => exact .inr ⟨_, _, rfl, rfl, rfl, hvalue⟩
  · exact .inr ⟨_, _, rfl, rfl, rfl, hvalue⟩

/-- The arguments of a command, up to a token that is none. With other tokens behind, the same token
ends them, and this is where it matters that one is left over. -/
theorem arguments_carries {fuel fuel' : Nat} (hfuel : fuel ≤ fuel') :
    Carries P .closed Eq (arguments self fuel) (arguments self' fuel') := by
  induction fuel generalizing fuel' P with
  | zero => exact .throw _
  | succ fuel ih =>
    obtain ⟨fuel', rfl⟩ : ∃ f, fuel' = f + 1 := Nat.exists_eq_add_one.2 (by omega)
    refine .peek (.pure rfl) fun t t' ht => ?_
    rcases argument?_carries hx ht with ⟨hx, hy⟩ | ⟨x, y, hx, hy, hsemicolon, hxy⟩
    · simp only [Option.bind_some, hx, hy]
      exact .pure rfl
    · simp only [Option.bind_some, hx, hy]
      refine .bind (.of_solid (.advance hsemicolon)) fun _ _ _ => ?_
      refine .bind_eq (.lift fun e he => ⟨e, hxy e he, rfl⟩) fun e => ?_
      exact .bind_eq (ih (by omega)) fun es => .pure rfl

include h

/-- What comes behind a word: a list in parentheses, arguments, or neither. Where it is neither, the
next token shows that, and it is the same in both. -/
theorem callTail_carries (e : Expr) : Carries P .closed Eq (callTail self e) (callTail self' e) := by
  refine .ite (.pure rfl) (.bind_eq (.acceptPunctuation (by decide)) fun open? => .ite ?_ ?_)
  · refine .bind_eq (list_carries h ')') fun args => ?_
    exact .bind (.of_solid (.expectPunctuation (by decide))) fun _ _ _ => .pure rfl
  · refine .bind .budget fun _ _ hfuel => ?_
    exact .bind_eq (arguments_carries hx hfuel) fun args => .pure rfl

/-! ## Statements and blocks -/

omit hx

/-- A statement is the tree that it is made of, as far as its tokens go. -/
theorem statement_carries : Carries P .solid Eq (statement self) (statement self') :=
  .bind_eq (h 0 P) fun _ => .pure rfl

/-- Statements up to the token that closes a block. Semicolons may be the last tokens that are taken,
but the token that closes them comes next. -/
theorem statementsUntil_carries {closes : Token → Bool}
    (hcloses : ∀ {t t' : Token}, t.unplaced = t'.unplaced → closes t = closes t') {fuel fuel' : Nat}
    (hfuel : fuel ≤ fuel') :
    Carries P .any Eq (statementsUntil self closes fuel) (statementsUntil self' closes fuel') := by
  induction fuel generalizing fuel' P with
  | zero => exact .throw _
  | succ fuel ih =>
    obtain ⟨fuel', rfl⟩ : ∃ f, fuel' = f + 1 := Nat.exists_eq_add_one.2 (by omega)
    refine .bind_any .skipSeparators fun _ _ _ => .peek (.unexpected _) fun t t' ht => ?_
    dsimp only
    rw [hcloses ht]
    refine .ite (.of_closed (.pure rfl)) (.bind_any (statement_carries h) ?_)
    rintro e _ rfl
    refine .peek (.unexpected _) fun t t' ht => ?_
    dsimp only
    -- behind a statement the block is closed, or there is a `;`, in both at once
    rw [hcloses ht, Alike.isPunctuation_eq ht]
    refine .ite (.bind_any (ih (by omega)) ?_) (.unexpected _)
    rintro es _ rfl
    exact .of_closed (.pure rfl)

/-- A block in braces ends in the brace that closes it, whatever its statements end in. So the
semicolons within, where the grade is lost, do not spoil it. -/
theorem block_carries : Carries P .solid Eq (block self) (block self') := by
  refine .bind_solid (.expectPunctuation (by decide)) fun _ _ _ => ?_
  refine .bind_solid .budget fun _ _ hfuel => ?_
  refine .bind_solid_eq (statementsUntil_carries h (Alike.isPunctuation_eq · _) hfuel) fun ss => ?_
  exact .bind (.expectPunctuation (by decide)) fun _ _ _ => .pure rfl

/-- A block between words ends in the word that closes it. -/
theorem doBlock_carries : Carries P .solid Eq (doBlock self) (doBlock self') := by
  refine .bind_solid (.expectKeyword _) fun _ _ _ => .bind_solid .budget fun _ _ hfuel => ?_
  refine .bind_solid_eq (statementsUntil_carries h (Alike.isKeyword_eq · _) hfuel) fun ss => ?_
  exact .bind (.expectKeyword _) fun _ _ _ => .pure rfl

/-- The body of a loop is a block of one of the two kinds. -/
theorem loopBody_carries : Carries P .solid Eq (loopBody self) (loopBody self') := by
  refine .atKeyword (fun _ _ => doBlock_carries h) ?_
  exact .atPunctuation (fun _ _ => block_carries h) (.unexpected _)

/-- A branch is a block or a statement. -/
theorem branch_carries : Carries P .solid Eq (branch self) (branch self') :=
  .atPunctuation (fun _ _ => block_carries h) (statement_carries h)

/-! ## Compound constructs -/

/-- An `if` ends in one of its branches. Whether there is an `else` is asked of the token behind the
first branch, which is left over. -/
theorem ifTree_carries : Carries P .solid Eq (ifTree self) (ifTree self') := by
  refine .bind_solid (.expectKeyword _) fun _ _ _ => .bind_solid_eq (h 0 _) fun condition => ?_
  refine .bind_solid (.bind_eq (.acceptKeyword _) fun _ => .pure rfl) ?_
  rintro _ _ rfl
  refine .bind_eq (branch_carries h) fun yes => .bind_eq (.acceptKeyword _) fun other => ?_
  exact .ite (.bind_eq (.of_solid (branch_carries h)) fun no => .pure rfl) (.pure rfl)

/-- Parameters in parentheses, or none at all. They are set apart because an array literal, which is
one token, is read in another way. -/
def listedParameters (self : Nat → Parse Expr) : Parse (List Expr) := do
  if ← acceptPunctuation '(' then
    let ps ← list self ')'
    expectPunctuation ')'
    return ps
  else return []

/-- Parameters in parentheses end in one, and if there are none then no token is taken. -/
theorem listedParameters_carries :
    Carries P .closed Eq (listedParameters self) (listedParameters self') := by
  refine .bind_eq (.acceptPunctuation (by decide)) fun open? => .ite ?_ (.pure rfl)
  refine .bind_eq (list_carries h ')') fun ps => ?_
  exact .bind (.of_solid (.expectPunctuation (by decide))) fun _ _ _ => .pure rfl

include hx

/-- An array literal is a single token, of which the parameters are the items. They are alike if the
tokens are, as places do not count. -/
theorem parameters_carries : Carries P .closed Eq (parameters self) (parameters self') := by
  refine .peek (listedParameters_carries h) fun t t' ht => ?_
  obtain ⟨l, p, p', rfl, rfl⟩ | ⟨items, items', p, p', rfl, rfl, hitems⟩ := plain_or_array ht
  · exact listedParameters_carries h
  · refine .bind (.of_solid (.advance rfl)) fun _ _ _ => .lift fun es hes => ?_
    exact ⟨es, values_carries hx hitems hes, rfl⟩

/-- The rest of a function, whose name is read. The name is kept in the tree and makes no difference
to how the parameters and the body are read. -/
def functionRest (self : Nat → Parse Expr) (name : Option String) : Parse Expr := do
  let ps ← parameters self
  match ps.find? (!isParameter ·) with
  | some e => fail .parameterName (.node e) (← get).reached
  | none => return .function 0 name ps (← branch self)

/-- Behind its name, a function is no longer told from others. Parameters that are none are refused
alike. -/
theorem functionRest_carries (name : Option String) :
    Carries P .solid Eq (functionRest self name) (functionRest self' name) := by
  refine .bind_solid_eq (parameters_carries hx h) fun ps => ?_
  split
  · exact .of_fails fun s a r => nofun
  · exact .bind_eq (branch_carries h) fun b => .pure rfl

/-- A name is taken if it comes next, and otherwise the function has none. -/
theorem functionTree_carries : Carries P .solid Eq (functionTree self) (functionTree self') := by
  refine .bind_solid (.expectKeyword _) fun _ _ _ => ?_
  have hrest {P : Option Token → Prop} (name : Option String) :=
    functionRest_carries (P := P) hx h name
  refine .peek (hrest none) fun t t' ht => ?_
  -- only a word with neither `$` nor an index is a name
  obtain ⟨l, p, p', rfl, rfl⟩ | ⟨items, items', p, p', rfl, rfl, -⟩ := plain_or_array ht
  · cases l with
    | «variable» n deref raw =>
      cases deref with
      | true => exact hrest none
      | false =>
        cases raw with
        | some raw => exact hrest none
        | none => exact .bind (.advance rfl) fun _ _ _ => .of_solid (hrest (some n))
    | _ => exact hrest none
  · exact hrest none

/-! ## Loops -/

omit hx h

/-- The tokens up to the body of a loop. Semicolons are left out of them, but the body comes next,
and that is solid again. -/
theorem conditionTokens_carries {fuel fuel' : Nat} (hfuel : fuel ≤ fuel') :
    Carries P .any Alike (conditionTokens fuel) (conditionTokens fuel') := by
  induction fuel generalizing fuel' P with
  | zero => exact .throw _
  | succ fuel ih =>
    obtain ⟨fuel', rfl⟩ : ∃ f, fuel' = f + 1 := Nat.exists_eq_add_one.2 (by omega)
    refine .peek (.unexpected _) fun t t' ht => ?_
    dsimp only
    rw [← Alike.isKeyword_eq ht, ← Alike.isPunctuation_eq ht]
    -- the body comes next, or one more token is taken, which is left out if it is a `;`
    refine .ite (.of_closed (.pure (Alike.refl []))) ?_
    refine .bind_any (.advance_of (g := .any) trivial) fun _ _ _ => ?_
    refine .bind_any (ih (by omega)) fun ts ts' hts => ?_
    refine .of_closed (.pure ?_)
    rw [← Alike.isPunctuation_eq ht]
    split
    · exact hts
    · exact .cons ht hts

/-- The head of a loop is cut out of both alike, so that it is empty in both or in neither. -/
theorem headTokens_carries : Carries P .any Alike headTokens headTokens := by
  refine .bind_any .budget fun _ _ hfuel => ?_
  refine .bind_any (conditionTokens_carries hfuel) fun ts ts' hts => ?_
  have hempty : ts.isEmpty = ts'.isEmpty := by
    cases ts with
    | nil => rw [hts.symm.eq_nil]
    | cons t ts =>
      obtain ⟨t', ts', rfl, -⟩ := hts.symm.exists_cons
      rfl
  rw [hempty]
  exact .ite (.unexpected _) (.of_closed (.pure hts))

include h

/-- A condition, and then more of them behind a comma. Set apart from the loop so that the induction
over its steps is about this alone. -/
def conditionItem (self : Nat → Parse Expr) (more : Parse (List Expr)) : Parse (List Expr) := do
  let e ← self 0
  if ← acceptPunctuation ',' then return e :: (← more)
  else if (← peek).isNone then return [e]
  else unexpected .endOfLoopCondition

/-- More conditions are read only behind a comma; without one, the head has to end here. -/
theorem conditionItem_carries {more more' : Parse (List Expr)}
    (hmore : Carries (fun _ => True) .any Eq more more') :
    Carries P .any Eq (conditionItem self more) (conditionItem self' more') := by
  refine .bind_any (h 0 P) ?_
  rintro e _ rfl
  refine .bind_any (.acceptPunctuation (by decide)) ?_
  rintro comma _ rfl
  refine .ite (.bind_any hmore ?_) (.peek (.of_closed (.pure rfl)) fun t t' _ => .unexpected _)
  rintro es _ rfl
  exact .of_closed (.pure rfl)

/-- All conditions. They are read from the tokens of the head alone, to their end. -/
theorem conditionItems_carries {fuel fuel' : Nat} (hfuel : fuel ≤ fuel') :
    Carries P .any Eq (conditionItems self fuel) (conditionItems self' fuel') := by
  induction fuel generalizing fuel' P with
  | zero => exact .throw _
  | succ fuel ih =>
    obtain ⟨fuel', rfl⟩ : ∃ f, fuel' = f + 1 := Nat.exists_eq_add_one.2 (by omega)
    exact .peek (.of_closed (.pure rfl)) fun t t' _ => conditionItem_carries h (ih (by omega))

/-- The conditions of a loop are read apart, to the end of its head. These tokens are a list of
their own, to which nothing is added when more tokens come behind the loop. -/
theorem conditions_carries (hts : Alike ts ts') :
    Carries P .closed Eq (conditions self ts) (conditions self' ts') := by
  -- the same with the head in another place, as nothing comes behind a head that was cut out
  have hrun (p p' : Position) (es : List Expr)
      (hread : ((conditionItems self (ts.length + 1)).run (.ofList ts p)).map Prod.fst = .ok es) :
      ∃ es', ((conditionItems self' (ts'.length + 1)).run (.ofList ts' p')).map Prod.fst = .ok es' ∧
        es = es' := by
    refine (conditionItems_carries (P := fun _ => True) h ?_).run ⟨?_, p', rfl⟩ trivial hread
    · exact Nat.le_of_eq (congrArg (· + 1) hts.length_eq)
    · rw [List.append_nil]
      exact (alike_ofList ts' p').trans (hts.symm.trans (alike_ofList ts p).symm)
  refine .peek ?_ fun t t' _ => ?_
  · exact .bind .get fun _ _ _ => .lift (hrun _ _)
  · exact .bind .get fun _ _ _ => .lift (hrun _ _)

/-- Behind its head, a loop with conditions is its body. -/
theorem whileTail_carries (hts : Alike ts ts') :
    Carries P .solid Eq (whileTail self ts) (whileTail self' ts') :=
  .bind_solid_eq (conditions_carries h hts) fun _ =>
    .bind_eq (loopBody_carries h) fun _ => .pure rfl

/-- Such a loop with its head. -/
theorem whileTree_carries : Carries P .solid Eq (whileTree self) (whileTree self') :=
  .bind_solid (.expectKeyword _) fun _ _ _ =>
    .bind_solid headTokens_carries fun _ _ hts => whileTail_carries h hts

include hx

omit h in
/-- What a loop runs over is cut out with the head. One token is its value, and more are an
array. -/
theorem range_carries (hts : Alike ts ts') : Carries P .closed Eq (range self ts) (range self' ts') := by
  match ts, hts with
  | [], _ => exact .unexpected _
  | [t], hts =>
    obtain ⟨t', us, rfl, ht, hus⟩ := hts.symm.exists_cons
    obtain rfl := hus.eq_nil
    exact .lift fun e he => ⟨e, value_carries hx ht.symm he, rfl⟩
  | t :: u :: ts, hts =>
    obtain ⟨t', us, rfl, -, hus⟩ := hts.symm.exists_cons
    obtain ⟨u', us', rfl, -, -⟩ := hus.exists_cons
    exact .bind_eq (.lift fun es hes => ⟨es, values_carries hx hts hes, rfl⟩) fun es => .pure rfl

/-- The rest of a loop whose head is read. A name and `in` make it run over values; any other head
has conditions, and the loop is one with `while`. -/
def forRest (self : Nat → Parse Expr) : List Token → Parse Expr
  | .plain (.variable n false none) _ :: .plain (.keyword "in") _ :: ts => do
    let r ← range self ts
    return .forIn n r (← loopBody self)
  | ts => whileTail self ts

omit hx h

/-- A head with a name and `in`. -/
theorem exists_forIn {n : String} {p q : Span} {us : List Token}
    (hts : Alike (.plain (.variable n false none) p :: .plain (.keyword "in") q :: us) ts) :
    ∃ p' q' us', ts = .plain (.variable n false none) p' :: .plain (.keyword "in") q' :: us' ∧
      Alike us us' := by
  obtain ⟨t, ts, rfl, ht, hts⟩ := hts.symm.exists_cons
  obtain ⟨u, us', rfl, hu, hus⟩ := hts.exists_cons
  obtain ⟨p', rfl⟩ := Alike.exists_plain (l := .variable n false none) ht
  obtain ⟨q', rfl⟩ := Alike.exists_plain (l := .keyword "in") hu
  exact ⟨p', q', us', rfl, hus.symm⟩

/-- A head that does not begin with a name and `in` has conditions. -/
theorem forRest_eq (hts : ∀ n p q us,
    ts ≠ .plain (.variable n false none) p :: .plain (.keyword "in") q :: us) :
    forRest self ts = whileTail self ts := by
  unfold forRest
  split
  · exact absurd rfl (hts _ _ _ _)
  · rfl

include hx h

/-- What the loop is like is told by the first tokens of its head. They are alike in both, so both
take the same branch. -/
theorem forRest_carries (hts : Alike ts ts') :
    Carries P .solid Eq (forRest self ts) (forRest self' ts') := by
  by_cases hin : ∃ n p q us, ts = .plain (.variable n false none) p :: .plain (.keyword "in") q :: us
  · obtain ⟨n, p, q, us, rfl⟩ := hin
    obtain ⟨p', q', us', rfl, hus⟩ := exists_forIn hts
    refine .bind_solid_eq (range_carries hx hus) fun r => ?_
    exact .bind_eq (loopBody_carries h) fun b => .pure rfl
  · rw [forRest_eq fun n p q us heq => hin ⟨n, p, q, us, heq⟩, forRest_eq fun n p q us heq => ?_]
    · exact whileTail_carries h hts
    · subst heq
      obtain ⟨p', q', us', rfl, -⟩ := exists_forIn hts.symm
      exact hin ⟨n, p', q', us', rfl⟩

/-- A loop with `for`. If its head is in parentheses, the semicolons in it are expected where they
are. -/
theorem forTree_carries : Carries P .solid Eq (forTree self) (forTree self') := by
  refine .bind_solid (.expectKeyword _) fun _ _ _ => ?_
  refine .bind_solid_eq (.acceptPunctuation (by decide)) fun open? => .ite ?_ ?_
  · refine .bind_solid_eq (list_carries h ';') fun init => .bind_solid .expectSemicolon fun _ _ _ => ?_
    refine .bind_solid_eq (list_carries h ';') fun condition => ?_
    refine .bind_solid .expectSemicolon fun _ _ _ => .bind_solid_eq (list_carries h ')') fun step => ?_
    refine .bind_solid (.expectPunctuation (by decide)) fun _ _ _ => ?_
    exact .bind_eq (loopBody_carries h) fun b => .pure rfl
  · exact .bind_solid headTokens_carries fun ts ts' hts => forRest_carries hx h hts

/-! ## Unsetting -/

omit h

/-- Names and elements are taken as long as they come. -/
theorem unsetItems_carries {fuel fuel' : Nat} (hfuel : fuel ≤ fuel') :
    Carries P .closed Eq (unsetItems self fuel) (unsetItems self' fuel') := by
  induction fuel generalizing fuel' P with
  | zero => exact .throw _
  | succ fuel ih =>
    obtain ⟨fuel', rfl⟩ : ∃ f, fuel' = f + 1 := Nat.exists_eq_add_one.2 (by omega)
    refine .peek (.pure rfl) fun t t' ht => ?_
    obtain ⟨l, p, p', rfl, rfl⟩ | ⟨items, items', p, p', rfl, rfl, -⟩ := plain_or_array ht
    · cases l with
      | «variable» n d i =>
        refine .bind (.of_solid (.advance rfl)) fun _ _ _ => ?_
        refine .bind_eq (.lift fun e he => ⟨e, value_carries hx ht he, rfl⟩) fun e => ?_
        split <;> exact .bind_eq (.pure rfl) fun target => .bind_eq (ih (by omega)) fun es => .pure rfl
      | _ => exact .pure rfl
    · exact .pure rfl

/-- An `unset` without names is refused, so that with names it does not end in its own word alone.
That word would be no `;` either. -/
theorem unsetTree_carries : Carries P .solid Eq (unsetTree self) (unsetTree self') := by
  refine .bind (.expectKeyword _) fun _ _ _ => .bind .budget fun _ _ hfuel => ?_
  refine .bind_eq (unsetItems_carries hx hfuel) fun es => ?_
  split
  · exact .unexpected _
  · exact .pure rfl
  · exact .pure rfl

/-! ## Trees -/

include h

/-- The first part of a tree, by its first token. All of it is solid, since a token is taken in any
case. -/
theorem atom_carries : Carries P .solid Eq (atom self) (atom self') := by
  refine .peek (.unexpected _) fun t t' ht => ?_
  -- a token that is a value is taken and read by itself
  have hvalue (hsemicolon : t.isPunctuation ';' = false) : Carries (· = some t) .solid Eq
      (do advance; (value self t : Except Stop Expr))
      (do advance; (value self' t' : Except Stop Expr)) :=
    .bind (.advance hsemicolon) fun _ _ _ => .lift fun e he => ⟨e, value_carries hx ht he, rfl⟩
  obtain ⟨l, p, p', rfl, rfl⟩ | ⟨items, items', p, p', rfl, rfl, -⟩ := plain_or_array ht
  · cases l with
    | punctuation c =>
      split
      case h_2 heq =>
        cases heq
        refine .bind (.advance rfl) fun _ _ _ => .bind_eq (.of_solid (h 0 _)) fun e => ?_
        exact .bind (.of_solid (.expectPunctuation (by decide))) fun _ _ _ => .pure rfl
      case h_3 heq =>
        cases heq
        exact block_carries h
      case h_11 => exact .unexpected _
      case h_12 hne heq =>
        cases heq
        exact absurd rfl (hne c p)
      all_goals rename_i heq; cases heq
    | keyword w =>
      split
      case h_4 heq => cases heq; exact ifTree_carries h
      case h_5 heq => cases heq; exact functionTree_carries hx h
      case h_6 heq => cases heq; exact forTree_carries hx h
      case h_7 heq => cases heq; exact whileTree_carries h
      case h_8 heq => cases heq; exact unsetTree_carries hx
      case h_10 => exact .unexpected _
      case h_12 hne _ heq =>
        cases heq
        exact absurd rfl (hne w p)
      all_goals rename_i heq; cases heq
    | operator o =>
      refine .ite (.bind (.advance rfl) fun _ _ _ => ?_) (.unexpected _)
      exact .bind_eq (.of_solid (h _ _)) fun e => .pure rfl
    | _ => exact hvalue rfl
  · exact hvalue rfl

/-- A tree is its first part, what it is called with, and the operators behind it. The first part
makes it solid, and what follows does not spoil that. -/
theorem treeStep_carries (limit : Nat) :
    Carries P .solid Eq (treeStep self limit) (treeStep self' limit) := by
  refine .bind_eq (atom_carries hx h) fun e => .bind_eq (callTail_carries hx h e) fun e => ?_
  exact .bind .budget fun _ _ hfuel => operators_carries h hfuel e

omit hx h

/-- **A tree that is read is read with more tokens behind**, and the last of its tokens is no `;`.
The induction is on the depth: each level is put together from readers that carry this on. -/
theorem tree_carries {n m : Nat} (hnm : n ≤ m) (limit : Nat) (P : Option Token → Prop) :
    Carries P .solid Eq (tree n limit) (tree m limit) := by
  induction n generalizing m limit P with
  | zero => exact .throw _
  | succ n ih =>
    obtain ⟨m, rfl⟩ : ∃ k, m = k + 1 := Nat.exists_eq_add_one.2 (by omega)
    exact treeStep_carries (tree_extends (by omega)) (fun limit P => ih (by omega) limit P) limit

/-! ## Scripts -/

section

variable {fuel fuel' : Nat} {s r : Tokens} {e : Expr} {es : List Expr}

/-- The statements behind the semicolons that come first. Scripts that are put together have such
semicolons between them, and the statements of the second are behind these. -/
def separatedItems (self : Nat → Parse Expr) (fuel : Nat) : Parse (List Expr) := do
  skipSeparators
  programItems self fuel

/-- The tokens with those behind the first semicolons ahead. Only what is ahead changes, so what was
reached and how the text ends stay as they are. -/
def pastSeparators (s : Tokens) : Tokens :=
  { s with
    ahead := afterSeparators s.ahead
    reached := ((s.ahead.takeWhile (·.isPunctuation ';')).getLast?.map (·.span.stop)).getD s.reached }

/-- To pass the semicolons first is to read from behind them. -/
theorem separatedItems_eq (self : Nat → Parse Expr) (fuel : Nat) (s : Tokens) :
    separatedItems self fuel s = programItems self fuel (pastSeparators s) := rfl

/-- Behind the first semicolons there are still more tokens in one than in the other. -/
theorem Longer.pastSeparators {X : List Token} {s' : Tokens} (h : Longer X s s')
    (hX : X = [] ∨ afterSeparators s.ahead ≠ []) :
    Longer X (pastSeparators s) (pastSeparators s') :=
  ⟨afterSeparators_alike h.ahead hX, h.ending⟩

/-- Without tokens ahead and without a fault behind them, there is no next token. -/
theorem peek_nil (hs : s.ahead = []) {p : Position} (hp : s.ending = .ok p) :
    peek s = .ok (none, s) := by
  simp only [peek, hs, hp]

/-- The next token is looked at and stays. -/
theorem peek_cons {ts : List Token} (hs : s.ahead = t :: ts) : peek s = .ok (some t, s) := by
  simp only [peek, hs]

/-- What is looked at is the next token, if there is no fault instead. -/
theorem peek_eq_ok {t? : Option Token} {s₁ : Tokens} (h : peek s = .ok (t?, s₁)) :
    s₁ = s ∧ t? = s.ahead.head? ∧ (s.ahead = [] → ∃ p, s.ending = .ok p) := by
  cases hs : s.ahead with
  | nil =>
    cases hp : s.ending with
    | error f =>
      simp only [peek, hs, hp] at h
      cases h
    | ok p =>
      rw [peek_nil hs hp] at h
      cases h
      exact ⟨rfl, rfl, fun _ => ⟨p, rfl⟩⟩
  | cons t ts =>
    rw [peek_cons hs] at h
    cases h
    exact ⟨rfl, rfl, nofun⟩

/-- What follows a statement of a script: nothing, or a semicolon and the other statements. It is
set apart since the two scripts differ from here on only. -/
def programRest (self : Nat → Parse Expr) (fuel : Nat) (e : Expr) : Parse (List Expr) := do
  if (← peek).isNone then return [e]
  else
    expectPunctuation ';'
    return e :: (← separatedItems self fuel)

/-- As long as tokens are ahead, a statement is read and then what follows it. The last condition of
the recursion is no longer asked. -/
theorem programItems_succ (hs : s.ahead ≠ []) :
    programItems self (fuel + 1) s = (statement self >>= programRest self fuel) s := by
  obtain ⟨u, us, hu⟩ := List.exists_cons_of_ne_nil hs
  have hrest : programRest self fuel = fun e => do
      if (← peek).isNone then return [e]
      else
        expectPunctuation ';'
        skipSeparators
        return e :: (← programItems self fuel) := by
    funext e
    simp only [programRest, separatedItems, bind_assoc]
  rw [hrest]
  exact bind_of_ok (peek_cons hu)

/-- What comes of expecting a character depends on the next token alone. -/
theorem expectPunctuation_cons {c : Char} {ts : List Token} (hs : s.ahead = t :: ts) :
    expectPunctuation c s =
      if t.isPunctuation c then .ok ((), { s with ahead := ts, reached := t.span.stop })
      else (unexpected (.punctuation c) : Parse Unit) s := by
  obtain ⟨ahead, ending, reached⟩ := s
  obtain rfl : ahead = t :: ts := hs
  change (if t.isPunctuation c then advance else unexpected (.punctuation c) : Parse Unit)
    ⟨t :: ts, ending, reached⟩ = _
  split <;> rfl

/-- With a `;` next, the statements behind it are read. -/
theorem programRest_cons {ts : List Token} (hs : s.ahead = t :: ts)
    (ht : t.isPunctuation ';' = true)
    (hes : separatedItems self fuel { s with ahead := ts, reached := t.span.stop } = .ok (es, r)) :
    programRest self fuel e s = .ok (e :: es, r) := by
  have hexpect : expectPunctuation ';' s = .ok ((), { s with ahead := ts, reached := t.span.stop }) := by
    rw [expectPunctuation_cons hs, if_pos ht]
  refine (bind_of_ok (peek_cons hs)).trans ((bind_of_ok hexpect).trans ?_)
  rw [bind_of_ok hes]
  rfl

/-- A statement of a script is the last one, or a semicolon comes next. Of tokens that end in a `;`
the first is impossible, as a tree does not take them all. -/
theorem programRest_cases (h : programRest self fuel e s = .ok (es, r)) :
    (s.ahead = [] ∧ ∃ p, r.ending = .ok p) ∨ ∃ t ts es', s.ahead = t :: ts ∧ t.isPunctuation ';' = true ∧
      separatedItems self fuel { s with ahead := ts, reached := t.span.stop } = .ok (es', r) ∧
        es = e :: es' := by
  obtain ⟨t?, s₁, hpeek, hrest⟩ := exists_of_bind h
  obtain ⟨rfl, rfl, hending⟩ := peek_eq_ok hpeek
  -- either the tokens are at their end, or the next one has to be a `;`
  cases hs : s₁.ahead with
  | nil =>
    rw [hs] at hrest
    cases hrest
    exact .inl ⟨rfl, hending hs⟩
  | cons t ts =>
    rw [hs] at hrest
    obtain ⟨_, s₂, hexpect, hmore⟩ := exists_of_bind hrest
    obtain ⟨es', s₃, hes, hpure⟩ := exists_of_bind hmore
    rw [expectPunctuation_cons hs] at hexpect
    split at hexpect
    · rename_i ht
      cases hexpect
      cases hpure
      exact .inr ⟨t, ts, es', rfl, ht, hes, rfl⟩
    · have hfails : Gives (fun _ => False) (unexpected (.punctuation ';') : Parse Unit) := .unexpected _
      exact (hfails _ _ hexpect).elim

/-- Without tokens there are no statements. Nor is there a fault behind them, for that would have
been met when the next token was asked for. -/
theorem eq_nil_of_programItems (hs : s.ahead = [])
    (h : programItems self (fuel + 1) s = .ok (es, r)) : es = [] ∧ ∃ p, r.ending = .ok p := by
  obtain ⟨t?, s₁, hpeek, hrest⟩ := exists_of_bind h
  obtain ⟨rfl, rfl, hending⟩ := peek_eq_ok hpeek
  rw [hs] at hrest
  cases hrest
  exact ⟨rfl, hending hs⟩

/-- Nothing is wrong behind the statements of a script. -/
theorem ending_of_programItems (h : programItems self fuel s = .ok (es, r)) :
    ∃ p, r.ending = .ok p := by
  -- one unit of fuel for each statement
  induction fuel generalizing s es with
  | zero => cases h
  | succ fuel ih =>
    by_cases hs : s.ahead = []
    · exact (eq_nil_of_programItems hs h).2
    · rw [programItems_succ hs] at h
      obtain ⟨e, s₁, -, hrest⟩ := exists_of_bind h
      obtain ⟨-, hending⟩ | ⟨t, ts, es', -, -, hes', -⟩ := programRest_cases hrest
      · exact hending
      · exact ih hes'

/-- The statements of a script. Their grade is lost at the semicolons between them, which is why the
next lemmas follow them one by one. -/
theorem programItems_carries {P : Option Token → Prop} {n m : Nat} (hnm : n ≤ m)
    (hfuel : fuel ≤ fuel') :
    Carries P .any Eq (programItems (tree n) fuel) (programItems (tree m) fuel') := by
  induction fuel generalizing fuel' P with
  | zero => exact .throw _
  | succ fuel ih =>
    obtain ⟨fuel', rfl⟩ : ∃ f, fuel' = f + 1 := Nat.exists_eq_add_one.2 (by omega)
    refine .peek (.of_closed (.pure rfl)) fun t t' _ => ?_
    refine .bind_any (statement_carries (tree_carries hnm)) ?_
    rintro e _ rfl
    refine .peek (.of_closed (.pure rfl)) fun t t' _ => ?_
    refine .bind_any .expectSemicolon fun _ _ _ => .bind_any .skipSeparators fun _ _ _ => ?_
    refine .bind_any (ih (by omega)) ?_
    rintro es _ rfl
    exact .of_closed (.pure rfl)

/-- Tokens that end in a `;`, if there are any. The first of two scripts has to be of this form if
the second one is to be read by itself. -/
def IsEnded (ts : List Token) : Prop := ∀ t, ts.getLast? = some t → t.isPunctuation ';' = true

/-- The end of such tokens is such an end. -/
theorem IsEnded.suffix {us : List Token} (h : IsEnded ts) (hus : us <:+ ts) : IsEnded us := by
  obtain ⟨w, rfl⟩ := hus
  intro t ht
  exact h t (by rw [List.getLast?_append, ht, Option.some_or])

/-- A tree does not take all of the tokens that end in a `;`. The last of those it takes is none, as
a tree is solid. -/
theorem IsEnded.ne_nil (h : IsEnded s.ahead) (hleads : Grade.solid.Leads s r) : r.ahead ≠ [] := by
  obtain ⟨-, w, hw, t, ht, hsemicolon⟩ := hleads
  intro hnil
  rw [hnil, List.append_nil] at hw
  rw [h t (by rw [hw, ht])] at hsemicolon
  cases hsemicolon

section

variable {n m k fuel₂ : Nat} {s' s₂ r₂ : Tokens} {es₂ : List Expr}

/-- Statements behind semicolons only. -/
theorem separatedItems_behind (hmk : m ≤ k) (hnil : afterSeparators s.ahead = [])
    (h₂ : separatedItems (tree m) fuel₂ s₂ = .ok (es₂, r₂)) (hlonger : Longer s₂.ahead s s')
    (hfuel : fuel₂ ≤ fuel') : ∃ r', separatedItems (tree k) fuel' s' = .ok (es₂, r') := by
  have hahead : Alike s'.ahead ((s.ahead ++ s₂.ahead) ++ []) := by
    rw [List.append_nil]
    exact hlonger.ahead
  have halike := afterSeparators_alike hahead (.inl rfl)
  rw [afterSeparators_append hnil] at halike
  have hlonger' : Longer [] (pastSeparators s₂) (pastSeparators s') := ⟨halike, hlonger.ending⟩
  obtain ⟨-, hcarry⟩ :=
    programItems_carries (P := fun _ => True) hmk hfuel [] _ _ es₂ r₂ hlonger' trivial h₂
  obtain ⟨_, r', hr', rfl, -⟩ := hcarry (.inl rfl)
  exact ⟨r', hr'⟩

/-- The first statement of those that end in a `;`, and what is left behind it. With the tokens of
another script behind, it is read in the same way. -/
theorem exists_statement (hnk : n ≤ k) (h : separatedItems (tree n) (fuel + 1) s = .ok (es, r))
    (hended : IsEnded s.ahead) (hne : afterSeparators s.ahead ≠ []) {X : List Token}
    (hlonger : Longer X s s') :
    ∃ e es' s₁ s₁', es = e :: es' ∧ separatedItems (tree n) fuel s₁ = .ok (es', r) ∧
      IsEnded s₁.ahead ∧ s₁.ahead.length < (afterSeparators s.ahead).length ∧ Longer X s₁ s₁' ∧
      ∀ {fuel' es'' r'}, separatedItems (tree k) fuel' s₁' = .ok (es'', r') →
        separatedItems (tree k) (fuel' + 1) s' = .ok (e :: es'', r') := by
  rw [separatedItems_eq, programItems_succ hne] at h
  obtain ⟨e, s₁, he, hrest⟩ := exists_of_bind h
  have hlonger' := hlonger.pastSeparators (.inr hne)
  have hsuffix := afterSeparators_suffix s.ahead
  have hended' : IsEnded (pastSeparators s).ahead := hended.suffix hsuffix
  obtain ⟨hleads, hcarry⟩ := statement_carries (P := fun _ => True) (tree_carries hnk) X _ _ e s₁
    hlonger' trivial he
  -- the statement is solid, so it has left at least the last `;` over
  have hne₁ := hended'.ne_nil hleads
  obtain ⟨_, s₁', he', rfl, hlonger₁⟩ := hcarry (.inr hne₁)
  obtain ⟨hempty, -⟩ | ⟨t, ts, es', hs₁, ht, hes', rfl⟩ := programRest_cases hrest
  · exact absurd hempty hne₁
  · obtain ⟨-, w, hw, -⟩ := hleads
    have hts : t :: ts <:+ afterSeparators s.ahead := ⟨w, (hw.trans (congrArg (w ++ ·) hs₁)).symm⟩
    have hahead : Alike s₁'.ahead (t :: (ts ++ X)) := by
      rw [← List.cons_append, ← hs₁]
      exact hlonger₁.ahead
    obtain ⟨t', ts', hs₁', ht', hts'⟩ := hahead.exists_cons
    -- what is left on both sides stands behind the `;`
    refine ⟨e, es', _, { s₁' with ahead := ts', reached := t'.span.stop }, rfl, hes',
      hended'.suffix ((List.suffix_cons t ts).trans hts), hts.length_le,
      ⟨hts', hlonger₁.ending⟩, fun hes'' => ?_⟩
    have hne' : (pastSeparators s').ahead ≠ [] := by
      intro hnil
      have halike := hlonger'.ahead
      rw [hnil] at halike
      exact hne (List.append_eq_nil_iff.1 halike.symm.eq_nil).1
    rw [separatedItems_eq, programItems_succ hne', bind_of_ok he']
    exact programRest_cons hs₁' (by rwa [Alike.isPunctuation_eq ht']) hes''

/-- Statements, all of them with a `;` behind, and then others. The induction is on the fuel of the
first reading, which is used up by one statement after another. -/
theorem separatedItems_append (hnk : n ≤ k) (hmk : m ≤ k)
    (h : separatedItems (tree n) fuel s = .ok (es, r)) (hended : IsEnded s.ahead)
    (h₂ : separatedItems (tree m) fuel₂ s₂ = .ok (es₂, r₂))
    (hfuel₂ : fuel₂ ≤ (afterSeparators s₂.ahead).length + 1) (hlonger : Longer s₂.ahead s s')
    (hfuel' : (afterSeparators s'.ahead).length < fuel') :
    ∃ r', separatedItems (tree k) fuel' s' = .ok (es ++ es₂, r') := by
  -- the induction is on the statements of the first script, while those of the second stay behind
  induction fuel generalizing s s' fuel' es with
  | zero => cases h
  | succ fuel ih =>
    obtain ⟨fuel', rfl⟩ : ∃ f, fuel' = f + 1 := Nat.exists_eq_add_one.2 (by omega)
    by_cases hnil : afterSeparators s.ahead = []
    · -- no more statements: what is read is the second script, behind semicolons
      obtain ⟨rfl, -⟩ := eq_nil_of_programItems (s := pastSeparators s) hnil h
      have hlength := (afterSeparators_alike (X := []) (by
        rw [List.append_nil]
        exact hlonger.ahead) (.inl rfl)).length_eq
      rw [List.append_nil, afterSeparators_append hnil] at hlength
      exact separatedItems_behind hmk hnil h₂ hlonger (by omega)
    · obtain ⟨e, es', s₁, s₁', rfl, hes', hended₁, hlt, hlonger₁, hgo⟩ :=
        exists_statement hnk h hended hnil hlonger
      have hlength := (afterSeparators_alike hlonger.ahead (.inr hnil)).length_eq
      have hlength₁ := hlonger₁.ahead.length_eq
      have hle := (afterSeparators_suffix s₁'.ahead).length_le
      rw [List.length_append] at hlength hlength₁
      obtain ⟨r', hr'⟩ : ∃ r', separatedItems (tree k) fuel' s₁' = .ok (es' ++ es₂, r') :=
        ih hes' hended₁ hlonger₁ (by omega)
      exact ⟨r', hgo hr'⟩

/-- A script is read from behind its first semicolons, with a step for every token. -/
theorem program_eq (self : Nat → Parse Expr) (s : Tokens) :
    program self s = separatedItems self ((afterSeparators s.ahead).length + 1) s := rfl

/-- Reading comes to a result if it does with trees that may be as deep as the tokens are heavy. In
this form two runs can be compared although the weights of their tokens differ. -/
theorem run_eq_ok_iff {α : Type} {p : (Nat → Parse Expr) → Parse α} {a : α} :
    run p s = .ok (a, r) ↔ p (tree (Token.weightList s.ahead + 1)) s = .ok (a, r) := by
  unfold run
  cases p (tree (Token.weightList s.ahead + 1)) s with
  | ok x => simp
  | error e => cases e <;> simp

/-- Nothing is wrong behind a script that is read. -/
theorem ending_of_program (h : run program s = .ok (es, r)) : ∃ p, s.ending = .ok p := by
  rw [run_eq_ok_iff, program_eq, separatedItems_eq] at h
  obtain ⟨p, hp⟩ := ending_of_programItems h
  obtain ⟨⟨hending, -⟩, -⟩ := programItems_carries (P := fun _ => True) (Nat.le_refl _)
    (Nat.le_refl _) [] _ _ es r (.same _) trivial h
  exact ⟨p, hending.symm.trans hp⟩

/-- Where tokens stand makes no difference to what they are read as. The second of two scripts
stands further down, and this is all that changes about its tokens. -/
theorem run_program_alike (h : run program s = .ok (es, r)) (hlonger : Longer [] s s') :
    ∃ r', run program s' = .ok (es, r') := by
  have hahead : Alike s'.ahead s.ahead := by
    have hahead := hlonger.ahead
    rwa [List.append_nil] at hahead
  have hweight := hahead.weightList_eq
  have hlength := (afterSeparators_alike hlonger.ahead (.inl rfl)).length_eq
  rw [List.append_nil] at hlength
  rw [run_eq_ok_iff, program_eq, separatedItems_eq] at h
  -- tokens alike have the same weight and number, so there is the same fuel
  have hcarries : Carries (fun _ => True) .any Eq
      (programItems (tree (Token.weightList s.ahead + 1)) ((afterSeparators s.ahead).length + 1))
      (programItems (tree (Token.weightList s'.ahead + 1)) ((afterSeparators s'.ahead).length + 1)) :=
    programItems_carries (by omega) (by omega)
  obtain ⟨-, hcarry⟩ := hcarries [] _ _ es r (hlonger.pastSeparators (.inl rfl)) trivial h
  obtain ⟨_, r', hr', rfl, -⟩ := hcarry (.inl rfl)
  exact ⟨r', run_eq_ok_iff.2 hr'⟩

/-- **The statements of two scripts are those of the first and then those of the second**, if the
tokens of the first end in a `;`. -/
theorem program_append (h : run program s = .ok (es, r)) (hended : IsEnded s.ahead)
    (h₂ : run program s₂ = .ok (es₂, r₂)) (hlonger : Longer s₂.ahead s s') :
    ∃ r', run program s' = .ok (es ++ es₂, r') := by
  have hweight := hlonger.ahead.weightList_eq
  rw [Token.weightList_append] at hweight
  rw [run_eq_ok_iff] at h h₂
  rw [program_eq] at h h₂
  obtain ⟨r', hr'⟩ := separatedItems_append (k := Token.weightList s'.ahead + 1) (by omega) (by omega)
    h hended h₂ (Nat.le_refl _) hlonger (Nat.lt_succ_self _)
  exact ⟨r', run_eq_ok_iff.2 hr'⟩

end

end

end CommandLanguage.Grammar
