import CommandLanguage.Expr.Parse

/-!
# Depth of trees

How deep trees may go is bounded only so that reading ends. `Grammar.Extends m m'` says that `m'`
does what `m` does, unless `m` goes too deep. Every part of the grammar carries it from the trees
that it is given to what it reads, so `tree_extends`: with a greater bound the same is read, and
the same faults are found.
-/

namespace CommandLanguage.Grammar

variable {α β : Type}

/-- The second outcome is the first one, unless the first went too deep. So a result stays with more
depth, and so does a fault of the script. -/
def Grows (x y : Except Stop α) : Prop := x = .error .tooDeep ∨ y = x

/-- The second reads what the first reads, unless the first goes too deep. Both start from the same
tokens, and leave the same. -/
def Extends (m m' : Parse α) : Prop := ∀ s, Grows (m s) (m' s)

namespace Grows

/-- An outcome is itself. -/
theorem refl (x : Except Stop α) : Grows x x := .inr rfl

/-- If the first went too deep, so does what is built on it, whatever the second does. Otherwise
both go on with the same. -/
theorem bind {x y : Except Stop α} {f g : α → Except Stop β} (hx : Grows x y)
    (hf : ∀ a, Grows (f a) (g a)) : Grows (x >>= f) (y >>= g) := by
  rcases hx with rfl | rfl
  · exact .inl rfl
  · cases y with
    | ok a => exact hf a
    | error e => exact .inr rfl

/-- What is made of an outcome does not go deeper. -/
theorem map {x y : Except Stop α} (f : α → β) (hx : Grows x y) :
    Grows (x.map f) (y.map f) := by
  rcases hx with rfl | rfl
  · exact .inl rfl
  · exact .inr rfl

end Grows

namespace Extends

theorem refl (m : Parse α) : Extends m m := fun _ => .inr rfl

theorem throw (m : Parse α) : Extends (MonadExcept.throw .tooDeep : Parse α) m := fun _ => .inl rfl

theorem bind {m m' : Parse α} {f f' : α → Parse β} (hm : Extends m m')
    (hf : ∀ a, Extends (f a) (f' a)) : Extends (m >>= f) (m' >>= f') :=
  fun s => .bind (hm s) fun r => hf r.1 r.2

/-- What comes first is the same for both. -/
theorem after {m : Parse α} {f f' : α → Parse β} (hf : ∀ a, Extends (f a) (f' a)) :
    Extends (m >>= f) (m >>= f') :=
  bind (refl m) hf

theorem ite {c : Prop} [Decidable c] {m m' n n' : Parse α} (hm : Extends m m')
    (hn : Extends n n') : Extends (if c then m else n) (if c then m' else n') := by
  split
  · exact hm
  · exact hn

/-- What is found without reading tokens. -/
theorem lift {x y : Except Stop α} (h : Grows x y) : Extends (x : Parse α) (y : Parse α) :=
  fun _ => .bind h fun _ => .refl _

theorem trans {m n k : Parse α} (h : Extends m n) (h' : Extends n k) : Extends m k := by
  intro s
  rcases h s with hs | hs
  · exact .inl hs
  · rcases h' s with hs' | hs'
    · exact .inl (hs ▸ hs')
    · exact .inr (hs'.trans hs)

end Extends

variable {self self' : Nat → Parse Expr}

/-! ## Values -/

/-- An index is read by a reader of its own, with the trees that are given; it may run into their
bound. -/
theorem index_extends (h : ∀ limit, Extends (self limit) (self' limit)) (raw : String)
    (p : Position) : Grows (index self raw p) (index self' raw p) := by
  refine .map _ (Extends.after (fun t => .ite (.refl _) ?_) _)
  exact .bind (h 0) fun e => .refl _

mutual

/-- Only an index holds an expression that is to be read, in a variable or further inside an array
literal. All other tokens stand for their values without the trees: one case for each kind of
token. -/
theorem value_extends (h : ∀ limit, Extends (self limit) (self' limit)) :
    ∀ t, Grows (value self t) (value self' t)
  | .plain (.number _) _ => .refl _
  | .plain (.text _ _) _ => .refl _
  | .plain (.boolean _) _ => .refl _
  | .plain (.variable _ _ none) _ => .refl _
  | .plain (.variable _ _ (some raw)) s => .map _ (index_extends h raw s.start)
  | .plain (.braces _) _ => .refl _
  | .plain (.parameter _) _ => .refl _
  | .plain (.keyword _) _ => .refl _
  | .plain (.operator _) _ => .refl _
  | .plain (.punctuation _) _ => .refl _
  | .array items _ => .map _ (values_extends h items)

theorem values_extends (h : ∀ limit, Extends (self limit) (self' limit)) :
    ∀ ts, Grows (values self ts) (values self' ts)
  | [] => .refl _
  | t :: ts => .bind (value_extends h t) fun _ => .bind (values_extends h ts) fun _ => .refl _

end

/-! ## Calls and operators

From here on `h` says what is so of the trees further down. The loops take their steps from the
number of tokens, which is the same for both readers, so each of them is gone through by induction
on the steps. -/

variable (h : ∀ limit, Extends (self limit) (self' limit))

include h

/-- The items of a list, by induction on the steps of the loop: each one is a tree, and the loop
goes on in the same way behind it. -/
theorem listItems_extends (fuel : Nat) : Extends (listItems self fuel) (listItems self' fuel) := by
  induction fuel with
  | zero => exact .refl _
  | succ fuel ih =>
    refine .bind (h 0) fun e => .after fun more => .ite ?_ (.refl _)
    exact .bind ih fun es => .refl _

/-- Lists differ only in their items. -/
theorem list_extends (stop : Char) : Extends (list self stop) (list self' stop) :=
  .after fun _ => .ite (.refl _) (.after fun fuel => listItems_extends h fuel)

/-- A token ends the arguments of a command, or it stands for an argument either way. Only an index
in it can be read with more depth. -/
theorem argument?_extends (t : Token) : (argument? self t = none ∧ argument? self' t = none) ∨
    ∃ x y, argument? self t = some x ∧ argument? self' t = some y ∧ Grows x y := by
  unfold argument?
  split
  · split
    · exact .inl ⟨rfl, rfl⟩
    · exact .inr ⟨_, _, rfl, rfl, .refl _⟩
  · exact .inl ⟨rfl, rfl⟩
  · exact .inl ⟨rfl, rfl⟩
  · exact .inr ⟨_, _, rfl, rfl, value_extends h t⟩

/-- The arguments of a command, by induction on the steps of the loop. Both stop at the same token,
as whether a token stands for an argument does not depend on the trees. -/
theorem arguments_extends (fuel : Nat) : Extends (arguments self fuel) (arguments self' fuel) := by
  induction fuel with
  | zero => exact .refl _
  | succ fuel ih =>
    refine .after fun t => ?_
    cases t with
    | none => exact .refl _
    | some t =>
      rcases argument?_extends h t with ⟨hx, hy⟩ | ⟨x, y, hx, hy, hxy⟩
      · simp only [Option.bind_some, hx, hy]
        exact .refl _
      · simp only [Option.bind_some, hx, hy]
        exact .after fun _ => .bind (.lift hxy) fun e => .bind ih fun es => .refl _

/-- Behind an expression comes a list, the arguments of a command, or nothing: which of them it is
is decided by the tokens alone. -/
theorem callTail_extends (e : Expr) : Extends (callTail self e) (callTail self' e) := by
  refine .ite (.refl _) (.after fun open? => .ite ?_ ?_)
  · exact .bind (list_extends h ')') fun args => .refl _
  · exact .after fun fuel => .bind (arguments_extends h fuel) fun args => .refl _

/-- The operators behind an operand, by induction on the steps of the loop. Only the right operand
of an operator is a tree. -/
theorem operators_extends (limit fuel : Nat) (left : Expr) :
    Extends (operators self limit fuel left) (operators self' limit fuel left) := by
  induction fuel generalizing left with
  | zero => exact .refl _
  | succ fuel ih =>
    refine .after fun r => ?_
    cases r with
    | none => exact .refl _
    | some r =>
      refine .ite (.refl _) (.after fun _ => .ite (ih _) ?_)
      exact .bind (h _) fun right => ih _

/-! ## Statements and blocks -/

/-- A statement is a tree without a limit. -/
theorem statement_extends : Extends (statement self) (statement self') :=
  .bind (h 0) fun _ => .refl _

/-- Statements up to a closing token, by induction on the steps of the loop. The tokens decide when
it ends and where a `;` is asked for. -/
theorem statementsUntil_extends (closes : Token → Bool) (fuel : Nat) :
    Extends (statementsUntil self closes fuel) (statementsUntil self' closes fuel) := by
  induction fuel with
  | zero => exact .refl _
  | succ fuel ih =>
    refine .after fun _ => .after fun t => ?_
    cases t with
    | none => exact .refl _
    | some t =>
      refine .ite (.refl _) (.bind (statement_extends h) fun e => .after fun t => ?_)
      cases t with
      | none => exact .refl _
      | some t => exact .ite (.bind ih fun es => .refl _) (.refl _)

/-- Blocks in braces. -/
theorem block_extends : Extends (block self) (block self') :=
  .after fun _ => .after fun fuel => .bind (statementsUntil_extends h _ fuel) fun _ => .refl _

/-- Blocks between `do` and `done`. -/
theorem doBlock_extends : Extends (doBlock self) (doBlock self') :=
  .after fun _ => .after fun fuel => .bind (statementsUntil_extends h _ fuel) fun _ => .refl _

/-- Which kind of block the body of a loop is, is decided by its first token. -/
theorem loopBody_extends : Extends (loopBody self) (loopBody self') :=
  .after fun _ => .ite (doBlock_extends h) (.after fun _ => .ite (block_extends h) (.refl _))

/-- A branch is a block or a statement. -/
theorem branch_extends : Extends (branch self) (branch self') :=
  .after fun _ => .ite (block_extends h) (statement_extends h)

/-! ## Compound constructs -/

/-- An `if`, with or without `else`: both branches and the condition go further down. -/
theorem ifTree_extends : Extends (ifTree self) (ifTree self') := by
  refine .after fun _ => .bind (h 0) fun c => .after fun _ => ?_
  refine .bind (branch_extends h) fun yes => .after fun _ => .ite ?_ (.refl _)
  exact .bind (branch_extends h) fun no => .refl _

/-- Parameters in parentheses hold expressions, those of default values; parameters without
parentheses are tokens that stand for values. -/
theorem parameters_extends : Extends (parameters self) (parameters self') := by
  refine .after fun t => ?_
  split
  · exact .after fun _ => .lift (values_extends h _)
  · exact .after fun _ => .ite (.bind (list_extends h ')') fun ps => .refl _) (.refl _)

/-- A function has parameters and a body. The three ways to begin one differ in where the name comes
from. -/
theorem functionTree_extends : Extends (functionTree self) (functionTree self') := by
  have body (name : Option String) (ps : List Expr) : Extends
      (do return Expr.function 0 name ps (← branch self))
      (do return Expr.function 0 name ps (← branch self')) :=
    .bind (branch_extends h) fun b => .refl _
  refine .after fun _ => .after fun t => ?_
  dsimp only
  split
  · refine .after fun _ => .after fun name => .bind (parameters_extends h) fun ps => ?_
    split
    · exact .refl _
    · exact body name ps
  · refine .after fun name => .bind (parameters_extends h) fun ps => ?_
    split
    · exact .refl _
    · exact body name ps

/-! ## Loops -/

/-- The conditions of a `while`, by induction on the steps of the loop. -/
theorem conditionItems_extends (fuel : Nat) :
    Extends (conditionItems self fuel) (conditionItems self' fuel) := by
  induction fuel with
  | zero => exact .refl _
  | succ fuel ih =>
    refine .after fun t => .ite (.refl _) (.bind (h 0) fun e => .after fun _ => ?_)
    exact .ite (.bind ih fun es => .refl _) (.refl _)

/-- What comes behind the head of a `while`. The tokens of the head are read by a reader of their
own, and the same trees are given to it. -/
theorem whileTail_extends (ts : List Token) : Extends (whileTail self ts) (whileTail self' ts) := by
  have hc : Extends (conditions self ts) (conditions self' ts) :=
    .after fun _ => .after fun _ => .lift (.map _ (conditionItems_extends h _ _))
  exact .bind hc fun cs => .bind (loopBody_extends h) fun b => .refl _

/-- A `while` collects the tokens of its head without the trees. So the heads are the same, and what
is read from them extends. -/
theorem whileTree_extends : Extends (whileTree self) (whileTree self') :=
  .after fun _ => .after fun ts => whileTail_extends h ts

/-- What a `for` walks over is an expression in the head, read by a reader of its own. -/
theorem range_extends (ts : List Token) : Extends (range self ts) (range self' ts) := by
  unfold range
  split
  · exact .refl _
  · exact .lift (value_extends h _)
  · exact .bind (.lift (values_extends h _)) fun es => .refl _

/-- Both kinds of `for`: the one with three parts reads them as lists, and the other one reads its
head as a `while` does. -/
theorem forTree_extends : Extends (forTree self) (forTree self') := by
  refine .after fun _ => .after fun open? => .ite ?_ (.after fun ts => ?_)
  · refine .bind (list_extends h ';') fun init => .after fun _ => ?_
    refine .bind (list_extends h ';') fun condition => .after fun _ => ?_
    refine .bind (list_extends h ')') fun step => .after fun _ => ?_
    exact .bind (loopBody_extends h) fun b => .refl _
  · split
    · exact .bind (range_extends h _) fun r => .bind (loopBody_extends h) fun b => .refl _
    · exact whileTail_extends h _

/-! ## Unsetting -/

/-- The targets of an `unset` are tokens, and only their indexes go further down. -/
theorem unsetItems_extends (fuel : Nat) :
    Extends (unsetItems self fuel) (unsetItems self' fuel) := by
  induction fuel with
  | zero => exact .refl _
  | succ fuel ih =>
    refine .after fun t => ?_
    split
    · refine .after fun _ => .bind (.lift (value_extends h _)) fun e => ?_
      split <;> exact .after fun target => .bind ih fun es => .refl _
    · exact .refl _

/-- An `unset` has only its targets. -/
theorem unsetTree_extends : Extends (unsetTree self) (unsetTree self') :=
  .after fun _ => .after fun fuel => .bind (unsetItems_extends h fuel) fun _ => .refl _

/-! ## Trees

One layer of a tree is made of the layer below, and below the last one every tree goes too deep. The
induction is on how many layers there are. -/

/-- What a tree begins with: each of the constructs above, a list in parentheses, or the value of a
token. -/
theorem atom_extends : Extends (atom self) (atom self') := by
  refine .after fun t => ?_
  -- one case for each token that a tree can begin with
  split
  · exact .refl _
  · exact .after fun _ => .bind (h 0) fun e => .refl _
  · exact block_extends h
  · exact ifTree_extends h
  · exact functionTree_extends h
  · exact forTree_extends h
  · exact whileTree_extends h
  · exact unsetTree_extends h
  · exact .ite (.after fun _ => .bind (h _) fun e => .refl _) (.refl _)
  · exact .refl _
  · exact .refl _
  · exact .after fun _ => .lift (value_extends h _)

/-- One layer of a tree extends if the layers below do. -/
theorem treeStep_extends (limit : Nat) : Extends (treeStep self limit) (treeStep self' limit) := by
  refine .bind (atom_extends h) fun e => .bind (callTail_extends h e) fun e => ?_
  exact .after fun fuel => operators_extends h limit fuel e

omit h

/-- **The bound on the depth of trees only bounds.** With a greater one the same is read. The
induction is on the lower bound, one layer at a time. -/
theorem tree_extends {n m : Nat} (hnm : n ≤ m) (limit : Nat) :
    Extends (tree n limit) (tree m limit) := by
  -- one layer more at a time, from the layer that always goes too deep
  have step (n : Nat) : ∀ limit, Extends (tree n limit) (tree (n + 1) limit) := by
    induction n with
    | zero => exact fun _ => .throw _
    | succ n ih => exact treeStep_extends ih
  induction hnm with
  | refl => exact .refl _
  | step _ ih => exact ih.trans (step _ limit)

/-- The statements of a script, by induction on the steps of the loop. -/
theorem programItems_extends (h : ∀ limit, Extends (self limit) (self' limit)) (fuel : Nat) :
    Extends (programItems self fuel) (programItems self' fuel) := by
  induction fuel with
  | zero => exact .refl _
  | succ fuel ih =>
    refine .after fun t => .ite (.refl _) (.bind (statement_extends h) fun e => ?_)
    refine .after fun t => .ite (.refl _) (.after fun _ => .after fun _ => ?_)
    exact .bind ih fun es => .refl _

/-- A script extends if its trees do. -/
theorem program_extends (h : ∀ limit, Extends (self limit) (self' limit)) :
    Extends (program self) (program self') :=
  .after fun _ => .after fun fuel => programItems_extends h fuel

/-- A value that is found with some bound is found with any greater one. In this form it is used
where trees are known to be deep enough for one part of an expression. -/
theorem value_of_le {n m : Nat} (hnm : n ≤ m) {t : Token} {e : Expr}
    (h : value (tree n) t = .ok e) : value (tree m) t = .ok e := by
  rcases value_extends (tree_extends hnm) t with ht | ht
  · rw [h] at ht
    cases ht
  · rw [ht, h]

end CommandLanguage.Grammar
