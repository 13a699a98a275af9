import CommandLanguage.Proofs.Grammar.Concat

/-!
# Barriers

Nothing is read past a `;` with an `else` behind it, unless the body of a loop begins somewhere behind
them (`Barrier`). A `;` ends all that a tree can take. Where semicolons are passed, a statement comes
next, and none begins with `else`. Only the head of a loop takes tokens of any kind, and it has to end
before the body. So a script in whose tokens there is a barrier is not read (`run_program_of_barrier`).

`Grammar.Brings P Q m` says that from tokens that meet `P` the reader `m` comes, if it reads anything,
to tokens that meet `Q`. Along the grammar, each reader that starts before the barrier ends before it,
and each reader of a tree that starts at the `else` reads nothing.
-/

namespace CommandLanguage

namespace Token

/-- Whether the body of a loop can begin with a token. -/
def opensBody (t : Token) : Bool := t.isKeyword "do" || t.isPunctuation '\x7b'

theorem opensBody_of_alike {ts us : List Token} (h : Alike ts us)
    (hus : ∀ u ∈ us, u.opensBody = false) : ∀ t ∈ ts, t.opensBody = false := by
  intro t ht
  have hmem : t.unplaced ∈ us.map unplaced := by
    rw [← unplacedList_eq_map, ← h, unplacedList_eq_map]
    exact List.mem_map_of_mem ht
  obtain ⟨u, hu, heq⟩ := List.mem_map.1 hmem
  rw [opensBody, ← Alike.isKeyword_eq heq, ← Alike.isPunctuation_eq heq]
  exact hus u hu

end Token

namespace Grammar

variable {α β : Type} {P Q R : List Token → Prop} {self : Nat → Parse Expr}

/-! ## What reading comes to

Only readers that come to a result are spoken of here: a fault is as good as any other end, since
what is to be shown is that something is not read. -/

/-- If tokens that meet `P` are ahead and something is read, the tokens that are left meet `Q`.
Nothing is said of the result, since a barrier is about where reading ends. -/
def Brings (P Q : List Token → Prop) (m : Parse α) : Prop :=
  ∀ s a r, P s.ahead → m s = .ok (a, r) → Q r.ahead

namespace Brings

variable {m n : Parse α} {f : α → Parse β}

/-- More may be known before, and less asked after. -/
theorem mono {P' Q' : List Token → Prop} (h : Brings P Q m) (hP : ∀ ts, P' ts → P ts)
    (hQ : ∀ ts, Q ts → Q' ts) : Brings P' Q' m :=
  fun s a r hs hread => hQ _ (h s a r (hP _ hs) hread)

/-- A reader that brings the same from either of two starts brings it from both. Behind a `;` it is
not known whether the barrier is still ahead or its `else` comes next. -/
theorem of_or (h : Brings P R m) (h' : Brings Q R m) : Brings (fun ts => P ts ∨ Q ts) R m :=
  fun s a r hs hread => hs.elim (h s a r · hread) (h' s a r · hread)

/-- A reader that cannot be come to brings everything. -/
theorem of_false (h : ∀ ts, ¬P ts) : Brings P Q m := fun _ _ _ hs => absurd hs (h _)

/-- What reads nothing leaves the tokens as they are. -/
theorem pure {a : α} : Brings P P (Pure.pure a) := by
  intro s a r hs hread
  cases hread
  exact hs

/-- A fault leaves no tokens to speak of. -/
theorem throw (e : Stop) : Brings P Q (MonadExcept.throw e : Parse α) := fun _ _ _ _ => nofun

/-- What else is known of the tokens is not needed. -/
theorem and_left (h : Brings P Q m) : Brings (fun ts => P ts ∧ R ts) Q m :=
  h.mono (fun _ h => h.1) fun _ => id

/-- A fault at the next token brings everything. -/
theorem unexpected (e : Expectation) : Brings P Q (Grammar.unexpected e : Parse α) := by
  have h : Gives (fun _ => False) (Grammar.unexpected e : Parse α) := .unexpected e
  exact fun s _ _ _ hread => (h s _ hread).elim

/-- What is found without reading tokens leaves them as they are. -/
theorem lift {x : Except Stop α} : Brings P P (x : Parse α) := by
  intro s a r hs hread
  cases x with
  | error e => cases hread
  | ok a =>
    cases hread
    exact hs

/-- One reader behind the other: what the first one comes to is what the second one starts from. -/
theorem bind (hm : Brings P Q m) (hf : ∀ a, Brings Q R (f a)) : Brings P R (m >>= f) := by
  intro s b r hs hread
  obtain ⟨a, s₁, hm₁, hf₁⟩ := exists_of_bind hread
  exact hf a s₁ b r (hm s a s₁ hs hm₁) hf₁

/-- What comes behind a reader that reads nothing does not matter. It is so with a statement that
would have to begin with `else`. -/
theorem bind_false (h : Brings P (fun _ => False) m) : Brings P Q (m >>= f) :=
  bind h fun _ => of_false fun _ => id

/-- Both branches of a choice. -/
theorem ite {c : Prop} [Decidable c] (hm : Brings P Q m) (hn : Brings P Q n) :
    Brings P Q (if c then m else n) := by
  split
  · exact hm
  · exact hn

/-- Looking at the state leaves the tokens as they are. -/
theorem get : Brings P P (MonadState.get : Parse Tokens) := by
  intro s a r hs hread
  cases hread
  exact hs

/-- Counting the tokens leaves them as they are. -/
theorem budget : Brings P P Grammar.budget := by
  intro s a r hs hread
  cases hread
  exact hs

/-- The next token decides. -/
theorem peek {f : Option Token → Parse α} (hnone : Brings (fun ts => P ts ∧ ts = []) Q (f none))
    (hsome : ∀ t, Brings (fun ts => P ts ∧ ts.head? = some t) Q (f (some t))) :
    Brings P Q (Grammar.peek >>= f) := by
  intro s a r hs hread
  obtain ⟨t?, s₁, hpeek, hf⟩ := exists_of_bind hread
  obtain ⟨ahead, ending, reached⟩ := s
  cases ahead with
  | nil =>
    cases ending with
    | error e => cases hpeek
    | ok p =>
      cases hpeek
      exact hnone _ a r ⟨hs, rfl⟩ hf
  | cons t ts =>
    cases hpeek
    exact hsome t _ a r ⟨hs, rfl⟩ hf

/-- A token that is passed leaves those behind it. -/
theorem advance {t : Token} (h : ∀ ts, P (t :: ts) → Q ts) :
    Brings (fun ts => P ts ∧ ts.head? = some t) Q Grammar.advance := by
  intro s a r hs hread
  obtain ⟨hP, hhead⟩ := hs
  obtain ⟨ahead, ending, reached⟩ := s
  obtain ⟨ts, rfl⟩ : ∃ ts, ahead = t :: ts := List.head?_eq_some_iff.1 hhead
  cases hread
  exact h ts hP

/-- Where the next token is asked whether it is a certain mark, it is known in one branch that there
is one. -/
theorem atPunctuation {c : Char} {f : Bool → Parse α}
    (htrue : ∀ t, t.isPunctuation c = true → Brings (fun ts => P ts ∧ ts.head? = some t) Q (f true))
    (hfalse : Brings P Q (f false)) : Brings P Q (Grammar.atPunctuation c >>= f) := by
  simp only [Grammar.atPunctuation, bind_assoc, pure_bind]
  refine peek hfalse.and_left fun t => ?_
  cases hc : t.isPunctuation c with
  | true => simpa only [Option.any_some, hc] using htrue t hc
  | false => simpa only [Option.any_some, hc] using hfalse.and_left (R := (·.head? = some t))

/-- Where the next token is asked whether it is a certain keyword, it is known in one branch that
there is one. -/
theorem atKeyword {w : String} {f : Bool → Parse α}
    (htrue : ∀ t, t.isKeyword w = true → Brings (fun ts => P ts ∧ ts.head? = some t) Q (f true))
    (hfalse : Brings P Q (f false)) : Brings P Q (Grammar.atKeyword w >>= f) := by
  simp only [Grammar.atKeyword, bind_assoc, pure_bind]
  refine peek hfalse.and_left fun t => ?_
  cases hw : t.isKeyword w with
  | true => simpa only [Option.any_some, hw] using htrue t hw
  | false => simpa only [Option.any_some, hw] using hfalse.and_left (R := (·.head? = some t))

end Brings

/-! ## Barriers

Where a reader stands is told by the tokens that are left, and the barrier is known by its place at
the end of them. So "before the barrier" and "at its `else`" are conditions on what is left. -/

/-- A `;` with an `else` behind it, and no body of a loop behind both. The last condition is there
because the head of a loop is collected up to its body, over any semicolons. -/
structure Barrier where
  /-- where the `;` stands -/
  semicolon : Span
  /-- where the `else` stands -/
  other : Span
  /-- what comes behind them -/
  behind : List Token
  /-- no body of a loop begins there -/
  closed : ∀ t ∈ behind, t.opensBody = false

namespace Barrier

variable (B : Barrier)

/-- The tokens from the `else` on. -/
def rest : List Token := .plain (.keyword "else") B.other :: B.behind

/-- The tokens from the `;` on. -/
def tokens : List Token := .plain (.punctuation ';') B.semicolon :: B.rest

/-- The barrier is among the tokens. What is read before it may be anything, and it stays among
those that are left. -/
def Ahead (ts : List Token) : Prop := B.tokens <:+ ts

/-- The `else` of the barrier comes next. This is where reading ends, as no statement begins with
that word. -/
def Open (ts : List Token) : Prop := ts = B.rest

/-- The barrier is among the tokens, or its `else` comes next. It is what is known behind a `;`,
which may be the one of the barrier. -/
def Near (ts : List Token) : Prop := B.Ahead ts ∨ B.Open ts

variable {B} {t : Token} {ts : List Token}

/-- Behind a token the barrier is still ahead, unless the token was its `;`. In that case the `else`
comes next. -/
theorem Ahead.of_cons (h : B.Ahead (t :: ts)) : B.Near ts := by
  rcases List.suffix_cons_iff.1 h with heq | hsuffix
  · exact .inr (List.cons.inj heq).2.symm
  · exact .inl hsuffix

/-- Only a `;` can be the beginning of the barrier. -/
theorem Ahead.tail (h : B.Ahead (t :: ts)) (ht : t.isPunctuation ';' = false) : B.Ahead ts := by
  rcases List.suffix_cons_iff.1 h with heq | hsuffix
  · obtain ⟨rfl, -⟩ := List.cons.inj heq
    cases ht
  · exact hsuffix

/-- From the `else` of a barrier on, no body of a loop begins. -/
theorem Open.opensBody (h : B.Open ts) : ∀ t ∈ ts, t.opensBody = false := by
  rw [h]
  exact List.forall_mem_cons.2 ⟨by simp [Token.opensBody, Token.isKeyword, Token.isPunctuation], B.closed⟩

/-- Semicolons that are passed stand before the barrier, or are the one of it. -/
theorem Near.afterSeparators (h : B.Near ts) : B.Near (afterSeparators ts) := by
  induction ts with
  | nil => exact h
  | cons t ts ih =>
    rw [afterSeparators_cons]
    split
    · rename_i ht
      refine h.elim (fun h => ih h.of_cons) fun h => ?_
      obtain ⟨rfl, -⟩ := List.cons.inj h
      cases ht
    · exact h

end Barrier

namespace Brings

variable {B : Barrier} {m : Parse α}

/-- A token other than `;` is passed before the barrier. -/
theorem advance_ahead {t : Token} (ht : t.isPunctuation ';' = false) :
    Brings (fun ts => B.Ahead ts ∧ ts.head? = some t) B.Ahead Grammar.advance :=
  advance fun _ h => h.tail ht

/-- A mark other than `;` that has to come is passed before the barrier. -/
theorem expectPunctuation {c : Char} (hc : c ≠ ';') :
    Brings B.Ahead B.Ahead (Grammar.expectPunctuation c) :=
  atPunctuation (fun _ ht => advance_ahead (Carries.isPunctuation_eq_false ht hc)) (unexpected _)

/-- A `;` that has to come may be the one of the barrier. This and `skipSeparators` are the two ways
to come to the `else`. -/
theorem expectSemicolon : Brings B.Ahead B.Near (Grammar.expectPunctuation ';') :=
  atPunctuation (fun _ _ => advance fun _ h => h.of_cons) (unexpected _)

/-- A keyword that has to come stands before the barrier, as its `;` comes first. -/
theorem expectKeyword (w : String) : Brings B.Ahead B.Ahead (Grammar.expectKeyword w) :=
  atKeyword (fun _ ht => advance_ahead (Carries.isPunctuation_of_isKeyword ht ';')) (unexpected _)

/-- A mark other than `;` that may come leaves the barrier ahead. -/
theorem acceptPunctuation {c : Char} (hc : c ≠ ';') :
    Brings B.Ahead B.Ahead (Grammar.acceptPunctuation c) :=
  atPunctuation (fun _ ht => bind (advance_ahead (Carries.isPunctuation_eq_false ht hc)) fun _ => pure)
    pure

/-- A keyword that may come leaves the barrier ahead. -/
theorem acceptKeyword (w : String) : Brings B.Ahead B.Ahead (Grammar.acceptKeyword w) :=
  atKeyword (fun _ ht => bind (advance_ahead (Carries.isPunctuation_of_isKeyword ht ';')) fun _ => pure)
    pure

/-- Semicolons may be passed up to the `else` of the barrier, and not further. There may be more of
them before the barrier than the one that belongs to it. -/
theorem skipSeparators : Brings B.Near B.Near Grammar.skipSeparators := by
  intro s a r hs hread
  cases hread
  exact hs.afterSeparators

/-- Before the barrier there is a next token. So the case of no tokens does not come up. -/
theorem peek_ahead {f : Option Token → Parse α}
    (h : ∀ t, Brings (fun ts => B.Ahead ts ∧ ts.head? = some t) Q (f (some t))) :
    Brings B.Ahead Q (Grammar.peek >>= f) := by
  refine peek (.of_false fun ts hts => ?_) h
  obtain ⟨hahead, rfl⟩ := hts
  cases List.suffix_nil.1 hahead

/-- Where the `else` of the barrier comes next, only what is done with it matters. -/
theorem peek_open {f : Option Token → Parse α}
    (h : Brings B.Open Q (f (some (.plain (.keyword "else") B.other)))) :
    Brings B.Open Q (Grammar.peek >>= f) := by
  intro s a r hs hread
  obtain ⟨t?, s₁, hpeek, hf⟩ := exists_of_bind hread
  rw [peek_cons hs] at hpeek
  cases hpeek
  exact h s a r hs hf

/-- Where semicolons were passed, the `else` of the barrier may come next. -/
theorem peek_near {f : Option Token → Parse α}
    (h : ∀ t, Brings (fun ts => B.Ahead ts ∧ ts.head? = some t) Q (f (some t)))
    (h' : Brings B.Open Q (f (some (.plain (.keyword "else") B.other)))) :
    Brings B.Near Q (Grammar.peek >>= f) :=
  of_or (peek_ahead h) (peek_open h')

/-- A token other than `;` is passed before the barrier, and then something is found without reading
tokens. -/
theorem passed {t : Token} (ht : t.isPunctuation ';' = false) {x : Except Stop α} :
    Brings (fun ts => B.Ahead ts ∧ ts.head? = some t) B.Ahead (do Grammar.advance; (x : Except Stop α)) :=
  bind (advance_ahead ht) fun _ => lift

end Brings

/-! ## The grammar before a barrier

There is a lemma for each reader of the grammar, in the order of the grammar. Each of them is the
rule for the steps of the reader, with the places at which a `;` may be passed looked at more
closely. -/

variable (B : Barrier)

/-- What is so of the trees further down: those that begin before the barrier end before it, and none
begins with its `else`. -/
structure StopsTrees (trees : Nat → Parse Expr) : Prop where
  /-- trees end before the barrier -/
  stays (limit : Nat) : Brings B.Ahead B.Ahead (trees limit)
  /-- no tree begins with an `else` -/
  refuses (limit : Nat) : Brings B.Open (fun _ => False) (trees limit)

variable {B} (h : StopsTrees B self)

include h

/-! ### Calls and operators -/

/-- The items of a list end before the barrier: each is a tree, and what stands between two of them
is a comma. -/
theorem listItems_stays (fuel : Nat) : Brings B.Ahead B.Ahead (listItems self fuel) := by
  induction fuel with
  | zero => exact .throw _
  | succ fuel ih =>
    refine .bind (h.stays 0) fun e => .bind (.acceptPunctuation (by decide)) fun more => ?_
    exact .ite (.bind ih fun es => .pure) .pure

/-- A list ends before the barrier if the character that closes it is no `;`. -/
theorem list_stays (stop : Char) : Brings B.Ahead B.Ahead (list self stop) :=
  .atPunctuation (fun _ _ => .and_left .pure) (.bind .budget fun fuel => listItems_stays h fuel)

/-- A list that does not end at once begins with a tree. It would have to end at the `else`, and
that is no character. -/
theorem list_refuses (stop : Char) : Brings B.Open (fun _ => False) (list self stop) := by
  unfold list Grammar.atPunctuation
  simp only [bind_assoc, pure_bind]
  refine .peek_open (.bind .budget fun fuel => ?_)
  cases fuel with
  | zero => exact .throw _
  | succ fuel => exact .bind_false (h.refuses 0)

omit h in
/-- A token that stands for an argument is no `;`. -/
theorem isPunctuation_of_argument? {t : Token} {x : Except Stop Expr} (ht : argument? self t = some x) :
    t.isPunctuation ';' = false := by
  rcases t with ⟨l, p⟩ | ⟨items, p⟩
  · cases l with
    | punctuation => cases ht
    | _ => rfl
  · rfl

omit h in
/-- The arguments of a command end before the barrier. Its `;` stands for no argument, so the
command ends there at the latest. -/
theorem arguments_stays (fuel : Nat) : Brings B.Ahead B.Ahead (arguments self fuel) := by
  induction fuel with
  | zero => exact .throw _
  | succ fuel ih =>
    refine .peek_ahead fun t => ?_
    cases ht : argument? self t with
    | none => simpa only [Option.bind_some, ht] using .and_left .pure
    | some x =>
      simp only [Option.bind_some, ht]
      refine .bind (.advance_ahead (isPunctuation_of_argument? ht)) fun _ => ?_
      exact .bind .lift fun e => .bind ih fun es => .pure

/-- What comes behind an expression ends before the barrier. -/
theorem callTail_stays (e : Expr) : Brings B.Ahead B.Ahead (callTail self e) := by
  refine .ite .pure (.bind (.acceptPunctuation (by decide)) fun open? => .ite ?_ ?_)
  · exact .bind (list_stays h ')') fun args => .bind (.expectPunctuation (by decide)) fun _ => .pure
  · exact .bind .budget fun fuel => .bind (arguments_stays fuel) fun args => .pure

/-- The operators behind an operand end before the barrier, since its `;` is none. The induction is
on the fuel, and each operator is a token before the barrier. -/
theorem operators_stays (limit fuel : Nat) (left : Expr) :
    Brings B.Ahead B.Ahead (operators self limit fuel left) := by
  induction fuel generalizing left with
  | zero => exact .throw _
  | succ fuel ih =>
    simp only [operators, operator?, bind_assoc]
    refine .peek_ahead fun t => ?_
    split
    · rename_i o p heq
      cases heq
      cases o.precedence? with
      | none => exact .and_left .pure
      | some q =>
        refine .ite (.and_left .pure) (.bind (.advance_ahead rfl) fun _ => .ite (ih _) ?_)
        exact .bind (h.stays _) fun right => ih _
    · exact .and_left .pure

/-! ### Statements and blocks -/

/-- A statement that begins before the barrier ends before it. -/
theorem statement_stays : Brings B.Ahead B.Ahead (statement self) := .bind (h.stays 0) fun _ => .pure

/-- No statement begins with an `else`. The parser takes it as part of an `if` only, right behind
the first branch. -/
theorem statement_refuses : Brings B.Open (fun _ => False) (statement self) := .bind_false (h.refuses 0)

/-- Statements end before the barrier: if its `;` is passed, no statement begins behind it, and the
block is not closed there. -/
theorem statementsUntil_stays {closes : Token → Bool}
    (hcloses : ∀ p, closes (.plain (.keyword "else") p) = false) (fuel : Nat) :
    Brings B.Ahead B.Ahead (statementsUntil self closes fuel) := by
  induction fuel with
  | zero => exact .throw _
  | succ fuel ih =>
    refine .bind (Brings.skipSeparators.mono (fun _ => .inl) fun _ => id) fun _ => .peek_near ?_ ?_
    · refine fun t => .and_left (.ite .pure (.bind (statement_stays h) fun e => ?_))
      refine .peek_ahead fun t => .and_left (.ite ?_ (.unexpected _))
      exact .bind ih fun es => .pure
    · dsimp only
      rw [hcloses]
      exact .bind_false (statement_refuses h)

/-- A block in braces ends before the barrier, or does not end. If its statements come to the
barrier, then the `else` is neither a statement nor the closing brace. -/
theorem block_stays : Brings B.Ahead B.Ahead (block self) := by
  refine .bind (.expectPunctuation (by decide)) fun _ => .bind .budget fun fuel => ?_
  refine .bind (statementsUntil_stays h (fun _ => rfl) fuel) fun ss => ?_
  exact .bind (.expectPunctuation (by decide)) fun _ => .pure

/-- A block between `do` and `done` ends before the barrier, or does not end. -/
theorem doBlock_stays : Brings B.Ahead B.Ahead (doBlock self) := by
  refine .bind (.expectKeyword _) fun _ => .bind .budget fun fuel => ?_
  refine .bind (statementsUntil_stays h (fun _ => by simp [Token.isKeyword]) fuel) fun ss => ?_
  exact .bind (.expectKeyword _) fun _ => .pure

/-- The body of a loop is a block of either kind. -/
theorem loopBody_stays : Brings B.Ahead B.Ahead (loopBody self) := by
  refine .atKeyword (fun _ _ => .and_left (doBlock_stays h)) ?_
  exact .atPunctuation (fun _ _ => .and_left (block_stays h)) (.unexpected _)

/-- A branch is a block or a statement. -/
theorem branch_stays : Brings B.Ahead B.Ahead (branch self) :=
  .atPunctuation (fun _ _ => .and_left (block_stays h)) (statement_stays h)

/-! ### Compound constructs -/

/-- An `if` ends before the barrier. It looks for an `else` behind its first branch, where the `;`
stands. -/
theorem ifTree_stays : Brings B.Ahead B.Ahead (ifTree self) := by
  refine .bind (.expectKeyword _) fun _ => .bind (h.stays 0) fun condition => ?_
  refine .bind (.bind (.acceptKeyword _) fun _ => .pure) fun _ => .bind (branch_stays h) fun yes => ?_
  refine .bind (.acceptKeyword _) fun other => .ite ?_ .pure
  exact .bind (branch_stays h) fun no => .pure

/-- Parameters end before the barrier: a list in parentheses or a single token. -/
theorem parameters_stays : Brings B.Ahead B.Ahead (parameters self) := by
  have hlisted : Brings B.Ahead B.Ahead (listedParameters self) := by
    refine .bind (.acceptPunctuation (by decide)) fun open? => .ite ?_ .pure
    exact .bind (list_stays h ')') fun ps => .bind (.expectPunctuation (by decide)) fun _ => .pure
  refine .peek_ahead fun t => ?_
  rcases t with ⟨l, p⟩ | ⟨items, p⟩
  · exact .and_left hlisted
  · exact .passed rfl

/-- What comes behind the name of a function ends before the barrier. -/
theorem functionRest_stays (name : Option String) : Brings B.Ahead B.Ahead (functionRest self name) := by
  refine .bind (parameters_stays h) fun ps => ?_
  split
  · exact .bind .get fun _ => .lift
  · exact .bind (branch_stays h) fun b => .pure

/-- A function that begins before the barrier ends before it. -/
theorem functionTree_stays : Brings B.Ahead B.Ahead (functionTree self) := by
  refine .bind (.expectKeyword _) fun _ => ?_
  have hrest (name : Option String) := functionRest_stays h name
  refine .peek_ahead fun t => ?_
  split
  · rename_i n _ ht
    cases ht
    exact .bind (.advance_ahead rfl) fun _ => hrest (some n)
  · exact .and_left (hrest none)

/-! ### Loops -/

omit h

/-- Without a body of a loop ahead, the head of a loop has no end. The tokens are used up, and then
a fault is all that is left. -/
theorem conditionTokens_refuses (fuel : Nat) :
    Brings (fun ts => ∀ t ∈ ts, t.opensBody = false) (fun _ => False) (conditionTokens fuel) := by
  induction fuel with
  | zero => exact .throw _
  | succ fuel ih =>
    refine .peek (.unexpected _) fun t => ?_
    dsimp only
    split
    · rename_i hopens
      refine .of_false fun ts hts => ?_
      rw [← Token.opensBody, hts.1 t (List.mem_of_head? hts.2)] at hopens
      cases hopens
    · refine .bind (.advance fun ts hts => (List.forall_mem_cons.1 hts).2) fun _ => ?_
      exact .bind_false ih

/-- The head of a loop ends before the barrier. If it went over the barrier it would look for a body
behind it, and there is none. -/
theorem conditionTokens_stays (fuel : Nat) : Brings B.Ahead B.Ahead (conditionTokens fuel) := by
  induction fuel with
  | zero => exact .throw _
  | succ fuel ih =>
    refine .peek_ahead fun t => .ite (.and_left .pure) ?_
    refine .bind (.advance fun ts hts => hts.of_cons) fun _ => .bind (.of_or ih ?_) fun ts => .pure
    exact (conditionTokens_refuses fuel).mono (fun _ hts => hts.opensBody) fun _ => False.elim

/-- The tokens of a head with parentheses or without them are collected before the barrier. -/
theorem headTokens_stays : Brings B.Ahead B.Ahead headTokens := by
  refine .bind .budget fun fuel => .bind (conditionTokens_stays fuel) fun ts => ?_
  exact .ite (.unexpected _) .pure

/-- What is read of the tokens of a head does not touch those behind it. -/
theorem conditions_stays (ts : List Token) : Brings B.Ahead B.Ahead (conditions self ts) :=
  .peek_ahead fun _ => .and_left (.bind .get fun _ => .lift)

/-- What a `for` walks over is read from the tokens of its head. -/
theorem range_stays (ts : List Token) : Brings B.Ahead B.Ahead (range self ts) := by
  unfold range
  split
  · exact .unexpected _
  · exact .lift
  · exact .bind .lift fun es => .pure

include h

/-- What comes behind the head of a `while` ends before the barrier. -/
theorem whileTail_stays (ts : List Token) : Brings B.Ahead B.Ahead (whileTail self ts) :=
  .bind (conditions_stays ts) fun _ => .bind (loopBody_stays h) fun _ => .pure

/-- A `while` that begins before the barrier ends before it. -/
theorem whileTree_stays : Brings B.Ahead B.Ahead (whileTree self) :=
  .bind (.expectKeyword _) fun _ => .bind headTokens_stays fun ts => whileTail_stays h ts

/-- What comes behind the head of a `for` ends before the barrier. -/
theorem forRest_stays (ts : List Token) : Brings B.Ahead B.Ahead (forRest self ts) := by
  unfold forRest
  split
  · exact .bind (range_stays _) fun r => .bind (loopBody_stays h) fun b => .pure
  · exact whileTail_stays h _

/-- The `;` of the barrier is none of a loop with three parts in its head, since an expression or `;`
comes next there. -/
theorem forTree_stays : Brings B.Ahead B.Ahead (forTree self) := by
  have hlist (stop : Char) : Brings B.Near B.Ahead (list self stop) :=
    .of_or (list_stays h stop) ((list_refuses h stop).mono (fun _ => id) fun _ => False.elim)
  refine .bind (.expectKeyword _) fun _ => .bind (.acceptPunctuation (by decide)) fun open? => .ite ?_ ?_
  · refine .bind (list_stays h ';') fun init => .bind .expectSemicolon fun _ => ?_
    refine .bind (hlist ';') fun condition => .bind .expectSemicolon fun _ => ?_
    refine .bind (hlist ')') fun step => .bind (.expectPunctuation (by decide)) fun _ => ?_
    exact .bind (loopBody_stays h) fun b => .pure
  · exact .bind headTokens_stays fun ts => forRest_stays h ts

/-! ### Unsetting -/

omit h

/-- The targets of an `unset` are names and commas, so they end at the `;` of the barrier. -/
theorem unsetItems_stays (fuel : Nat) : Brings B.Ahead B.Ahead (unsetItems self fuel) := by
  induction fuel with
  | zero => exact .throw _
  | succ fuel ih =>
    refine .peek_ahead fun t => ?_
    rcases t with ⟨l, p⟩ | ⟨items, p⟩
    · cases l with
      | «variable» n d i =>
        refine .bind (.advance_ahead rfl) fun _ => .bind .lift fun e => ?_
        split <;> exact .bind .pure fun target => .bind ih fun es => .pure
      | _ => exact .and_left .pure
    · exact .and_left .pure

/-- An `unset` ends before the barrier. -/
theorem unsetTree_stays : Brings B.Ahead B.Ahead (unsetTree self) := by
  refine .bind (.expectKeyword _) fun _ => .bind .budget fun fuel => ?_
  refine .bind (unsetItems_stays fuel) fun es => ?_
  split
  · exact .unexpected _
  · exact .pure
  · exact .pure

/-! ### Trees -/

/-- No tree begins with an `else`. -/
theorem atom_refuses : Brings B.Open (fun _ => False) (atom self) :=
  .peek_open (.unexpected _)

include h

/-- What a tree begins with ends before the barrier: one case for each construct. For an `if`, it
matters that no `;` may stand before its `else`. -/
theorem atom_stays : Brings B.Ahead B.Ahead (atom self) := by
  refine .peek_ahead fun t => ?_
  -- one case for each token that a tree can begin with
  split
  · exact .unexpected _
  · rename_i heq
    cases heq
    refine .bind (.advance_ahead rfl) fun _ => .bind (h.stays 0) fun e => ?_
    exact .bind (.expectPunctuation (by decide)) fun _ => .pure
  · exact .and_left (block_stays h)
  · exact .and_left (ifTree_stays h)
  · exact .and_left (functionTree_stays h)
  · exact .and_left (forTree_stays h)
  · exact .and_left (whileTree_stays h)
  · exact .and_left unsetTree_stays
  · rename_i heq
    cases heq
    exact .ite (.bind (.advance_ahead rfl) fun _ => .bind (h.stays _) fun e => .pure) (.unexpected _)
  · exact .unexpected _
  · exact .unexpected _
  · rename_i hother heq
    cases heq
    refine .bind (.advance_ahead (Bool.eq_false_iff.2 fun ht => ?_)) fun _ => .lift
    obtain ⟨p, hp⟩ := Token.isPunctuation_iff.1 ht
    exact hother _ p hp

/-- One layer of a tree ends before the barrier if the layers below do. -/
theorem treeStep_stays (limit : Nat) : Brings B.Ahead B.Ahead (treeStep self limit) := by
  refine .bind (atom_stays h) fun e => .bind (callTail_stays h e) fun e => ?_
  exact .bind .budget fun fuel => operators_stays h limit fuel e

omit h

/-- A tree begins with what cannot be an `else`. -/
theorem treeStep_refuses (limit : Nat) : Brings B.Open (fun _ => False) (treeStep self limit) :=
  .bind_false atom_refuses

/-- **No tree goes past a barrier.** The induction is on the depth, and takes both facts along:
trees that begin before it end before it, and none begins with its `else`. -/
theorem stopsTrees_tree (B : Barrier) (n : Nat) : StopsTrees B (tree n) := by
  induction n with
  | zero => exact ⟨fun _ => .throw _, fun _ => .throw _⟩
  | succ n ih => exact ⟨treeStep_stays ih, treeStep_refuses⟩

/-! ## Scripts with a barrier -/

include h

/-- Behind the statements before a barrier there is no other one. -/
theorem programItems_refuses (fuel : Nat) :
    Brings B.Near (fun _ => False) (programItems self fuel) := by
  induction fuel with
  | zero => exact .throw _
  | succ fuel ih =>
    refine .peek_near (fun t => .and_left ?_) ?_
    · refine .bind (statement_stays h) fun e => .peek_ahead fun t => .and_left ?_
      refine .bind .expectSemicolon fun _ => .bind .skipSeparators fun _ => ?_
      exact .bind_false ih
    · exact .bind_false (statement_refuses h)

/-- A script that the barrier stands in comes to its `else` and does not get past it. There a
statement would have to begin, or the tokens would have to end. -/
theorem program_refuses : Brings B.Ahead (fun _ => False) (program self) := by
  refine .bind (Brings.skipSeparators.mono (fun _ => .inl) fun _ => id) fun _ => ?_
  exact .bind .budget fun fuel => programItems_refuses h fuel

omit h

/-- **A script with a barrier is not read.** As no bound is ever reached, what it ends in is a fault
of the script. -/
theorem run_program_of_barrier {s : Tokens} (hs : B.Ahead s.ahead) : ∃ f, run program s = .error f := by
  cases hrun : run program s with
  | error f => exact ⟨f, rfl⟩
  | ok x =>
    obtain ⟨es, r⟩ := x
    exact (program_refuses (stopsTrees_tree B _) s es r hs (run_eq_ok_iff.1 hrun)).elim

end Grammar

end CommandLanguage
