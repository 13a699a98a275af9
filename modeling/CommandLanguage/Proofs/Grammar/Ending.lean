import CommandLanguage.Proofs.Grammar.Barrier
import CommandLanguage.Proofs.Token.Weight

/-!
# Reading ends

The bound on the depth of trees and the number of steps that a loop over tokens can take are there so that
reading ends, and neither is ever reached. `Grammar.Halts P Q m` says that from tokens that meet `P` the
reader `m` reaches no bound, and that if it reads something it comes to tokens that meet `Q`. The tokens
that reading starts from are measured in two ways (`Fits`): their weight is less than the depth of the trees
that are still there, and their number is less than the steps that are left.

Each token that is passed makes both smaller. So trees take at least a token (`tree_halts`), and the trees
further down get lighter tokens: those behind a token, those of an index that the token holds, or those of
the head of a loop (`value_halts`, `headTokens_halts`).

* `program_eq_of_lt` — any bound above the weight of the tokens gives the same script or fault;
* `value_congr`, `length_ofList_lt` — what the readers that are started for an index or a head are given;
* `Expr.parse_ends` — all of it, for texts.
-/

namespace CommandLanguage

namespace Grammar

open Token (weightList weightList_append weightList_le_of_sublist weight_le_weightList one_le_weight)

variable {α β : Type} {P Q R : List Token → Prop} {self : Nat → Parse Expr}

/-! ## Readers that end

A fault of the script is an end like any other. What has to be excluded is only the outcome that
says that a bound was reached, which no script should ever come to. -/

/-- No bound is reached. A result and a fault of the script are both fine: only the outcome that
stands for a bound, which no script should ever see, is excluded. -/
def Bounded (x : Except Stop α) : Prop := x ≠ .error .tooDeep

namespace Bounded

variable {x : Except Stop α}

/-- A value is no bound. -/
theorem ok (a : α) : Bounded (.ok a) := nofun

/-- A fault of the script is no bound. -/
theorem fail {e : Expectation} {found : Finding} {p : Position} :
    Bounded (Grammar.fail e found p : Except Stop α) :=
  fun h => by cases h

/-- What is built on an outcome reaches a bound only by itself, if the outcome did not. What comes
behind has to be looked at for the results that the outcome can have, and for no others. -/
theorem bind {f : α → Except Stop β} (hx : Bounded x) (hf : ∀ a, x = .ok a → Bounded (f a)) :
    Bounded (x >>= f) := by
  cases x with
  | ok a => exact hf a rfl
  | error e =>
    intro h
    cases h
    exact hx rfl

/-- What is made of an outcome reaches no bound. -/
theorem map (f : α → β) (hx : Bounded x) : Bounded (x.map f) := by
  cases x with
  | ok a => exact ok (f a)
  | error e =>
    intro h
    cases h
    exact hx rfl

end Bounded

/-- From tokens that meet `P` no bound is reached, and what is read comes to tokens that meet `Q`.
The two are said together since a reader that comes next starts from the tokens that are left. -/
structure Halts (P Q : List Token → Prop) (m : Parse α) : Prop where
  /-- no bound is reached -/
  bounded : ∀ s, P s.ahead → Bounded (m s)
  /-- the tokens that are left -/
  brings : Brings P Q m

/-- The tokens weigh less than `n`, and there are less than `k` of them. The weight bounds how deep
trees may lie within each other, and the number bounds the steps of a loop. -/
structure Fits (n k : Nat) (ts : List Token) : Prop where
  /-- how much they weigh -/
  weight : weightList ts < n
  /-- how many they are -/
  length : ts.length < k

namespace Fits

variable {n n' k k' : Nat} {t : Token} {ts us : List Token}

/-- Less weight and fewer tokens fit in wherever more do. -/
theorem mono (h : Fits n k ts) (hn : n ≤ n') (hk : k ≤ k') : Fits n' k' ts :=
  ⟨Nat.lt_of_lt_of_le h.weight hn, Nat.lt_of_lt_of_le h.length hk⟩

/-- Behind a token there are less, and they weigh less. Every token weighs at least one, which is
why both measures go down together. -/
theorem tail (h : Fits (n + 1) (k + 1) (t :: ts)) : Fits n k ts := by
  have hweight := h.weight
  have hlength := h.length
  have hone := one_le_weight t
  rw [weightList] at hweight
  rw [List.length_cons] at hlength
  exact ⟨by omega, by omega⟩

/-- The tokens behind others fit in where all of them do. A reader takes from the front, so what it
leaves is such an end. -/
theorem suffix (h : Fits n k ts) (hus : us <:+ ts) : Fits n k us :=
  ⟨Nat.lt_of_le_of_lt (weightList_le_of_sublist hus.sublist) h.weight,
    Nat.lt_of_le_of_lt hus.length_le h.length⟩

/-- The next token weighs less than what all tokens weigh together may. -/
theorem weight_head (h : Fits n k ts) (ht : ts.head? = some t) : t.weight < n :=
  Nat.lt_of_le_of_lt (weight_le_weightList (List.mem_of_head? ht)) h.weight

end Fits

namespace Halts

variable {m m' : Parse α} {f : α → Parse β} {n k : Nat}

/-! ### Rules for all readers -/

theorem mono {P' Q' : List Token → Prop} (h : Halts P Q m) (hP : ∀ ts, P' ts → P ts)
    (hQ : ∀ ts, Q ts → Q' ts) : Halts P' Q' m :=
  ⟨fun s hs => h.bounded s (hP _ hs), h.brings.mono hP hQ⟩

/-- What else is known of the tokens is not needed. -/
theorem and_left (h : Halts P Q m) : Halts (fun ts => P ts ∧ R ts) Q m :=
  h.mono (fun _ h => h.1) fun _ => id

/-- A reader that cannot be come to does what is asked of it. It is so with a loop that has no steps
left while there are tokens. -/
theorem of_false (h : ∀ ts, ¬P ts) : Halts P Q m := ⟨fun _ hs => absurd hs (h _), .of_false h⟩

/-- What reads nothing ends, and leaves the tokens as they are. -/
theorem pure {a : α} : Halts P P (Pure.pure a) := ⟨fun _ _ => nofun, .pure⟩

/-- What is found without reading tokens. -/
theorem lift {x : Except Stop α} (h : Bounded x) : Halts P P (x : Parse α) :=
  ⟨fun _ _ => h.bind fun _ _ => .ok _, .lift⟩

theorem bind (hm : Halts P Q m) (hf : ∀ a, Halts Q R (f a)) : Halts P R (m >>= f) := by
  refine ⟨fun s hs => ?_, hm.brings.bind fun a => (hf a).brings⟩
  exact (hm.bounded s hs).bind fun r hread => (hf r.1).bounded r.2 (hm.brings s r.1 r.2 hs hread)

/-- Running a reader on tokens of its own. Indices and heads of loops are read in this way, and what
is left of their tokens is dropped. -/
theorem run (h : Halts P Q m) {s : Tokens} (hs : P s.ahead) : Bounded ((m.run s).map Prod.fst) :=
  (h.bounded s hs).map Prod.fst

theorem ite {c : Prop} [Decidable c] (hm : Halts P Q m) (hn : Halts P Q m') :
    Halts P Q (if c then m else m') := by
  split
  · exact hm
  · exact hn

/-- Looking at the state reads nothing. -/
theorem get : Halts P P (MonadState.get : Parse Tokens) := ⟨fun _ _ => nofun, .get⟩

/-- The next token decides. -/
theorem peek {f : Option Token → Parse α} (hnone : Halts P Q (f none))
    (hsome : ∀ t, Halts (fun ts => P ts ∧ ts.head? = some t) Q (f (some t))) :
    Halts P Q (Grammar.peek >>= f) := by
  refine ⟨fun s hs => ?_, .peek hnone.and_left.brings fun t => (hsome t).brings⟩
  obtain ⟨ahead, ending, reached⟩ := s
  cases ahead with
  | nil =>
    cases ending with
    | error e => exact nofun
    | ok p =>
      rw [bind_of_ok (peek_nil rfl rfl)]
      exact hnone.bounded _ hs
  | cons t ts =>
    rw [bind_of_ok (peek_cons rfl)]
    exact (hsome t).bounded _ ⟨hs, rfl⟩

/-- A fault at the next token reaches no bound, and nothing is read. -/
theorem unexpected (e : Expectation) : Halts P Q (Grammar.unexpected e : Parse α) := by
  have hbounded : Halts P P (Grammar.unexpected e : Parse α) :=
    peek (bind get fun _ => bind get fun _ => lift .fail) fun t => and_left (lift .fail)
  exact ⟨hbounded.bounded, .unexpected e⟩

/-- Where the next token is asked whether it is a certain mark, it is known in one branch that there
is one. -/
theorem atPunctuation {c : Char} {f : Bool → Parse α}
    (htrue : ∀ t, t.isPunctuation c = true → Halts (fun ts => P ts ∧ ts.head? = some t) Q (f true))
    (hfalse : Halts P Q (f false)) : Halts P Q (Grammar.atPunctuation c >>= f) := by
  simp only [Grammar.atPunctuation, bind_assoc, pure_bind]
  refine peek hfalse fun t => ?_
  cases hc : t.isPunctuation c with
  | true => simpa only [Option.any_some, hc] using htrue t hc
  | false => simpa only [Option.any_some, hc] using hfalse.and_left (R := (·.head? = some t))

/-- Where the next token is asked whether it is a certain keyword, it is known in one branch that
there is one. -/
theorem atKeyword {w : String} {f : Bool → Parse α}
    (htrue : ∀ t, t.isKeyword w = true → Halts (fun ts => P ts ∧ ts.head? = some t) Q (f true))
    (hfalse : Halts P Q (f false)) : Halts P Q (Grammar.atKeyword w >>= f) := by
  simp only [Grammar.atKeyword, bind_assoc, pure_bind]
  refine peek hfalse fun t => ?_
  cases hw : t.isKeyword w with
  | true => simpa only [Option.any_some, hw] using htrue t hw
  | false => simpa only [Option.any_some, hw] using hfalse.and_left (R := (·.head? = some t))

/-! ### Rules for tokens that fit

The two measures are made smaller together by a token that is passed. Where a reader passes none,
they stay as they are, and where it passes more, they may be made greater again to what is
needed. -/

/-- A token that is passed makes both measures smaller. This is the one place at which they go down;
all that is said of larger readers comes from here. -/
theorem advance {t : Token} : Halts (fun ts => Fits (n + 1) (k + 1) ts ∧ ts.head? = some t) (Fits n k)
    Grammar.advance :=
  ⟨fun _ _ => nofun, .advance fun _ h => h.tail⟩

/-- Where the weight does not matter, a token that is passed makes the number smaller. -/
theorem pass {t : Token} : Halts (fun ts => Fits n (k + 1) ts ∧ ts.head? = some t) (Fits n k)
    Grammar.advance :=
  advance.mono (fun _ h => ⟨h.1.mono (Nat.le_succ n) (Nat.le_refl _), h.2⟩) fun _ => id

/-- Where neither matters, a token can be passed. -/
theorem skip {t : Token} : Halts (fun ts => Fits n k ts ∧ ts.head? = some t) (Fits n k)
    Grammar.advance :=
  pass.mono (fun _ h => ⟨h.1.mono (Nat.le_refl n) (Nat.le_succ k), h.2⟩) fun _ => id

/-- A mark that has to come takes a token. -/
theorem expectPunctuation (c : Char) :
    Halts (Fits (n + 1) (k + 1)) (Fits n k) (Grammar.expectPunctuation c) :=
  atPunctuation (fun _ _ => advance) (unexpected _)

/-- A keyword that has to come takes a token. -/
theorem expectKeyword (w : String) :
    Halts (Fits (n + 1) (k + 1)) (Fits n k) (Grammar.expectKeyword w) :=
  atKeyword (fun _ _ => advance) (unexpected _)

/-- What takes a token from lighter ones can be done with tokens that fit. If there is none to take,
the reader ends in a fault. -/
theorem of_consuming (h : Halts (Fits (n + 1) (k + 1)) (Fits n k) m) : Halts (Fits n k) (Fits n k) m :=
  h.mono (fun _ hs => hs.mono (Nat.le_succ n) (Nat.le_succ k)) fun _ => id

/-- A mark that may come leaves tokens that fit, whether it comes or not. -/
theorem acceptPunctuation (c : Char) : Halts (Fits n k) (Fits n k) (Grammar.acceptPunctuation c) :=
  atPunctuation (fun _ _ => bind skip fun _ => pure) pure

/-- A keyword that may come leaves tokens that fit, whether it comes or not. -/
theorem acceptKeyword (w : String) : Halts (Fits n k) (Fits n k) (Grammar.acceptKeyword w) :=
  atKeyword (fun _ _ => bind skip fun _ => pure) pure

/-- What comes to fewer tokens comes to no more. -/
theorem shorten (h : Halts P (Fits n k) m) : Halts P (Fits n (k + 1)) m :=
  h.mono (fun _ => id) fun _ hs => hs.mono (Nat.le_refl n) (Nat.le_succ k)

/-- A token weighs no more than the tokens that it comes first of. -/
theorem head {t : Token} (h : t.weight < n → Halts (fun ts => Fits n k ts ∧ ts.head? = some t) Q m) :
    Halts (fun ts => Fits n k ts ∧ ts.head? = some t) Q m :=
  ⟨fun s hs => (h (hs.1.weight_head hs.2)).bounded s hs,
    fun s a r hs => (h (hs.1.weight_head hs.2)).brings s a r hs⟩

/-- Semicolons are passed by without a loop over steps. -/
theorem skipSeparators : Halts (Fits n k) (Fits n k) Grammar.skipSeparators := by
  refine ⟨fun _ _ => nofun, fun s a r hs hread => ?_⟩
  cases hread
  exact hs.suffix (afterSeparators_suffix s.ahead)

/-- A loop over the tokens ahead takes no more steps than there are tokens. It is given that many
and one more, so that the step at which it ends is counted too. -/
theorem budget {f : Nat → Parse α} (h : ∀ fuel, Halts (Fits n fuel) (Fits n fuel) (f fuel)) :
    Halts (Fits n k) (Fits n k) (Grammar.budget >>= f) := by
  have hfits (s : Tokens) (hs : Fits n k s.ahead) : Fits n (s.ahead.length + 1) s.ahead :=
    ⟨hs.weight, Nat.lt_succ_self _⟩
  refine ⟨fun s hs => (h _).bounded s (hfits s hs), fun s a r hs hread => ?_⟩
  exact ((h _).brings s a r (hfits s hs) hread).mono (Nat.le_refl n) hs.length

end Halts

/-! ## Trees take tokens, further down of less weight

A tree that is read within another one has lighter tokens ahead, for one of two reasons: a token was
passed before it, or it is read from an index, whose text is part of a token. -/

/-- What is so of the trees further down: from tokens that weigh less than `n` they reach no bound, and they
take at least one token. -/
def HaltTrees (n : Nat) (trees : Nat → Parse Expr) : Prop :=
  ∀ limit k, Halts (Fits n (k + 1)) (Fits n k) (trees limit)

variable {n k : Nat} {t : Token} {ts : List Token}

/-- No number of tokens is less than zero: a loop without steps left is never entered. So the case
of no steps is closed at once in every induction below. -/
theorem not_fits_zero (ts : List Token) : ¬Fits n 0 ts := fun hts => Nat.not_lt_zero _ hts.length

/-- A tree that comes where there may be no token at all. Either there is one and it is taken, or
the case does not arise. -/
theorem HaltTrees.tree (h : HaltTrees n self) (limit : Nat) : Halts (Fits n k) (Fits n k) (self limit) := by
  cases k with
  | zero => exact .of_false not_fits_zero
  | succ k => exact (h limit k).mono (fun _ => id) fun _ hts => hts.mono (Nat.le_refl n) (Nat.le_succ k)

/-! ### Values -/

/-- The tokens of an index weigh less than the token that holds it. That one weighs one more than
its index has characters, and no token weighs more than its characters. -/
theorem index_halts (h : HaltTrees n self) {raw : String} (hraw : raw.length < n) (p : Position) :
    Bounded (index self raw p) := by
  have hfits : Fits n ((Tokens.ofText raw.toList).ahead.length + 1) (Tokens.ofText raw.toList).ahead := by
    refine ⟨?_, Nat.lt_succ_self _⟩
    have hscan := Lexer.weightList_scan_le raw.toList
    rw [String.length_toList] at hscan
    exact Nat.lt_of_le_of_lt hscan hraw
  refine Halts.run (.peek (.lift .fail) fun t => .and_left ?_) hfits
  exact .bind (h.tree 0) fun e => .peek .pure fun t => .unexpected _

mutual

/-- The value of a token needs trees only for an index, and the tokens of an index are lighter than
the token itself. Here both measures of the induction come in: the item of an array literal is
lighter than the literal, and the index is text that is shorter than the token's weight. -/
theorem value_halts (h : HaltTrees n self) : ∀ t : Token, t.weight ≤ n → Bounded (value self t)
  | .plain (.number _) _, _ => .ok _
  | .plain (.text _ _) _, _ => .ok _
  | .plain (.boolean _) _, _ => .ok _
  | .plain (.variable _ _ none) _, _ => .ok _
  | .plain (.variable _ _ (some raw)) s, ht => by
    rw [Token.weight] at ht
    exact .map _ (index_halts h (by omega) s.start)
  | .plain (.braces _) _, _ => .ok _
  | .plain (.parameter _) _, _ => .ok _
  | .plain (.keyword _) _, _ => .fail
  | .plain (.operator _) _, _ => .fail
  | .plain (.punctuation _) _, _ => .fail
  | .array items _, ht => by
    rw [Token.weight] at ht
    exact .map _ (values_halts h items (by omega))

theorem values_halts (h : HaltTrees n self) : ∀ ts : List Token, weightList ts ≤ n → Bounded (values self ts)
  | [], _ => .ok _
  | t :: ts, hts => by
    rw [weightList] at hts
    exact (value_halts h t (by omega)).bind fun _ _ =>
      (values_halts h ts (by omega)).bind fun _ _ => .ok _

end

/-! ### Calls and operators -/

section

variable (h : HaltTrees n self)

include h

/-- The items of a list, by induction on the steps. A tree takes a token, so that a step less is
left for fewer tokens. -/
theorem listItems_halts (fuel : Nat) : Halts (Fits n fuel) (Fits n fuel) (listItems self fuel) := by
  induction fuel with
  | zero => exact .of_false not_fits_zero
  | succ fuel ih =>
    refine .shorten (.bind (h 0 fuel) fun e => .bind (.acceptPunctuation ',') fun more => ?_)
    exact .ite (.bind ih fun es => .pure) .pure

/-- A list starts with as many steps as there are tokens, and one more. -/
theorem list_halts (stop : Char) : Halts (Fits n k) (Fits n k) (list self stop) :=
  .atPunctuation (fun _ _ => .and_left .pure) (.budget fun fuel => listItems_halts h fuel)

/-- A token that stands for an argument holds only lighter ones. -/
theorem argument?_halts {x : Except Stop Expr} (ht : argument? self t = some x) (hweight : t.weight < n) :
    Bounded x := by
  unfold argument? at ht
  split at ht
  · split at ht
    · cases ht
    · obtain rfl := Option.some.inj ht
      exact .ok _
  · cases ht
  · cases ht
  · obtain rfl := Option.some.inj ht
    exact value_halts h _ (Nat.le_of_lt hweight)

/-- The arguments of a command, by induction on the steps: each is a token that is passed. How deep
an argument goes is a matter of that token alone. -/
theorem arguments_halts (fuel : Nat) : Halts (Fits n fuel) (Fits n fuel) (arguments self fuel) := by
  induction fuel with
  | zero => exact .of_false not_fits_zero
  | succ fuel ih =>
    refine .peek .pure fun t => ?_
    cases ht : argument? self t with
    | none => simpa only [Option.bind_some, ht] using .and_left .pure
    | some x =>
      simp only [Option.bind_some, ht]
      refine .head fun hweight => .shorten (.bind .pass fun _ => ?_)
      exact .bind (.lift (argument?_halts h ht hweight)) fun e => .bind ih fun es => .pure

/-- What comes behind an expression, which is a list, arguments, or nothing. -/
theorem callTail_halts (e : Expr) : Halts (Fits n k) (Fits n k) (callTail self e) := by
  refine .ite .pure (.bind (.acceptPunctuation '(') fun open? => .ite ?_ ?_)
  · refine .bind (list_halts h ')') fun args => ?_
    exact .bind (.of_consuming (.expectPunctuation ')')) fun _ => .pure
  · exact .budget fun fuel => .bind (arguments_halts h fuel) fun args => .pure

/-- The operators behind an operand, by induction on the steps. Each turn of the loop passes at
least the operator. -/
theorem operators_halts (limit fuel : Nat) (left : Expr) :
    Halts (Fits n fuel) (Fits n fuel) (operators self limit fuel left) := by
  induction fuel generalizing left with
  | zero => exact .of_false not_fits_zero
  | succ fuel ih =>
    simp only [operators, operator?, bind_assoc]
    refine .peek .pure fun t => ?_
    split
    · rename_i o p heq
      cases o.precedence? with
      | none => exact .and_left .pure
      | some q =>
        refine .ite (.and_left .pure) (.shorten (.bind .pass fun _ => .ite (ih _) ?_))
        exact .bind (h.tree _) fun right => ih _
    · exact .and_left .pure

/-! ### Statements and blocks -/

/-- A statement is a tree, so it takes a token. -/
theorem statement_halts : Halts (Fits n (k + 1)) (Fits n k) (statement self) :=
  .bind (h 0 k) fun _ => .pure

/-- Statements up to a closing token, by induction on the steps: each of them takes a token.
Separators between them are passed without a step. -/
theorem statementsUntil_halts (closes : Token → Bool) (fuel : Nat) :
    Halts (Fits n fuel) (Fits n fuel) (statementsUntil self closes fuel) := by
  induction fuel with
  | zero => exact .of_false not_fits_zero
  | succ fuel ih =>
    refine .bind .skipSeparators fun _ => .peek (.unexpected _) fun t => .and_left (.ite .pure ?_)
    refine .shorten (.bind (statement_halts h) fun e => ?_)
    refine .peek (.unexpected _) fun t => .and_left (.ite ?_ (.unexpected _))
    exact .bind ih fun es => .pure

/-- A block takes its opening brace, and what is inside it is read from lighter tokens. So it may
lie one level deeper than the tree that it is part of. -/
theorem block_halts : Halts (Fits (n + 1) (k + 1)) (Fits n k) (block self) := by
  refine .bind (.expectPunctuation _) fun _ => .budget fun fuel => ?_
  refine .bind (statementsUntil_halts h _ fuel) fun ss => ?_
  exact .bind (.of_consuming (.expectPunctuation _)) fun _ => .pure

/-- A block takes its `do`, and what is inside it is read from lighter tokens. -/
theorem doBlock_halts : Halts (Fits (n + 1) (k + 1)) (Fits n k) (doBlock self) := by
  refine .bind (.expectKeyword _) fun _ => .budget fun fuel => ?_
  refine .bind (statementsUntil_halts h _ fuel) fun ss => ?_
  exact .bind (.of_consuming (.expectKeyword _)) fun _ => .pure

/-- The body of a loop is a block of either kind, or a fault. -/
theorem loopBody_halts : Halts (Fits n k) (Fits n k) (loopBody self) := by
  refine .atKeyword (fun _ _ => .and_left (.of_consuming (doBlock_halts h))) ?_
  exact .atPunctuation (fun _ _ => .and_left (.of_consuming (block_halts h))) (.unexpected _)

/-- A branch is a block or a tree. -/
theorem branch_halts : Halts (Fits n k) (Fits n k) (branch self) :=
  .atPunctuation (fun _ _ => .and_left (.of_consuming (block_halts h))) (.bind (h.tree 0) fun _ => .pure)

/-! ### Compound constructs -/

/-- An `if` takes its keyword. Condition and branches come from lighter tokens. -/
theorem ifTree_halts : Halts (Fits (n + 1) (k + 1)) (Fits n k) (ifTree self) := by
  refine .bind (.expectKeyword _) fun _ => .bind (h.tree 0) fun condition => ?_
  refine .bind (.bind (.acceptKeyword _) fun _ => .pure) fun _ => .bind (branch_halts h) fun yes => ?_
  refine .bind (.acceptKeyword _) fun other => .ite ?_ .pure
  exact .bind (branch_halts h) fun no => .pure

/-- Parameters are a list in parentheses or a single token. -/
theorem parameters_halts : Halts (Fits n k) (Fits n k) (parameters self) := by
  have hlisted : Halts (Fits n k) (Fits n k) (listedParameters self) := by
    refine .bind (.acceptPunctuation _) fun open? => .ite ?_ .pure
    refine .bind (list_halts h ')') fun ps => ?_
    exact .bind (.of_consuming (.expectPunctuation _)) fun _ => .pure
  refine .peek hlisted fun t => ?_
  rcases t with ⟨l, p⟩ | ⟨items, p⟩
  · exact .and_left hlisted
  · refine .head fun hweight => .bind .skip fun _ => .lift (values_halts h items ?_)
    rw [Token.weight] at hweight
    omega

/-- What comes behind the name of a function, its parameters and its body. -/
theorem functionRest_halts (name : Option String) :
    Halts (Fits n k) (Fits n k) (functionRest self name) := by
  refine .bind (parameters_halts h) fun ps => ?_
  split
  · exact .bind .get fun _ => .lift .fail
  · exact .bind (branch_halts h) fun b => .pure

/-- A function takes its keyword or its first parameters. -/
theorem functionTree_halts : Halts (Fits (n + 1) (k + 1)) (Fits n k) (functionTree self) := by
  refine .bind (.expectKeyword _) fun _ => ?_
  have hrest (name : Option String) : Halts (Fits n k) (Fits n k) (functionRest self name) :=
    functionRest_halts h name
  refine .peek (hrest none) fun t => ?_
  split
  · rename_i n _ _
    exact .bind .skip fun _ => hrest (some n)
  · exact .and_left (hrest none)

end

/-! ### Loops -/

/-- The tokens of a loop's head are some of those that are taken, and there are others behind them.
The semicolons are missing, and what is missing makes no tokens heavier. -/
theorem conditionTokens_sublist {fuel : Nat} {s r : Tokens} (h : conditionTokens fuel s = .ok (ts, r)) :
    ∃ w, s.ahead = w ++ r.ahead ∧ ts.Sublist w ∧ r.ahead ≠ [] := by
  induction fuel generalizing s ts with
  | zero => cases h
  | succ fuel ih =>
    obtain ⟨ahead, ending, reached⟩ := s
    cases ahead with
    | nil =>
      -- the loop has no body
      have hnone : Brings (· = []) (fun _ => False) (conditionTokens (fuel + 1)) := by
        refine .peek (.unexpected _) fun t => .of_false ?_
        rintro _ ⟨rfl, ht⟩
        cases ht
      exact (hnone _ ts r rfl h).elim
    | cons t us =>
      rw [conditionTokens, bind_of_ok (peek_cons rfl)] at h
      dsimp only at h
      split at h
      · cases h
        exact ⟨[], rfl, .slnil, List.cons_ne_nil t us⟩
      · obtain ⟨_, s₁, hadvance, hrest⟩ := exists_of_bind h
        cases hadvance
        obtain ⟨vs, s₂, htokens, hreturn⟩ := exists_of_bind hrest
        cases hreturn
        obtain ⟨w, hw, hsub, hne⟩ := ih htokens
        refine ⟨t :: w, congrArg (t :: ·) hw, ?_, hne⟩
        split
        · exact .cons t hsub
        · exact .cons_cons t hsub

/-- The tokens of a head that ends somewhere: they were taken from those ahead, in order, and others
are left. -/
theorem headTokens_sublist {s r : Tokens} (h : headTokens s = .ok (ts, r)) :
    ∃ w, s.ahead = w ++ r.ahead ∧ ts.Sublist w ∧ r.ahead ≠ [] := by
  obtain ⟨fuel, s₁, hbudget, hrest⟩ := exists_of_bind h
  cases hbudget
  obtain ⟨us, s₂, htokens, hreturn⟩ := exists_of_bind hrest
  split at hreturn
  · have hfails : Gives (fun _ => False) (unexpected .loopCondition : Parse (List Token)) :=
      .unexpected _
    exact (hfails s₂ _ hreturn).elim
  · cases hreturn
    exact conditionTokens_sublist htokens

/-- Collecting the tokens of a head takes one token at each step. -/
theorem conditionTokens_halts (fuel : Nat) :
    Halts (Fits n fuel) (Fits n fuel) (conditionTokens fuel) := by
  induction fuel with
  | zero => exact .of_false not_fits_zero
  | succ fuel ih =>
    refine .peek (.unexpected _) fun t => .ite (.and_left .pure) ?_
    exact .shorten (.bind .pass fun _ => .bind ih fun ts => .pure)

/-- What comes behind the head of a loop may rely on the weight of its tokens. The conditions are
read from these alone, although they were counted among the tokens ahead before. -/
theorem headTokens_halts {f : List Token → Parse α}
    (h : ∀ ts, weightList ts < n → Halts (Fits n k) (Fits n k) (f ts)) :
    Halts (Fits n k) (Fits n k) (headTokens >>= f) := by
  have hhead : Halts (Fits n k) (Fits n k) headTokens :=
    .budget fun fuel => .bind (conditionTokens_halts fuel) fun ts => .ite (.unexpected _) .pure
  have hweight {s r : Tokens} {us : List Token} (hs : Fits n k s.ahead)
      (hread : headTokens s = .ok (us, r)) : weightList us < n := by
    obtain ⟨w, hw, hsub, -⟩ := headTokens_sublist hread
    have hle := weightList_le_of_sublist hsub
    have hahead := hs.weight
    rw [hw, weightList_append] at hahead
    omega
  refine ⟨fun s hs => (hhead.bounded s hs).bind fun r hread => ?_, fun s a r hs hread => ?_⟩
  · exact (h r.1 (hweight hs hread)).bounded r.2 (hhead.brings s r.1 r.2 hs hread)
  · obtain ⟨us, s₁, htokens, hrest⟩ := exists_of_bind hread
    exact (h us (hweight hs htokens)).brings s₁ a r (hhead.brings s us s₁ hs htokens) hrest

section

variable (h : HaltTrees n self)

include h

/-- The conditions of a loop, by induction on the steps: each is a tree, and takes a token. -/
theorem conditionItems_halts (fuel : Nat) :
    Halts (Fits n fuel) (Fits n fuel) (conditionItems self fuel) := by
  induction fuel with
  | zero => exact .of_false not_fits_zero
  | succ fuel ih =>
    refine .peek .pure fun t => .and_left (.shorten (.bind (h 0 fuel) fun e => ?_))
    refine .bind (.acceptPunctuation _) fun comma => .ite (.bind ih fun es => .pure) ?_
    exact .peek .pure fun t => .unexpected _

/-- The conditions of a loop are read from the tokens of its head. -/
theorem conditions_halts (hts : weightList ts < n) :
    Halts (Fits n k) (Fits n k) (conditions self ts) := by
  have hread (stop : Position) : Bounded
      (((conditionItems self (ts.length + 1)).run (.ofList ts stop)).map Prod.fst) := by
    refine (conditionItems_halts h _).run ⟨?_, ?_⟩
    · rwa [(alike_ofList ts stop).weightList_eq]
    · rw [(alike_ofList ts stop).length_eq]
      exact Nat.lt_succ_self _
  refine .peek ?_ fun t => .and_left ?_
  · exact .bind .get fun _ => .lift (hread _)
  · exact .bind .get fun _ => .lift (hread _)

theorem whileTail_halts (hts : weightList ts < n) : Halts (Fits n k) (Fits n k) (whileTail self ts) :=
  .bind (conditions_halts h hts) fun _ => .bind (loopBody_halts h) fun _ => .pure

theorem whileTree_halts : Halts (Fits (n + 1) (k + 1)) (Fits n k) (whileTree self) :=
  .bind (.expectKeyword _) fun _ => headTokens_halts fun _ hts => whileTail_halts h hts

/-- What a `for` walks over weighs no more than the head that it stands in. -/
theorem range_halts (hts : weightList ts < n) : Halts (Fits n k) (Fits n k) (range self ts) := by
  unfold range
  split
  · exact .unexpected _
  · rename_i t
    exact .lift (value_halts h t (Nat.le_of_lt (Nat.lt_of_le_of_lt (weight_le_weightList (by simp)) hts)))
  · exact .bind (.lift (values_halts h _ (Nat.le_of_lt hts))) fun es => .pure

theorem forRest_halts (hts : weightList ts < n) : Halts (Fits n k) (Fits n k) (forRest self ts) := by
  unfold forRest
  split
  · refine .bind (range_halts h ?_) fun r => .bind (loopBody_halts h) fun b => .pure
    exact Nat.lt_of_le_of_lt (weightList_le_of_sublist (.cons _ (.cons _ (.refl _)))) hts
  · exact whileTail_halts h hts

/-- A `for` with three parts reads lists, which may be empty; the one that walks over something
reads the tokens of its head, which are lighter than the whole. -/
theorem forTree_halts : Halts (Fits (n + 1) (k + 1)) (Fits n k) (forTree self) := by
  have hsemicolon : Halts (Fits n k) (Fits n k) (expectPunctuation ';') :=
    .of_consuming (.expectPunctuation ';')
  refine .bind (.expectKeyword _) fun _ => .bind (.acceptPunctuation _) fun open? => .ite ?_ ?_
  · refine .bind (list_halts h ';') fun init => .bind hsemicolon fun _ => ?_
    refine .bind (list_halts h ';') fun condition => .bind hsemicolon fun _ => ?_
    refine .bind (list_halts h ')') fun step => .bind (.of_consuming (.expectPunctuation _)) fun _ => ?_
    exact .bind (loopBody_halts h) fun b => .pure
  · exact headTokens_halts fun ts hts => forRest_halts h hts

/-! ### Unsetting -/

/-- The targets of an `unset`, by induction on the steps. A target is a single token, and its index
is lighter than it. -/
theorem unsetItems_halts (fuel : Nat) : Halts (Fits n fuel) (Fits n fuel) (unsetItems self fuel) := by
  induction fuel with
  | zero => exact .of_false not_fits_zero
  | succ fuel ih =>
    refine .peek .pure fun t => ?_
    rcases t with ⟨l, p⟩ | ⟨items, p⟩
    · cases l with
      | «variable» name deref raw =>
        refine .head fun hweight => .shorten (.bind .pass fun _ => ?_)
        refine .bind (.lift (value_halts h _ (Nat.le_of_lt hweight))) fun e => ?_
        split <;> exact .bind .pure fun target => .bind ih fun es => .pure
      | _ => exact .and_left .pure
    · exact .and_left .pure

theorem unsetTree_halts : Halts (Fits (n + 1) (k + 1)) (Fits n k) (unsetTree self) := by
  refine .bind (.expectKeyword _) fun _ => .budget fun fuel => .bind (unsetItems_halts h fuel) fun es => ?_
  split
  · exact .unexpected _
  · exact .pure
  · exact .pure

/-! ### Trees -/

/-- Every operand begins with a token. -/
theorem atom_halts : Halts (Fits (n + 1) (k + 1)) (Fits n k) (atom self) := by
  refine .peek (.unexpected _) fun t => ?_
  -- one case for each token that a tree can begin with
  split
  · exact .unexpected _
  · refine .bind .advance fun _ => .bind (h.tree 0) fun e => ?_
    exact .bind (.of_consuming (.expectPunctuation _)) fun _ => .pure
  · exact .and_left (block_halts h)
  · exact .and_left (ifTree_halts h)
  · exact .and_left (functionTree_halts h)
  · exact .and_left (forTree_halts h)
  · exact .and_left (whileTree_halts h)
  · exact .and_left (unsetTree_halts h)
  · exact .ite (.bind .advance fun _ => .bind (h.tree _) fun e => .pure) (.unexpected _)
  · exact .unexpected _
  · exact .unexpected _
  · rename_i heq
    cases heq
    exact .head fun hweight => .bind .advance fun _ => .lift (value_halts h _ (Nat.le_of_lt_succ hweight))

/-- One layer of a tree takes a token and then goes on with lighter ones. -/
theorem treeStep_halts (limit : Nat) : Halts (Fits (n + 1) (k + 1)) (Fits n k) (treeStep self limit) := by
  refine .bind (atom_halts h) fun e => .bind (callTail_halts h e) fun e => ?_
  exact .budget fun fuel => operators_halts h limit fuel e

end

/-- **The depth of trees is bounded by the weight of their tokens.** The induction is on the bound:
a layer takes a token, and the layers below are read from lighter ones. -/
theorem tree_halts (n : Nat) : HaltTrees n (tree n) := by
  induction n with
  | zero => exact fun _ _ => .of_false fun _ hts => Nat.not_lt_zero _ hts.weight
  | succ n ih =>
    intro limit k
    exact (treeStep_halts ih limit).mono (fun _ => id) fun _ hts =>
      hts.mono (Nat.le_succ n) (Nat.le_refl k)

/-! ## Scripts -/

/-- The statements of a script, by induction on the steps: each of them takes a token. -/
theorem programItems_halts (h : HaltTrees n self) (fuel : Nat) :
    Halts (Fits n fuel) (Fits n fuel) (programItems self fuel) := by
  induction fuel with
  | zero => exact .of_false not_fits_zero
  | succ fuel ih =>
    refine .peek .pure fun t => .and_left (.shorten (.bind (statement_halts h) fun e => ?_))
    refine .peek .pure fun t => .and_left (.bind (.of_consuming (.expectPunctuation _)) fun _ => ?_)
    exact .bind .skipSeparators fun _ => .bind ih fun es => .pure

/-- A script starts with as many steps as there are tokens behind the first semicolons, and one
more. -/
theorem program_halts (h : HaltTrees n self) : Halts (Fits n k) (Fits n k) (program self) :=
  .bind .skipSeparators fun _ => .budget fun fuel => programItems_halts h fuel

/-- Any bound above the weight of the tokens gives the same script or the same fault. So the bound
that parsing sets itself is never what a script fails by. -/
theorem program_eq_of_lt {s : Tokens} (hn : weightList s.ahead < n) :
    (∃ es r, program (tree n) s = .ok (es, r) ∧ run program s = .ok (es, r)) ∨
      ∃ f, program (tree n) s = .error (.fault f) ∧ run program s = .error f := by
  have hends : Bounded (program (tree (weightList s.ahead + 1)) s) :=
    (program_halts (tree_halts _)).bounded s ⟨Nat.lt_succ_self _, Nat.lt_succ_self _⟩
  have hsame : program (tree n) s = program (tree (weightList s.ahead + 1)) s :=
    (program_extends (tree_extends hn) s).resolve_left hends
  rw [hsame, run]
  -- the greater bound reads what the smaller one reads, because the smaller one is not reached
  cases hread : program (tree (weightList s.ahead + 1)) s with
  | ok x => exact .inl ⟨x.1, x.2, rfl, rfl⟩
  | error e =>
    cases e with
    | fault f => exact .inr ⟨f, rfl, rfl⟩
    | tooDeep => exact absurd hread hends

/-! ## Nested readers

An index and the head of a loop are read by readers that are started for them. These are given
tokens of their own, and that there are fewer of them is said here in terms of the texts and tokens
themselves. -/

section

variable {self' : Nat → Parse Expr}

/-- An index is read from its own text. -/
theorem index_congr {raw : String}
    (h : ∀ limit, self limit (.ofText raw.toList) = self' limit (.ofText raw.toList)) (p : Position) :
    index self raw p = index self' raw p := by
  refine congrArg (Except.map Prod.fst) ?_
  simp only [StateT.run, Bind.bind, StateT.bind, Except.bind]
  cases hpeek : peek (.ofText raw.toList) with
  | error e => rfl
  | ok x =>
    obtain ⟨t?, s₁⟩ := x
    obtain ⟨rfl, -, -⟩ := peek_eq_ok hpeek
    dsimp only
    split
    · rfl
    · simp only [StateT.bind, h 0]

mutual

/-- The value of a token needs no trees but those of the indices that the token holds. How deep
others may be makes no difference to it. -/
theorem value_congr : ∀ t : Token, (∀ raw limit, t.HoldsIndex raw →
    self limit (.ofText raw.toList) = self' limit (.ofText raw.toList)) → value self t = value self' t
  | .plain (.number _) _, _ => rfl
  | .plain (.text _ _) _, _ => rfl
  | .plain (.boolean _) _, _ => rfl
  | .plain (.variable _ _ none) _, _ => rfl
  | .plain (.variable n d (some raw)) s, h =>
    congrArg (Except.map (Expr.element n d)) (index_congr (fun limit => h raw limit .here) s.start)
  | .plain (.braces _) _, _ => rfl
  | .plain (.parameter _) _, _ => rfl
  | .plain (.keyword _) _, _ => rfl
  | .plain (.operator _) _, _ => rfl
  | .plain (.punctuation _) _, _ => rfl
  | .array items _, h =>
    congrArg (Except.map Expr.array)
      (values_congr items fun _ ht raw limit hraw => h raw limit (.item ht hraw))

/-- The items of an array literal hold all indices that the literal holds. -/
theorem values_congr : ∀ ts : List Token, (∀ t ∈ ts, ∀ raw limit, t.HoldsIndex raw →
    self limit (.ofText raw.toList) = self' limit (.ofText raw.toList)) → values self ts = values self' ts
  | [], _ => rfl
  | t :: ts, h => by
    rw [values, values, value_congr t (h t List.mem_cons_self),
      values_congr ts fun u hu => h u (List.mem_cons_of_mem t hu)]

end

end

/-- At least one of the tokens ahead is taken. -/
def Takes (s r : Tokens) : Prop := ∃ w, w ≠ [] ∧ s.ahead = w ++ r.ahead

/-- A solid reader takes a token, whatever it is compared with. -/
theorem Carries.takes {R : α → β → Prop} {m : Parse α} {m' : Parse β} {s r : Tokens} {a : α}
    (h : Carries (fun _ => True) .solid R m m') (hread : m s = .ok (a, r)) : Takes s r := by
  obtain ⟨⟨-, w, hw, t, ht, -⟩, -⟩ := h [] s _ a r (.same s) trivial hread
  refine ⟨w, ?_, hw⟩
  rintro rfl
  cases ht

/-- The tokens that a head is read from are fewer than those ahead of it, since at least one is left
for the body. -/
theorem length_ofList_lt {s r : Tokens} (h : headTokens s = .ok (ts, r)) (stop : Position) :
    (Tokens.ofList ts stop).ahead.length < s.ahead.length := by
  obtain ⟨w, hw, hsub, hne⟩ := headTokens_sublist h
  have hle := hsub.length_le
  have hpos := List.length_pos_iff.2 hne
  rw [(alike_ofList ts stop).length_eq, hw, List.length_append]
  omega

end Grammar

namespace Expr

open Grammar Lexer

/-- **Reading always ends, with a script or a fault of it.**

* A token takes at least one character. To read it, the tokens of shorter texts are enough, and with any
  bounds that are above the length of a text its tokens are the same.
* An expression, a statement or a block takes at least one token.
* An index is shorter than the text in which it stands, and the value of a token needs no trees but those
  of its indices. The head of a loop has fewer tokens than there are ahead of the loop.
* So with any bound above the weight of its tokens, a script is read as it is read, or the same fault is
  found. -/
theorem parse_ends :
    (∀ inner ao c t stop, readToken inner ao c = (.ok (some t), stop) →
      stop.rest.length < c.rest.length) ∧
    (∀ inner inner' ao c, (∀ v, v.length < c.rest.length → inner v = inner' v) →
      readToken inner ao c = readToken inner' ao c) ∧
    (∀ s depth fuel, s.length ≤ depth → s.length < fuel →
      scanFrom (innerTokens? depth) fuel false (.start s) = scan s) ∧
    (∀ n s e r, ((∃ limit, tree n limit s = .ok (e, r)) ∨ statement (tree n) s = .ok (e, r) ∨
      Grammar.block (tree n) s = .ok (e, r) ∨ doBlock (tree n) s = .ok (e, r)) → Takes s r) ∧
    (∀ s t raw, t ∈ (scan s).tokens → t.HoldsIndex raw → raw.length < s.length) ∧
    (∀ (self self' : Nat → Parse Expr) t, (∀ raw limit, t.HoldsIndex raw →
      self limit (.ofText raw.toList) = self' limit (.ofText raw.toList)) →
        value self t = value self' t) ∧
    (∀ s ts r stop, headTokens s = .ok (ts, r) →
      (Tokens.ofList ts stop).ahead.length < s.ahead.length) ∧
    ∀ text n, Token.weightList (scan (Source.normalize text).toList).tokens < n →
      (∃ es r, program (tree n) (.ofText (Source.normalize text).toList) = .ok (es, r) ∧
        parse text = .ok es) ∨
      ∃ f, program (tree n) (.ofText (Source.normalize text).toList) = .error (.fault f) ∧
        parse text = .error f := by
  refine ⟨fun _ _ _ _ _ h => (spans_of_readToken h).length_lt, fun _ _ _ _ => readToken_congr,
    fun _ _ _ => scanFrom_innerTokens?, fun n s e r => ?_, fun _ _ _ => length_lt_of_holdsIndex,
    fun _ _ => value_congr, fun _ _ _ stop h => length_ofList_lt h stop, fun text n hn => ?_⟩
  · -- every tree is solid, and so are the statements and blocks, which begin with a tree or a token
    have htree := tree_carries (Nat.le_refl n)
    rintro (⟨limit, hread⟩ | hread | hread | hread)
    · exact (htree limit _).takes hread
    · exact (statement_carries htree).takes hread
    · exact (block_carries htree).takes hread
    · exact (doBlock_carries htree).takes hread
  · rw [parse, parseNormal]
    generalize (Source.normalize text).toList = s at hn ⊢
    -- the weight of the tokens is all that the bound is compared with
    have hahead : (Tokens.ofText s).ahead = (scan s).tokens := rfl
    rw [← hahead] at hn
    rcases program_eq_of_lt hn with ⟨es, r, hread, hrun⟩ | ⟨f, hread, hrun⟩
    · exact .inl ⟨es, r, hread, by rw [hrun]; rfl⟩
    · exact .inr ⟨f, hread, by rw [hrun]; rfl⟩

/-- What is read if it is read at all. -/
theorem exists_eq_ok {ε α : Type} {x : Except ε α} (h : x.toOption.isSome = true) : ∃ a, x = .ok a := by
  cases x with
  | ok a => exact ⟨a, rfl⟩
  | error e => cases h

/-- A loop whose condition has an index that is an array literal, and whose body is not closed. -/
def unclosedLoop : String := "while $a[(1 2)] do b"

/-- The index is shorter than the loop, the head of the loop shorter than what comes behind the `while`,
and the tree in it takes a token; and the loop is found to have a fault. -/
theorem parse_ends_unclosedLoop :
    (∃ t ∈ (scan unclosedLoop.toList).tokens, t.HoldsIndex "(1 2)" ∧
      "(1 2)".length < unclosedLoop.toList.length) ∧
    (∃ ts r, headTokens (.ofText (unclosedLoop.toList.drop 6)) = .ok (ts, r) ∧
      (Tokens.ofList ts .first).ahead.length < (Tokens.ofText (unclosedLoop.toList.drop 6)).ahead.length) ∧
    (∃ e r, tree 9 0 (.ofText (unclosedLoop.toList.drop 6)) = .ok (e, r) ∧
      Takes (.ofText (unclosedLoop.toList.drop 6)) r) ∧
    Token.weightList (scan (Source.normalize unclosedLoop).toList).tokens < 12 ∧
    ∃ f, program (tree 12) (.ofText (Source.normalize unclosedLoop).toList) = .error (.fault f) ∧
      parse unclosedLoop = .error f := by
  obtain ⟨-, -, -, htakes, hindex, -, hhead, hparse⟩ := parse_ends
  have hweight : Token.weightList (scan (Source.normalize unclosedLoop).toList).tokens < 12 := by
    decide +kernel
  refine ⟨?_, ?_, ?_, hweight, (hparse _ 12 hweight).resolve_left ?_⟩
  · have hany : (scan unclosedLoop.toList).tokens.any (·.hasIndex "(1 2)") = true := by decide +kernel
    obtain ⟨t, ht, hraw⟩ := List.any_eq_true.1 hany
    exact ⟨t, ht, .of_hasIndex hraw, hindex _ t _ ht (.of_hasIndex hraw)⟩
  · obtain ⟨⟨ts, r⟩, hread⟩ := exists_eq_ok (x := headTokens (.ofText (unclosedLoop.toList.drop 6)))
      (by decide +kernel)
    exact ⟨ts, r, hread, hhead _ ts r .first hread⟩
  · obtain ⟨⟨e, r⟩, hread⟩ := exists_eq_ok (x := tree 9 0 (.ofText (unclosedLoop.toList.drop 6)))
      (by decide +kernel)
    exact ⟨e, r, hread, htakes 9 _ e r (.inl ⟨0, hread⟩)⟩
  · -- the loop has no body, so there is no program
    rintro ⟨es, r, -, hok⟩
    have hfault : (parse unclosedLoop).toOption.isNone = true := by decide +kernel
    rw [hok] at hfault
    cases hfault

end Expr

end CommandLanguage
