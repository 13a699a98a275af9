import CommandLanguage.Proofs.Grammar.Term

/-!
# Written expressions are read back

A term is read as the expression it was written for, and its tokens are exactly those that are
read. `Term.Climbs` carries the argument: operators are read in a loop with what was read so far as
their left operand, so a term is read as the beginning of such a loop, whatever the loop goes on
with. The left operand of an operator is such a beginning again; all other parts of a term are trees
of their own, which end where the part ends.

Two numbers decide where parentheses stand. The *level* of a term says how tightly it holds together:
as an operand of an operator that binds more tightly it is written in parentheses. Its *reach* says
which operators behind it would be taken for a part of its right operand, and these must not follow.
That both are right for every operator is a matter of how it groups, which is all that the cases at the
end of the module look at.
-/

namespace CommandLanguage

/-- Whether an expression ends before a token, if only operators that bind more tightly than `limit`
are read: it is no such operator, opens no list of arguments and is no argument. -/
def Token.ends (limit : Nat) : Token → Bool
  | .plain (.operator o) _ => o.precedence?.all (· ≤ limit)
  | .plain (.punctuation c) _ => c != '('
  | .plain (.keyword w) _ => ["then", "else", "do", "done"].contains w
  | _ => false

namespace Grammar

open Token (weightList weightList_append)

/-- Whether an expression ends before some tokens. It depends on the limit: an operator that binds
too weakly for one expression goes on with the one around it. -/
def Ends (limit : Nat) (rest : List Token) : Prop := rest.head?.all (·.ends limit) = true

namespace Ends

variable {limit : Nat} {rest : List Token}

/-- Where an expression ends, one ends that may only have operators which bind even more tightly. In
this way what is known behind a term is handed to its operands. -/
theorem mono {limit' : Nat} (h : Ends limit rest) (hle : limit ≤ limit') : Ends limit' rest := by
  cases rest with
  | nil => rfl
  | cons t rest =>
    unfold Ends Token.ends at *
    rcases t with ⟨l, s⟩ | ⟨items, s⟩
    · cases l with
      | operator o =>
        cases hp : o.precedence? with
        | none => simp [hp]
        | some p =>
          simp only [hp, List.head?_cons, Option.all_some, decide_eq_true_eq] at *
          omega
      | _ => exact h
    · exact h

/-- Whether a token ends an expression is a matter of its lexeme. -/
theorem ends_unplaced (t : Token) : t.unplaced.ends limit = t.ends limit := by
  cases t with
  | plain l s => cases l <;> rfl
  | array items s => rfl

/-- So tokens alike end the same expressions. -/
theorem ends_alike {t u : Token} (h : t.unplaced = u.unplaced) (hu : u.ends limit = true) :
    t.ends limit = true := by
  rw [← ends_unplaced, h, ends_unplaced]
  exact hu

/-- An operator that binds too weakly ends an expression. -/
theorem sign {o : Operator} {p : Nat} (ho : o.precedence? = some p) (h : p ≤ limit)
    (ts : List Token) : Ends limit (.sign o :: ts) := by
  simp [Ends, Token.ends, Token.of, ho, h]

/-- Punctuation does, but for a parenthesis that opens a list of arguments. Whether it does so is
settled by the word before it, so here it is excepted in all cases. -/
theorem punctuation {c : Char} {s : Span} (h : c ≠ '(') (ts : List Token) :
    Ends limit (.plain (.punctuation c) s :: ts) := by
  simp [Ends, Token.ends, h]

/-- No list of arguments begins where an expression ends. -/
theorem not_open (h : Ends limit rest) : rest.head?.any (·.isPunctuation '(') = false := by
  cases rest with
  | nil => rfl
  | cons t rest =>
    rcases t with ⟨l, s⟩ | ⟨items, s⟩
    · cases l with
      | punctuation c =>
        have hc : c ≠ '(' := by simpa [Ends, Token.ends] using h
        simpa [Token.isPunctuation] using hc.symm
      | _ => rfl
    · rfl

end Ends

variable {self : Nat → Parse Expr} {Q : Expr → Prop} {t : Token} {ts us vs rest : List Token}
  {e : Expr} {limit n fuel : Nat}

/-! ## Values and arguments -/

/-- A token that stands for a value is a whole atom. -/
theorem reads_atom_of_value (h : value self t = .ok e) : Reads (· = e) (atom self) [t] rest := by
  refine .peek_cons fun t' ht => ?_
  have hv := value_alike ht h
  have hread : Reads (· = e) (do advance; (value self t' : Except Stop Expr)) [t] rest :=
    .cons (.advance t) fun _ _ => .lift hv rfl
  rcases t' with ⟨l, s⟩ | ⟨items, s⟩
  · cases l with
    | keyword _ | operator _ | punctuation _ => cases hv
    | _ => exact hread
  · exact hread

/-- Tokens alike are the same arguments. -/
theorem argument?_alike {u : Token} (h : t.unplaced = u.unplaced)
    (hu : argument? self u = some (.ok e)) : argument? self t = some (.ok e) := by
  rcases t with ⟨l, s⟩ | ⟨items, s⟩ <;> rcases u with ⟨l', s'⟩ | ⟨items', s'⟩
  · obtain rfl : l = l' := (Token.plain.inj h).1
    cases l with
    | keyword _ => exact hu
    | operator _ | punctuation _ => cases hu
    | _ => exact argument?_of_value (value_alike h (Option.some.inj hu))
  · cases h
  · cases h
  · exact argument?_of_value (value_alike h (Option.some.inj hu))

/-- Where an expression ends, there is no argument. So a command has the arguments that are written,
and does not go on into what stands behind it. -/
theorem argument?_of_ends (h : t.ends limit = true) : argument? self t = none := by
  rcases t with ⟨l, s⟩ | ⟨items, s⟩
  · cases l with
    | keyword w =>
      have hw : ["then", "else", "do", "done"].contains w = true := h
      simp only [argument?, hw, if_true]
    | operator _ | punctuation _ => rfl
    | _ => cases h
  · cases h

/-- Arguments of a command are read up to where the command ends. -/
theorem reads_arguments {as : List Argument}
    (has : ∀ a ∈ as, argument? self a.token = some (.ok a.expr)) (hrest : Ends limit rest)
    (hfuel : as.length < fuel) :
    Reads (· = as.map Argument.expr) (arguments self fuel) (as.map Argument.token) rest := by
  -- one unit of fuel for each argument
  induction as generalizing fuel with
  | nil =>
    obtain ⟨fuel, rfl⟩ := Nat.exists_eq_add_of_lt hfuel
    cases rest with
    | nil => exact .peek_nil (.pure rfl)
    | cons t rest =>
      refine .peek_rest fun t' ht => ?_
      simp only [Option.bind_some, argument?_of_ends (Ends.ends_alike ht hrest)]
      exact .pure rfl
  | cons a as ih =>
    obtain ⟨ha, has⟩ := List.forall_mem_cons.1 has
    obtain ⟨fuel, rfl⟩ : ∃ n, fuel = n + 1 := Nat.exists_eq_add_one.2 (by omega)
    refine .peek_cons fun t' ht => ?_
    simp only [Option.bind_some, argument?_alike ht ha]
    refine .cons (.advance _) fun _ _ => .look (.lift rfl rfl) fun e he => ?_
    subst he
    exact .last (ih has (by simpa using hfuel)) fun es hes => .pure (by rw [hes, List.map_cons])

/-- Trees as deep as the weight of an argument find out what it stands for. -/
theorem Argument.argument_of_le (a : Argument) (h : a.token.weight ≤ n) :
    argument? (tree n) a.token = some (.ok a.expr) := by
  -- less deep trees sufficed, and deeper ones find the same
  rcases argument?_extends (tree_extends h) a.token with ⟨hx, -⟩ | ⟨x, y, hx, hy, hxy⟩
  · cases a.argument_eq.symm.trans hx
  · obtain rfl : x = .ok a.expr := Option.some.inj (hx.symm.trans a.argument_eq)
    rcases hxy with hxy | rfl
    · cases hxy
    · exact hy

/-! ## Calls -/

/-- What is no word begins no call. -/
theorem reads_callTail_none (h : e.bareWord? = none) :
    Reads (· = e) (callTail self e) [] rest := by
  unfold callTail
  rw [h]
  exact .pure rfl

/-- A word that is not followed by arguments is no call. -/
theorem reads_callTail_end (hrest : Ends limit rest) :
    Reads (· = e) (callTail self e) [] rest := by
  unfold callTail
  split
  · exact .pure rfl
  · refine .look (.acceptPunctuation_none hrest.not_open) fun b hb => ?_
    subst hb
    -- no list begins here, and neither does an argument
    have hnone : Reads (· = []) (arguments self (0 + rest.length + 1)) [] rest :=
      reads_arguments (List.forall_mem_nil _) hrest (by simp)
    refine .budget (.look hnone fun es hes => ?_)
    subst hes
    exact .pure rfl

/-- A word with arguments after it is a command. At least one has to be there, since a word alone is
a name and becomes a call as a statement only. -/
theorem reads_callTail_command {name : String} {a : Argument} {as : List Argument}
    (has : ∀ b ∈ a :: as, argument? self b.token = some (.ok b.expr)) (hrest : Ends limit rest) :
    Reads (· = .call (.variable name false) ((a :: as).map Argument.expr))
      (callTail self (.variable name false)) ((a :: as).map Argument.token) rest := by
  -- the first argument is no parenthesis
  have hopen :
      (((a :: as).map Argument.token) ++ rest).head?.any (·.isPunctuation '(') = false := by
    obtain ⟨ha, -⟩ := List.forall_mem_cons.1 has
    obtain ⟨⟨l, s⟩ | ⟨items, s⟩, e, h⟩ := a
    · cases l with
      | punctuation c => cases ha
      | _ => rfl
    · rfl
  refine .look (.acceptPunctuation_none hopen) fun b hb => ?_
  subst hb
  refine .budget (.last (reads_arguments has hrest ?_) fun es hes => ?_)
  · simp only [List.length_map]
    omega
  · subst hes
    exact .pure rfl

/-- Comma-separated expressions are read up to a token that ends the last one. The induction is on
the list, of which each step takes an expression and the comma behind it. -/
theorem reads_listItems {e : Term} {es : List Term}
    (hes : ∀ t ∈ e :: es, ∀ rest, Ends 0 rest → Reads (· = t.expr) (self 0) t.tokens rest)
    (hrest : Ends 0 rest) (hcomma : rest.head?.any (·.isPunctuation ',') = false)
    (hfuel : es.length < fuel) :
    Reads (· = Term.exprs (e :: es)) (listItems self fuel) (Term.listTokens (e :: es)) rest := by
  -- each tree ends before its comma, and the last one before what follows the list
  induction es generalizing e fuel with
  | nil =>
    obtain ⟨fuel, rfl⟩ := Nat.exists_eq_add_of_lt hfuel
    refine .last (hes e (List.mem_singleton_self e) rest hrest) fun _ he => ?_
    subst he
    refine .look (.acceptPunctuation_none hcomma) fun b hb => ?_
    subst hb
    exact .pure rfl
  | cons e' es ih =>
    obtain ⟨fuel, rfl⟩ : ∃ n, fuel = n + 1 := Nat.exists_eq_add_one.2 (by omega)
    obtain ⟨he, hes⟩ := List.forall_mem_cons.1 hes
    refine .bind (he _ (.punctuation (by decide) _)) fun _ he => ?_
    subst he
    refine .cons (.acceptPunctuation ',') fun b hb => ?_
    subst hb
    refine .last (ih hes (by simpa using hfuel)) fun _ hes => ?_
    subst hes
    exact .pure rfl

/-! ## Operators -/

/-- Where the expression ends, no operator is read. -/
theorem reads_operators_end (hrest : Ends limit rest) (hfuel : 0 < fuel) :
    Reads (· = e) (operators self limit fuel e) [] rest := by
  obtain ⟨fuel, rfl⟩ := Nat.exists_eq_add_of_lt hfuel
  cases rest with
  | nil => exact .look (.peek_nil (.pure rfl)) fun _ h => h ▸ .pure rfl
  | cons t rest =>
    -- what follows is no operator, or one that binds too weakly
    have hop : Reads (·.all (·.2 ≤ limit)) operator? [] (t :: rest) := by
      refine .peek_rest fun t' ht => ?_
      have ht' := Ends.ends_alike ht hrest
      split
      next o s h =>
        cases h
        exact .pure (by simpa [Token.ends, Option.all_map] using ht')
      next => exact .pure rfl
    refine .look hop fun r hr => ?_
    cases r with
    | none => exact .pure rfl
    | some r =>
      have hle : r.2 ≤ limit := by simpa using hr
      simp only [hle, if_true]
      exact .pure rfl

/-- An operator that binds tightly enough is seen. -/
theorem reads_operator? {o : Operator} {p : Nat} (hp : o.precedence? = some p) {β : Type}
    {R : β → Prop} {f : Option (Operator × Nat) → Parse β}
    (h : Reads R (f (some (o, p))) (.sign o :: ts) rest) :
    Reads R (operator? >>= f) (.sign o :: ts) rest := by
  unfold operator?
  rw [bind_assoc]
  refine .peek_cons fun t' ht => ?_
  obtain ⟨s, rfl⟩ := Token.Alike.exists_plain ht
  simpa only [hp, Option.map_some, pure_bind] using h

/-- An operator after its only operand becomes part of what is read so far. It is not followed by an
operand, so the loop goes on with the tokens behind it. -/
theorem reads_operators_stepped {o : Operator} (ho : o.isPostfix = true)
    (hlimit : limit < Operator.postfixPrecedence)
    (h : Reads Q (operators self limit fuel (.binary o e .null)) ts rest) :
    Reads Q (operators self limit (fuel + 1) e) (.sign o :: ts) rest := by
  refine reads_operator? (Operator.precedence?_of_isPostfix ho) ?_
  simp only [Nat.not_le.2 hlimit, if_false, ho, if_true]
  exact .cons (.advance _) fun _ _ => h

/-- An operator between two operands, with its right operand, becomes part of what is read so far.
The right operand is a tree of its own, which stops at operators that bind more weakly. -/
theorem reads_operators_joined {o : Operator} {right : Expr} (ho : o.joins = true)
    (hlimit : limit < o.binding)
    (hright : Reads (· = right) (self o.rightLimit) us (ts ++ rest))
    (h : Reads Q (operators self limit fuel (o.join e right)) ts rest) :
    Reads Q (operators self limit (fuel + 1) e) (.sign o :: (us ++ ts)) rest := by
  refine reads_operator? (Operator.joins_table ho).1 ?_
  simp only [Nat.not_le.2 hlimit, if_false, Operator.isPostfix_of_joins ho]
  refine .cons (.advance _) fun _ _ => .bind hright fun _ hr => ?_
  subst hr
  exact h

/-! ## Terms

Each kind of term is read as the beginning of an expression, behind which the loop over the
operators goes on. Terms are shown to be read in this form, and not as whole expressions, since the
left operand of an operator is no expression for itself. -/

/-- A tree is an operand with the operators after it. The tokens of the three parts are read one
after the other. -/
theorem reads_treeStep {e e' : Expr} (hatom : Reads (· = e') (atom self) ts (us ++ vs ++ rest))
    (htail : Reads (· = e) (callTail self e') us (vs ++ rest))
    (hops : ∀ fuel, vs.length < fuel → Reads Q (operators self limit fuel e) vs rest) :
    Reads Q (treeStep self limit) (ts ++ (us ++ vs)) rest := by
  refine .bind hatom fun _ he => ?_
  subst he
  refine .bind htail fun _ he => ?_
  subst he
  exact .budget (hops _ (by omega))

namespace Term

/-- A term is read as the beginning of an expression, which may go on with operators. `ts` are the
tokens of these operators, and `Q` is whatever is known of the whole: so nothing has to be said here
of how what follows is put together. -/
def Climbs (e : Term) : Prop :=
  ∀ {n limit : Nat} {ts rest : List Token} {Q : Expr → Prop},
    weightList e.tokens ≤ n → limit < e.level → Ends e.reach (ts ++ rest) →
    (∀ fuel, ts.length < fuel → Reads Q (operators (tree n) limit fuel e.expr) ts rest) →
    Reads Q (treeStep (tree n) limit) (e.tokens ++ ts) rest

/-- A term is read as a whole expression. -/
theorem Climbs.reads {e : Term} (h : e.Climbs) (hn : weightList e.tokens < n)
    (hlimit : limit < e.level) (hrest : Ends limit rest) :
    Reads (· = e.expr) (tree n limit) e.tokens rest := by
  obtain ⟨n, rfl⟩ : ∃ m, n = m + 1 := Nat.exists_eq_add_one.2 (by omega)
  -- nothing follows, so the whole is the term itself
  have hs : Reads (· = e.expr) (treeStep (tree n) limit) (e.tokens ++ []) rest :=
    h (Nat.le_of_lt_succ hn) hlimit (hrest.mono (le_reach hlimit))
      fun _ hfuel => reads_operators_end hrest hfuel
  rwa [List.append_nil] at hs

/-- What stands between parentheses is read as the beginning of an expression. Inside, the limit is
that of a whole expression, whatever it is around them. -/
theorem Climbs.parenthesized {e : Term} (h : e.Climbs) (hn : weightList e.tokens < n)
    (hword : e.expr.bareWord? = none)
    (hops : ∀ fuel, ts.length < fuel → Reads Q (operators (tree n) limit fuel e.expr) ts rest) :
    Reads Q (treeStep (tree n) limit) (.mark '(' :: (e.tokens ++ [.mark ')']) ++ ts) rest := by
  have hatom : Reads (· = e.expr) (Grammar.atom (tree n)) (.mark '(' :: (e.tokens ++ [.mark ')']))
      ([] ++ ts ++ rest) := by
    refine .peek_cons fun t' ht => ?_
    obtain ⟨s, rfl⟩ := Token.Alike.exists_plain ht
    refine .cons (.advance _) fun _ _ => ?_
    refine .bind (h.reads hn e.level_pos (.punctuation (by decide) _)) fun _ he => ?_
    subst he
    exact .last (.expectPunctuation ')') fun _ _ => .pure rfl
  exact reads_treeStep hatom (reads_callTail_none hword) hops

/-- The right operand of an operator is read, between parentheses or not. They are written if the
term binds no more tightly than the operator, and this is why the tree comes out the same. -/
theorem Climbs.operand {e : Term} (h : e.Climbs)
    (hn : weightList (enclosed (e.level ≤ limit) e.tokens) < n)
    (hlimit : limit < Operator.postfixPrecedence) (hrest : Ends limit rest) :
    Reads (· = e.expr) (tree n limit) (enclosed (e.level ≤ limit) e.tokens) rest := by
  -- with parentheses it is an operand that ends by itself, and otherwise it has to end before what
  -- follows
  by_cases hle : e.level ≤ limit
  · have hword := bareWord?_expr (Nat.lt_of_le_of_lt hle hlimit)
    simp only [hle, decide_true, enclosed, if_true] at hn ⊢
    obtain ⟨n, rfl⟩ : ∃ m, n = m + 1 := Nat.exists_eq_add_one.2 (by omega)
    have hopen := Token.one_le_weight (.mark '(')
    simp only [weightList, weightList_append] at hn
    have hs : Reads (· = e.expr) (treeStep (tree n) limit)
        (.mark '(' :: (e.tokens ++ [.mark ')']) ++ []) rest :=
      h.parenthesized (by omega) hword fun _ hfuel => reads_operators_end hrest hfuel
    rwa [List.append_nil] at hs
  · simp only [hle, decide_false, enclosed] at hn ⊢
    exact h.reads hn (Nat.lt_of_not_le hle) hrest

/-- The left operand of an operator is read, between parentheses or not. Without them it may have
operators itself, which the loop takes one after another before it comes to this one. -/
theorem Climbs.left {e : Term} {l : Nat} (h : e.Climbs)
    (hn : weightList (enclosed (e.level ≤ l) e.tokens) ≤ n)
    (hl : l < Operator.postfixPrecedence) (hlimit : limit ≤ l)
    (hrest : l < e.level → Ends e.reach (ts ++ rest))
    (hops : ∀ fuel, ts.length < fuel → Reads Q (operators (tree n) limit fuel e.expr) ts rest) :
    Reads Q (treeStep (tree n) limit) (enclosed (e.level ≤ l) e.tokens ++ ts) rest := by
  by_cases hle : e.level ≤ l
  · have hopen := Token.one_le_weight (.mark '(')
    simp only [hle, decide_true, enclosed, if_true, weightList, weightList_append] at hn ⊢
    exact h.parenthesized (by omega) (bareWord?_expr (Nat.lt_of_le_of_lt hle hl)) hops
  · simp only [hle, decide_false, enclosed, Bool.false_eq_true, if_false] at hn ⊢
    have hlt := Nat.lt_of_not_le hle
    exact h hn (Nat.lt_of_le_of_lt hlimit hlt) (hrest hlt) hops

/-- An atom is a single token, which stands for its value. It is no sign and opens nothing, so the
operators behind it are those of the loop. -/
theorem climbs_atom (a : Atom) : (Term.atom a).Climbs := by
  intro n limit ts rest Q hn _ hends hops
  have hv : value (tree n) a.token = .ok a.expr :=
    value_of_le (by simpa [tokens, weightList] using hn) a.value_eq
  exact reads_treeStep (reads_atom_of_value hv) (reads_callTail_end hends) hops

/-- A command takes its arguments up to the first token that stands for none. What is left ends the
reach of a command, so the last argument is really the last one. -/
theorem climbs_command (name : String) (a : Argument) (as : List Argument) :
    (Term.command name a as).Climbs := by
  intro n limit ts rest Q hn _ hends hops
  have hargs : ∀ b ∈ a :: as, argument? (tree n) b.token = some (.ok b.expr) := by
    intro b hb
    have hmem : b.token ∈ (Term.command name a as).tokens :=
      .tail _ (List.mem_map_of_mem (f := Argument.token) hb)
    exact b.argument_of_le (Nat.le_trans (Token.weight_le_weightList hmem) hn)
  exact reads_treeStep (reads_atom_of_value (t := .word name) rfl)
    (reads_callTail_command hargs hends) hops

/-- Comma-separated terms are read up to a closing character. -/
theorem reads_list {c : Char} {es : List Term} (hes : ∀ e ∈ es, e.Climbs)
    (hn : weightList (listTokens es) < n) (hopen : c ≠ '(') (hcomma : c ≠ ',') :
    Reads (· = exprs es) (list (tree n) c) (listTokens es) (.mark c :: rest) := by
  cases es with
  | nil =>
    refine .look (.atPunctuation c) fun b hb => ?_
    obtain rfl : b = true := by simpa [listTokens, Token.isPunctuation, Token.of] using hb
    exact .pure rfl
  | cons e es =>
    obtain ⟨t, ts, he, ht⟩ := exists_listTokens_eq_cons e es
    -- no term begins with the character that closes the list
    have hclose :
        (listTokens (e :: es) ++ .mark c :: rest).head?.any (·.isPunctuation c) = false := by
      rw [he]
      exact not_isPunctuation_of_begins ht hopen
    refine .look (.atPunctuation c) fun b hb => ?_
    obtain rfl : b = false := hb.trans hclose
    refine .budget (reads_listItems (fun e he rest hrest => ?_) (.punctuation hopen _) ?_ ?_)
    · have hn' := Nat.lt_of_le_of_lt (weightList_le_listTokens he) hn
      exact Climbs.reads (hes e he) hn' e.level_pos hrest
    · simpa [Token.isPunctuation, Token.of] using hcomma.symm
    · have := length_le_listTokens (e :: es)
      simp only [List.length_cons] at this
      omega

/-- A call with parentheses is read up to its own `)`, so what comes behind it is left to the loop
over the operators. -/
theorem climbs_call {name : String} {es : List Term} (hes : ∀ e ∈ es, e.Climbs) :
    (Term.call name es).Climbs := by
  intro n limit ts rest Q hn _ hends hops
  have hopen := Token.one_le_weight (.mark '(')
  simp only [tokens, weightList, weightList_append] at hn
  have htail : Reads (· = .call (.variable name false) (exprs es))
      (callTail (tree n) (.variable name false))
      (.mark '(' :: (listTokens es ++ [.mark ')'])) (ts ++ rest) := by
    refine .cons (.acceptPunctuation '(') fun b hb => ?_
    subst hb
    refine .bind (reads_list hes (by omega) (by decide) (by decide)) fun _ hes => ?_
    subst hes
    exact .last (.expectPunctuation ')') fun _ _ => .pure rfl
  exact reads_treeStep (reads_atom_of_value (t := .word name) rfl) htail hops

/-- A sign takes an operand of its own limit. The term is an operand for the loop behind it, since
no operator that binds tighter than the sign can follow it. -/
theorem climbs_signed {o : Operator} {ho : o.isSign = true} {e : Term} (he : e.Climbs) :
    (Term.signed o ho e).Climbs := by
  intro n limit ts rest Q hn _ hends hops
  have hsign := Token.one_le_weight (.sign o)
  simp only [tokens, weightList] at hn
  have hatom : Reads (· = .unary o e.expr) (Grammar.atom (tree n)) (Term.signed o ho e).tokens
      (ts ++ rest) := by
    refine .peek_cons fun t' ht => ?_
    obtain ⟨s, rfl⟩ := Token.Alike.exists_plain ht
    simp only [ho, if_true]
    refine .cons (.advance _) fun _ _ => ?_
    refine .last (he.operand (by omega) (by decide) hends) fun _ he => ?_
    subst he
    exact .pure rfl
  have htail : Reads (· = .unary o e.expr) (callTail (tree n) (.unary o e.expr)) [] (ts ++ rest) :=
    reads_callTail_none rfl
  exact reads_treeStep hatom htail hops

/-- A postfix operator has no right operand. The loop reads it behind the term on its left, takes
nothing more for it, and goes on. -/
theorem climbs_stepped {o : Operator} {ho : o.isPostfix = true} {e : Term} (he : e.Climbs) :
    (Term.stepped o ho e).Climbs := by
  intro n limit ts rest Q hn hlimit hends hops
  simp only [tokens, weightList_append] at hn
  -- the loop goes on with the operator
  have hops' : ∀ fuel, (.sign o :: ts).length < fuel →
      Reads Q (operators (tree n) limit fuel e.expr) (.sign o :: ts) rest := by
    intro fuel hfuel
    obtain ⟨fuel, rfl⟩ : ∃ m, fuel = m + 1 := Nat.exists_eq_add_one.2 (by omega)
    exact reads_operators_stepped ho hlimit (hops fuel (Nat.lt_of_succ_lt_succ hfuel))
  have hends' (h : Operator.postfixPrecedence - 1 < e.level) :
      Ends e.reach (.sign o :: ts ++ rest) :=
    .sign (Operator.precedence?_of_isPostfix ho) (postfixPrecedence_le_reach h) _
  have hle : weightList (enclosed (e.level ≤ Operator.postfixPrecedence - 1) e.tokens) ≤ n := by
    omega
  have hs := he.left hle (by decide) (Nat.le_of_lt_succ hlimit) hends' hops'
  simpa only [tokens, List.append_assoc, List.cons_append, List.nil_append] using hs

/-- An operator that joins two terms is read by the loop behind the left one. The right one is read
as a tree of its own, with the limit that makes the operator lean to its side, and the loop goes on
where that tree ends. -/
theorem climbs_joined {o : Operator} {ho : o.joins = true} {l r : Term} (hl : l.Climbs)
    (hr : r.Climbs) : (Term.joined o ho l r).Climbs := by
  intro n limit ts rest Q hn hlimit hends hops
  obtain ⟨hp, hpos, hsign, -⟩ := Operator.joins_table ho
  have hop := Token.one_le_weight (.sign o)
  have hleft := o.leftLimit_le
  have hright := o.rightLimit_le
  have hpostfix : Operator.signPrecedence < Operator.postfixPrecedence := by decide
  simp only [tokens, weightList, weightList_append] at hn
  simp only [level] at hlimit
  -- the loop goes on with the operator and its right operand
  have hops' : ∀ fuel, (.sign o :: (enclosed (r.level ≤ o.rightLimit) r.tokens ++ ts)).length < fuel →
      Reads Q (operators (tree n) limit fuel l.expr)
        (.sign o :: (enclosed (r.level ≤ o.rightLimit) r.tokens ++ ts)) rest := by
    intro fuel hfuel
    obtain ⟨fuel, rfl⟩ : ∃ m, fuel = m + 1 := Nat.exists_eq_add_one.2 (by omega)
    simp only [List.length_cons, List.length_append] at hfuel
    exact reads_operators_joined ho hlimit (hr.operand (by omega) (by omega) hends)
      (hops fuel (by omega))
  have hends' (h : o.leftLimit < l.level) : Ends l.reach
      (.sign o :: (enclosed (r.level ≤ o.rightLimit) r.tokens ++ ts) ++ rest) :=
    .sign hp (binding_le_reach ho h) _
  have hs := hl.left (by omega) (by omega) (by omega) hends' hops'
  simpa only [tokens, List.append_assoc, List.cons_append] using hs

mutual

/-- Every term is read as the beginning of an expression: one case for each kind of term. The
operators on its spine are taken by the same loop, from the innermost to the outermost. -/
theorem climbs : ∀ e : Term, e.Climbs
  | .atom a => climbs_atom a
  | .call _ es => climbs_call (climbs_all es)
  | .command name a as => climbs_command name a as
  | .signed _ _ e => climbs_signed (climbs e)
  | .stepped _ _ e => climbs_stepped (climbs e)
  | .joined _ _ l r => climbs_joined (climbs l) (climbs r)

theorem climbs_all : ∀ es : List Term, ∀ e ∈ es, e.Climbs
  | [] => List.forall_mem_nil _
  | e :: es => List.forall_mem_cons.2 ⟨climbs e, climbs_all es⟩

end

/-- **Written terms are read back.** A tree reads a term that its limit lets stand as it is, up to
where the limit lets it end. -/
theorem reads_tree {e : Term} (hn : weightList e.tokens < n) (hlimit : limit < e.level)
    (hrest : Ends limit rest) : Reads (· = e.expr) (tree n limit) e.tokens rest :=
  Climbs.reads (climbs e) hn hlimit hrest

/-- Written terms with commas between them are read up to a closing character. -/
theorem reads_terms {c : Char} {es : List Term} (hn : weightList (listTokens es) < n)
    (hopen : c ≠ '(') (hcomma : c ≠ ',') :
    Reads (· = exprs es) (list (tree n) c) (listTokens es) (.mark c :: rest) :=
  reads_list (climbs_all es) hn hopen hcomma

/-- **Reading undoes writing.** From the tokens of a term, up to their places, and then nothing or
a `;`, `,` or `)`, exactly the expression that was written is read, and exactly its tokens. -/
theorem run_tokens (e : Term) (hts : Token.Alike ts e.tokens)
    (hrest : ∀ t ∈ rest.head?, ∃ c ∈ [';', ',', ')'], t.isPunctuation c = true)
    (stop reached : Position) :
    ∃ reached', Grammar.run (fun self => self 0) ⟨ts ++ rest, .ok stop, reached⟩ =
      .ok (e.expr, ⟨rest, .ok stop, reached'⟩) := by
  have hends : Ends 0 rest := by
    cases rest with
    | nil => rfl
    | cons t rest =>
      obtain ⟨c, hc, ht⟩ := hrest t rfl
      obtain ⟨s, rfl⟩ := Token.isPunctuation_iff.1 ht
      have hopen : c ≠ '(' := fun h => absurd (h ▸ hc) (by decide)
      exact .punctuation hopen rest
  have hn : weightList e.tokens < weightList (ts ++ rest) + 1 := by
    rw [weightList_append, hts.weightList_eq]
    omega
  obtain ⟨_, reached', hread, rfl⟩ :=
    reads_tree hn e.level_pos hends ts rest hts (.refl rest) stop reached
  exact ⟨reached', by simp only [Grammar.run, hread]⟩

theorem run_tokens_semicolon :
    ∃ e : Term,
      e.tokens = [.word "a", .sign .assign, .sign (.arithmetic .subtract), .mark '(', .word "b",
        .sign .either, .word "f", .mark '(', .word "c", .mark ')', .mark ')', .sign .increment] ∧
      e.expr = .assign (.variable "a" false) (.unary (.arithmetic .subtract)
        (.binary .increment (.binary .either (.variable "b" false)
          (.call (.variable "f" false) [.variable "c" false])) .null)) ∧
      ∃ reached', Grammar.run (fun self => self 0)
          ⟨e.tokens ++ [.mark ';', .word "d"], .ok .first, .first⟩ =
        .ok (e.expr, ⟨[.mark ';', .word "d"], .ok .first, reached'⟩) := by
  let e : Term :=
    .joined .assign rfl (.atom (.word "a")) <| .signed (.arithmetic .subtract) rfl <|
      .stepped .increment rfl <| .joined .either rfl (.atom (.word "b")) <|
        .call "f" [.atom (.word "c")]
  refine ⟨e, rfl, rfl, e.run_tokens (.refl _) (fun t ht => ⟨';', by decide, ?_⟩) .first .first⟩
  obtain rfl : .mark ';' = t := by simpa using ht
  rfl

end Term

end Grammar

end CommandLanguage
