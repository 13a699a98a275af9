import CommandLanguage.Proofs.Grammar.Reads

/-!
# Written expressions

A `Grammar.Term` is an expression as it is written: it tells calls with parentheses from commands,
and has no parentheses of its own. `Term.expr` is the expression, and `Term.tokens` are its tokens,
with parentheses only where the precedences of operators ask for them.

Where only operators that bind more tightly than some limit are read, a term can stand as it is if
the limit is below its `level`, and goes between parentheses otherwise. Behind it, an operator that
binds no more tightly than its `reach` has no part in it.
-/

namespace CommandLanguage

namespace Operator

/-- Whether an operator stands between two operands. -/
def joins (o : Operator) : Bool := o.precedence?.isSome && !o.isPostfix

/-- What an operator makes of the operands on its two sides. -/
def join (o : Operator) (left right : Expr) : Expr :=
  match o with
  | .assign => .assign left right
  | o => .binary o left right

/-- How tightly an operator between operands binds. -/
def binding (o : Operator) : Nat := o.precedence?.getD 0

/-- The precedence above which operators are read on the left of an operator. One that groups to the
left lets its equals stand there, and one that groups to the right does not. -/
def leftLimit (o : Operator) : Nat := if o.groupsRight then o.binding else o.binding - 1

/-- The precedence above which operators are read on the right of an operator: the other way round
than on its left, so that exactly one of the two ways of grouping needs no parentheses. -/
def rightLimit (o : Operator) : Nat := if o.groupsRight then o.binding - 1 else o.binding

/-- How tightly an operator after its only operand binds, which is the tightest of all. -/
def postfixPrecedence : Nat := 100

/-- What the table of precedences says of operators between operands: they bind less tightly than
signs, and which way they group is a matter of their precedence. -/
theorem joins_table {o : Operator} (h : o.joins = true) :
    o.precedence? = some o.binding ∧ 0 < o.binding ∧ o.binding < signPrecedence ∧
      (o.groupsRight = true ↔ o.binding ∈ [1, 10, 50]) := by
  cases o with
  | arithmetic a => cases a <;> decide
  | compound a => cases a <;> decide
  | comparison c => cases c <;> decide
  | unknown s => cases h
  | _ => revert h; decide

/-- Which way an operator groups decides only whether its equals may stand on its left. -/
theorem leftLimit_le (o : Operator) : o.binding - 1 ≤ o.leftLimit ∧ o.leftLimit ≤ o.binding := by
  unfold leftLimit
  split <;> omega

/-- Nothing that binds more tightly than the operator is kept out of its right operand. -/
theorem rightLimit_le (o : Operator) : o.rightLimit ≤ o.binding := by
  unfold rightLimit
  split <;> omega

/-- An operator that stands between operands is none that stands behind its only one. -/
theorem isPostfix_of_joins {o : Operator} (h : o.joins = true) : o.isPostfix = false := by
  simpa using (Bool.and_eq_true_iff.1 h).2

theorem precedence?_of_isPostfix {o : Operator} (h : o.isPostfix = true) :
    o.precedence? = some postfixPrecedence := by
  cases o <;> first | rfl | cases h

end Operator

/-- Whether an expression can begin with a token, other than a block, an `if`, a function or a
loop. -/
def Token.begins : Token → Bool
  | .plain (.operator o) _ => o.isSign
  | .plain (.punctuation c) _ => c == '('
  | .plain (.keyword _) _ => false
  | _ => true

namespace Grammar

open Token (weightList weightList_append)

/-- A token that stands for a value of its own: a literal, a variable, an array literal. Any token
that has a value is one, so an array literal may hold further literals and a variable may have an
index, as long as reading them succeeds. -/
structure Atom where
  /-- the token -/
  token : Token
  /-- what it stands for -/
  expr : Expr
  /-- it does, and trees as deep as its weight are enough to find out -/
  value_eq : value (tree token.weight) token = .ok expr

namespace Atom

/-- A number. -/
def number (n : Float) : Atom := ⟨.of (.number n), .number n, rfl⟩

/-- A text. -/
def text (t : String) (l : Literal) : Atom := ⟨.of (.text t l), .text t l, rfl⟩

/-- `true` or `false`. -/
def boolean (b : Bool) : Atom := ⟨.of (.boolean b), .boolean b, rfl⟩

/-- `$name`. -/
def reference (name : String) : Atom :=
  ⟨.of (.variable name true none), .variable name true, rfl⟩

/-- A name without `$`. -/
def word (name : String) : Atom := ⟨.word name, .variable name false, rfl⟩

/-- A word with groups in braces. -/
def braces (raw : String) : Atom := ⟨.of (.braces raw), .braces raw, rfl⟩

/-- A `${…}`. -/
def parameter (raw : String) : Atom := ⟨.of (.parameter raw), .parameter raw, rfl⟩

end Atom

/-- A token that is an argument of a command: one that stands for a value, or a reserved word that
stands for itself. Arguments need no commas between them, as each is a single token. -/
structure Argument where
  /-- the token -/
  token : Token
  /-- what it stands for -/
  expr : Expr
  /-- it does, and trees as deep as its weight are enough to find out -/
  argument_eq : argument? (tree token.weight) token = some (.ok expr)

/-- A token that stands for a value can be an argument. -/
theorem argument?_of_value {self : Nat → Parse Expr} {t : Token} {e : Expr}
    (h : value self t = .ok e) : argument? self t = some (.ok e) := by
  cases t with
  | plain l s =>
    cases l with
    | keyword _ | operator _ | punctuation _ => cases h
    | _ => exact congrArg some h
  | array items s => exact congrArg some h

/-- An expression can begin with a token that stands for a value. -/
theorem begins_of_value {self : Nat → Parse Expr} {t : Token} {e : Expr}
    (h : value self t = .ok e) : t.begins = true := by
  cases t with
  | plain l s =>
    cases l with
    | keyword _ | operator _ | punctuation _ => cases h
    | _ => rfl
  | array items s => rfl

/-- What stands for a value can be an argument. -/
def Atom.argument (a : Atom) : Argument := ⟨a.token, a.expr, argument?_of_value a.value_eq⟩

/-- A reserved word as an argument, where it is none of those around blocks. -/
def Argument.reserved (w : String) (h : ["then", "else", "do", "done"].contains w = false) :
    Argument := ⟨.reserved w, .text w .bare, by simp only [argument?, Token.of, h]; rfl⟩

/-- An expression as it is written. -/
inductive Term where
  /-- a token that stands for a value -/
  | atom (a : Atom)
  /-- `name(argument, …)` -/
  | call (name : String) (arguments : List Term)
  /-- `name argument …`, with at least one argument -/
  | command (name : String) (first : Argument) (others : List Argument)
  /-- a sign before its operand -/
  | signed (o : Operator) (isSign : o.isSign = true) (operand : Term)
  /-- `++` or `--` after its operand -/
  | stepped (o : Operator) (isPostfix : o.isPostfix = true) (operand : Term)
  /-- an operator between two operands -/
  | joined (o : Operator) (joins : o.joins = true) (left right : Term)

/-- Tokens between parentheses, if they have to be. Parentheses leave no trace in the tree, so the
terms have none of their own and this is the only place where they come from. -/
def enclosed (needed : Bool) (ts : List Token) : List Token :=
  if needed then .mark '(' :: (ts ++ [.mark ')']) else ts

namespace Term

/-- The least limit with which a term is not read as it is. A sign can begin an operand whatever the
limit on the operators within operands, so only its own operand counts. -/
def level : Term → Nat
  | .joined o _ _ _ => o.binding
  | .signed _ _ _ => Operator.signPrecedence + 1
  | _ => Operator.postfixPrecedence

/-- The greatest precedence of an operator that can follow a term without taking part in it. A term
that ends in an operand which is still open to the right, as that of a sign is, lets fewer follow
than its level says. -/
def reach : Term → Nat
  | .joined o _ _ _ => o.rightLimit
  | .signed _ _ _ => Operator.signPrecedence
  | _ => Operator.postfixPrecedence

mutual

/-- The expression that is written. -/
def expr : Term → Expr
  | .atom a => a.expr
  | .call name es => .call (.variable name false) (exprs es)
  | .command name a as => .call (.variable name false) (a.expr :: as.map Argument.expr)
  | .signed o _ e => .unary o e.expr
  | .stepped o _ e => .binary o e.expr .null
  | .joined o _ l r => o.join l.expr r.expr

/-- The expressions that are written. -/
def exprs : List Term → List Expr
  | [] => []
  | e :: es => e.expr :: exprs es

end

mutual

/-- The tokens of a term, with parentheses only where they are needed: an operand gets them if it
binds no more tightly than the side of the operator that it stands on asks for. -/
def tokens : Term → List Token
  | .atom a => [a.token]
  | .call name es => .word name :: .mark '(' :: (listTokens es ++ [.mark ')'])
  | .command name a as => .word name :: a.token :: as.map Argument.token
  | .signed o _ e => .sign o :: enclosed (e.level ≤ Operator.signPrecedence) e.tokens
  | .stepped o _ e => enclosed (e.level ≤ Operator.postfixPrecedence - 1) e.tokens ++ [.sign o]
  | .joined o _ l r =>
    enclosed (l.level ≤ o.leftLimit) l.tokens ++
      .sign o :: enclosed (r.level ≤ o.rightLimit) r.tokens

/-- The tokens of several terms, with commas between them. -/
def listTokens : List Term → List Token
  | [] => []
  | [e] => e.tokens
  | e :: es => e.tokens ++ .mark ',' :: listTokens es

end

/-- What binds less tightly than operators after operands is no word. -/
theorem bareWord?_expr {e : Term} (h : e.level < Operator.postfixPrecedence) :
    e.expr.bareWord? = none := by
  cases e with
  | joined o _ l r =>
    simp only [expr, Operator.join]
    split <;> rfl
  | signed => rfl
  | _ => exact absurd h (Nat.lt_irrefl _)

/-- Operators that are read within a term do not reach beyond it. -/
theorem le_reach {e : Term} {limit : Nat} (h : limit < e.level) : limit ≤ e.reach := by
  cases e with
  | joined o ho l r =>
    simp only [level, reach, Operator.rightLimit] at *
    split <;> omega
  | _ =>
    simp only [level, reach] at *
    omega

/-- An operator after its only operand does not reach into it. -/
theorem postfixPrecedence_le_reach {e : Term} (h : Operator.postfixPrecedence - 1 < e.level) :
    Operator.postfixPrecedence ≤ e.reach := by
  cases e with
  | joined o ho l r =>
    obtain ⟨-, -, hsign, -⟩ := Operator.joins_table ho
    simp only [level, Operator.signPrecedence, Operator.postfixPrecedence] at *
    omega
  | signed o ho e =>
    simp only [level, Operator.signPrecedence, Operator.postfixPrecedence] at h
    omega
  | _ => exact Nat.le_refl _

/-- An operator does not reach into its left operand. -/
theorem binding_le_reach {e : Term} {o : Operator} (ho : o.joins = true)
    (h : o.leftLimit < e.level) : o.binding ≤ e.reach := by
  obtain ⟨-, hpos, hsign, hgroup⟩ := Operator.joins_table ho
  -- an operand on the left that may stand as it is binds at least as tightly as the operator
  cases e with
  | joined o' ho' l r =>
    obtain ⟨-, -, -, hgroup'⟩ := Operator.joins_table ho'
    simp only [level, reach, Operator.leftLimit, Operator.rightLimit] at *
    -- operators that bind equally tightly group the same way
    by_cases heq : o.binding = o'.binding
    · rw [heq, ← hgroup'] at hgroup
      split at h <;> split <;> simp_all
    · split at h <;> split <;> omega
  | _ =>
    simp only [level, reach, Operator.leftLimit, Operator.signPrecedence,
      Operator.postfixPrecedence] at *
    omega

/-! ## Their tokens

What has to be known of the tokens of a term before it is read: what they begin with, and how much
they weigh. The first token tells a call from a command, and the weight bounds the depth of the
trees. -/

/-- Without a limit every term is read as it is. -/
theorem level_pos (e : Term) : 0 < e.level := by
  cases e with
  | joined o ho l r => exact (Operator.joins_table ho).2.1
  | _ => exact Nat.succ_pos _

/-- The only mark that an expression can begin with is an opening parenthesis. -/
theorem not_isPunctuation_of_begins {t : Token} {c : Char} (h : t.begins = true) (hc : c ≠ '(') :
    t.isPunctuation c = false := by
  rcases t with ⟨l, s⟩ | ⟨items, s⟩
  · cases l with
    | punctuation d =>
      obtain rfl : d = '(' := by simpa [Token.begins] using h
      simpa [Token.isPunctuation] using hc
    | _ => rfl
  · rfl

/-- A first token stays one, or an opening parenthesis comes before it. -/
theorem exists_enclosed_eq_cons {t : Token} {ts : List Token} (b : Bool) (ht : t.begins = true) :
    ∃ t' ts', enclosed b (t :: ts) = t' :: ts' ∧ t'.begins = true := by
  cases b with
  | false => exact ⟨t, ts, rfl, ht⟩
  | true => exact ⟨_, _, rfl, rfl⟩

/-- The first token of a term. -/
theorem exists_tokens_eq_cons : ∀ e : Term, ∃ t ts, e.tokens = t :: ts ∧ t.begins = true
  | .atom a => ⟨_, _, rfl, begins_of_value a.value_eq⟩
  | .call _ _ => ⟨_, _, rfl, rfl⟩
  | .command _ _ _ => ⟨_, _, rfl, rfl⟩
  | .signed _ ho _ => ⟨_, _, rfl, ho⟩
  | .stepped o ho e => by
    obtain ⟨t, ts, he, ht⟩ := exists_tokens_eq_cons e
    obtain ⟨t', ts', he', ht'⟩ :=
      exists_enclosed_eq_cons (e.level ≤ Operator.postfixPrecedence - 1) ht
    exact ⟨t', _, by rw [tokens, he, he', List.cons_append], ht'⟩
  | .joined o ho l r => by
    obtain ⟨t, ts, he, ht⟩ := exists_tokens_eq_cons l
    obtain ⟨t', ts', he', ht'⟩ := exists_enclosed_eq_cons (l.level ≤ o.leftLimit) ht
    exact ⟨t', _, by rw [tokens, he, he', List.cons_append], ht'⟩

/-- The first token of comma-separated terms. -/
theorem exists_listTokens_eq_cons (e : Term) (es : List Term) :
    ∃ t ts, listTokens (e :: es) = t :: ts ∧ t.begins = true := by
  obtain ⟨t, ts, he, ht⟩ := e.exists_tokens_eq_cons
  cases es with
  | nil => exact ⟨t, ts, he, ht⟩
  | cons e' es =>
    exact ⟨t, _, by rw [listTokens, he, List.cons_append]; exact List.cons_ne_nil _ _, ht⟩

/-- Each of several terms weighs no more than all of them. -/
theorem weightList_le_listTokens {e : Term} {es : List Term} (h : e ∈ es) :
    weightList e.tokens ≤ weightList (listTokens es) := by
  induction es with
  | nil => cases h
  | cons e' es ih =>
    cases es with
    | nil => obtain rfl := List.mem_singleton.1 h; exact Nat.le_refl _
    | cons e'' es =>
      simp only [listTokens, weightList, weightList_append]
      rcases List.mem_cons.1 h with rfl | h
      · omega
      · have := ih h
        omega

/-- Every term takes a token, so there are no more terms than tokens, and a loop that is bounded by
the number of the tokens gets through all of them. -/
theorem length_le_listTokens : ∀ es : List Term, es.length ≤ (listTokens es).length
  | [] => Nat.zero_le _
  | [e] => by
    obtain ⟨t, ts, he, -⟩ := e.exists_tokens_eq_cons
    simp [listTokens, he]
  | e :: e' :: es => by
    have := length_le_listTokens (e' :: es)
    simp only [listTokens, List.length_cons, List.length_append] at *
    omega

end Term

end Grammar

end CommandLanguage
