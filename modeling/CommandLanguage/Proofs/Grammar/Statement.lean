import CommandLanguage.Proofs.Grammar.Climb

/-!
# Written statements

A `Grammar.Statement` is a statement as it is written: a term, a block, an `if`, a function or a
loop. It says where there are more `;` than are needed, and between which brackets the body of a
loop stands. `Statement.expr` is what is written, and `Statement.tokens` are its tokens.

A statement ends before `;`, before the end of a block and before the end of the script
(`Follows`), and none of these can begin one (`Token.opens`).
-/

namespace CommandLanguage

namespace Token

/-- Whether a statement can begin with a token. -/
def opens : Token → Bool
  | .plain (.punctuation c) _ => c == '(' || c == '\x7b'
  | .plain (.keyword w) _ => ["if", "function", "for", "while"].contains w
  | t => t.begins

/-- Whether a statement ends before a token. -/
def follows : Token → Bool
  | .plain (.punctuation c) _ => c == ';' || c == '\x7d'
  | .plain (.keyword w) _ => w == "done"
  | _ => false

/-- Whether a token can stand in the head of a loop: it separates no statements and begins no
body. -/
def isInline (t : Token) : Bool :=
  !t.isPunctuation ';' && !(t.isKeyword "do" || t.isPunctuation '\x7b')

/-- Where a token stands does not matter to what it can be in the head of a loop. -/
theorem isInline_unplaced (t : Token) : t.unplaced.isInline = t.isInline := by
  simp only [isInline, isPunctuation_unplaced, isKeyword_unplaced]

/-- A statement can begin with whatever an expression can begin with. -/
theorem opens_of_begins {t : Token} (h : t.begins = true) : t.opens = true := by
  rcases t with ⟨l, s⟩ | ⟨items, s⟩
  · cases l with
    | punctuation c => simpa [opens, begins] using Or.inl h
    | keyword w => cases h
    | _ => exact h
  · exact h

/-- No statement begins where a statement ends. -/
theorem not_follows_of_opens {t : Token} (h : t.opens = true) : t.follows = false := by
  rcases t with ⟨l, s⟩ | ⟨items, s⟩
  · cases l with
    | punctuation c =>
      have hc : c = '(' ∨ c = '\x7b' := by simpa [opens] using h
      rcases hc with rfl | rfl <;> rfl
    | keyword w =>
      have hw : w = "if" ∨ w = "function" ∨ w = "for" ∨ w = "while" := by simpa [opens] using h
      rcases hw with rfl | rfl | rfl | rfl <;> rfl
    | _ => rfl
  · rfl

/-- An expression ends where a statement ends. -/
theorem ends_of_follows {t : Token} (h : t.follows = true) (limit : Nat) :
    t.ends limit = true := by
  rcases t with ⟨l, s⟩ | ⟨items, s⟩
  · cases l with
    | punctuation c =>
      have hc : c = ';' ∨ c = '\x7d' := by simpa [follows] using h
      rcases hc with rfl | rfl <;> rfl
    | keyword w =>
      obtain rfl : w = "done" := by simpa [follows] using h
      rfl
    | _ => cases h
  · cases h

theorem follows_unplaced (t : Token) : t.unplaced.follows = t.follows := by
  cases t with
  | plain l s => cases l <;> rfl
  | array items s => rfl

theorem follows_alike {t u : Token} (h : t.unplaced = u.unplaced) : t.follows = u.follows := by
  rw [← follows_unplaced, h, follows_unplaced]

/-- A statement ends before a `;`, wherever it stands. -/
theorem follows_of_isPunctuation {t : Token} (h : t.isPunctuation ';' = true) :
    t.follows = true := by
  obtain ⟨s, rfl⟩ := isPunctuation_iff.1 h
  rfl

theorem not_isPunctuation_of_not_follows {t : Token} (h : t.follows = false) :
    t.isPunctuation ';' = false :=
  Bool.eq_false_iff.2 fun hc => Bool.false_ne_true (h.symm.trans (follows_of_isPunctuation hc))

end Token

namespace Grammar

open Token (weightList weightList_append)

/-- What stands around the statements of a body. -/
inductive Bracket where
  /-- `{` and `}` -/
  | braces
  /-- `do` and `done` -/
  | words
  deriving DecidableEq

namespace Bracket

/-- The opening bracket. -/
def left : Bracket → Token
  | braces => .mark '\x7b'
  | words => .reserved "do"

/-- The closing bracket. -/
def right : Bracket → Token
  | braces => .mark '\x7d'
  | words => .reserved "done"

/-- Whether a token is the closing bracket. -/
def closes : Bracket → Token → Bool
  | braces => (·.isPunctuation '\x7d')
  | words => (·.isKeyword "done")

/-- A statement ends before a closing bracket. -/
theorem follows_of_closes {b : Bracket} {t : Token} (h : b.closes t = true) :
    t.follows = true := by
  rcases t with ⟨l, s⟩ | ⟨items, s⟩
  · cases b <;> cases l <;> first | cases h | skip
    · next c =>
      obtain rfl : '\x7d' = c := by simpa [closes, Token.isPunctuation] using h
      rfl
    · next w =>
      obtain rfl : "done" = w := by simpa [closes, Token.isKeyword] using h
      rfl
  · cases b <;> cases h

/-- What can begin a statement closes nothing. -/
theorem not_closes {b : Bracket} {t : Token} (h : t.follows = false) : b.closes t = false :=
  Bool.eq_false_iff.2 fun hc => Bool.false_ne_true (h.symm.trans (follows_of_closes hc))

/-- A closing bracket is found wherever it stands. -/
theorem closes_alike {b : Bracket} {t : Token} (h : t.unplaced = b.right.unplaced) :
    b.closes t = true := by
  cases b <;> obtain ⟨s, rfl⟩ := Token.Alike.exists_plain h <;> rfl

/-- Tokens between brackets. -/
def around (b : Bracket) (ts : List Token) : List Token := b.left :: (ts ++ [b.right])

end Bracket

/-- A parameter of a function, with or without a default value. -/
structure Parameter where
  /-- its name -/
  name : String
  /-- its default value -/
  default? : Option Term

/-- A parameter is written like a word or an assignment to one. -/
def Parameter.term (p : Parameter) : Term :=
  match p.default? with
  | none => .atom (.word p.name)
  | some e => .joined .assign rfl (.atom (.word p.name)) e

/-- The parameters of a function. Between parentheses, two or more words without commas are read by
the lexer as one array literal, so that they are a form of their own here. -/
inductive Parameters where
  /-- none, and no parentheses -/
  | omitted
  /-- comma-separated ones between parentheses -/
  | list (ps : List Parameter)
  /-- words between parentheses that are one token, an array literal -/
  | array (names : List String)

namespace Parameters

/-- The expressions that stand for parameters. -/
def exprs : Parameters → List Expr
  | omitted => []
  | list ps => Term.exprs (ps.map Parameter.term)
  | array names => names.map (.variable · false)

/-- The tokens of parameters. -/
def tokens : Parameters → List Token
  | omitted => []
  | list ps => .mark '(' :: (Term.listTokens (ps.map Parameter.term) ++ [.mark ')'])
  | array names => [.array (names.map .word) default]

end Parameters

mutual

/-- A statement as it is written. The bodies of branches and functions are blocks in braces, while
the body of a loop may stand between `do` and `done` too; and `else` comes directly behind the block
before it. -/
inductive Statement where
  /-- an expression without blocks -/
  | term (e : Term)
  /-- a block in braces -/
  | block (ss : Statements)
  /-- `if condition then yes` -/
  | ifThen (condition : Term) (yes : Statements)
  /-- `if condition then yes else no` -/
  | ifThenElse (condition : Term) (yes no : Statements)
  /-- `function [name] parameters body` -/
  | function (name : Option String) (ps : Parameters) (body : Statements)
  /-- `while condition, … body` -/
  | while (condition : Term) (conditions : List Term) (b : Bracket) (body : Statements)
  /-- `for name in range body` -/
  | forIn (name : String) (range : Atom) (b : Bracket) (body : Statements)
  /-- `for (init, …; condition, …; step, …) body` -/
  | for (init condition step : List Term) (b : Bracket) (body : Statements)

/-- The statements of a script or a block as they are written. There may be any number of semicolons
where one is needed or none, and they are part of what is written, since reading has to pass them
by. -/
inductive Statements where
  /-- `n` semicolons only -/
  | nil (n : Nat)
  /-- `n` semicolons and a statement without a semicolon after it -/
  | last (n : Nat) (s : Statement)
  /-- `n` semicolons, a statement, a semicolon and more -/
  | cons (n : Nat) (s : Statement) (ss : Statements)

end

/-- `n` semicolons. -/
def separators (n : Nat) : List Token := .replicate n (.mark ';')

theorem separators_add (m n : Nat) : separators (m + n) = separators m ++ separators n :=
  List.replicate_append_replicate.symm

/-- A lone word is a command without arguments. Only as a statement of its own is it one: everywhere
else the same word is a text or a name. -/
def asStatement (e : Expr) : Expr := if e.bareWord?.isSome then .call e [] else e

mutual

/-- The expression that a statement is read as. -/
def Statement.expr : Statement → Expr
  | .term e => asStatement e.expr
  | .block ss => .block ss.exprs
  | .ifThen c yes => .ifThen c.expr (.block yes.exprs)
  | .ifThenElse c yes no => .ifThenElse c.expr (.block yes.exprs) (.block no.exprs)
  | .function name ps body => .function 0 name ps.exprs (.block body.exprs)
  | .while c cs _ body => .while (Term.exprs (c :: cs)) (.block body.exprs)
  | .forIn x r _ body => .forIn x r.expr (.block body.exprs)
  | .for i c s _ body => .for (Term.exprs i) (Term.exprs c) (Term.exprs s) (.block body.exprs)

/-- The expressions that statements are read as. -/
def Statements.exprs : Statements → List Expr
  | .nil _ => []
  | .last _ s => [s.expr]
  | .cons _ s ss => s.expr :: ss.exprs

end

mutual

/-- The tokens of a statement. No `;` stands behind its head or before its `else`, since a statement
is what is left when the lines of a script were put together. -/
def Statement.tokens : Statement → List Token
  | .term e => e.tokens
  | .block ss => Bracket.braces.around ss.tokens
  | .ifThen c yes => .reserved "if" :: (c.tokens ++ .reserved "then" :: Bracket.braces.around yes.tokens)
  | .ifThenElse c yes no =>
    .reserved "if" :: (c.tokens ++ .reserved "then" ::
      (Bracket.braces.around yes.tokens ++ .reserved "else" :: Bracket.braces.around no.tokens))
  | .function name ps body =>
    .reserved "function" :: (name.toList.map .word ++ (ps.tokens ++ Bracket.braces.around body.tokens))
  | .while c cs b body => .reserved "while" :: (Term.listTokens (c :: cs) ++ b.around body.tokens)
  | .forIn x r b body =>
    .reserved "for" :: ([.word x, .reserved "in", r.token] ++ b.around body.tokens)
  | .for i c s b body =>
    .reserved "for" :: .mark '(' :: (Term.listTokens i ++ .mark ';' :: (Term.listTokens c ++
      .mark ';' :: (Term.listTokens s ++ .mark ')' :: b.around body.tokens)))

/-- The tokens of several statements. -/
def Statements.tokens : Statements → List Token
  | .nil n => separators n
  | .last n s => separators n ++ s.tokens
  | .cons n s ss => separators n ++ (s.tokens ++ .mark ';' :: ss.tokens)

end

/-! ## Their tokens

The head of a loop is collected token by token before any of it is read, up to the first token that
separates statements or begins a body. So it has to be known that there is none of these in a
term. -/

/-- The first token of a statement. -/
theorem Statement.exists_tokens_eq_cons (s : Statement) :
    ∃ t ts, s.tokens = t :: ts ∧ t.opens = true := by
  cases s with
  | term e =>
    obtain ⟨t, ts, he, ht⟩ := e.exists_tokens_eq_cons
    exact ⟨t, ts, he, Token.opens_of_begins ht⟩
  | _ => exact ⟨_, _, rfl, by decide⟩

/-- What stands for an argument does neither end a statement nor begin a body. -/
theorem isInline_of_argument {self : Nat → Parse Expr} {t : Token} {x : Except Stop Expr}
    (h : argument? self t = some x) : t.isInline = true := by
  rcases t with ⟨l, s⟩ | ⟨items, s⟩
  · cases l with
    | keyword w =>
      simp only [argument?] at h
      split at h
      · cases h
      next hw =>
        have hdo : w ≠ "do" := by
          rintro rfl
          exact hw rfl
        simpa [Token.isInline, Token.isPunctuation, Token.isKeyword] using hdo.symm
    | operator _ | punctuation _ => cases h
    | _ => rfl
  · rfl

/-- Parentheses do not end the head of a loop either. -/
theorem isInline_enclosed {b : Bool} {ts : List Token} (h : ∀ t ∈ ts, t.isInline = true) :
    ∀ t ∈ enclosed b ts, t.isInline = true := by
  cases b with
  | false => exact h
  | true =>
    simp only [enclosed, if_true, List.mem_cons, List.mem_append, List.not_mem_nil, or_false]
    rintro t (rfl | ht | rfl)
    · rfl
    · exact h t ht
    · rfl

mutual

/-- No token of a term separates statements or begins the body of a loop: one case for each kind of
term. So the head of a loop, which ends at the first token that does, holds all of a term. -/
theorem Term.isInline_tokens : ∀ e : Term, ∀ t ∈ e.tokens, t.isInline = true
  | .atom a => by
    -- a token that stands for a value can be an argument, and none of those ends a head
    simpa [tokens] using isInline_of_argument (argument?_of_value a.value_eq)
  | .call name es => by
    have hes := Term.isInline_listTokens es
    simp only [tokens, List.mem_cons, List.mem_append, List.not_mem_nil, or_false]
    rintro t (rfl | rfl | ht | rfl)
    · rfl
    · rfl
    · exact hes t ht
    · rfl
  | .command name a as => by
    simp only [tokens, List.mem_cons, List.mem_map]
    rintro t (rfl | rfl | ⟨b, -, rfl⟩)
    · rfl
    · exact isInline_of_argument a.argument_eq
    · exact isInline_of_argument b.argument_eq
  | .signed o ho e => by
    have he := isInline_enclosed (b := e.level ≤ Operator.signPrecedence) (Term.isInline_tokens e)
    simp only [tokens, List.mem_cons]
    rintro t (rfl | ht)
    · rfl
    · exact he t ht
  | .stepped o ho e => by
    have he := isInline_enclosed (b := e.level ≤ Operator.postfixPrecedence - 1)
      (Term.isInline_tokens e)
    simp only [tokens, List.mem_append, List.mem_singleton]
    rintro t (ht | rfl)
    · exact he t ht
    · rfl
  | .joined o ho l r => by
    have hl := isInline_enclosed (b := l.level ≤ o.leftLimit) (Term.isInline_tokens l)
    have hr := isInline_enclosed (b := r.level ≤ o.rightLimit) (Term.isInline_tokens r)
    simp only [tokens, List.mem_append, List.mem_cons]
    rintro t (ht | rfl | ht)
    · exact hl t ht
    · rfl
    · exact hr t ht

/-- Nor does a comma between terms. -/
theorem Term.isInline_listTokens : ∀ es : List Term, ∀ t ∈ listTokens es, t.isInline = true
  | [] => List.forall_mem_nil _
  | [e] => Term.isInline_tokens e
  | e :: e' :: es => by
    have he := Term.isInline_tokens e
    have hes := Term.isInline_listTokens (e' :: es)
    simp only [listTokens, List.mem_append, List.mem_cons]
    rintro t (ht | rfl | ht)
    · exact he t ht
    · rfl
    · exact hes t ht

end

end Grammar

end CommandLanguage
