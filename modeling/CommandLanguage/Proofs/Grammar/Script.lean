import CommandLanguage.Proofs.Grammar.Statement
import CommandLanguage.Proofs.Source.Settled
import CommandLanguage.Proofs.Token.Lexes

/-!
# Written scripts are read back

A statement is read as what was written, and so are the statements of a block and of a script. Each
kind of statement has a lemma of its own, which reads its parts one after the other; blocks lie
deeper than the statements that they belong to, so the weight of the tokens that are left bounds how
deep the blocks go. The head of a loop is read twice: first its tokens are collected, and then a
second reader finds the conditions in them.

`Statement.IsRead` is what is shown of a statement: wherever it can stand, its tokens are read as its
expression, and no token behind them is touched. `Statements.AreRead` says the same of the statements
of a block, which is closed by a bracket. The two are proved together, by recursion on what was
written, and a lemma about a kind of statement has the `AreRead` of its blocks for a hypothesis.
-/

namespace CommandLanguage.Grammar

open Token (Alike weightList weightList_append)

variable {self : Nat → Parse Expr} {Q : Expr → Prop} {ts us rest : List Token} {e : Expr}
  {n fuel : Nat}

/-- Whether a statement ends before some tokens. Each construct is shown to be read in front of any
such tokens, so that they can be put one behind another. -/
def Follows (rest : List Token) : Prop := rest.head?.all Token.follows = true

namespace Follows

/-- The bracket that closes a block ends the statement before it. -/
theorem right (b : Bracket) (ts : List Token) : Follows (b.right :: ts) := by
  cases b <;> rfl

/-- Before a token that ends a statement, an expression ends as well, however weakly operators may
bind. -/
theorem ends (h : Follows rest) {limit : Nat} : Ends limit rest := by
  cases rest with
  | nil => rfl
  | cons t rest => exact Token.ends_of_follows h limit

/-- A statement does not end before an `else`, which would belong to it. So an `if` without one is
read as it is written. -/
theorem not_else (h : Follows rest) : rest.head?.any (·.isKeyword "else") = false := by
  cases rest with
  | nil => rfl
  | cons t rest =>
    rcases t with ⟨l, s⟩ | ⟨items, s⟩
    · cases l with
      | keyword w =>
        obtain rfl : w = "done" := by simpa [Follows, Token.follows] using h
        rfl
      | _ => rfl
    · rfl

end Follows

/-! ## Trees without operators -/

/-- What is no word and has no operators after it is a tree. It could only be called if it were a
word. -/
theorem reads_tree_of_atom (h : Reads (· = e) (atom self) ts rest) (hword : e.bareWord? = none)
    (hrest : Ends 0 rest) : Reads (· = e) (treeStep self 0) ts rest := by
  have htail : Reads (· = e) (callTail self e) [] ([] ++ rest) := reads_callTail_none hword
  have hs : Reads (· = e) (treeStep self 0) (ts ++ ([] ++ [])) rest :=
    reads_treeStep h htail fun _ hfuel => reads_operators_end hrest hfuel
  rwa [List.append_nil, List.append_nil] at hs

/-- A tree is a statement, or the call that is made of it if it is a word. -/
theorem reads_statement (h : Reads (· = e) (self 0) ts rest) :
    Reads (· = asStatement e) (statement self) ts rest := by
  refine .last h fun _ he => ?_
  subst he
  exact .pure rfl

/-! ## Blocks -/

/-- A statement is read, wherever it can stand. The depth has only to be as great as its tokens are
heavy, and what follows has to be something before which it ends. -/
def Statement.IsRead (s : Statement) : Prop :=
  ∀ {n : Nat} {rest : List Token}, weightList s.tokens < n → Follows rest →
    Reads (· = s.expr) (statement (tree n)) s.tokens rest

/-- Statements are read up to a closing bracket, also with more semicolons before them. These are
behind a statement when the others are reached, and the induction needs them there. -/
def Statements.AreRead (ss : Statements) : Prop :=
  ∀ {n k fuel : Nat} {b : Bracket} {rest : List Token}, weightList ss.tokens < n →
    (separators k ++ ss.tokens).length < fuel →
    Reads (· = ss.exprs) (statementsUntil (tree n) b.closes fuel) (separators k ++ ss.tokens)
      (b.right :: rest)

/-- The first token of a statement is none before which a statement ends. -/
theorem Statement.exists_head (s : Statement) (us rest : List Token) :
    ∃ t, (s.tokens ++ us ++ rest).head? = some t ∧ t.follows = false := by
  obtain ⟨t, ts, hts, ht⟩ := s.exists_tokens_eq_cons
  exact ⟨t, by rw [hts]; rfl, Token.not_follows_of_opens ht⟩

/-- A statement does not begin with a `;`, so that no more of them are passed before it. -/
theorem not_semicolon {t : Token} (hhead : ts.head? = some t) (ht : t.follows = false) :
    ts.head?.any (·.isPunctuation ';') = false := by
  rw [hhead]
  exact Token.not_isPunctuation_of_not_follows ht

/-- Semicolons and nothing else. They are passed, and then the bracket is there, before which no
statement is looked for. -/
theorem reads_statementsUntil_nil {b : Bracket} (k : Nat) (hfuel : 0 < fuel) :
    Reads (· = []) (statementsUntil self b.closes fuel) (separators k) (b.right :: rest) := by
  obtain ⟨fuel, rfl⟩ := Nat.exists_eq_add_of_lt hfuel
  -- the bracket is no semicolon, and closes the block
  have hright : (b.right :: rest).head?.any (·.isPunctuation ';') = false := by
    cases b <;> rfl
  refine .last (.skipSeparators k hright) fun _ _ => .peek_rest fun t' ht => ?_
  simp only [Bracket.closes_alike ht, if_true]
  exact .pure rfl

/-- Semicolons, a statement, and what can follow it. It ends there because the first token behind it
is a `;` or the bracket. -/
theorem reads_statementsUntil_cons {b : Bracket} {s : Statement} {es : List Expr} (k : Nat)
    (hs : Reads (· = s.expr) (statement self) s.tokens (us ++ b.right :: rest))
    (hus : us.head?.all (·.isPunctuation ';') = true)
    (htail : Reads (· = es) (statementsUntil self b.closes fuel) us (b.right :: rest)) :
    Reads (· = s.expr :: es) (statementsUntil self b.closes (fuel + 1))
      (separators k ++ (s.tokens ++ us)) (b.right :: rest) := by
  obtain ⟨t, hhead, hfirst⟩ := s.exists_head us (b.right :: rest)
  refine .bind (.skipSeparators k (not_semicolon hhead hfirst)) fun _ _ => ?_
  refine .peek_head hhead fun t' ht' => ?_
  have hopen : b.closes t' = false := Bracket.not_closes ((Token.follows_alike ht').trans hfirst)
  simp only [hopen]
  refine .bind hs fun _ he => ?_
  subst he
  -- the statement ends before a `;` or before the closing bracket
  cases us with
  | nil =>
    refine .peek_head rfl fun t' ht' => ?_
    simp only [Bracket.closes_alike ht', Bool.true_or, if_true]
    refine .last htail fun _ hes => ?_
    subst hes
    exact .pure rfl
  | cons u us =>
    refine .peek_cons fun u' hu' => ?_
    have hsemi' : u'.isPunctuation ';' = true := (Alike.isPunctuation_eq hu' ';').trans hus
    simp only [hsemi', Bool.or_true, if_true]
    refine .last htail fun _ hes => ?_
    subst hes
    exact .pure rfl

theorem Statement.length_tokens_pos (s : Statement) : 0 < s.tokens.length := by
  obtain ⟨t, ts, hts, -⟩ := s.exists_tokens_eq_cons
  rw [hts]
  exact Nat.succ_pos _

/-- Semicolons alone are no statement. -/
theorem areRead_nil (m : Nat) : (Statements.nil m).AreRead := by
  intro n k fuel b rest _ hfuel
  rw [Statements.tokens, ← separators_add]
  exact reads_statementsUntil_nil (k + m) (Nat.zero_lt_of_lt hfuel)

/-- The last statement of a block may do without a `;` behind it. -/
theorem areRead_last {s : Statement} (m : Nat) (hs : s.IsRead) : (Statements.last m s).AreRead := by
  intro n k fuel b rest hn hfuel
  have hpos := s.length_tokens_pos
  simp only [Statements.tokens, List.length_append, weightList_append] at hn hfuel
  obtain ⟨fuel, rfl⟩ : ∃ f, fuel = f + 1 := Nat.exists_eq_add_one.2 (by omega)
  have hend : Reads (· = []) (statementsUntil (tree n) b.closes fuel) [] (b.right :: rest) :=
    reads_statementsUntil_nil 0 (by omega)
  have h := reads_statementsUntil_cons (k + m) (hs (by omega) (.right b rest)) rfl hend
  rwa [separators_add, List.append_nil, List.append_assoc] at h

/-- A statement with a `;` behind it, and then the others of the block. -/
theorem areRead_cons {s : Statement} {ss : Statements} (m : Nat) (hs : s.IsRead)
    (hss : ss.AreRead) : (Statements.cons m s ss).AreRead := by
  intro n k fuel b rest hn hfuel
  have hpos := s.length_tokens_pos
  simp only [Statements.tokens, List.length_append, List.length_cons, weightList,
    weightList_append] at hn hfuel
  obtain ⟨fuel, rfl⟩ : ∃ f, fuel = f + 1 := Nat.exists_eq_add_one.2 (by omega)
  -- the semicolon after the statement is one more before the others
  have hmore : Reads (· = ss.exprs) (statementsUntil (tree n) b.closes fuel)
      (separators 1 ++ ss.tokens) (b.right :: rest) :=
    hss (by omega) (by rw [List.length_append, separators, List.length_replicate]; omega)
  have hfollows : Follows (separators 1 ++ ss.tokens ++ b.right :: rest) := rfl
  have h := reads_statementsUntil_cons (k + m) (hs (by omega) hfollows) rfl hmore
  rwa [separators_add, List.append_assoc] at h

namespace Statements

variable {ss : Statements}

/-- Statements are read up to a closing bracket. -/
theorem AreRead.reads (h : ss.AreRead) {b : Bracket} (hn : weightList ss.tokens < n)
    (hfuel : ss.tokens.length < fuel) :
    Reads (· = ss.exprs) (statementsUntil (tree n) b.closes fuel) ss.tokens (b.right :: rest) :=
  h (k := 0) hn (by simpa [separators] using hfuel)

/-- A block in braces. Its weight counts the tokens inside, so the depth that the statements need is
there. -/
theorem AreRead.block (h : ss.AreRead) (hn : weightList ss.tokens < n) :
    Reads (· = .block ss.exprs) (block (tree n)) (Bracket.braces.around ss.tokens) rest := by
  refine .cons (.expectPunctuation '\x7b') fun _ _ => .budget ?_
  refine .bind (h.reads (b := .braces) hn (by simp; omega)) fun _ hes => ?_
  subst hes
  exact .last (.expectPunctuation '\x7d') fun _ _ => .pure rfl

/-- A block between `do` and `done`. -/
theorem AreRead.doBlock (h : ss.AreRead) (hn : weightList ss.tokens < n) :
    Reads (· = .block ss.exprs) (doBlock (tree n)) (Bracket.words.around ss.tokens) rest := by
  refine .cons (.expectKeyword "do") fun _ _ => .budget ?_
  refine .bind (h.reads (b := .words) hn (by simp; omega)) fun _ hes => ?_
  subst hes
  exact .last (.expectKeyword "done") fun _ _ => .pure rfl

/-- The body of a loop. -/
theorem AreRead.loopBody (h : ss.AreRead) {b : Bracket} (hn : weightList ss.tokens < n) :
    Reads (· = .block ss.exprs) (loopBody (tree n)) (b.around ss.tokens) rest := by
  refine .look (.atKeyword "do") fun _ hb => ?_
  subst hb
  cases b with
  | braces =>
    refine .look (.atPunctuation '\x7b') fun _ hb => ?_
    subst hb
    exact h.block hn
  | words => exact h.doBlock hn

/-- A branch of an `if`, or the body of a function. -/
theorem AreRead.branch (h : ss.AreRead) (hn : weightList ss.tokens < n) :
    Reads (· = .block ss.exprs) (branch (tree n)) (Bracket.braces.around ss.tokens) rest := by
  refine .look (.atPunctuation '\x7b') fun _ hb => ?_
  subst hb
  exact h.block hn

end Statements

/-! ## Statements -/

/-- An expression is a statement. It ends where the statement does. -/
theorem isRead_term (e : Term) : (Statement.term e).IsRead := by
  intro n rest hn hrest
  exact reads_statement (e.reads_tree hn e.level_pos hrest.ends)

/-- What an atom reads is a statement, if it is no word. -/
theorem Statement.isRead_of_atom {s : Statement} (hword : s.expr.bareWord? = none)
    (h : ∀ {n : Nat} {rest : List Token}, weightList s.tokens ≤ n → Follows rest →
      Reads (· = s.expr) (atom (tree n)) s.tokens rest) : s.IsRead := by
  intro n rest hn hrest
  obtain ⟨n, rfl⟩ : ∃ m, n = m + 1 := Nat.exists_eq_add_one.2 (by omega)
  -- the level of the tree itself is the one that the fuel has more than the tokens weigh
  have htree : Reads (· = s.expr) (tree (n + 1) 0) s.tokens rest :=
    reads_tree_of_atom (h (Nat.le_of_lt_succ hn) hrest) hword hrest.ends
  have hs := reads_statement htree
  rwa [asStatement, hword] at hs

/-- A block is a statement, and its brackets are taken with it. -/
theorem isRead_block {ss : Statements} (hss : ss.AreRead) : (Statement.block ss).IsRead := by
  refine Statement.isRead_of_atom rfl fun hn _ => .peek_cons fun t' ht => ?_
  obtain ⟨s, rfl⟩ := Token.Alike.exists_plain ht
  have hleft := Token.one_le_weight Bracket.braces.left
  simp only [Statement.tokens, Bracket.around, weightList, weightList_append] at hn
  exact hss.block (by omega)

/-- An `if` without an `else`. The condition ends before the brace that begins the branch, and
behind the branch no `else` follows. -/
theorem isRead_ifThen {c : Term} {yes : Statements} (hyes : yes.AreRead) :
    (Statement.ifThen c yes).IsRead := by
  refine Statement.isRead_of_atom rfl fun hn hrest => .peek_cons fun t' ht => ?_
  obtain ⟨s, rfl⟩ := Token.Alike.exists_plain ht
  -- the word weighs something, so the condition and the branch weigh less than all of it
  have hif := Token.one_le_weight (.reserved "if")
  simp only [Statement.tokens, Bracket.around, weightList, weightList_append] at hn
  refine .cons (.expectKeyword "if") fun _ _ => ?_
  refine .bind (c.reads_tree (by omega) c.level_pos rfl) fun _ hc => ?_
  subst hc
  refine .cons (.discard (.acceptKeyword "then")) fun _ _ => ?_
  refine .last (hyes.branch (by omega)) fun _ hyes => ?_
  subst hyes
  refine .look (.acceptKeyword_none hrest.not_else) fun b hb => ?_
  subst hb
  exact .pure rfl

/-- An `if` with an `else`, which stands behind the bracket of the first branch. No `;` is between
the two, and none may be there. -/
theorem isRead_ifThenElse {c : Term} {yes no : Statements} (hyes : yes.AreRead)
    (hno : no.AreRead) : (Statement.ifThenElse c yes no).IsRead := by
  refine Statement.isRead_of_atom rfl fun hn hrest => .peek_cons fun t' ht => ?_
  obtain ⟨s, rfl⟩ := Token.Alike.exists_plain ht
  have hif := Token.one_le_weight (.reserved "if")
  simp only [Statement.tokens, Bracket.around, weightList, weightList_append] at hn
  refine .cons (.expectKeyword "if") fun _ _ => ?_
  refine .bind (c.reads_tree (by omega) c.level_pos rfl) fun _ hc => ?_
  subst hc
  refine .cons (.discard (.acceptKeyword "then")) fun _ _ => ?_
  refine .bind (hyes.branch (by omega)) fun _ hyes => ?_
  subst hyes
  refine .cons (.acceptKeyword "else") fun b hb => ?_
  subst hb
  refine .last (hno.branch (by omega)) fun _ hno => ?_
  subst hno
  exact .pure rfl

/-! ## Functions -/

/-- A parameter as it is written is one: a name, or a name with a default value. The parser reads an
expression and then asks whether it is of this form. -/
theorem Parameter.isParameter_term (p : Parameter) : isParameter p.term.expr = true := by
  obtain ⟨name, _ | e⟩ := p <;> rfl

/-- So are all parameters. -/
theorem isParameter_exprs (ps : List Parameter) :
    ∀ e ∈ Term.exprs (ps.map Parameter.term), isParameter e = true := by
  induction ps with
  | nil => exact List.forall_mem_nil _
  | cons p ps ih => exact List.forall_mem_cons.2 ⟨p.isParameter_term, ih⟩

/-- No parameter is refused. -/
theorem Parameters.find?_exprs (ps : Parameters) : ps.exprs.find? (!isParameter ·) = none := by
  cases ps with
  | omitted => rfl
  | list ps => simpa [Parameters.exprs] using isParameter_exprs ps
  | array names => simp [Parameters.exprs, isParameter, Expr.bareWord?]

/-- Names in an array literal are words. -/
theorem values_words (names : List String) :
    values self (names.map .word) = .ok (names.map (.variable · false)) := by
  induction names with
  | nil => rfl
  | cons name names ih =>
    simp only [List.map_cons, values, ih]
    rfl

/-- Parameters are read up to the body of the function. -/
theorem reads_parameters (ps : Parameters) (hn : weightList ps.tokens < n) :
    Reads (· = ps.exprs) (parameters (tree n)) ps.tokens (.mark '\x7b' :: rest) := by
  cases ps with
  | omitted =>
    refine .peek_rest fun t' ht => ?_
    obtain ⟨s, rfl⟩ := Token.Alike.exists_plain ht
    refine .look (.acceptPunctuation_none rfl) fun b hb => ?_
    subst hb
    exact .pure rfl
  | list ps =>
    refine .peek_cons fun t' ht => ?_
    obtain ⟨s, rfl⟩ := Token.Alike.exists_plain ht
    simp only [Parameters.tokens, weightList, weightList_append] at hn
    refine .cons (.acceptPunctuation '(') fun b hb => ?_
    subst hb
    refine .bind (Term.reads_terms (by omega) (by decide) (by decide)) fun _ hes => ?_
    subst hes
    exact .last (.expectPunctuation ')') fun _ _ => .pure rfl
  -- an array literal is one token; what is in it is read without moving on
  | array names =>
    refine .peek_cons fun t' ht => ?_
    rcases t' with ⟨l, s⟩ | ⟨items, s⟩
    · cases ht
    · have hitems : values (tree n) items = .ok (names.map (.variable · false)) :=
        values_alike (Token.array.inj ht).1 (values_words names)
      exact .cons (.advance _) fun _ _ => .lift hitems rfl

/-- The parameters and the body of a function. -/
theorem reads_functionTail {body : Statements} (name : Option String) (ps : Parameters)
    (hps : weightList ps.tokens < n) (hbody : body.AreRead) (hn : weightList body.tokens < n) :
    Reads (· = (Statement.function name ps body).expr)
      (do
        let ps ← parameters (tree n)
        match ps.find? (!isParameter ·) with
        | some e => fail .parameterName (.node e) (← get).reached
        | none => return Expr.function 0 name ps (← branch (tree n)))
      (ps.tokens ++ Bracket.braces.around body.tokens) rest := by
  have hread : Reads (· = ps.exprs) (parameters (tree n)) ps.tokens
      (Bracket.braces.around body.tokens ++ rest) := reads_parameters ps hps
  refine .bind hread fun _ hes => ?_
  subst hes
  simp only [ps.find?_exprs]
  refine .last (hbody.branch hn) fun _ hb => ?_
  subst hb
  exact .pure rfl

/-- A function, with its name or without. The token behind `function` is its name if that is a word,
and otherwise it begins the parameters or the body. -/
theorem isRead_function {name : Option String} {ps : Parameters} {body : Statements}
    (hbody : body.AreRead) : (Statement.function name ps body).IsRead := by
  refine Statement.isRead_of_atom rfl fun {n rest} hn _ => .peek_cons fun t' ht => ?_
  obtain ⟨s, rfl⟩ := Token.Alike.exists_plain ht
  have hfunction := Token.one_le_weight (.reserved "function")
  simp only [Statement.tokens, Bracket.around, weightList, weightList_append] at hn
  refine .cons (.expectKeyword "function") fun _ _ => ?_
  have htail : Reads _ _ (ps.tokens ++ Bracket.braces.around body.tokens) rest :=
    reads_functionTail (n := n) name ps (by omega) hbody (by omega)
  -- what is read before the parameters depends on the name alone
  cases name with
  | some x =>
    refine .peek_cons fun t' ht => ?_
    obtain ⟨s, rfl⟩ := Token.Alike.exists_plain ht
    refine .cons (.advance _) fun _ _ => ?_
    exact htail
  | none =>
    -- what comes next is no name
    cases ps with
    | omitted | list ps =>
      refine .peek_cons fun t' ht => ?_
      obtain ⟨s, rfl⟩ := Token.Alike.exists_plain ht
      exact htail
    | array names =>
      refine .peek_cons fun t' ht => ?_
      rcases t' with ⟨l, s⟩ | ⟨items, s⟩
      · cases ht
      · exact htail

/-! ## Loops -/

/-- The tokens of a loop's head are collected up to its body. -/
theorem reads_conditionTokens {b : Bracket} (hts : ∀ t ∈ ts, t.isInline = true)
    (hfuel : ts.length < fuel) :
    Reads (Alike · ts) (conditionTokens fuel) ts (b.left :: rest) := by
  induction ts generalizing fuel with
  | nil =>
    obtain ⟨fuel, rfl⟩ := Nat.exists_eq_add_of_lt hfuel
    refine .peek_rest fun t' ht => ?_
    -- the body begins here, with a brace or with a word
    have hbody : (t'.isKeyword "do" || t'.isPunctuation '\x7b') = true := by
      cases b <;> obtain ⟨s, rfl⟩ := Token.Alike.exists_plain ht <;> rfl
    simp only [hbody, if_true]
    exact .pure (Alike.refl [])
  | cons t ts ih =>
    obtain ⟨ht, hts⟩ := List.forall_mem_cons.1 hts
    obtain ⟨fuel, rfl⟩ : ∃ f, fuel = f + 1 := Nat.exists_eq_add_one.2 (by omega)
    refine .peek_cons fun t' ht' => ?_
    obtain ⟨hsemi, hbody⟩ : t'.isPunctuation ';' = false ∧
        (t'.isKeyword "do" || t'.isPunctuation '\x7b') = false := by
      rw [← Token.isInline_unplaced, ← ht', Token.isInline_unplaced] at ht
      simpa [Token.isInline] using ht
    simp only [hbody, hsemi]
    refine .cons (.advance _) fun _ _ => .last (ih hts (by simpa using hfuel)) fun ts' hts' => ?_
    exact .pure (hts'.cons ht')

/-- The head of a loop has at least one token, and semicolons would have been left out of it. -/
theorem reads_headTokens {b : Bracket} (hne : ts ≠ []) (hts : ∀ t ∈ ts, t.isInline = true) :
    Reads (Alike · ts) headTokens ts (b.left :: rest) := by
  refine .budget (.last (reads_conditionTokens hts (by omega)) fun ts' hts' => ?_)
  cases ts' with
  | nil => exact absurd hts'.symm.eq_nil hne
  | cons t ts' => exact .pure hts'

/-- Tokens taken out of their places are the same tokens. -/
theorem alike_ofList (ts : List Token) (stop : Position) :
    Alike (Tokens.ofList ts stop).ahead ts := by
  -- each token gets an end that is a position of another one, of which there are enough
  have h (ps : List Position) (hps : ts.length ≤ ps.length) :
      Alike (ts.zipWith (fun t p => t.withStop p) ps) ts := by
    induction ts generalizing ps with
    | nil => exact .refl _
    | cons t ts ih =>
      cases ps with
      | nil => cases hps
      | cons p ps => exact (ih ps (Nat.le_of_succ_le_succ hps)).cons (Token.unplaced_withStop t p)
  exact h _ (by simp; omega)

/-- Comma-separated conditions are read up to the end of the tokens. -/
theorem reads_conditionItems {c : Term} {cs : List Term}
    (hcs : weightList (Term.listTokens (c :: cs)) < n) (hfuel : cs.length < fuel) :
    Reads (· = Term.exprs (c :: cs)) (conditionItems (tree n) fuel) (Term.listTokens (c :: cs))
      [] := by
  -- the first token of a condition is there, so that reading does not stop before it
  have hhead (c : Term) (cs : List Term) :
      ∃ t, (Term.listTokens (c :: cs) ++ []).head? = some t := by
    obtain ⟨t, ts, ht, -⟩ := Term.exists_listTokens_eq_cons c cs
    exact ⟨t, by rw [ht]; rfl⟩
  induction cs generalizing c fuel with
  | nil =>
    obtain ⟨t, ht⟩ := hhead c []
    obtain ⟨fuel, rfl⟩ := Nat.exists_eq_add_of_lt hfuel
    refine .peek_head ht fun t' _ => ?_
    refine .last (c.reads_tree hcs c.level_pos rfl) fun _ hc => ?_
    subst hc
    refine .look (.acceptPunctuation_none rfl) fun b hb => ?_
    subst hb
    exact .peek_nil (.pure rfl)
  | cons c' cs ih =>
    obtain ⟨t, ht⟩ := hhead c (c' :: cs)
    obtain ⟨fuel, rfl⟩ : ∃ f, fuel = f + 1 := Nat.exists_eq_add_one.2 (by omega)
    simp only [Term.listTokens, weightList, weightList_append] at hcs
    refine .peek_head ht fun t' _ => ?_
    refine .bind (c.reads_tree (by omega) c.level_pos rfl) fun _ hc => ?_
    subst hc
    refine .cons (.acceptPunctuation ',') fun b hb => ?_
    subst hb
    refine .last (ih (by omega) (by simpa using hfuel)) fun _ hcs => ?_
    subst hcs
    exact .pure rfl

/-- The conditions are found in the tokens of a loop's head. -/
theorem reads_conditions {c : Term} {cs : List Term}
    (hts : Alike ts (Term.listTokens (c :: cs)))
    (hn : weightList (Term.listTokens (c :: cs)) < n) :
    Reads (· = Term.exprs (c :: cs)) (conditions (tree n) ts) [] rest := by
  -- a run of its own on the tokens that were collected, which ends with the last of them
  have hread (stop : Position) :
      ((conditionItems (tree n) (ts.length + 1)).run (.ofList ts stop)).map Prod.fst =
        .ok (Term.exprs (c :: cs)) := by
    have hlength := Term.length_le_listTokens (c :: cs)
    have hfuel : cs.length < ts.length + 1 := by
      rw [hts.length_eq]
      simp only [List.length_cons] at hlength
      omega
    obtain ⟨_, reached, h, rfl⟩ :=
      reads_conditionItems hn hfuel _ [] ((alike_ofList ts stop).trans hts) (.refl []) stop .first
    rw [List.append_nil] at h
    simp only [StateT.run, Tokens.ofList] at h ⊢
    rw [h]
    rfl
  have hlift (stop : Position) : Reads (· = Term.exprs (c :: cs))
      (((conditionItems (tree n) (ts.length + 1)).run (.ofList ts stop)).map Prod.fst : Parse _)
      [] rest := .lift (hread stop) rfl
  cases rest with
  | nil => exact .peek_nil (.get fun _ => hlift _)
  | cons t rest => exact .peek_rest fun t' _ => .get fun _ => hlift _

/-- Conditions and the body of a loop, after the tokens of the conditions. -/
theorem reads_whileTail {c : Term} {cs : List Term} {b : Bracket} {body : Statements}
    (hts : Alike ts (Term.listTokens (c :: cs)))
    (hn : weightList (Term.listTokens (c :: cs)) < n) (hbody : body.AreRead)
    (hn' : weightList body.tokens < n) :
    Reads (· = (Statement.while c cs b body).expr) (whileTail (tree n) ts) (b.around body.tokens)
      rest := by
  refine .look (reads_conditions hts hn) fun _ hcs => ?_
  subst hcs
  refine .last (hbody.loopBody hn') fun _ hb => ?_
  subst hb
  exact .pure rfl

/-- A loop with conditions. Its head is collected up to the body and then read. -/
theorem isRead_while {c : Term} {cs : List Term} {b : Bracket} {body : Statements}
    (hbody : body.AreRead) : (Statement.while c cs b body).IsRead := by
  refine Statement.isRead_of_atom rfl fun hn _ => .peek_cons fun t' ht => ?_
  obtain ⟨s, rfl⟩ := Token.Alike.exists_plain ht
  have hwhile := Token.one_le_weight (.reserved "while")
  have hne : Term.listTokens (c :: cs) ≠ [] := by
    obtain ⟨t, ts, h, -⟩ := Term.exists_listTokens_eq_cons c cs
    rw [h]
    exact List.cons_ne_nil t ts
  simp only [Statement.tokens, Bracket.around, weightList, weightList_append] at hn
  refine .cons (.expectKeyword "while") fun _ _ => ?_
  refine .bind (reads_headTokens hne (Term.isInline_listTokens _)) fun ts hts => ?_
  exact reads_whileTail hts (by omega) hbody (by omega)

/-- A loop over what a value stands for. Its head has three tokens: the name, `in`, and the
value. -/
theorem isRead_forIn {x : String} {a : Atom} {b : Bracket} {body : Statements}
    (hbody : body.AreRead) : (Statement.forIn x a b body).IsRead := by
  refine Statement.isRead_of_atom rfl fun {n rest} hn _ => .peek_cons fun t' ht => ?_
  obtain ⟨s, rfl⟩ := Token.Alike.exists_plain ht
  have hfor := Token.one_le_weight (.reserved "for")
  have hinline : ∀ t ∈ [.word x, .reserved "in", a.token], t.isInline = true := by
    have ha := isInline_of_argument (argument?_of_value a.value_eq)
    simp only [List.mem_cons, List.not_mem_nil, or_false]
    rintro t (rfl | rfl | rfl)
    · rfl
    · rfl
    · exact ha
  simp only [Statement.tokens, Bracket.around, weightList, weightList_append] at hn
  refine .cons (.expectKeyword "for") fun _ _ => ?_
  refine .look (.acceptPunctuation_none rfl) fun b hb => ?_
  subst hb
  refine .bind (reads_headTokens (List.cons_ne_nil _ _) hinline) fun ts hts => ?_
  -- the head has three tokens: the name, `in`, and the one that stands for a value
  obtain ⟨t₁, ts₁, rfl, h₁, hts₁⟩ := hts.exists_cons
  obtain ⟨t₂, ts₂, rfl, h₂, hts₂⟩ := hts₁.exists_cons
  obtain ⟨t₃, ts₃, rfl, h₃, hts₃⟩ := hts₂.exists_cons
  obtain ⟨s₁, rfl⟩ := Token.Alike.exists_plain h₁
  obtain ⟨s₂, rfl⟩ := Token.Alike.exists_plain h₂
  obtain rfl := hts₃.eq_nil
  have hvalue : value (tree n) t₃ = .ok a.expr :=
    value_alike h₃ (value_of_le (by omega) a.value_eq)
  refine .look (.lift hvalue rfl) fun r hr => ?_
  subst hr
  refine .last (hbody.loopBody (by omega)) fun _ hb => ?_
  subst hb
  exact .pure rfl

/-- A loop with three lists in parentheses, each of which may be empty. -/
theorem isRead_for {i c s : List Term} {b : Bracket} {body : Statements} (hbody : body.AreRead) :
    (Statement.for i c s b body).IsRead := by
  refine Statement.isRead_of_atom rfl fun hn _ => .peek_cons fun t' ht => ?_
  obtain ⟨_, rfl⟩ := Token.Alike.exists_plain ht
  have hfor := Token.one_le_weight (.reserved "for")
  simp only [Statement.tokens, Bracket.around, weightList, weightList_append] at hn
  refine .cons (.expectKeyword "for") fun _ _ => ?_
  refine .cons (.acceptPunctuation '(') fun _ hb => ?_
  subst hb
  refine .bind (Term.reads_terms (by omega) (by decide) (by decide)) fun _ hi => ?_
  refine .cons (.expectPunctuation ';') fun _ _ => ?_
  refine .bind (Term.reads_terms (by omega) (by decide) (by decide)) fun _ hc => ?_
  refine .cons (.expectPunctuation ';') fun _ _ => ?_
  refine .bind (Term.reads_terms (by omega) (by decide) (by decide)) fun _ hs => ?_
  refine .cons (.expectPunctuation ')') fun _ _ => ?_
  subst hi hc hs
  refine .last (hbody.loopBody (by omega)) fun _ hb => ?_
  subst hb
  exact .pure rfl

/-! ## Scripts -/

mutual

/-- Every statement is read: one case for each kind of statement. -/
theorem Statement.isRead : ∀ s : Statement, s.IsRead
  | .term e => isRead_term e
  | .block ss => isRead_block ss.areRead
  | .ifThen _ yes => isRead_ifThen yes.areRead
  | .ifThenElse _ yes no => isRead_ifThenElse yes.areRead no.areRead
  | .function _ _ body => isRead_function body.areRead
  | .while _ _ _ body => isRead_while body.areRead
  | .forIn _ _ _ body => isRead_forIn body.areRead
  | .for _ _ _ _ body => isRead_for body.areRead

theorem Statements.areRead : ∀ ss : Statements, ss.AreRead
  | .nil m => areRead_nil m
  | .last m s => areRead_last m s.isRead
  | .cons m s ss => areRead_cons m s.isRead ss.areRead

end

namespace Statements

/-- How many semicolons come first. -/
def leading : Statements → Nat
  | nil m | last m _ | cons m _ _ => m

/-- The tokens after these semicolons. -/
def trailing : Statements → List Token
  | nil _ => []
  | last _ s => s.tokens
  | cons _ s ss => s.tokens ++ .mark ';' :: ss.tokens

/-- The tokens of statements are semicolons and what comes after them. -/
theorem tokens_eq (ss : Statements) : ss.tokens = separators ss.leading ++ ss.trailing := by
  cases ss with
  | nil m => exact (List.append_nil _).symm
  | _ => rfl

/-- The semicolons that come first are passed, and no more. -/
theorem skips (ss : Statements) :
    Reads (fun _ => True) skipSeparators (separators ss.leading) (ss.trailing ++ []) := by
  refine .skipSeparators _ ?_
  cases ss with
  | nil m => rfl
  | last m s =>
    obtain ⟨t, hhead, hfirst⟩ := s.exists_head [] []
    rw [List.append_nil] at hhead
    exact not_semicolon hhead hfirst
  | cons m s ss =>
    obtain ⟨t, hhead, hfirst⟩ := s.exists_head (.mark ';' :: ss.tokens) []
    exact not_semicolon hhead hfirst

/-- The statements of a script are read up to the end of the tokens. -/
theorem reads_programItems : ∀ (ss : Statements) {n fuel : Nat},
    weightList ss.trailing < n → ss.trailing.length < fuel →
    Reads (· = ss.exprs) (programItems (tree n) fuel) ss.trailing []
  | nil m, n, fuel, _, hfuel => by
    obtain ⟨fuel, rfl⟩ := Nat.exists_eq_add_of_lt hfuel
    exact .peek_nil (.pure rfl)
  | last m s, n, fuel, hn, hfuel => by
    obtain ⟨fuel, rfl⟩ := Nat.exists_eq_add_of_lt hfuel
    -- there is a first token, so that reading does not stop here
    obtain ⟨t, hhead, -⟩ := s.exists_head [] []
    rw [List.append_nil] at hhead
    refine .peek_head hhead fun t' _ => .last (s.isRead hn rfl) fun _ he => ?_
    subst he
    exact .peek_nil (.pure rfl)
  | cons m s ss, n, fuel, hn, hfuel => by
    have htrailing : (cons m s ss).trailing =
        s.tokens ++ .mark ';' :: (separators ss.leading ++ ss.trailing) := by
      rw [← ss.tokens_eq]
      rfl
    obtain ⟨t, hhead, -⟩ := s.exists_head (.mark ';' :: (separators ss.leading ++ ss.trailing)) []
    rw [htrailing] at hn hfuel ⊢
    simp only [List.length_append, List.length_cons, weightList, weightList_append] at hn hfuel
    obtain ⟨fuel, rfl⟩ : ∃ f, fuel = f + 1 := Nat.exists_eq_add_one.2 (by omega)
    refine .peek_head hhead fun t' _ => .bind (s.isRead (by omega) rfl) fun _ he => ?_
    subst he
    refine .peek_cons fun t' _ => .cons (.expectPunctuation ';') fun _ _ => ?_
    refine .bind ss.skips fun _ _ => ?_
    refine .last (ss.reads_programItems (by omega) (by omega)) fun _ hes => ?_
    subst hes
    exact .pure rfl

/-- A script is read. -/
theorem reads_program (ss : Statements) (hn : weightList ss.tokens < n) :
    Reads (· = ss.exprs) (program (tree n)) ss.tokens [] := by
  rw [ss.tokens_eq, weightList_append] at hn
  rw [ss.tokens_eq]
  exact .bind ss.skips fun _ _ => .budget (ss.reads_programItems (by omega) (by simp))

/-- **Reading undoes writing**, for scripts. From the tokens of statements, up to their places,
exactly the expressions that were written are read, and nothing is left. -/
theorem run_program_tokens (ss : Statements) (hts : Alike ts ss.tokens) (stop reached : Position) :
    ∃ reached', Grammar.run program ⟨ts, .ok stop, reached⟩ =
      .ok (ss.exprs, ⟨[], .ok stop, reached'⟩) := by
  have hn : weightList ss.tokens < weightList ts + 1 := by
    rw [hts.weightList_eq]
    omega
  obtain ⟨_, reached', hread, rfl⟩ := ss.reads_program hn ts [] hts (.refl []) stop reached
  rw [List.append_nil] at hread
  exact ⟨reached', by simp only [Grammar.run, hread]⟩

/-- A function with a loop in it and another loop, with semicolons where they may be and where they
may be left out. -/
theorem run_program_tokens_nested :
    ∃ ss : Statements,
      ss.tokens = [.mark ';',
        .reserved "function", .word "f", .mark '(', .word "a", .mark ',', .word "b",
          .sign .assign, .of (.boolean true), .mark ')', .mark '\x7b',
          .reserved "while", .word "a", .mark ',', .word "b",
            .reserved "do", .word "g", .mark '(', .word "a", .mark ')', .mark ';', .mark ';',
            .reserved "done",
          .mark '\x7d', .mark ';',
        .reserved "for", .word "x", .reserved "in", .of (.variable "y" true none), .mark '\x7b',
          .word "f", .mark '\x7d'] ∧
      ss.exprs = [
        .function 0 (some "f") [.variable "a" false, .assign (.variable "b" false) (.boolean true)]
          (.block [.while [.variable "a" false, .variable "b" false]
            (.block [.call (.variable "g" false) [.variable "a" false]])]),
        .forIn "x" (.variable "y" true) (.block [.call (.variable "f" false) []])] ∧
      ∃ reached', Grammar.run program ⟨ss.tokens, .ok .first, .first⟩ =
        .ok (ss.exprs, ⟨[], .ok .first, reached'⟩) := by
  let loop : Statement := .while (.atom (.word "a")) [.atom (.word "b")] .words
    (.cons 0 (.term (.call "g" [.atom (.word "a")])) (.nil 1))
  let ps : Parameters := .list [⟨"a", none⟩, ⟨"b", some (.atom (.boolean true))⟩]
  let ss : Statements := .cons 1 (.function (some "f") ps (.last 0 loop)) <|
    .last 0 (.forIn "x" (.reference "y") .braces (.last 0 (.term (.atom (.word "f")))))
  exact ⟨ss, rfl, rfl, ss.run_program_tokens (.refl _) .first .first⟩

end Statements

end CommandLanguage.Grammar

/-! ## Lines as scripts

A script is read in three stages: its normal form, the tokens of that, and the statements of those.
A settled line that has the tokens of a statement and a `;` is read as this statement. -/

namespace CommandLanguage

open Grammar (Term Statements asStatement)

/-- A settled line with the tokens of a term is a script of one statement. -/
theorem Expr.parse_line {line : List Char} {e : Term} (h : Source.IsSettled line)
    (htokens : Lexer.Lexes (Lexer.innerTokens? (line ++ [';']).length) (line ++ [';'])
      (e.tokens ++ [.mark ';'])) :
    Expr.parse (String.ofList line) = .ok [asStatement e.expr] := by
  let ss : Statements := .cons 0 (.term e) (.nil 0)
  obtain ⟨us, stop, hscan, hus⟩ := htokens.exists_scan
  have hweight : Token.weightList ss.tokens < Token.weightList us + 1 := by
    rw [hus.weightList_eq]
    exact Nat.lt_succ_self _
  obtain ⟨_, _, hread, rfl⟩ := ss.reads_program hweight us [] hus (.refl []) stop .first
  rw [List.append_nil] at hread
  rw [parse, h.normalize_eq, parseNormal, String.toList_ofList, Tokens.ofText, hscan]
  simp only [Grammar.run, hread]
  rfl

end CommandLanguage
