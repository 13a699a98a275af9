import CommandLanguage.Proofs.Expr.Parsed
import CommandLanguage.Proofs.Grammar.Gives

/-!
# The shape of what is read

One lemma for each part of the grammar: what it gives is well shaped everywhere. All of them take
this for granted of the trees further down, which `readsWell_tree` then shows by induction on how
deep trees may go.

Two conditions are told apart. A tree is `IsParsed` if it and all trees in it have a shape that
evaluation can work with; a statement is `IsParsedStatement` if it is not a bare word either, since
the grammar makes a call of such a word. Bodies and branches are statements, operands are trees.
`isParsedStatement_of_parse` says it of whole scripts, and is all that is used of this module.
-/

namespace CommandLanguage.Grammar

open CommandLanguage.Expr

/-- Trees further down are read well. It is the hypothesis of the lemmas on all readers below, and
the induction on the depth provides it. -/
def ReadsWell (self : Nat → Parse Expr) : Prop := ∀ limit, Gives IsParsed (self limit)

variable {self : Nat → Parse Expr}

/-! ## Values -/

/-- The index of an element stands in its token as a text, and is read by a grammar of its own that
has to reach the end of the text. -/
theorem yields_index (hself : ReadsWell self) (raw : String) (p : Position) :
    Yields IsParsed (index self raw p) := by
  refine Gives.run (.after fun t => ?_) _
  split
  · exact .lift (.error _)
  · refine .bind (hself 0) fun e he => .after fun t => ?_
    split
    · exact .unexpected _
    · exact .pure he

mutual

/-- A token that is a value is read into the tree that stands for it. Keywords, operators and
punctuation are no values, so that nothing is asked of a tree for them. -/
theorem yields_value (hself : ReadsWell self) : ∀ t, Yields IsParsed (value self t)
  | .plain (.number _) _ => .ok (isParsed nofun trivial nofun)
  | .plain (.text _ _) _ => .ok (isParsed nofun trivial nofun)
  | .plain (.boolean _) _ => .ok (isParsed nofun trivial nofun)
  | .plain (.variable n d none) _ => .ok (isParsed_word n d)
  | .plain (.variable n d (some raw)) s =>
    .map (yields_index hself raw s.start) fun _ h => isParsed_element n d h
  | .plain (.braces _) _ => .ok (isParsed nofun trivial nofun)
  | .plain (.parameter _) _ => .ok (isParsed nofun trivial nofun)
  | .plain (.keyword _) _ => .error _
  | .plain (.operator _) _ => .error _
  | .plain (.punctuation _) _ => .error _
  | .array items _ => .map (yields_values hself items) fun _ h => isParsed_array h

/-- The items of an array literal are tokens, which are read into trees one by one. The two lemmas
are one induction on how deep array literals are nested. -/
theorem yields_values (hself : ReadsWell self) : ∀ ts, Yields AllParsed (values self ts)
  | [] => .ok allParsed_nil
  | t :: ts => .bind (yields_value hself t) fun _ he => .bind (yields_values hself ts) fun _ hes =>
    .ok (.cons he hes)

end

/-! ## Calls and operators -/

variable (hself : ReadsWell self)

include hself

/-- Trees with commas between them, at least one. -/
theorem gives_listItems (fuel : Nat) : Gives AllParsed (listItems self fuel) := by
  induction fuel with
  | zero => exact .throw _
  | succ fuel ih =>
    -- the first tree is read before it is known whether there are more
    refine .bind (hself 0) fun e he => .after fun more => ?_
    split
    · exact .bind ih fun es hes => .pure (.cons he hes)
    · exact .pure (.cons he allParsed_nil)

/-- Such trees up to the character that closes them; there may be none. -/
theorem gives_list (stop : Char) : Gives AllParsed (list self stop) := by
  refine .after fun t => ?_
  split
  · exact .pure allParsed_nil
  · exact .after fun fuel => gives_listItems hself fuel

/-- What may be an argument of a command is a single token: a value, or a reserved word, which
stands for its own text. -/
theorem yields_argument? {t : Token} {x : Except Stop Expr} (h : argument? self t = some x) :
    Yields IsParsed x := by
  unfold argument? at h
  split at h
  · split at h
    · cases h
    · cases h
      exact .ok (isParsed nofun trivial nofun)
  · cases h
  · cases h
  · cases h
    exact yields_value hself t

/-- The arguments of a command go on as long as there is a token that may be one. There is no other
end to them, so that what comes behind is for the statement to judge. -/
theorem gives_arguments (fuel : Nat) : Gives AllParsed (arguments self fuel) := by
  induction fuel with
  | zero => exact .throw _
  | succ fuel ih =>
    refine .after fun t => ?_
    split
    · exact .pure allParsed_nil
    · -- the token ahead may be an argument; it is taken before it is read
      rename_i x hx
      obtain ⟨t, -, hx⟩ := Option.bind_eq_some_iff.1 hx
      refine .after fun _ => .bind (.lift (yields_argument? hself hx)) fun e he => ?_
      exact .bind ih fun es hes => .pure (.cons he hes)

/-- What comes behind the first tree of an expression. If that is a word it may turn out to be the
name of what is called, and otherwise it is left as it is. -/
theorem gives_callTail {e : Expr} (he : e.IsParsed) : Gives IsParsed (callTail self e) := by
  unfold callTail
  -- only a word is called: with arguments in parentheses, or with those that follow it
  split
  · exact .pure he
  · rename_i hw
    have hword : e.bareWord?.isSome = true := by
      rw [← Option.not_isNone, Bool.not_eq_true', Bool.eq_false_iff]
      exact hw
    refine .after fun open? => ?_
    split
    · refine .bind (gives_list hself ')') fun args hargs => .after fun _ => .pure ?_
      exact isParsed_call he hword hargs
    · -- a word without arguments stays a word; a statement will make a call of it
      refine .after fun fuel => .bind (gives_arguments hself fuel) fun args hargs => .pure ?_
      split
      · exact he
      · exact isParsed_call he hword hargs

omit hself in
/-- An operator ahead comes with its binding power. The lemma is about the pair alone, not about
trees, and is used to know that an operator that is taken joins two operands. -/
theorem gives_operator? :
    Gives (fun r => ∀ o p, r = some (o, p) → o.precedence? = some p) operator? := by
  refine .after fun t => ?_
  split
  · rename_i o _
    refine .pure fun o' p h => ?_
    obtain ⟨q, hq, h⟩ := Option.map_eq_some_iff.1 h
    cases h
    exact hq
  · exact .pure nofun

/-- What operators join is read well, if what stands before them is. An assignment is joined only to
something that can be assigned to, which the parser asks before it goes on. -/
theorem gives_operators (limit fuel : Nat) {left : Expr} (hl : left.IsParsed) :
    Gives IsParsed (operators self limit fuel left) := by
  -- what has been joined so far is the left operand of the next operator
  induction fuel generalizing left with
  | zero => exact .throw _
  | succ fuel ih =>
    refine .bind gives_operator? fun r hr => ?_
    cases r with
    | none => exact .pure hl
    | some r =>
      obtain ⟨o, p⟩ := r
      have hp : o.precedence? = some p := hr o p rfl
      dsimp only
      -- one that binds too weakly is left to the tree around
      split
      · exact .pure hl
      · refine .after fun _ => ?_
        -- a postfix operator has no right operand, and an assignment is no operator
        split
        · rename_i hpost
          exact ih (isParsed_binary_null hpost hl)
        · rename_i hpost
          refine .bind (hself _) fun right hright => ih ?_
          split
          · exact isParsed_assign hl hright
          · -- an operator with a binding power that is no assignment and not postfix has two
            -- operands
            rename_i hne
            have hbinary : o.isBinary = true := by simpa [Operator.isBinary, hp] using hne
            exact isParsed_binary hbinary (Bool.eq_false_iff.2 hpost) hl hright

/-! ## Statements and blocks -/

/-- A statement is a tree, but a word by itself becomes a call without arguments. So no statement is
a word, and no word is evaluated for its value alone. -/
theorem gives_statement : Gives IsParsedStatement (statement self) := by
  refine .bind (hself 0) fun e he => .pure ?_
  split
  · rename_i hw
    exact (isParsed_call he hw allParsed_nil).statement rfl
  · rename_i hw
    exact he.statement (Option.not_isSome_iff_eq_none.1 hw)

/-- The statements of a block, up to a token that closes it. Between two of them there has to be a
separator, and behind the last one there may be. -/
theorem gives_statementsUntil (closes : Token → Bool) (fuel : Nat) :
    Gives (fun es => ∀ e ∈ es, e.IsParsedStatement) (statementsUntil self closes fuel) := by
  induction fuel with
  | zero => exact .throw _
  | succ fuel ih =>
    refine .after fun _ => .after fun t => ?_
    split
    · exact .unexpected _
    · -- either the block ends here, or a statement follows and then a separator or the end
      split
      · exact .pure nofun
      · refine .bind (gives_statement hself) fun e he => .after fun t => ?_
        split
        · split
          · refine .bind ih fun es hes => .pure ?_
            exact List.forall_mem_cons.2 ⟨he, hes⟩
          · exact .unexpected _
        · exact .unexpected _

/-- A block in braces is a statement itself, as its tree is no word. A word would have to be made a
call, and this is done once, where statements are read. -/
theorem gives_block : Gives IsParsedStatement (block self) := by
  refine .after fun _ => .after fun fuel => ?_
  refine .bind (gives_statementsUntil hself _ fuel) fun ss hss => .after fun _ => .pure ?_
  exact (isParsed_block hss).statement rfl

/-- A block from `do` to `done` is read into the same tree. -/
theorem gives_doBlock : Gives IsParsedStatement (doBlock self) := by
  refine .after fun _ => .after fun fuel => ?_
  refine .bind (gives_statementsUntil hself _ fuel) fun ss hss => .after fun _ => .pure ?_
  exact (isParsed_block hss).statement rfl

/-- The body of a loop is a block of one of the two kinds, and nothing else. -/
theorem gives_loopBody : Gives IsParsedStatement (loopBody self) := by
  refine .after fun _ => ?_
  split
  · exact gives_doBlock hself
  · refine .after fun _ => ?_
    split
    · exact gives_block hself
    · exact .unexpected _

/-- A branch is a block in braces or a single statement. -/
theorem gives_branch : Gives IsParsedStatement (branch self) := by
  refine .after fun _ => ?_
  split
  · exact gives_block hself
  · exact gives_statement hself

/-! ## Compound constructs -/

/-- The condition is any tree and the branches are statements. Without an `else` there is one of
them. -/
theorem gives_ifTree : Gives IsParsed (ifTree self) := by
  refine .after fun _ => .bind (hself 0) fun c hc => .after fun _ => ?_
  refine .bind (gives_branch hself) fun yes hyes => .after fun _ => ?_
  split
  · exact .bind (gives_branch hself) fun no hno => .pure (isParsed_ifThenElse hc hyes hno)
  · exact .pure (isParsed_ifThen hc hyes)

/-- Parameters are given by an array literal or by a list in parentheses. Both may hold anything
that can be read; which of it is a parameter is asked afterwards. -/
theorem gives_parameters : Gives AllParsed (parameters self) := by
  refine .after fun t => ?_
  split
  · exact .after fun _ => .lift (yields_values hself _)
  · refine .after fun _ => ?_
    split
    · exact .bind (gives_list hself ')') fun ps hps => .after fun _ => .pure hps
    · exact .pure allParsed_nil

/-- What comes after the name of a function: its parameters and its body. Here something that is no
parameter is refused, so that a call can bind all parameters of what was read. -/
theorem gives_functionTail (name : Option String) : Gives IsParsed (do
    let ps ← parameters self
    match ps.find? (!isParameter ·) with
    | some e => fail .parameterName (.node e) (← get).reached
    | none => return .function 0 name ps (← branch self)) := by
  refine .bind (gives_parameters hself) fun ps hps => ?_
  split
  · exact .after fun _ => .lift (.error _)
  · -- nothing was found that is no parameter
    rename_i hfind
    have hp : ∀ p ∈ ps, isParameter p = true := by simpa using hfind
    exact .bind (gives_branch hself) fun b hb => .pure (isParsed_function 0 name hp hps hb)

/-- A function may have a name. The tree is made in the same way with it and without. -/
theorem gives_functionTree : Gives IsParsed (functionTree self) := by
  refine .after fun _ => .after fun t => ?_
  dsimp only
  split
  · exact .after fun _ => .after fun name => gives_functionTail hself name
  · exact .after fun name => gives_functionTail hself name

/-! ## Loops -/

omit hself in
/-- The head of a loop is cut out before it is read, and an empty one is refused at once. That is
why there is a first token when conditions are read. -/
theorem gives_headTokens : Gives (· ≠ []) headTokens := by
  refine .after fun _ => .after fun ts => ?_
  split
  · exact .unexpected _
  · rename_i h
    refine .pure fun hnil => h ?_
    rw [hnil]
    rfl

/-- The conditions in a head that was cut out. A comma may come last, so that the end of the tokens
is looked for before every tree. -/
theorem gives_conditionItems (fuel : Nat) : Gives AllParsed (conditionItems self fuel) := by
  induction fuel with
  | zero => exact .throw _
  | succ fuel ih =>
    refine .after fun t => ?_
    split
    · exact .pure allParsed_nil
    · refine .bind (hself 0) fun e he => .after fun _ => ?_
      split
      · exact .bind ih fun es hes => .pure (.cons he hes)
      · refine .after fun t => ?_
        split
        · exact .pure (.cons he allParsed_nil)
        · exact .unexpected _

omit hself in
/-- If there is a token, there is a condition. By itself the grammar of conditions would do with
none, and a loop without conditions would never end. -/
theorem yields_conditionItems_ne_nil (fuel : Nat) {s : Tokens} (hs : s.ahead ≠ []) :
    Yields (fun r => r.1 ≠ []) (conditionItems self fuel s) := by
  cases fuel with
  | zero => exact .error _
  | succ fuel =>
    -- both ways on from the first tree put it in front of a list
    have first : Gives (· ≠ []) (do
        let e ← self 0
        if ← acceptPunctuation ',' then return e :: (← conditionItems self fuel)
        else if (← peek).isNone then return [e]
        else unexpected .endOfLoopCondition) := by
      refine .after fun e => .after fun _ => ?_
      split
      · exact .after fun es => .pure (List.cons_ne_nil e es)
      · refine .after fun t => ?_
        split
        · exact .pure (List.cons_ne_nil e [])
        · exact .unexpected _
    obtain ⟨ahead, ending, reached⟩ := s
    cases ahead with
    | nil => exact absurd rfl hs
    | cons t ts => exact first _

omit hself in
/-- Tokens that were cut out stand ahead again. So the head of a loop is read from tokens of its
own, and there is at least one. -/
theorem ahead_ofList_ne_nil {ts : List Token} (h : ts ≠ []) (stop : Position) :
    (Tokens.ofList ts stop).ahead ≠ [] := by
  cases ts with
  | nil => exact absurd rfl h
  | cons t ts =>
    cases ts with
    | nil => exact List.cons_ne_nil _ _
    | cons u us => exact List.cons_ne_nil _ _

/-- What comes after `while`, or after a `for` that is one. -/
theorem gives_whileTail {ts : List Token} (hts : ts ≠ []) :
    Gives IsParsed (whileTail self ts) := by
  have hc : Gives (fun cs => cs ≠ [] ∧ AllParsed cs) (conditions self ts) := by
    refine .after fun t => .after fun s => .lift fun cs hcs => ?_
    refine ⟨?_, (gives_conditionItems hself _).run _ cs hcs⟩
    -- the conditions are read by a run of its own, from the tokens of the head
    have hne : Yields (· ≠ []) (Except.map Prod.fst ((conditionItems self (ts.length + 1)).run
        (.ofList ts ((t.map (·.span.start)).getD s.reached)))) :=
      .map (yields_conditionItems_ne_nil _ (ahead_ofList_ne_nil hts _)) fun _ h => h
    exact hne cs hcs
  refine .bind hc fun cs ⟨hne, hcs⟩ => .bind (gives_loopBody hself) fun b hb => .pure ?_
  exact isParsed_while hne hcs hb.parsed

theorem gives_whileTree : Gives IsParsed (whileTree self) :=
  .after fun _ => .bind gives_headTokens fun _ hts => gives_whileTail hself hts

/-- What a loop runs over: one value, or several that count as an array literal of them. There is at
least one, since a head without values is a fault. -/
theorem gives_range (ts : List Token) : Gives IsParsed (range self ts) := by
  unfold range
  split
  · exact .unexpected _
  · exact .lift (yields_value hself _)
  · exact .bind (.lift (yields_values hself _)) fun es hes => .pure (isParsed_array hes)

/-- The three kinds of `for`: with a head in parentheses, over the items of a range, and with
conditions. The head without parentheses is cut out first, and its second token tells the last two
apart. -/
theorem gives_forTree : Gives IsParsed (forTree self) := by
  refine .after fun _ => .after fun open? => ?_
  -- with parentheses there are three lists; without, items of a range or conditions
  split
  · refine .bind (gives_list hself ';') fun init hinit => .after fun _ => ?_
    refine .bind (gives_list hself ';') fun condition hcondition => .after fun _ => ?_
    refine .bind (gives_list hself ')') fun step hstep => .after fun _ => ?_
    refine .bind (gives_loopBody hself) fun b hb => .pure ?_
    exact isParsed_for hinit hcondition hstep hb.parsed
  · refine .bind gives_headTokens fun ts hts => ?_
    split
    · refine .bind (gives_range hself _) fun r hr => ?_
      exact .bind (gives_loopBody hself) fun b hb => .pure (isParsed_forIn _ hr hb.parsed)
    · exact gives_whileTail hself hts

/-! ## Unsetting -/

/-- To unset something is to assign nothing to it, so what is read here is a list of assignments
whose targets are names and elements. -/
theorem gives_unsetItems (fuel : Nat) :
    Gives (fun es => ∀ e ∈ es, e.IsParsedStatement) (unsetItems self fuel) := by
  induction fuel with
  | zero => exact .throw _
  | succ fuel ih =>
    refine .after fun t => ?_
    split
    · rename_i n d i s
      -- the same for a name and for an element: the assignment, and then those that follow
      have tail {target : Expr} (ht : target.IsParsed) (hu : target.isUnsetTarget = true) :
          Gives (fun es => ∀ e ∈ es, e.IsParsedStatement)
            (do return .assign target .null :: (← unsetItems self fuel)) := by
        refine .bind ih fun es hes => .pure ?_
        exact List.forall_mem_cons.2 ⟨(isParsed_unset ht hu).statement rfl, hes⟩
      refine .after fun _ => ?_
      cases i with
      | none => exact tail (isParsed_word n false) rfl
      | some raw =>
        -- the index is read with the element, as it would be for its value
        have helement : Yields (fun e => ∃ index, e = .element n d index ∧ index.IsParsed)
            (value self (.plain (.variable n d (some raw)) s)) :=
          .map (yields_index hself raw s.start) fun index h => ⟨index, rfl, h⟩
        refine .bind (.lift helement) fun e he => ?_
        obtain ⟨index, rfl, hi⟩ := he
        exact tail (isParsed_element n false hi) rfl
    · exact .pure nofun

/-- One thing that is unset is an assignment, and several are a block. -/
theorem gives_unsetTree : Gives IsParsed (unsetTree self) := by
  refine .after fun _ => .after fun fuel => .bind (gives_unsetItems hself fuel) fun es hes => ?_
  split
  · exact .unexpected _
  · exact .pure (hes _ List.mem_cons_self).parsed
  · exact .pure (isParsed_block hes)

/-! ## Trees -/

/-- What a tree begins with. A word or another value is only its first token here; what is called or
joined with it is read behind. -/
theorem gives_atom : Gives IsParsed (atom self) := by
  refine .after fun t => ?_
  -- one case for each token that a tree can begin with
  split
  · exact .unexpected _
  · exact .after fun _ => .bind (hself 0) fun e he => .after fun _ => .pure he
  · exact fun s => fun r h => (gives_block hself s r h).parsed
  · exact gives_ifTree hself
  · exact gives_functionTree hself
  · exact gives_forTree hself
  · exact gives_whileTree hself
  · exact gives_unsetTree hself
  · split
    · rename_i ho
      exact .after fun _ => .bind (hself _) fun e he => .pure (isParsed_unary ho he)
    · exact .unexpected _
  · exact .unexpected _
  · exact .unexpected _
  · exact .after fun _ => .lift (yields_value hself _)

/-- One level of a tree, from its first token over its arguments to the operators behind it. Each of
its parts gives what the next one asks for. -/
theorem gives_treeStep (limit : Nat) : Gives IsParsed (treeStep self limit) := by
  refine .bind (gives_atom hself) fun e he => .bind (gives_callTail hself he) fun e he => ?_
  exact .after fun fuel => gives_operators hself limit fuel he

/-- The statements of a script, with separators between them. -/
theorem gives_programItems (fuel : Nat) :
    Gives (fun es => ∀ e ∈ es, e.IsParsedStatement) (programItems self fuel) := by
  induction fuel with
  | zero => exact .throw _
  | succ fuel ih =>
    refine .after fun t => ?_
    split
    · exact .pure nofun
    · refine .bind (gives_statement hself) fun e he => .after fun t => ?_
      split
      · exact .pure (List.forall_mem_singleton.2 he)
      · refine .after fun _ => .after fun _ => .bind ih fun es hes => .pure ?_
        exact List.forall_mem_cons.2 ⟨he, hes⟩

omit hself

/-- Trees are read well, however deep they may go. On the ground of the induction nothing is read at
all, and a level that gives a tree has read those inside by the levels below. -/
theorem readsWell_tree (fuel : Nat) : ReadsWell (tree fuel) := by
  induction fuel with
  | zero => exact fun limit => .throw _
  | succ fuel ih => exact gives_treeStep ih

end CommandLanguage.Grammar

namespace CommandLanguage.Expr

/-- What a script is read into is a list of statements of good shape. That it is read from a text in
its normal form, and in one go, has no part in it. -/
theorem isParsedStatement_of_parse {script : String} {es : List Expr}
    (h : parse script = .ok es) : ∀ e ∈ es, e.IsParsedStatement := by
  have hgives (self : Nat → Grammar.Parse Expr) (hself : Grammar.ReadsWell self) :
      Grammar.Gives (fun es => ∀ e ∈ es, e.IsParsedStatement) (Grammar.program self) :=
    .after fun _ => .after fun fuel => Grammar.gives_programItems hself fuel
  unfold parse parseNormal Grammar.run at h
  split at h
  · rename_i r hr
    cases h
    exact hgives _ (Grammar.readsWell_tree _) _ r hr
  · cases h
  · cases h

end CommandLanguage.Expr
