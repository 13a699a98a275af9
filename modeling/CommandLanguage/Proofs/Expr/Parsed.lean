import CommandLanguage.Proofs.Expr.Shape

/-!
# Expressions that are read

An expression that is read is there, and everything in it is well shaped. For every kind of
expression there is a lemma that makes one out of parts that are read.
-/

namespace CommandLanguage.Expr

/-- What an operand is like that was read: it is there, and it is well shaped everywhere. A word by
itself may be one, which is the difference to a statement. -/
def IsParsed (e : Expr) : Prop := e ≠ .null ∧ e.Everywhere IsWellShaped

/-- What a statement is like that was read. -/
def IsParsedStatement (e : Expr) : Prop := e.IsStatement ∧ e.Everywhere IsWellShaped

theorem IsParsedStatement.parsed {e : Expr} (h : e.IsParsedStatement) : e.IsParsed := ⟨h.1.1, h.2⟩

/-- Operands everywhere in a list. -/
abbrev AllParsed (es : List Expr) : Prop := ∀ e ∈ es, e.IsParsed

/-- An expression is read well if its node is well shaped and its children are well shaped
everywhere. -/
theorem isParsed {e : Expr} (he : e ≠ .null) (here : e.IsWellShaped)
    (inside : ∀ c ∈ e.children, c.Everywhere IsWellShaped) : e.IsParsed := ⟨he, .intro here inside⟩

/-- What was read and is no word by itself is a statement. -/
theorem IsParsed.statement {e : Expr} (h : e.IsParsed) (hb : e.bareWord? = none) :
    e.IsParsedStatement := ⟨⟨h.1, hb⟩, h.2⟩

theorem AllParsed.everywhere {es : List Expr} (h : AllParsed es) :
    ∀ e ∈ es, e.Everywhere IsWellShaped := fun e he => (h e he).2

theorem AllParsed.ne_null {es : List Expr} (h : AllParsed es) : ∀ e ∈ es, e ≠ .null :=
  fun e he => (h e he).1

theorem allParsed_nil : AllParsed [] := fun _ h => nomatch h

theorem AllParsed.cons {e : Expr} {es : List Expr} (he : e.IsParsed) (hes : AllParsed es) :
    AllParsed (e :: es) := List.forall_mem_cons.2 ⟨he, hes⟩

/-- What was read and a last part that is well shaped everywhere, as children. -/
theorem AllParsed.everywhere_append {es : List Expr} (h : AllParsed es) {last : Expr}
    (hl : last.Everywhere IsWellShaped) : ∀ c ∈ es ++ [last], c.Everywhere IsWellShaped :=
  List.forall_mem_append.2 ⟨h.everywhere, List.forall_mem_singleton.2 hl⟩

/-- Where nothing stands, nothing is out of shape. -/
theorem everywhere_null : Expr.null.Everywhere IsWellShaped := .leaf trivial rfl

/-! ## Nodes -/

theorem isParsed_word (name : String) (deref : Bool) : (Expr.variable name deref).IsParsed :=
  isParsed nofun trivial nofun

theorem isParsed_element (name : String) (deref : Bool) {index : Expr} (h : index.IsParsed) :
    (Expr.element name deref index).IsParsed :=
  isParsed nofun h.1 fun c hc => by rw [List.mem_singleton.1 hc]; exact h.2

theorem isParsed_array {items : List Expr} (h : AllParsed items) : (Expr.array items).IsParsed :=
  isParsed nofun h.ne_null h.everywhere

theorem isParsed_call {e : Expr} {args : List Expr} (he : e.IsParsed)
    (hw : e.bareWord?.isSome = true) (h : AllParsed args) : (Expr.call e args).IsParsed :=
  isParsed nofun ⟨hw, h.ne_null⟩ (AllParsed.cons he h).everywhere

theorem isParsed_binary_null {o : Operator} {left : Expr} (ho : o.isPostfix = true)
    (hl : left.IsParsed) : (Expr.binary o left .null).IsParsed := by
  have hb : o.isBinary = true := by
    cases o <;> first | rfl | cases ho
  refine isParsed nofun ⟨hb, hl.1, fun _ => ho, fun _ => rfl⟩ ?_
  exact (AllParsed.cons hl allParsed_nil).everywhere_append everywhere_null

theorem isParsed_binary {o : Operator} {left right : Expr} (ho : o.isBinary = true)
    (hp : o.isPostfix = false) (hl : left.IsParsed) (hr : right.IsParsed) :
    (Expr.binary o left right).IsParsed := by
  refine isParsed nofun ⟨ho, hl.1, fun h => absurd h hr.1, fun h => ?_⟩ ?_
  · rw [hp] at h
    cases h
  · exact (AllParsed.cons hl (.cons hr allParsed_nil)).everywhere

theorem isParsed_unary {o : Operator} {operand : Expr} (ho : o.isSign = true)
    (h : operand.IsParsed) : (Expr.unary o operand).IsParsed :=
  isParsed nofun ⟨ho, h.1⟩ (AllParsed.cons h allParsed_nil).everywhere

theorem isParsed_assign {target value : Expr} (ht : target.IsParsed) (hv : value.IsParsed) :
    (Expr.assign target value).IsParsed :=
  isParsed nofun ⟨ht.1, fun h => absurd h hv.1⟩
    (AllParsed.cons ht (.cons hv allParsed_nil)).everywhere

/-- An `unset` is an assignment of nothing. -/
theorem isParsed_unset {target : Expr} (ht : target.IsParsed) (hu : target.isUnsetTarget = true) :
    (Expr.assign target .null).IsParsed := by
  refine isParsed nofun ⟨ht.1, fun _ => hu⟩ ?_
  exact (AllParsed.cons ht allParsed_nil).everywhere_append everywhere_null

theorem isParsed_function (id : Nat) (name : Option String) {parameters : List Expr} {body : Expr}
    (hp : ∀ p ∈ parameters, Grammar.isParameter p = true) (hps : AllParsed parameters)
    (hb : body.IsParsedStatement) : (Expr.function id name parameters body).IsParsed :=
  isParsed nofun ⟨hp, hb.1⟩ (hps.everywhere_append hb.2)

theorem isParsed_ifThen {condition yes : Expr} (hc : condition.IsParsed)
    (hy : yes.IsParsedStatement) : (Expr.ifThen condition yes).IsParsed :=
  isParsed nofun ⟨hc.1, hy.1⟩ (AllParsed.cons hc (.cons hy.parsed allParsed_nil)).everywhere

theorem isParsed_ifThenElse {condition yes no : Expr} (hc : condition.IsParsed)
    (hy : yes.IsParsedStatement) (hn : no.IsParsedStatement) :
    (Expr.ifThenElse condition yes no).IsParsed :=
  isParsed nofun ⟨hc.1, hy.1, hn.1⟩
    (AllParsed.cons hc (.cons hy.parsed (.cons hn.parsed allParsed_nil))).everywhere

theorem isParsed_block {statements : List Expr} (h : ∀ e ∈ statements, e.IsParsedStatement) :
    (Expr.block statements).IsParsed :=
  isParsed nofun (fun e he => (h e he).1) fun e he => (h e he).2

theorem isParsed_for {init condition step : List Expr} {body : Expr} (hi : AllParsed init)
    (hc : AllParsed condition) (hs : AllParsed step) (hb : body.IsParsed) :
    (Expr.for init condition step body).IsParsed := by
  have hall : AllParsed (init ++ condition ++ step) :=
    List.forall_mem_append.2 ⟨List.forall_mem_append.2 ⟨hi, hc⟩, hs⟩
  exact isParsed nofun ⟨hall.ne_null, hb.1⟩ (hall.everywhere_append hb.2)

theorem isParsed_forIn (name : String) {range body : Expr} (hr : range.IsParsed)
    (hb : body.IsParsed) : (Expr.forIn name range body).IsParsed :=
  isParsed nofun ⟨hr.1, hb.1⟩ (AllParsed.cons hr (.cons hb allParsed_nil)).everywhere

theorem isParsed_while {condition : List Expr} {body : Expr} (hne : condition ≠ [])
    (hc : AllParsed condition) (hb : body.IsParsed) : (Expr.while condition body).IsParsed :=
  isParsed nofun ⟨hne, hc.ne_null, hb.1⟩ (hc.everywhere_append hb.2)

end CommandLanguage.Expr
