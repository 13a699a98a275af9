import CommandLanguage.Expr.Parse

/-!
# The shape of expressions

The type of expressions has trees that no script stands for, such as a call of a number or a sum
without a right operand. The shape of those that scripts are read into is given node by node.

* `Expr.children` — the expressions that a node holds;
* `Expr.Everywhere p` — `p` holds of an expression and of everything in it, at any depth;
* `Expr.IsStatement` — what a statement, a branch or the body of a function may be;
* `Expr.IsWellShaped` — what a node says about itself and its children.
-/

namespace CommandLanguage.Expr

/-- The expressions that an expression holds directly, in the order in which they are written. -/
def children : Expr → List Expr
  | .element _ _ index => [index]
  | .array items => items
  | .binary _ left right => [left, right]
  | .unary _ operand => [operand]
  | .assign target value => [target, value]
  | .function _ _ parameters body => parameters ++ [body]
  | .call callee arguments => callee :: arguments
  | .ifThen condition yes => [condition, yes]
  | .ifThenElse condition yes no => [condition, yes, no]
  | .block statements => statements
  | .for init condition step body => init ++ condition ++ step ++ [body]
  | .forIn _ range body => [range, body]
  | .while condition body => condition ++ [body]
  | .number _ | .text _ _ | .boolean _ | .null | .variable _ _ | .braces _ | .parameter _ => []

/-- A property of an expression and of all expressions in it, at every depth. The property is asked
of each node with its children as they are, so it may be about how they belong together. -/
inductive Everywhere (p : Expr → Prop) : Expr → Prop where
  /-- it holds of the expression and everywhere in its children -/
  | intro {e : Expr} (here : p e) (inside : ∀ c ∈ e.children, Everywhere p c) : Everywhere p e

namespace Everywhere

variable {p : Expr → Prop} {e : Expr}

theorem self (h : e.Everywhere p) : p e := by
  cases h with
  | intro here _ => exact here

theorem child (h : e.Everywhere p) {c : Expr} (hc : c ∈ e.children) : c.Everywhere p := by
  cases h with
  | intro _ inside => exact inside c hc

/-- An expression without children has a property everywhere if it has it itself. -/
theorem leaf (h : p e) (hc : e.children = []) : e.Everywhere p :=
  intro h fun c hmem => by rw [hc] at hmem; cases hmem

end Everywhere

/-- Whether an expression can be a statement, a branch or the body of a function: it is there, and
it is no lone word, which would be a command without arguments. -/
def IsStatement (e : Expr) : Prop := e ≠ .null ∧ e.bareWord? = none

/-- Whether an expression is what `unset` takes the value from. -/
def isUnsetTarget : Expr → Bool
  | .variable _ false | .element _ false _ => true
  | _ => false

/-- What a node of a script that was read is like: where a statement has to stand there is one,
calls have names, operators are operators of the language with as many operands as they take, and
`null` is the right operand of a postfix operator or the value of an `unset`, and nothing else. -/
def IsWellShaped : Expr → Prop
  | .element _ _ index => index ≠ .null
  | .array items => ∀ e ∈ items, e ≠ .null
  | .binary o left right =>
    o.isBinary = true ∧ left ≠ .null ∧ (right = .null ↔ o.isPostfix = true)
  | .unary o operand => o.isSign = true ∧ operand ≠ .null
  | .assign target value => target ≠ .null ∧ (value = .null → target.isUnsetTarget = true)
  | .function _ _ parameters body =>
    (∀ p ∈ parameters, Grammar.isParameter p = true) ∧ body.IsStatement
  | .call callee arguments => callee.bareWord?.isSome = true ∧ ∀ e ∈ arguments, e ≠ .null
  | .ifThen condition yes => condition ≠ .null ∧ yes.IsStatement
  | .ifThenElse condition yes no => condition ≠ .null ∧ yes.IsStatement ∧ no.IsStatement
  | .block statements => ∀ e ∈ statements, e.IsStatement
  | .for init condition step body =>
    (∀ e ∈ init ++ condition ++ step, e ≠ .null) ∧ body ≠ .null
  | .forIn _ range body => range ≠ .null ∧ body ≠ .null
  | .while condition body => condition ≠ [] ∧ (∀ e ∈ condition, e ≠ .null) ∧ body ≠ .null
  | .number _ | .text _ _ | .boolean _ | .null | .variable _ _ | .braces _ | .parameter _ => True

end CommandLanguage.Expr
