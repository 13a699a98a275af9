import CommandLanguage.Token.Basic

/-!
# Expressions

The trees that scripts are read into and that evaluation walks over. Everything is an
expression: statements, blocks, loops and function definitions have values too.

Every function carries a number, which tells apart functions that are written alike; reading
leaves it at zero and `Expr.numberFrom` deals the numbers out before a script is run.
-/

namespace CommandLanguage

/-- An expression. -/
inductive Expr where
  /-- a number -/
  | number (n : Float)
  /-- a text -/
  | text (value : String) (literal : Literal)
  /-- `true` or `false` -/
  | boolean (b : Bool)
  /-- nothing: the operand that a postfix operator lacks, the value that `unset` assigns -/
  | null
  /-- `$name`, or `name` without the `$` -/
  | variable (name : String) (deref : Bool)
  /-- `$name[index]`, or `name[index]` without the `$` -/
  | element (name : String) (deref : Bool) (index : Expr)
  /-- an array literal -/
  | array (items : List Expr)
  /-- a word with groups in braces -/
  | braces (raw : String)
  /-- a `${…}` -/
  | parameter (raw : String)
  /-- an operator with two operands, or a postfix operator with `null` on its right -/
  | binary (o : Operator) (left right : Expr)
  /-- an operator before its operand -/
  | unary (o : Operator) (operand : Expr)
  /-- `target = value` -/
  | assign (target value : Expr)
  /-- a function; a parameter is a name, or an assignment of a default value to a name -/
  | function (id : Nat) (name : Option String) (parameters : List Expr) (body : Expr)
  /-- a call -/
  | call (callee : Expr) (arguments : List Expr)
  /-- `if` without `else` -/
  | ifThen (condition yes : Expr)
  /-- `if` with `else` -/
  | ifThenElse (condition yes no : Expr)
  /-- statements in order: a script or a block -/
  | block (statements : List Expr)
  /-- `for (init; condition; step) body` -/
  | for (init condition step : List Expr) (body : Expr)
  /-- `for name in range body` -/
  | forIn (name : String) (range body : Expr)
  /-- `while condition body` -/
  | while (condition : List Expr) (body : Expr)
  deriving Inhabited

namespace Expr

/-- The name of an expression's kind. -/
def kind : Expr → String
  | .number _ => "number"
  | .text _ _ => "string"
  | .boolean _ => "boolean"
  | .null => "null"
  | .variable _ _ | .element _ _ _ => "variable"
  | .array _ => "array"
  | .braces _ => "brace-expansion"
  | .parameter _ => "param-expansion"
  | .binary _ _ _ => "binary"
  | .unary _ _ => "unary"
  | .assign _ _ => "assign"
  | .function _ _ _ _ => "function"
  | .call _ _ => "call"
  | .ifThen _ _ | .ifThenElse _ _ _ => "if"
  | .block _ => "program"
  | .for _ _ _ _ => "for"
  | .forIn _ _ _ => "for-in"
  | .while _ _ => "while"

/-- The name of a variable without `$` and index. Such a word can be a command, and among the
arguments of a command it stands for itself. -/
def bareWord? : Expr → Option String
  | .variable n false => some n
  | _ => none

/-- The name of a variable, with or without an index. -/
def variableName? : Expr → Option String
  | .variable n _ | .element n _ _ => some n
  | _ => none

/-- The name by which a callee is looked up and named in errors. -/
def calleeName (e : Expr) : String := e.variableName?.getD e.kind

/-! ## Numbering of functions -/

mutual

/-- Numbers the functions of an expression in the order in which they are written, beginning
with `n`; the second component is the first number not used. -/
def numberFrom : Expr → Nat → Expr × Nat
  | .element x d i, n =>
    let (i, n) := numberFrom i n
    (.element x d i, n)
  | .array items, n =>
    let (items, n) := numberList items n
    (.array items, n)
  | .binary o l r, n =>
    let (l, n) := numberFrom l n
    let (r, n) := numberFrom r n
    (.binary o l r, n)
  | .unary o e, n =>
    let (e, n) := numberFrom e n
    (.unary o e, n)
  | .assign t v, n =>
    let (t, n) := numberFrom t n
    let (v, n) := numberFrom v n
    (.assign t v, n)
  | .function _ name ps b, n =>
    let (ps, m) := numberList ps (n + 1)
    let (b, m) := numberFrom b m
    (.function n name ps b, m)
  | .call c as, n =>
    let (c, n) := numberFrom c n
    let (as, n) := numberList as n
    (.call c as, n)
  | .ifThen c y, n =>
    let (c, n) := numberFrom c n
    let (y, n) := numberFrom y n
    (.ifThen c y, n)
  | .ifThenElse c y e, n =>
    let (c, n) := numberFrom c n
    let (y, n) := numberFrom y n
    let (e, n) := numberFrom e n
    (.ifThenElse c y e, n)
  | .block ss, n =>
    let (ss, n) := numberList ss n
    (.block ss, n)
  | .for i c s b, n =>
    let (i, n) := numberList i n
    let (c, n) := numberList c n
    let (s, n) := numberList s n
    let (b, n) := numberFrom b n
    (.for i c s b, n)
  | .forIn x r b, n =>
    let (r, n) := numberFrom r n
    let (b, n) := numberFrom b n
    (.forIn x r b, n)
  | .while c b, n =>
    let (c, n) := numberList c n
    let (b, n) := numberFrom b n
    (.while c b, n)
  | e, n => (e, n)

/-- Numbers the functions of several expressions. -/
def numberList : List Expr → Nat → List Expr × Nat
  | [], n => ([], n)
  | e :: es, n =>
    let (e, n) := numberFrom e n
    let (es, n) := numberList es n
    (e :: es, n)

end

end Expr

end CommandLanguage
