/-!
# Operators

The operators of the language, how they are spelled and how they bind.

* `Arithmetic` and `Comparison` — the operators with a table of values;
* `Operator` — every operator, and what is spelled like one but is none;
* `precedence?`, `groupsRight`, … — the facts that the grammar needs.
-/

namespace CommandLanguage

/-- An arithmetic operator. Each of them has a compound assignment of its own. -/
inductive Arithmetic where
  /-- `+` -/
  | add
  /-- `-` -/
  | subtract
  /-- `*` -/
  | multiply
  /-- `/` -/
  | divide
  /-- `%` -/
  | remainder
  /-- `**` -/
  | power
  /-- `<<` -/
  | shiftLeft
  /-- `>>` -/
  | shiftRight
  /-- `&` -/
  | bitAnd
  /-- `|` -/
  | bitOr
  /-- `^` -/
  | bitXor
  deriving DecidableEq, Repr

/-- A comparison. -/
inductive Comparison where
  /-- `==` -/
  | equal
  /-- `!=` -/
  | unequal
  /-- `<` -/
  | less
  /-- `>` -/
  | greater
  /-- `<=` -/
  | lessEqual
  /-- `>=` -/
  | greaterEqual
  deriving DecidableEq, Repr

/-- An operator. -/
inductive Operator where
  /-- `=` -/
  | assign
  /-- an arithmetic operator followed by `=` -/
  | compound (a : Arithmetic)
  /-- an arithmetic operator; `-` is also the sign of a number -/
  | arithmetic (a : Arithmetic)
  /-- a comparison -/
  | comparison (c : Comparison)
  /-- `&&` -/
  | both
  /-- `||` -/
  | either
  /-- `++` -/
  | increment
  /-- `--` -/
  | decrement
  /-- `!` -/
  | negation
  /-- `~` -/
  | complement
  /-- no operator of the language, kept by its spelling so that it can be named -/
  | unknown (spelling : String)
  deriving DecidableEq, Repr

/-- How an arithmetic operator is written. -/
def Arithmetic.spelling : Arithmetic → String
  | .add => "+"
  | .subtract => "-"
  | .multiply => "*"
  | .divide => "/"
  | .remainder => "%"
  | .power => "**"
  | .shiftLeft => "<<"
  | .shiftRight => ">>"
  | .bitAnd => "&"
  | .bitOr => "|"
  | .bitXor => "^"

/-- All arithmetic operators. -/
def Arithmetic.all : List Arithmetic :=
  [.add, .subtract, .multiply, .divide, .remainder, .power, .shiftLeft, .shiftRight, .bitAnd,
    .bitOr, .bitXor]

/-- How a comparison is written. -/
def Comparison.spelling : Comparison → String
  | .equal => "=="
  | .unequal => "!="
  | .less => "<"
  | .greater => ">"
  | .lessEqual => "<="
  | .greaterEqual => ">="

/-- All comparisons. -/
def Comparison.all : List Comparison :=
  [.equal, .unequal, .less, .greater, .lessEqual, .greaterEqual]

namespace Operator

/-- How an operator is written. -/
def spelling : Operator → String
  | assign => "="
  | compound a => a.spelling ++ "="
  | arithmetic a => a.spelling
  | comparison c => c.spelling
  | both => "&&"
  | either => "||"
  | increment => "++"
  | decrement => "--"
  | negation => "!"
  | complement => "~"
  | unknown s => s

/-- The operators of the language. -/
def all : List Operator :=
  Arithmetic.all.map compound ++ Comparison.all.map comparison ++ [both, either] ++
    [increment, decrement] ++ Arithmetic.all.map arithmetic ++ [assign, negation, complement]

/-- The operator with a given spelling. -/
def ofSpelling (s : String) : Operator :=
  (all.find? (·.spelling == s)).getD (unknown s)

/-- The characters that operators are made of. -/
def isOperatorChar (c : Char) : Bool := "+-*/%=&|<>!^~".toList.contains c

/-- The longest operator that a text begins with. -/
def longest? (s : List Char) : Option Operator :=
  let longer (best : Option Operator) (o : Operator) : Option Operator :=
    if !o.spelling.toList.isPrefixOf s then best
    else if best.all (·.spelling.length < o.spelling.length) then some o
    else best
  all.foldl longer none

/-- How tightly an operator between two operands or after one binds. -/
def precedence? : Operator → Option Nat
  | assign => some 1
  | compound _ => some 10
  | either => some 11
  | both => some 12
  | arithmetic .bitOr => some 13
  | arithmetic .bitXor => some 14
  | arithmetic .bitAnd => some 15
  | comparison _ => some 20
  | arithmetic .shiftLeft | arithmetic .shiftRight => some 25
  | arithmetic .add | arithmetic .subtract => some 30
  | arithmetic .multiply | arithmetic .divide | arithmetic .remainder => some 40
  | arithmetic .power => some 50
  | increment | decrement => some 100
  | negation | complement | unknown _ => none

/-- How tightly an operator before its operand binds. -/
def signPrecedence : Nat := 60

/-- Whether an operator may stand before its only operand. -/
def isSign : Operator → Bool
  | negation | complement | arithmetic .subtract => true
  | _ => false

/-- Whether an operator stands after its only operand. -/
def isPostfix : Operator → Bool
  | increment | decrement => true
  | _ => false

/-- Whether an operator looks like an assignment that also computes. Texts that are no operator
count as one by their last character. -/
def isCompound : Operator → Bool
  | compound _ => true
  | unknown s => s.toList.getLast? == some '='
  | _ => false

/-- Whether of several such operators the last binds first. -/
def groupsRight : Operator → Bool
  | assign => true
  | arithmetic .power => true
  | o => o.isCompound

/-- Whether an operator stands between two operands or after one, and is no assignment. -/
def isBinary (o : Operator) : Bool := o.precedence?.isSome && o != assign

/-- Whether an operator between two operands or after one has a table of values. -/
def hasTable : Operator → Bool
  | arithmetic _ | comparison _ | increment | decrement => true
  | _ => false

/-- The arithmetic of a compound assignment. -/
def base? : Operator → Option Arithmetic
  | compound a => some a
  | _ => none

/-- Whether an operator assigns its value to its left operand. -/
def assigns (o : Operator) : Bool := o.base?.isSome || o.isPostfix

theorem ofSpelling_spelling {o : Operator} (h : o ∈ all) : ofSpelling o.spelling = o := by
  revert o
  decide +kernel

end Operator

end CommandLanguage
