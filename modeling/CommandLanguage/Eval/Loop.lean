import CommandLanguage.Eval.Variable

/-!
# Sequences, branches and loops

A block belongs to the scope around it. A loop has one scope of its own that all its rounds
share, so that its variable does not leak out and functions made in its rounds see the last value
of it. A loop with conditions goes on for as long as its fuel lasts.
-/

namespace CommandLanguage.Eval

/-- Evaluates statements in order; the value is that of the last one. -/
def statements (ev : Evaluator) (s : ScopeId) : Value → List Expr → Run Value
  | last, [] => return last
  | _, e :: es => do
    let v ← ev e s
    statements ev s v es

/-- The values of expressions in order. -/
def values (ev : Evaluator) (s : ScopeId) : List Expr → Run (List Value)
  | [] => return []
  | e :: es => do
    let v ← ev e s
    return v :: (← values ev s es)

/-- Whether all conditions hold, evaluated up to the first that does not. -/
def conditionsHold (ev : Evaluator) (s : ScopeId) : List Expr → Run Bool
  | [] => return true
  | e :: es => do
    let v ← ev e s
    if v.isTrue then conditionsHold ev s es else return false

/-- A branch; without an `else` its value is `false` when the condition does not hold. -/
def branch (ev : Evaluator) (s : ScopeId) (condition yes : Expr) (no : Option Expr) :
    Run Value := do
  let c ← ev condition s
  if c.isTrue then ev yes s
  else
    match no with
    | some no => ev no s
    | none => return .boolean false

/-- Repeats rounds while a test holds, and gives the value of the last round and the number of
all; `last` and `count` are those of the rounds before. -/
def rounds (test : Run Bool) (round : Run Value) : Nat → Value → Nat → Run (Value × Nat)
  | 0, _, _ => Run.outOfFuel
  | fuel + 1, last, count => do
    if ← test then
      let v ← round
      rounds test round fuel v (count + 1)
    else return (last, count)

/-- A loop that counts for itself: `for (init; condition; step) body`. -/
def countedLoop (ev : Evaluator) (fuel : Nat) (s : ScopeId) (init condition step : List Expr)
    (body : Expr) : Run Value := do
  let inside ← Run.extend s
  let _ ← statements ev inside .null init
  let round : Run Value := do
    let v ← ev body inside
    let _ ← statements ev inside .null step
    return v
  let (v, count) ← rounds (conditionsHold ev inside condition) round fuel .null 0
  Run.note .trace fun _ => s!"for loop finished iterations={count}"
  return v

/-- A loop with conditions: `while condition body`. -/
def whileLoop (ev : Evaluator) (fuel : Nat) (s : ScopeId) (condition : List Expr) (body : Expr) :
    Run Value := do
  let inside ← Run.extend s
  let (v, count) ← rounds (conditionsHold ev inside condition) (ev body inside) fuel .null 0
  Run.note .trace fun _ => s!"while loop finished iterations={count}"
  return v

/-- The words of a text, or the items of any other value. -/
def wordsOrItems : Value → List Value
  | .text t => t.blankWords.map .text
  | v => v.items

/-- What a loop over a range runs over. Texts in variables and of references are cut into words,
and lists in an array literal give their items. -/
def rangeItems (ev : Evaluator) (s : ScopeId) (range : Expr) : Run (List Value) :=
  match range with
  | .variable name true => do return wordsOrItems ((← Run.read s name).getD .null)
  | .array es => do return (← values ev s es).flatMap Value.spread
  | .parameter _ => do return wordsOrItems (← ev range s)
  | _ => do return (← ev range s).items

/-- One round for each of the items, with the item bound to a name. -/
def itemRounds (ev : Evaluator) (s : ScopeId) (name : String) (body : Expr) :
    Value → List Value → Run Value
  | last, [] => return last
  | _, item :: items => do
    Run.define s name item
    let v ← ev body s
    itemRounds ev s name body v items

/-- A loop over a range: `for name in range body`. -/
def itemLoop (ev : Evaluator) (s : ScopeId) (name : String) (range body : Expr) : Run Value := do
  let items ← rangeItems ev s range
  Run.note .trace fun _ => s!"for-in variable={name} items={items.length}"
  let inside ← Run.extend s
  itemRounds ev inside name body .null items

end CommandLanguage.Eval
