import CommandLanguage.Expr.Fault

/-!
# Faults

Everything that can end a run before its time: what it is (`Fault`), the kind it is reported as
(`Fault.kind`), its wording (`Fault.message`) and the exit code that tells of it
(`Fault.exitCode`).
-/

namespace CommandLanguage

/-- What is wrong with a range in braces. -/
inductive RangeFault where
  /-- neither numbers nor letters -/
  | malformed
  /-- a number of more than sixty-four bits -/
  | bound
  /-- more items than a range may have -/
  | tooLarge
  /-- a capital and a small letter -/
  | mixedCase
  /-- more words than a word may expand to -/
  | expansionTooLarge
  deriving DecidableEq, Repr

/-- The wording of what is wrong with a range. -/
def RangeFault.message : RangeFault → String
  | .malformed => "malformed range"
  | .bound => "range bound out of bounds"
  | .tooLarge => "range too large"
  | .mixedCase => "mixed-case character range"
  | .expansionTooLarge => "expansion too large"

/-- What can end a run. -/
inductive Fault where
  /-- the script cannot be read -/
  | malformed (f : SyntaxFault)
  /-- a value that is no number where one is needed -/
  | notANumber
  /-- an operator that the language does not have, or not with so many operands -/
  | unknownOperator (o : Operator)
  /-- a call of something that cannot be called -/
  | notAFunction (what : String)
  /-- an assignment to something that is no variable -/
  | notAssignable (kind : String)
  /-- a parameter that is neither a name nor a name with a default value -/
  | notAParameter (kind : Option String)
  /-- a filter that is no regular expression, and what the engine says of it -/
  | notAFilter (filter message : String)
  /-- a division by zero -/
  | divisionByZero (a : Arithmetic)
  /-- a call of a name that has no value -/
  | undefinedFunction (name : String)
  /-- an index after something that has no elements -/
  | notIndexable (name : String)
  /-- a fault that the script asks for when a variable has no value -/
  | requested (name message : String)
  /-- a range in braces that has no meaning -/
  | range (text : String) (f : RangeFault)
  /-- more calls within each other than allowed -/
  | tooManyCalls (limit : Nat)
  /-- a fault of a command -/
  | command (name message : String)

namespace Fault

/-- The kind that a fault is reported as. -/
def kind : Fault → String
  | .malformed (.lex _) => "LexError"
  | .malformed (.parse _) => "ParseError"
  | .notANumber | .unknownOperator _ | .notAFunction _ | .notAssignable _ | .notAParameter _
  | .notAFilter _ _ => "TypeError"
  | .divisionByZero _ => "DivideByZeroError"
  | .undefinedFunction _ => "UndefinedFunctionError"
  | .notIndexable _ => "UndefinedVariableIndexError"
  | .requested _ _ => "UserRequestedError"
  | .range _ _ => "RangeError"
  | .tooManyCalls _ => "ExecutionLimitError"
  | .command _ _ => "HostError"

/-- The wording of a fault. Where it is not the script's or a command's own, the kind comes
first. -/
def message (f : Fault) : String :=
  match f with
  | .malformed f => f.message
  | .notANumber => s!"{f.kind}: expected number"
  | .unknownOperator o => s!"{f.kind}: unknown operator \"{o.spelling}\""
  | .notAFunction what => s!"{f.kind}: {what} is not a function"
  | .notAssignable k => s!"{f.kind}: cannot assign to {k}"
  | .notAParameter none => s!"{f.kind}: invalid parameter"
  | .notAParameter (some k) => s!"{f.kind}: invalid parameter {k}"
  | .notAFilter filter message => s!"{f.kind}: invalid filter /{filter}/: {message}"
  | .divisionByZero a => s!"{f.kind}: division by zero in \"{a.spelling}\""
  | .undefinedFunction n => s!"{f.kind}: {n}: command not found"
  | .notIndexable n => s!"{f.kind}: {n} cannot be indexed"
  | .requested n m => s!"{n}: {m}"
  | .range t e => s!"{f.kind}: {t}: {e.message}"
  | .tooManyCalls n => s!"maximum recursion depth ({n}) exceeded"
  | .command n m => s!"{n}: {m}"

/-- The exit code: 2 for scripts that cannot be read, 126 for too many calls, 1 for the rest. -/
def exitCode : Fault → Nat
  | .malformed _ => 2
  | .tooManyCalls _ => 126
  | _ => 1

/-- Whether a fault is about the shape of an expression: an operator that is none, or a parameter
that is none. -/
def isAboutShape : Fault → Bool
  | .unknownOperator _ | .notAParameter _ => true
  | _ => false

end Fault

end CommandLanguage
