import CommandLanguage.Decimal.Shortest
import CommandLanguage.Value.Basic

/-!
# Operators on values

The tables of the operators that look at nothing but the values of their operands. What assigns,
and what may leave an operand unevaluated, has no entry here.
-/

/-! ## Remainders

The remainder of floats is `a - n · b` for the integer `n` nearest to zero side of `a / b`, without any
rounding: both numbers are integers at the scale of the finer of the two, and so is what is left. -/

namespace CommandLanguage.Decimal

/-- The exact remainder of two magnitudes, as a significand and its power of two. -/
def Binary.remainder (a b : Binary) : Nat × Int :=
  let scale := min a.exponent b.exponent
  let units (x : Binary) : Nat := x.significand * Nat.pow 2 (x.exponent - scale).toNat
  (units a % units b, scale)

/-- The remainder of a division that truncates. It has the sign of the dividend; an infinite
divisor leaves the dividend alone, and what has no quotient has no remainder. -/
def remainder (x y : Float) : Float :=
  match parts x, parts y with
  | .finite negative a, .finite _ b =>
    let (n, e) := a.remainder b
    let r := (Float.ofNat n).scaleB e
    if negative then -r else r
  | .zero _, .finite _ _ => x
  | .zero _, .infinite _ => x
  | .finite _ _, .infinite _ => x
  | _, _ => 0.0 / 0.0

end CommandLanguage.Decimal

namespace CommandLanguage.Value

/-! ## Equality

Values of different kinds are different. Numbers compare as floats, so one that is not a number
differs from itself; maps do not compare the order of their names; functions are equal when they
are the same function in the same scope. -/

mutual

/-- Whether two values are equal. -/
def equal : Value → Value → Bool
  | .null, .null => true
  | .boolean a, .boolean b => a == b
  | .number a, .number b => a == b
  | .text a, .text b => a == b
  | .list a, .list b => equalLists a b
  | .map a, .map b => a.length == b.length && equalEntries a b
  | .function a, .function b => a.id == b.id && a.scope == b.scope
  | .command a, .command b => a == b
  | _, _ => false

/-- Whether two lists have equal items in the same order. -/
def equalLists : List Value → List Value → Bool
  | [], [] => true
  | a :: as, b :: bs => a.equal b && equalLists as bs
  | _, _ => false

/-- Whether every entry has an equal one of the same name in the other map. -/
def equalEntries : List (String × Value) → List (String × Value) → Bool
  | [], _ => true
  | (n, v) :: es, b => (match Dictionary.get? b n with
      | some w => v.equal w
      | none => false) && equalEntries es b

end

/-! ## Tables -/

/-- An arithmetic operator on numbers that never fails. -/
private def onNumbers (f : Float → Float → Float) (a b : Value) : Except Fault Value := do
  let x ← a.toNumber
  let y ← b.toNumber
  return .number (f x y)

/-- A division, which fails if the divisor is zero. -/
private def dividing (o : Arithmetic) (f : Float → Float → Float) (a b : Value) :
    Except Fault Value := do
  let x ← a.toNumber
  let y ← b.toNumber
  if y == 0.0 then .error (.divisionByZero o) else .ok (.number (f x y))

/-- An operator on the bits of integers. -/
private def onBits (f : Int64 → Int64 → Int64) (a b : Value) : Except Fault Value := do
  let x ← a.toInteger
  let y ← b.toInteger
  return .number (f x y).toFloat

/-- A comparison of numbers. -/
private def onOrder (f : Float → Float → Bool) (a b : Value) : Except Fault Value := do
  let x ← a.toNumber
  let y ← b.toNumber
  return .boolean (f x y)

/-- The value of an arithmetic operator. Shifts take the last six bits of their distance. -/
def arithmetic (o : Arithmetic) (a b : Value) : Except Fault Value :=
  match o with
  | .add => onNumbers (· + ·) a b
  | .subtract => onNumbers (· - ·) a b
  | .multiply => onNumbers (· * ·) a b
  | .divide => dividing o (· / ·) a b
  | .remainder => dividing o Decimal.remainder a b
  | .power => onNumbers Float.pow a b
  | .shiftLeft => onBits (fun x y => x <<< (y &&& 63)) a b
  | .shiftRight => onBits (fun x y => x >>> (y &&& 63)) a b
  | .bitAnd => onBits (· &&& ·) a b
  | .bitOr => onBits (· ||| ·) a b
  | .bitXor => onBits (· ^^^ ·) a b

/-- The value of a comparison. Equality compares any values, order only numbers. -/
def compare (o : Comparison) (a b : Value) : Except Fault Value :=
  match o with
  | .equal => .ok (.boolean (a.equal b))
  | .unequal => .ok (.boolean (!a.equal b))
  | .less => onOrder (fun x y => x < y) a b
  | .greater => onOrder (fun x y => y < x) a b
  | .lessEqual => onOrder (fun x y => x ≤ y) a b
  | .greaterEqual => onOrder (fun x y => y ≤ x) a b

/-- The value of an operator between two operands, or after one. -/
def binary (o : Operator) (a b : Value) : Except Fault Value :=
  match o with
  | .arithmetic o => arithmetic o a b
  | .comparison o => compare o a b
  | .increment => arithmetic .add a (.number 1.0)
  | .decrement => arithmetic .subtract a (.number 1.0)
  | o => .error (.unknownOperator o)

/-- The value of an operator before its operand. -/
def unary (o : Operator) (a : Value) : Except Fault Value :=
  match o with
  | .negation => .ok (.boolean (!a.isTrue))
  | .complement => a.toInteger.map fun i => .number (~~~i).toFloat
  | .arithmetic .subtract => a.toNumber.map fun x => .number (-x)
  | o => .error (.unknownOperator o)

/-! ## What comes of an operator

Numbers or truth values, and few faults: only an operator without a table gives a fault that is
about the operator itself. -/

private theorem onNumbers_cases (f : Float → Float → Float) (a b : Value) :
    (∃ n, onNumbers f a b = .ok (.number n)) ∨ onNumbers f a b = .error .notANumber := by
  unfold onNumbers
  cases hx : a.toNumber with
  | error e => exact .inr (by rw [eq_notANumber_of_toNumber hx]; rfl)
  | ok x =>
    cases hy : b.toNumber with
    | error e => exact .inr (by rw [eq_notANumber_of_toNumber hy]; rfl)
    | ok y => exact .inl ⟨f x y, rfl⟩

private theorem dividing_cases (o : Arithmetic) (f : Float → Float → Float) (a b : Value) :
    (∃ n, dividing o f a b = .ok (.number n)) ∨ dividing o f a b = .error .notANumber ∨
      dividing o f a b = .error (.divisionByZero o) := by
  unfold dividing
  cases hx : a.toNumber with
  | error e => exact .inr (.inl (by rw [eq_notANumber_of_toNumber hx]; rfl))
  | ok x =>
    cases hy : b.toNumber with
    | error e => exact .inr (.inl (by rw [eq_notANumber_of_toNumber hy]; rfl))
    | ok y =>
      by_cases h : (y == 0.0) = true
      · exact .inr (.inr (by simp [bind, Except.bind, h]))
      · exact .inl ⟨f x y, by simp [bind, Except.bind, h]⟩

private theorem onBits_cases (f : Int64 → Int64 → Int64) (a b : Value) :
    (∃ n, onBits f a b = .ok (.number n)) ∨ onBits f a b = .error .notANumber := by
  unfold onBits
  cases hx : a.toInteger with
  | error e => exact .inr (by rw [eq_notANumber_of_toInteger hx]; rfl)
  | ok x =>
    cases hy : b.toInteger with
    | error e => exact .inr (by rw [eq_notANumber_of_toInteger hy]; rfl)
    | ok y => exact .inl ⟨(f x y).toFloat, rfl⟩

private theorem onOrder_cases (f : Float → Float → Bool) (a b : Value) :
    (∃ x, onOrder f a b = .ok (.boolean x)) ∨ onOrder f a b = .error .notANumber := by
  unfold onOrder
  cases hx : a.toNumber with
  | error e => exact .inr (by rw [eq_notANumber_of_toNumber hx]; rfl)
  | ok x =>
    cases hy : b.toNumber with
    | error e => exact .inr (by rw [eq_notANumber_of_toNumber hy]; rfl)
    | ok y => exact .inl ⟨f x y, rfl⟩

theorem arithmetic_cases (o : Arithmetic) (a b : Value) :
    (∃ n, arithmetic o a b = .ok (.number n)) ∨ arithmetic o a b = .error .notANumber ∨
      arithmetic o a b = .error (.divisionByZero o) := by
  cases o with
  | divide | remainder => exact dividing_cases _ _ a b
  | add | subtract | multiply | power => exact (onNumbers_cases _ a b).imp_right .inl
  | shiftLeft | shiftRight | bitAnd | bitOr | bitXor => exact (onBits_cases _ a b).imp_right .inl

theorem compare_cases (o : Comparison) (a b : Value) :
    (∃ x, compare o a b = .ok (.boolean x)) ∨ compare o a b = .error .notANumber := by
  cases o with
  | equal | unequal => exact .inl ⟨_, rfl⟩
  | less | greater | lessEqual | greaterEqual => exact onOrder_cases _ a b

/-- Of an operator with a table comes a number, a truth value, or a fault about its operands. -/
theorem binary_cases {o : Operator} (ho : o.hasTable = true) (a b : Value) :
    (∃ n, binary o a b = .ok (.number n)) ∨ (∃ x, binary o a b = .ok (.boolean x)) ∨
      binary o a b = .error .notANumber ∨ ∃ x, binary o a b = .error (.divisionByZero x) := by
  have numbers (o : Arithmetic) (b : Value) :
      (∃ n, arithmetic o a b = .ok (.number n)) ∨ (∃ x, arithmetic o a b = .ok (.boolean x)) ∨
        arithmetic o a b = .error .notANumber ∨
          ∃ x, arithmetic o a b = .error (.divisionByZero x) := by
    rcases arithmetic_cases o a b with h | h | h
    · exact .inl h
    · exact .inr (.inr (.inl h))
    · exact .inr (.inr (.inr ⟨o, h⟩))
  cases o with
  | arithmetic o => exact numbers o b
  | increment => exact numbers .add (.number 1.0)
  | decrement => exact numbers .subtract (.number 1.0)
  | comparison o =>
    rcases compare_cases o a b with h | h
    · exact .inr (.inl h)
    · exact .inr (.inr (.inl h))
  | _ => cases ho

theorem binary_of_not_hasTable {o : Operator} (ho : o.hasTable = false) (a b : Value) :
    binary o a b = .error (.unknownOperator o) := by
  cases o with
  | arithmetic | comparison | increment | decrement => cases ho
  | _ => rfl

/-- Of a sign comes a number, a truth value, or a fault about its operand. -/
theorem unary_cases {o : Operator} (ho : o.isSign = true) (a : Value) :
    (∃ n, unary o a = .ok (.number n)) ∨ (∃ x, unary o a = .ok (.boolean x)) ∨
      unary o a = .error .notANumber := by
  unfold Operator.isSign at ho
  split at ho
  · exact .inr (.inl ⟨_, rfl⟩)
  · simp only [unary]
    cases h : a.toInteger with
    | error e => exact .inr (.inr (by rw [eq_notANumber_of_toInteger h]; rfl))
    | ok i => exact .inl ⟨_, rfl⟩
  · simp only [unary]
    cases h : a.toNumber with
    | error e => exact .inr (.inr (by rw [eq_notANumber_of_toNumber h]; rfl))
    | ok x => exact .inl ⟨_, rfl⟩
  · cases ho

theorem unary_of_not_isSign {o : Operator} (ho : o.isSign = false) (a : Value) :
    unary o a = .error (.unknownOperator o) := by
  unfold Operator.isSign at ho
  split at ho
  · cases ho
  · cases ho
  · cases ho
  · unfold unary
    split <;> simp_all

end CommandLanguage.Value
