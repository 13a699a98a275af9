import CommandLanguage.Proofs.Expr.Parsed

/-!
# Numbering keeps the shape

Dealing out numbers to functions changes nothing else about an expression: its node looks the same
from outside, and its children are the children from before, numbered.
-/

namespace CommandLanguage.Expr

/-! ## Looks from outside

To number the functions in an expression changes nothing else about it: what it is made of, and what
it looks like to a check that does not look at the numbers. -/

@[simp] theorem numberFrom_eq_null (e : Expr) (n : Nat) :
    (numberFrom e n).1 = .null ↔ e = .null := by
  cases e <;> simp [numberFrom]

@[simp] theorem bareWord?_numberFrom (e : Expr) (n : Nat) :
    (numberFrom e n).1.bareWord? = e.bareWord? := by
  cases e <;> rfl

@[simp] theorem isUnsetTarget_numberFrom (e : Expr) (n : Nat) :
    (numberFrom e n).1.isUnsetTarget = e.isUnsetTarget := by
  cases e with
  | element name deref index => cases deref <;> rfl
  | _ => rfl

@[simp] theorem isParameter_numberFrom (e : Expr) (n : Nat) :
    Grammar.isParameter (numberFrom e n).1 = Grammar.isParameter e := by
  cases e with
  | assign target value => exact congrArg Option.isSome (bareWord?_numberFrom target n)
  | _ => rfl

@[simp] theorem isStatement_numberFrom (e : Expr) (n : Nat) :
    (numberFrom e n).1.IsStatement ↔ e.IsStatement := by
  simp [IsStatement]

/-! ## Lists -/

theorem numberList_append (as bs : List Expr) (n : Nat) : numberList (as ++ bs) n =
    ((numberList as n).1 ++ (numberList bs (numberList as n).2).1,
      (numberList bs (numberList as n).2).2) := by
  induction as generalizing n with
  | nil => rfl
  | cons a as ih => simp [numberList, ih]

@[simp] theorem numberList_eq_nil {es : List Expr} {n : Nat} :
    (numberList es n).1 = [] ↔ es = [] := by
  cases es <;> simp [numberList]

/-- What numbering changes nothing about holds all over a numbered list if it held before. -/
theorem forall_mem_numberList {p : Expr → Prop} (hp : ∀ e n, p (numberFrom e n).1 ↔ p e)
    {es : List Expr} {n : Nat} : (∀ e ∈ (numberList es n).1, p e) ↔ ∀ e ∈ es, p e := by
  induction es generalizing n with
  | nil => simp [numberList]
  | cons e es ih => simp only [numberList, List.forall_mem_cons, hp, ih]

/-- What holds of numbered expressions, whatever the numbers, holds all over a numbered list. -/
theorem forall_mem_numberList_of {p : Expr → Prop} {es : List Expr}
    (h : ∀ e ∈ es, ∀ n, p (numberFrom e n).1) (n : Nat) : ∀ e ∈ (numberList es n).1, p e := by
  induction es generalizing n with
  | nil => exact nofun
  | cons e es ih =>
    obtain ⟨he, hes⟩ := List.forall_mem_cons.1 h
    exact List.forall_mem_cons.2 ⟨he n, ih hes _⟩

/-! ## Trees -/

/-- The children of a numbered expression are its children, numbered in their order. -/
theorem children_numberFrom (e : Expr) (n : Nat) :
    ∃ m, (numberFrom e n).1.children = (numberList e.children m).1 := by
  cases e with
  | function id name parameters body =>
    -- a function takes its number before those in it take theirs
    exact ⟨n + 1, by simp [numberFrom, children, numberList, numberList_append]⟩
  | _ => exact ⟨n, by simp [numberFrom, children, numberList, numberList_append]⟩

theorem isWellShaped_numberFrom (e : Expr) (n : Nat) :
    (numberFrom e n).1.IsWellShaped ↔ e.IsWellShaped := by
  have hnull {es : List Expr} {n : Nat} :
      (∀ e ∈ (numberList es n).1, ¬e = .null) ↔ ∀ e ∈ es, ¬e = .null :=
    forall_mem_numberList fun e n => not_congr (numberFrom_eq_null e n)
  have hstatement {es : List Expr} {n : Nat} :
      (∀ e ∈ (numberList es n).1, e.IsStatement) ↔ ∀ e ∈ es, e.IsStatement :=
    forall_mem_numberList isStatement_numberFrom
  have hparameter {es : List Expr} {n : Nat} :
      (∀ e ∈ (numberList es n).1, Grammar.isParameter e = true) ↔
        ∀ e ∈ es, Grammar.isParameter e = true :=
    forall_mem_numberList fun e n => by rw [isParameter_numberFrom]
  cases e <;> simp [numberFrom, IsWellShaped, hnull, hstatement, hparameter, or_imp, forall_and]

/-- Numbering keeps everything in an expression well shaped. -/
theorem everywhere_numberFrom {e : Expr} (h : e.Everywhere IsWellShaped) (n : Nat) :
    (numberFrom e n).1.Everywhere IsWellShaped := by
  induction h generalizing n with
  | @intro e here _ ih =>
    refine .intro ((isWellShaped_numberFrom e n).2 here) ?_
    obtain ⟨m, hm⟩ := children_numberFrom e n
    rw [hm]
    exact forall_mem_numberList_of ih m

/-- Statements that were read stay so when they are numbered. -/
theorem isParsedStatement_numberList {es : List Expr} (h : ∀ e ∈ es, e.IsParsedStatement)
    (n : Nat) : ∀ e ∈ (numberList es n).1, e.IsParsedStatement :=
  forall_mem_numberList_of (fun e he m =>
    ⟨(isStatement_numberFrom e m).2 (h e he).1, everywhere_numberFrom (h e he).2 m⟩) n

end CommandLanguage.Expr
