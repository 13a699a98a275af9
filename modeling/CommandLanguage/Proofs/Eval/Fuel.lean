import CommandLanguage.Proofs.Eval.CallDepth

/-!
# Fuel

Evaluation has fuel, for its levels and for the rounds of its loops, and there is more of it than any
computer can use up. What an expression does should then not depend on how much there is: if it comes
to an end with some fuel, it comes to the same end with more (`Eval.evaluateFrom_of_le`).

So an expression has at most one end, which is what it *does*, whatever the fuel: `Expr.Ends` relates
an expression, evaluated in a scope with some settings and in some world, to the value or the fault it
ends with and to the world it leaves. To compare two expressions is to compare their ends, since the
levels that they go through may differ.

That a run with more fuel does the same is a `Likeness` between the two, `Run.Continues`, which says
nothing where the first run has no end. Fuel comes in at two places, as the number of levels and as
the number of rounds, and these are treated one after the other: the levels below are exchanged by
the likeness, and then the rounds of loops at this level by `continues_step`.
-/

namespace CommandLanguage

/-- A run has ended with a value or with a fault, and not for want of fuel. What is said of such a
run is said of the script, and not of how it was computed. -/
def Outcome.IsEnd {α : Type} : Outcome α → Prop
  | .outOfFuel => False
  | _ => True

instance {α : Type} (o : Outcome α) : Decidable o.IsEnd :=
  match o with
  | .outOfFuel => inferInstanceAs (Decidable False)
  | .value _ | .fault _ => inferInstanceAs (Decidable True)

/-- A run has ended with a value. -/
def Outcome.HasValue {α : Type} : Outcome α → Prop
  | .value _ => True
  | _ => False

instance {α : Type} (o : Outcome α) : Decidable o.HasValue :=
  match o with
  | .value _ => inferInstanceAs (Decidable True)
  | .outOfFuel | .fault _ => inferInstanceAs (Decidable False)

namespace Run

variable {α β : Type} {P Q : α → Prop} {R : β → Prop} {m m' m'' : Run α}

/-- Wherever a run has an end, another one has the same. A value that it ends with meets `Q`. Where
the first one has none, the other may do anything, and that is what more fuel is for. -/
def Continues (Q : α → Prop) (m m' : Run α) : Prop :=
  ∀ c w, (m c w).1.IsEnd → m' c w = m c w ∧ (m c w).1.Meets (fun _ => True) Q

namespace Continues

/-- A run continues itself, with whatever is known of its values. -/
theorem of_meets (h : ∀ c w, (m c w).1.Meets (fun _ => True) Q) : Continues Q m m :=
  fun c w _ => ⟨rfl, h c w⟩

/-- So it does if nothing is known. -/
theorem refl (m : Run α) : Continues (fun _ => True) m m :=
  of_meets fun c w => by cases (m c w).1 <;> trivial

/-- What has no end is continued by everything. -/
theorem outOfFuel : Continues Q Run.outOfFuel m := nofun

/-- To continue is transitive, since what continues a run that has an end has one as well. What the
value meets is said of the first run. -/
theorem trans (hm : Continues Q m m') (hm' : Continues P m' m'') : Continues Q m m'' := by
  intro c w h
  obtain ⟨hsame, hmeets⟩ := hm c w h
  have h' : (m' c w).1.IsEnd := by rwa [hsame]
  exact ⟨(hm' c w h').1.trans hsame, hmeets⟩

/-- If two runs one after the other have an end, then so has the first of them, or it is a fault and
the end of both. -/
theorem bind {f f' : α → Run β} (hm : Continues P m m')
    (hf : ∀ a, P a → Continues R (f a) (f' a)) : Continues R (m >>= f) (m' >>= f') := by
  intro c w h
  have hmcw := hm c w
  rcases hmc : m c w with ⟨a | e | _, w'⟩ <;> rw [hmc] at hmcw
  · obtain ⟨hsame, ha⟩ := hmcw trivial
    rw [bind_apply hmc] at h ⊢
    rw [bind_apply hsame]
    exact hf a ha c w' h
  · rw [bind_fault_apply hmc, bind_fault_apply (hmcw trivial).1]
    exact ⟨rfl, trivial⟩
  · -- without fuel the first run would have no end, and then neither would both
    rw [bind_outOfFuel_apply hmc] at h
    cases h

/-- The count of calls is changed in the same way on both sides. -/
theorem deeper (hm : Continues Q m m') : Continues Q m.deeper m'.deeper := by
  intro c w h
  obtain ⟨hsame, hmeets⟩ := hm c { w with calls := w.calls + 1 } h
  exact ⟨by simp only [Run.deeper, hsame], hmeets⟩

/-- What is noted behind a run depends on its end and the world it leaves, which are the same. -/
theorem andNote {after : Bool → Run Unit} (hm : Continues Q m m') :
    Continues Q (m.andNote after) (m'.andNote after) := by
  intro c w h
  have hout := (andNote_cases m after c w).1
  rw [hout] at h ⊢
  obtain ⟨hsame, hmeets⟩ := hm c w h
  exact ⟨by simp only [Run.andNote, hsame], hmeets⟩

end Continues

end Run

namespace Eval

open Run (Continues)

/-- Runs that continue others. Every step other than a call or a loop is the same on both sides, and
these two are the ones that are given fuel. -/
def continuing : Likeness where
  Like := Continues
  like_pure h := .of_meets fun _ _ => h
  like_bind := .bind
  like_outOfFuel := .outOfFuel
  like_fault _ := .of_meets fun _ _ => trivial
  like_note _ _ := .refl _
  like_settings := .refl _
  like_calls := .refl _
  like_read _ _ := .refl _
  like_modifyScopes _ := .refl _
  like_extend _ := .refl _
  like_command _ _ := .refl _

/-! ## Loops -/

/-- With more fuel there are more rounds, but those before are the same. A loop that has ended has
no use for more. -/
theorem continues_rounds (test : Run Bool) (round : Run Value) {fuel more : Nat}
    (h : fuel ≤ more) (last : Value) (count : Nat) :
    Continues (fun _ => True) (rounds test round fuel last count)
      (rounds test round more last count) := by
  induction fuel generalizing more last count with
  | zero => exact .outOfFuel
  | succ fuel ih =>
    -- there is a first round with more fuel, too, as there is one with less
    obtain ⟨more, rfl⟩ : ∃ n, more = n + 1 := ⟨more - 1, by omega⟩
    refine .bind (.refl test) fun b _ => ?_
    cases b with
    | true => exact .bind (.refl round) fun v _ => ih (by omega) v (count + 1)
    | false => exact .refl _

/-- Only loops look at how much fuel there is, and they go on in the same way with more. -/
theorem continues_step (ev : Evaluator) {fuel more : Nat} (h : fuel ≤ more) (e : Expr)
    (s : ScopeId) : Continues (fun _ => True) (step ev fuel e s) (step ev more e s) := by
  cases e with
  | «for» init condition step body =>
    refine .bind (.refl _) fun inside _ => .bind (.refl _) fun _ _ => ?_
    exact .bind (continues_rounds _ _ h _ _) fun _ _ => .refl _
  | «while» condition body =>
    exact .bind (.refl _) fun inside _ => .bind (continues_rounds _ _ h _ _) fun _ _ => .refl _
  | _ => exact .refl _

/-! ## Calls and whole evaluations -/

/-- A call only hands on how to evaluate. The limit of calls is no matter of fuel: it is reached on
both sides or on neither, as the worlds are the same. -/
theorem callsAlike_continuing : continuing.CallsAlike callClosure callClosure := by
  intro ev ev' hev caller k args c w
  by_cases h : w.calls < c.maxCalls
  · rw [callClosure_of_lt h, callClosure_of_lt h]
    exact (Continues.deeper (Likeness.likes_enter hev caller k args)).andNote c w
  · rw [callClosure_of_not_lt h, callClosure_of_not_lt h]
    exact Continues.refl (refuse k _) c w

/-- A level at which functions are called as they are is one of evaluation, so that a likeness can
be used for it. -/
theorem stepCalling_callClosure (ev : Evaluator) (fuel : Nat) :
    stepCalling callClosure ev fuel = step ev fuel := by
  funext e s
  cases e with
  | call e args => rw [stepCalling, callValueCalling_eq rfl, step, call]
  | _ => rfl

/-- Evaluation with more fuel continues evaluation with less. One level is exchanged in two steps:
first the levels below it get more fuel, and then its own loops. -/
theorem continues_evaluateFrom {fuel more : Nat} (h : fuel ≤ more) (e : Expr) (s : ScopeId) :
    Continues (fun _ => True) (evaluateFrom fuel e s) (evaluateFrom more e s) := by
  induction fuel generalizing more e s with
  | zero => exact .outOfFuel
  | succ fuel ih =>
    obtain ⟨more, rfl⟩ : ∃ n, more = n + 1 := ⟨more - 1, by omega⟩
    have h : fuel ≤ more := by omega
    have hstep := Likeness.likes_stepCalling callsAlike_continuing (fun e s => ih h e s) fuel e s
    rw [stepCalling_callClosure, stepCalling_callClosure] at hstep
    exact hstep.trans (continues_step _ h e s)

/-- **An end is the same with more fuel.** This is what makes it meaningless how much fuel there is,
as long as it suffices. -/
theorem evaluateFrom_of_le {fuel more : Nat} (h : fuel ≤ more) {e : Expr} {s : ScopeId}
    {c : Settings} {w : World} (hend : (evaluateFrom fuel e s c w).1.IsEnd) :
    evaluateFrom more e s c w = evaluateFrom fuel e s c w :=
  (continues_evaluateFrom h e s c w hend).1

end Eval

/-! ## Ends

An evaluation that comes to an end with some fuel comes to the same end with more. So it does not
matter which of the amounts that are enough is taken. -/

namespace Expr

variable {e e' : Expr} {s : ScopeId} {c : Settings} {w w₁ w₂ : World} {o₁ o₂ : Outcome Value}

/-- Evaluated in a scope, with settings and in a world, an expression ends with an outcome and leaves
a world, if there is fuel enough. -/
def Ends (e : Expr) (s : ScopeId) (c : Settings) (w : World) (o : Outcome Value) (w' : World) :
    Prop :=
  o.IsEnd ∧ ∃ fuel, Eval.evaluateFrom fuel e s c w = (o, w')

/-- There is at most one end. Of two amounts of fuel that both suffice, the greater one gives the
end of either. -/
theorem Ends.unique (h₁ : e.Ends s c w o₁ w₁) (h₂ : e.Ends s c w o₂ w₂) : o₁ = o₂ ∧ w₁ = w₂ := by
  obtain ⟨hend₁, m, hm⟩ := h₁
  obtain ⟨hend₂, n, hn⟩ := h₂
  have hmore₁ := Eval.evaluateFrom_of_le (Nat.le_max_left m n) (by rw [hm]; exact hend₁)
  have hmore₂ := Eval.evaluateFrom_of_le (Nat.le_max_right m n) (by rw [hn]; exact hend₂)
  have hsame : (o₁, w₁) = (o₂, w₂) := by rw [← hm, ← hn, ← hmore₁, ← hmore₂]
  exact Prod.mk.inj hsame

/-- What an expression ends with when its fuel suffices is its end. In this form it is used of the
evaluation that runs, whose fuel is fixed. -/
theorem ends_of_isEnd {fuel : Nat} (h : (Eval.evaluateFrom fuel e s c w).1.IsEnd) :
    e.Ends s c w (Eval.evaluateFrom fuel e s c w).1 (Eval.evaluateFrom fuel e s c w).2 :=
  ⟨h, fuel, rfl⟩

/-- What ends with a value with some fuel ends with it. In examples it can be computed that there is
a value, when values cannot be compared. -/
theorem ends_of_hasValue {fuel : Nat} (h : (Eval.evaluateFrom fuel e s c w).1.HasValue) :
    ∃ v, e.Ends s c w (.value v) (Eval.evaluateFrom fuel e s c w).2 := by
  rcases hrun : Eval.evaluateFrom fuel e s c w with ⟨v | f | _, w'⟩ <;> rw [hrun] at h
  · exact ⟨v, trivial, fuel, hrun⟩
  · cases h
  · cases h

/-- Two expressions with the same ends: in every scope, with every settings and in every world, one
ends just when the other does, with the same value or fault and in the same world. -/
def SameEnds (e e' : Expr) : Prop :=
  ∀ s c w o w', e.Ends s c w o w' ↔ e'.Ends s c w o w'

/-- Expressions with the same ends have the same value, or the same fault, unless one of them ran out
of fuel. -/
theorem SameEnds.evaluate_eq (h : e.SameEnds e') (hend : (e.evaluate s c w).1.IsEnd)
    (hend' : (e'.evaluate s c w).1.IsEnd) : e.evaluate s c w = e'.evaluate s c w := by
  have hsame := (h s c w _ _).1 (ends_of_isEnd hend)
  obtain ⟨ho, hw⟩ := hsame.unique (ends_of_isEnd hend')
  exact Prod.ext ho hw

/-- An expression that takes one level more than another, and is the same otherwise, has the same
ends. -/
theorem sameEnds_of_succ
    (h : ∀ n s, Eval.evaluateFrom (n + 1) e' s = Eval.evaluateFrom n e s) : e.SameEnds e' := by
  intro s c w o w'
  constructor
  · rintro ⟨hend, n, hn⟩
    exact ⟨hend, n + 1, by rw [h, hn]⟩
  · rintro ⟨hend, n, hn⟩
    cases n with
    -- with no fuel at all there is no end that would have to be matched
    | zero =>
      obtain ⟨rfl, -⟩ := Prod.mk.inj hn
      cases hend
    | succ n => exact ⟨hend, n, by rw [← h, hn]⟩

end Expr

end CommandLanguage
