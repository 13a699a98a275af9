import CommandLanguage.Proofs.Eval.Invariant
import CommandLanguage.Proofs.Run.Returns

/-!
# The limit of calls

How many calls may lie within each other is a setting that only calls look at, and what they do
about it is to end the run. So a run that does not end for that reason is the same with any greater
limit: it comes to the same outcome and the same world, with the same scopes and the same output.

`Run.Outlives` says this of a run, as an alternative: either the limit is hit, and then nothing is
said, or the run does the same with the other limit. Of two runs one after the other it holds since
hitting the limit is a fault, so that there is nothing behind it. That makes it a `Logic`, in which
only a call has anything to do with the limit (`Eval.outlives_callClosure`).
-/

namespace CommandLanguage

/-- Whether a fault says that too many calls lie within each other. -/
def Fault.isCallLimit : Fault → Bool
  | .tooManyCalls _ => true
  | _ => false

/-- Too many calls lay within each other. A run that ends otherwise has not met the limit at all,
for no step of evaluation goes on from such a fault. -/
def Outcome.HitsLimit {α : Type} : Outcome α → Prop
  | .fault f => f.isCallLimit = true
  | _ => False

instance {α : Type} (o : Outcome α) : Decidable o.HitsLimit :=
  match o with
  | .fault f => inferInstanceAs (Decidable (f.isCallLimit = true))
  | .value _ | .outOfFuel => inferInstanceAs (Decidable False)

/-- Only a fault hits the limit. -/
theorem Outcome.HitsLimit.exists_fault {α : Type} {x : Outcome α × World} (h : x.1.HitsLimit) :
    ∃ f w, x = (.fault f, w) ∧ f.isCallLimit = true := by
  obtain ⟨_ | f | _, w⟩ := x
  · cases h
  · exact ⟨f, w, rfl, h⟩
  · cases h

/-- Settings with another limit of calls. -/
def Settings.withLimit (c : Settings) (limit : Nat) : Settings := { c with maxCalls := limit }

namespace Run

variable {α β : Type} {c : Settings} {limit : Nat} {P Q : α → Prop} {R : β → Prop} {m : Run α}

/-- With settings `c`, a run hits the limit of calls, or it has a value that meets `Q` if it has
one, and does the same with another limit. The alternative is for each world, as the number of calls
that are going on in it decides. -/
def Outlives (c : Settings) (limit : Nat) (Q : α → Prop) (m : Run α) : Prop :=
  ∀ w, (m c w).1.HitsLimit ∨
    m (c.withLimit limit) w = m c w ∧ (m c w).1.Meets (fun _ => True) Q

namespace Outlives

/-- A run that does not look at the limit. For most steps the two sides are equal by definition, and
then only its values are to be looked at. -/
theorem of_eq (h : m (c.withLimit limit) = m c)
    (hQ : ∀ w, (m c w).1.Meets (fun _ => True) Q) : Outlives c limit Q m :=
  fun w => .inr ⟨by rw [h], hQ w⟩

/-- A computation looks at no settings at all. -/
theorem ofExcept {x : Except Fault α} (h : ∀ a, Q a) : Outlives c limit Q (Run.ofExcept x) := by
  cases x with
  | ok a => exact of_eq rfl fun _ => h a
  | error f => exact of_eq rfl fun _ => trivial

/-- One run after the other: if the first one hits the limit, so do both, and otherwise the second
one begins in the same world with either limit. -/
theorem bind {f : α → Run β} (hm : Outlives c limit P m)
    (hf : ∀ a, P a → Outlives c limit R (f a)) : Outlives c limit R (m >>= f) := by
  intro w
  simp only [bind_def, Run.bind]
  rcases hm w with hn | ⟨hsame, hmeets⟩
  · -- the fault is the end of both runs
    obtain ⟨f, w', hfault, hlimit⟩ := hn.exists_fault
    rw [hfault]
    exact .inl hlimit
  · rw [hsame]
    rcases hmc : m c w with ⟨a | e | _, w'⟩ <;> rw [hmc] at hmeets
    · exact hf a hmeets w'
    · exact .inr ⟨rfl, trivial⟩
    · exact .inr ⟨rfl, trivial⟩

/-- A run that looks at settings other than the limit. -/
theorem settings {f : Settings → Run β} (hf : f (c.withLimit limit) = f c)
    (h : Outlives c limit R (f c)) : Outlives c limit R (Run.settings >>= f) := by
  intro w
  have hw := h w
  simp only [bind_def, Run.bind, Run.settings]
  rwa [hf]

/-- One call deeper, a run is the same if it is the same. The number of calls is put back in
both. -/
theorem deeper (hm : Outlives c limit Q m) : Outlives c limit Q (Run.deeper m) := by
  intro w
  rcases hm { w with calls := w.calls + 1 } with hn | ⟨hsame, hmeets⟩
  · exact .inl hn
  · refine .inr ⟨?_, hmeets⟩
    simp only [Run.deeper, hsame]

/-- A note behind a run is the same, since it is taken in the same world. If the run hits the limit,
so does the run with the note. -/
theorem andNote {after : Bool → Run Unit} (hm : Outlives c limit Q m)
    (hafter : ∀ ok, after ok (c.withLimit limit) = after ok c) :
    Outlives c limit Q (Run.andNote m after) := by
  intro w
  simp only [Run.andNote, hafter]
  rcases hm w with hn | ⟨hsame, hmeets⟩
  · -- the fault is the end of both runs
    obtain ⟨f, w', hfault, hlimit⟩ := hn.exists_fault
    rw [hfault]
    exact .inl hlimit
  · rw [hsame]
    rcases hmc : m c w with ⟨a | e | _, w'⟩ <;> rw [hmc] at hmeets <;>
      exact .inr ⟨rfl, hmeets⟩

end Outlives

end Run

namespace Eval

open Run (Outlives)

variable {c : Settings} {limit : Nat} {ev : Evaluator} {s : ScopeId}

/-- Notes look at the level of notes, and at no other setting. -/
theorem outlives_note (level : Level) (text : Unit → String) :
    Outlives c limit (fun _ => True) (Run.note level text) := by
  refine .of_eq rfl fun w => ?_
  unfold Run.note
  split <;> trivial

/-- To read a name looks at no settings, whether it is bound or a random number is drawn. -/
theorem outlives_read (s : ScopeId) (name : String) {Q : Option Value → Prop} (h : ∀ v?, Q v?) :
    Outlives c limit Q (Run.read s name) := by
  refine .bind (.of_eq (m := Run.scopes) (Q := fun _ => True) rfl fun _ => trivial) fun σ _ => ?_
  split
  · exact .of_eq rfl fun _ => h _
  · split
    · exact .of_eq rfl fun _ => h _
    · exact .of_eq rfl fun _ => h _

/-- Which operators write back is a setting, but another one. -/
theorem outlives_writeBack {o : Operator} {left : Expr} {v : Value}
    (hstore : ∀ t, left.target? = some t →
      Outlives c limit (fun _ => True) (store ev s t v.truthAsNumber)) :
    Outlives c limit (fun _ => True) (writeBack ev s o left v) := by
  refine .settings rfl ?_
  split
  · split
    · rename_i t ht
      exact hstore t ht
    · split
      · exact .of_eq rfl fun _ => trivial
      · exact .of_eq rfl fun _ => trivial
  · exact .of_eq rfl fun _ => trivial

/-- The note that is taken after a call. -/
def leave (k : Closure) (ok : Bool) : Run Unit := do
  let depth ← Run.calls
  Run.note .trace fun _ => s!"leave function name={k.shownName} ok={ok} depth={depth}"

/-- A call within the limit enters the function. -/
theorem callClosure_of_lt {caller : ScopeId} {k : Closure} {args : List Value} {w : World}
    (h : w.calls < c.maxCalls) :
    callClosure ev caller k args c w =
      Run.andNote (Run.deeper (enter ev caller k args)) (leave k) c w := by
  rw [callClosure, Run.bind_apply rfl, Run.bind_apply rfl, if_pos h]
  rfl

/-- A call beyond the limit hits it, so that nothing has to be said of what it would do
otherwise. -/
theorem hitsLimit_callClosure {caller : ScopeId} {k : Closure} {args : List Value} {w : World}
    (h : ¬w.calls < c.maxCalls) : (callClosure ev caller k args c w).1.HitsLimit := by
  rw [callClosure, Run.bind_apply rfl, Run.bind_apply rfl, if_neg h, Run.note_bind_apply]
  rfl

/-- A call that is within the limit is within a greater one, too. This is where the limits have to
be in this order: with a smaller one, the same call might be refused. -/
theorem outlives_callClosure (hlimit : c.maxCalls ≤ limit) {caller : ScopeId} {k : Closure}
    {args : List Value} {Q : Value → Prop} (henter : Outlives c limit Q (enter ev caller k args)) :
    Outlives c limit Q (callClosure ev caller k args) := by
  intro w
  by_cases h : w.calls < c.maxCalls
  · have h' : w.calls < (c.withLimit limit).maxCalls := Nat.lt_of_lt_of_le h hlimit
    rw [callClosure_of_lt h, callClosure_of_lt h']
    exact henter.deeper.andNote (fun _ => rfl) w
  · exact .inl (hitsLimit_callClosure h)

/-- Commands look at no settings, but for those of the program around, which are found there by
name. -/
theorem outlives_command {k : Command} {args : List Value} :
    Outlives c limit (Value.AllCallables fun _ => True) (k.run args) :=
  Command.keeps_run (Outlives c limit) _ (fun h => .of_eq rfl fun _ => h) .bind
    (fun _ => .of_eq rfl fun _ => trivial) (fun _ => .of_eq rfl fun _ => trivial)
    fun _ _ => .settings rfl (.ofExcept fun _ _ _ => trivial)

/-- Runs that are the same with a greater limit of calls. The fields for single steps are the lemmas
above, and the logic puts them together for all of evaluation. -/
def outliving (hlimit : c.maxCalls ≤ limit) : Logic where
  Keeps := Outlives c limit
  scope _ := True
  expr _ := True
  callable _ := True
  keeps_pure h := .of_eq rfl fun _ => h
  keeps_bind := .bind
  keeps_outOfFuel := .of_eq rfl fun _ => trivial
  keeps_note := outlives_note
  keeps_engine := .of_eq rfl fun _ => trivial
  keeps_calls := .of_eq rfl fun _ => trivial
  keeps_read s name := outlives_read s name fun _ _ _ _ _ => trivial
  keeps_define _ _ _ := .of_eq rfl fun _ => trivial
  keeps_assign _ _ _ := .of_eq rfl fun _ => trivial
  keeps_remove _ _ := .of_eq rfl fun _ => trivial
  keeps_extend _ := .of_eq rfl fun _ => trivial
  child _ _ := trivial
  function _ _ := trivial
  parameter _ _ := trivial
  body _ := trivial
  keeps_command _ _ := outlives_command
  keeps_fault _ := .of_eq rfl fun _ => trivial
  keeps_unknownBinary _ _ := .of_eq rfl fun _ => trivial
  keeps_unknownUnary _ _ := .of_eq rfl fun _ => trivial
  keeps_notAParameter _ _ _ _ := .of_eq rfl fun _ => trivial
  keeps_writeBack _ := outlives_writeBack
  keeps_callClosure _ := outlives_callClosure hlimit

end Eval

namespace Program

/-- **A greater limit changes nothing but the hitting of it.** If a script ends with a value or with
a fault other than too many calls within each other, then with any greater limit it ends in the same
way, in the same world: the same bindings in all scopes, the same output and notes, and the same
random numbers still to come. -/
theorem run_withLimit (program : List Expr) (s : ScopeId) (c : Settings) {limit : Nat}
    (hlimit : c.maxCalls ≤ limit) (w : World) (h : ¬(run program s c w).1.HitsLimit) :
    run program s (c.withLimit limit) w = run program s c w := by
  have hrun : Run.Outlives c limit (Value.AllCallables fun _ => True) (run program s) :=
    (Eval.outliving hlimit).keeps_program trivial fun _ _ => trivial
  rcases hrun w with hn | ⟨hsame, -⟩
  · exact absurd hn h
  · exact hsame

/-- One call, which a limit of one allows. -/
theorem run_withLimit_one :
    let program : List Expr := [
      .function 0 (some "f") [.variable "x" false] (.variable "x" true),
      .call (.variable "f" false) [.text "a" .double]]
    let c : Settings := { maxCalls := 1 }
    c.maxCalls ≤ 7 ∧ ¬(run program 0 c {}).1.HitsLimit ∧
      run program 0 (c.withLimit 7) {} = run program 0 c {} := by
  intro program c
  have h : ¬(run program 0 c {}).1.HitsLimit := by decide +kernel
  exact ⟨by decide, h, run_withLimit program 0 c (by decide) {} h⟩

end Program

end CommandLanguage
