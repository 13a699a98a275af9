import CommandLanguage.Proofs.Eval.CallLimit
import CommandLanguage.Proofs.Eval.Likeness

/-!
# The depth of calls

The number of calls going on is counted in the world. Whatever is evaluated, and however that ends,
the number is afterwards what it was before. Bodies and default values of functions that are called
are evaluated when it is at least one and at most the limit, and the fault of too many calls is raised
when a call comes that would exceed the limit, and at no other time.

That something is evaluated only at certain depths is said by evaluating something else at all other
depths: evaluation is the same whatever that is (`Eval.within`). That the fault is raised only there
is said by raising another one in its place (`Eval.stoppingAt`).
-/

namespace CommandLanguage

/-- Some command of the program around fails as if it had called too many functions. -/
def Settings.HostHitsLimit (c : Settings) : Prop :=
  ∃ name args f, c.host name args = .error f ∧ f.isCallLimit = true

namespace Run

variable {α β : Type} {c : Settings} {depth : Nat → Prop} {F : Fault → Prop}
  {stop : Fault → Fault → Prop} {P Q : α → Prop} {R : β → Prop} {m m' : Run α} {w : World}

/-- With settings `c`, from the world `w`: the number of calls is in the end what it was, and two runs
do the same, with a fault that meets `F` if with one, or they end in the same world with two faults
that `stop` relates. -/
def InStepAt (c : Settings) (F : Fault → Prop) (stop : Fault → Fault → Prop) (Q : α → Prop)
    (m m' : Run α) (w : World) : Prop :=
  (m c w).2.calls = w.calls ∧ (m' c w = m c w ∧ (m c w).1.Meets F Q ∨
    ∃ f f' w', stop f f' ∧ m c w = (.fault f, w') ∧ m' c w = (.fault f', w'))

/-- The same from every world whose number of calls meets `depth`. Since the number does not change,
a condition on it holds all along, and this is what makes the rule for binds possible. -/
def InStep (c : Settings) (depth : Nat → Prop) (F : Fault → Prop) (stop : Fault → Fault → Prop)
    (Q : α → Prop) (m m' : Run α) : Prop :=
  ∀ w, depth w.calls → InStepAt c F stop Q m m' w

namespace InStepAt

/-- One call deeper. The number of calls is put back behind the run, also if that ends in a
fault. -/
theorem deeper (hm : InStepAt c F stop Q m m' { w with calls := w.calls + 1 }) :
    InStepAt c F stop Q m.deeper m'.deeper w := by
  obtain ⟨hcalls, hm⟩ := hm
  refine ⟨by simp only [Run.deeper, hcalls, Nat.add_sub_cancel], ?_⟩
  rcases hm with ⟨hsame, hmeets⟩ | ⟨g, g', w', hstop, hg, hg'⟩
  · exact .inl ⟨by simp only [Run.deeper, hsame], hmeets⟩
  · refine .inr ⟨g, g', { w' with calls := w'.calls - 1 }, hstop, ?_, ?_⟩
    · simp only [Run.deeper, hg]
    · simp only [Run.deeper, hg']

/-- A note is taken in the world that both runs leave, and does not change the number of calls. -/
theorem andNote {after : Bool → Run Unit} (hafter : ∀ ok c w, (after ok c w).2.calls = w.calls)
    (hm : InStepAt c F stop Q m m' w) :
    InStepAt c F stop Q (m.andNote after) (m'.andNote after) w := by
  obtain ⟨hcalls, hm⟩ := hm
  obtain ⟨hout, hworld⟩ := andNote_cases m after c w
  refine ⟨?_, ?_⟩
  · rcases hworld with hworld | ⟨ok, hworld⟩ <;> rw [hworld]
    · exact hcalls
    · rw [hafter, hcalls]
  · rcases hm with ⟨hsame, hmeets⟩ | ⟨g, g', w', hstop, hg, hg'⟩
    · exact .inl ⟨by simp only [Run.andNote, hsame], by rw [hout]; exact hmeets⟩
    · refine .inr ⟨g, g', (after false c w').2, hstop, ?_, ?_⟩
      · simp only [Run.andNote, hg]
      · simp only [Run.andNote, hg']

end InStepAt

namespace InStep

/-- A run that does not change the number of calls, and does the same on both sides because it is
the same run. -/
theorem of_steady (h : ∀ w, (m c w).2.calls = w.calls ∧ (m c w).1.Meets F Q) :
    InStep c depth F stop Q m m :=
  fun w _ => ⟨(h w).1, .inl ⟨rfl, (h w).2⟩⟩

/-- One run after the other. The second one begins with as many calls as the first one did, so the
condition on the number is met there as well. -/
theorem bind {f f' : α → Run β} (hm : InStep c depth F stop P m m')
    (hf : ∀ a, P a → InStep c depth F stop R (f a) (f' a)) :
    InStep c depth F stop R (m >>= f) (m' >>= f') := by
  intro w hw
  obtain ⟨hcalls, ⟨hsame, hmeets⟩ | ⟨g, g', w', hstop, hg, hg'⟩⟩ := hm w hw
  · rcases hmc : m c w with ⟨a | e | _, w'⟩ <;> rw [hmc] at hcalls hsame hmeets
    · -- the second run begins with as many calls as the first one did
      have hcalls' : w'.calls = w.calls := hcalls
      rw [InStepAt, bind_apply hmc, bind_apply hsame]
      rw [← hcalls'] at hw ⊢
      exact hf a hmeets w' hw
    · rw [InStepAt, bind_fault_apply hmc, bind_fault_apply hsame]
      exact ⟨hcalls, .inl ⟨rfl, hmeets⟩⟩
    · rw [InStepAt, bind_outOfFuel_apply hmc, bind_outOfFuel_apply hsame]
      exact ⟨hcalls, .inl ⟨rfl, trivial⟩⟩
  · -- the two faults are the ends of both sides, and what would come behind them does not
    rw [hg] at hcalls
    rw [InStepAt, bind_fault_apply hg, bind_fault_apply hg']
    exact ⟨hcalls, .inr ⟨g, g', w', hstop, rfl, rfl⟩⟩

/-- Less may be asked of the value. -/
theorem mono (hm : InStep c depth F stop P m m') (h : ∀ a, P a → Q a) :
    InStep c depth F stop Q m m' := by
  rw [← bind_pure m, ← bind_pure m']
  exact hm.bind fun a ha => of_steady fun _ => ⟨rfl, h a ha⟩

/-- A draw changes nothing but what is left to draw. -/
theorem random : InStep c depth F stop (fun _ => True) Run.random Run.random := by
  refine of_steady fun w => ?_
  -- said of any draws, as it does not matter which ones are left
  have any (v : Value) (draws : Nat → Nat) : ({ w with draws } : World).calls = w.calls ∧
      (Outcome.value v).Meets F fun _ => True := ⟨rfl, trivial⟩
  exact any _ _

/-- Reading a name does not count calls, and neither does a random number. -/
theorem read (s : ScopeId) (name : String) :
    InStep c depth F stop (fun _ => True) (Run.read s name) (Run.read s name) := by
  refine .bind (P := fun _ => True) (of_steady fun _ => ⟨rfl, trivial⟩) fun σ _ => ?_
  split
  · exact of_steady fun _ => ⟨rfl, trivial⟩
  · split
    · exact .bind random fun _ _ => of_steady fun _ => ⟨rfl, trivial⟩
    · exact of_steady fun _ => ⟨rfl, trivial⟩

/-- Notes are taken, or not, without counting calls. -/
theorem note (level : Level) (text : Unit → String) :
    InStep c depth F stop (fun _ => True) (Run.note level text) (Run.note level text) := by
  refine of_steady fun w => ?_
  simp only [Run.note]
  split <;> exact ⟨rfl, trivial⟩

/-- A command does not call functions. Only those of the program around can fail in every way, and
so it is asked of them what they may fail with. -/
theorem command (hF : ∀ f, (∀ n, f ≠ .tooManyCalls n) → F f)
    (hhost : ∀ name args f, c.host name args = .error f → F f) (k : Command) (args : List Value) :
    InStep c depth F stop (fun _ => True) (k.run args) (k.run args) := by
  have hrun : InStep c depth F stop (Value.AllCallables fun _ => True) (k.run args) (k.run args) := by
    -- a command is put together from steps that were treated above; what is left is to say so of
    -- its faults
    refine Command.keeps_run (fun Q m => InStep c depth F stop Q m m) _ ?_ bind ?_ ?_ ?_
    · exact fun h => of_steady fun _ => ⟨rfl, h⟩
    · intro α Q f hf
      refine of_steady fun _ => ⟨rfl, hF f fun n hn => ?_⟩
      rw [hn] at hf
      cases hf
    · exact fun _ => of_steady fun _ => ⟨rfl, trivial⟩
    · intro name _ w _
      refine ⟨?_, .inl ⟨rfl, ?_⟩⟩ <;> rw [Command.run, bind_apply rfl] <;>
        cases h : c.host name args with
        | ok v => first | rfl | exact fun _ _ => trivial
        | error f => first | rfl | exact hhost name args f h
  exact hrun.mono fun _ _ => trivial

end InStep

end Run

namespace Eval

open Run (InStep InStepAt)

variable {c : Settings} {depth : Nat → Prop} {F : Fault → Prop} {stop : Fault → Fault → Prop}

/-- Runs that are in step. What faults may be is a parameter, since only those of the program around
can be about the number of calls without there having been too many. -/
def inStep (depth : Nat → Prop) (stop : Fault → Fault → Prop)
    (hF : ∀ f, (∀ n, f ≠ .tooManyCalls n) → F f)
    (hhost : ∀ name args f, c.host name args = .error f → F f) : Likeness where
  Like := InStep c depth F stop
  like_pure h := .of_steady fun _ => ⟨rfl, h⟩
  like_bind := .bind
  like_outOfFuel := .of_steady fun _ => ⟨rfl, trivial⟩
  like_fault h := .of_steady fun _ => ⟨rfl, hF _ h⟩
  like_note := .note
  like_settings := .of_steady fun _ => ⟨rfl, trivial⟩
  like_calls := .of_steady fun _ => ⟨rfl, trivial⟩
  like_read := .read
  like_modifyScopes _ := .of_steady fun _ => ⟨rfl, trivial⟩
  like_extend _ := .of_steady fun _ => ⟨rfl, trivial⟩
  like_command := .command hF hhost

variable {ev ev' : Evaluator} {n : Nat} {f : Fault}

/-! ## Calls -/

/-- The note that is taken when a function is left does not count calls. -/
theorem calls_leave (k : Closure) (ok : Bool) (c : Settings) (w : World) :
    (leave k ok c w).2.calls = w.calls := by
  obtain ⟨notes, h⟩ := Run.exists_note .trace
    (fun _ => s!"leave function name={k.shownName} ok={ok} depth={w.calls}") c w
  rw [leave, Run.bind_apply rfl, h]

/-- Takes the note of a call that is refused, and fails. -/
def refuse (k : Closure) (f : Fault) : Run Value := do
  let limit := (← Run.settings).maxCalls
  Run.note .debug fun _ => s!"call depth exceeded function={k.shownName} limit={limit}"
  Run.fault f

/-- A call is refused in the same world with any fault. -/
theorem exists_refuse (k : Closure) (c : Settings) (w : World) :
    ∃ notes, ∀ f, refuse k f c w = (.fault f, { w with notes }) := by
  obtain ⟨notes, h⟩ := Run.exists_note .debug
    (fun _ => s!"call depth exceeded function={k.shownName} limit={c.maxCalls}") c w
  refine ⟨notes, fun f => ?_⟩
  rw [refuse, Run.bind_apply rfl, Run.note_bind_apply, h]
  rfl

/-- A call beyond the limit is refused. -/
theorem callClosure_of_not_lt {caller : ScopeId} {k : Closure} {args : List Value} {w : World}
    (h : ¬w.calls < c.maxCalls) :
    callClosure ev caller k args c w = refuse k (.tooManyCalls c.maxCalls) c w := by
  rw [callClosure, Run.bind_apply rfl, Run.bind_apply rfl, if_neg h]
  rfl

/-! ## What is evaluated in a call -/

/-- Evaluates in the given way when at least one call is going on and at most as many as are allowed,
and in another way otherwise. -/
def within (astray ev : Evaluator) : Evaluator := fun e s c w =>
  if 0 < w.calls ∧ w.calls ≤ c.maxCalls then ev e s c w else astray e s c w

/-- Bodies and default values are not evaluated at any other depth. A call within the limit enters
the function one call deeper, where the depth is right; and a call beyond it evaluates nothing. -/
theorem callClosure_within (hev : ∀ e s c w, (ev e s c w).2.calls = w.calls) (astray : Evaluator) :
    callClosure (within astray ev) = callClosure ev := by
  funext caller k args c w
  by_cases h : w.calls < c.maxCalls
  · let L : Likeness := inStep (c := c) (F := fun _ => True)
      (fun d => 0 < d ∧ d ≤ c.maxCalls) (fun _ _ => False) (fun _ _ => trivial) fun _ _ _ _ => trivial
    -- in step on the condition that the depth is right, which is where the two ways to evaluate
    -- agree
    have halike : L.Alike ev (within astray ev) := by
      intro e s w' hw'
      refine ⟨hev e s c w', .inl ⟨if_pos hw', ?_⟩⟩
      cases (ev e s c w').1 <;> trivial
    rw [callClosure_of_lt h, callClosure_of_lt h]
    have henter := Likeness.likes_enter halike caller k args { w with calls := w.calls + 1 }
      ⟨Nat.succ_pos _, h⟩
    obtain ⟨-, ⟨hsame, -⟩ | ⟨_, _, _, hstop, -⟩⟩ := henter.deeper.andNote (calls_leave k)
    · exact hsame
    · cases hstop
  · rw [callClosure_of_not_lt h, callClosure_of_not_lt h]

/-! ## Where the limit is hit

A fault about the limit of calls has been raised where a call was about to exceed it, for nothing
else raises it and nothing hides it. -/

/-- Calls functions without a limit, but refuses with the fault `f` a call that would lie within `n`
others. -/
def stoppingAt (n : Nat) (f : Fault) : Calling := fun ev caller k args => do
  let depth ← Run.calls
  if depth = n then refuse k f
  else Run.andNote (Run.deeper (enter ev caller k args)) (leave k)

/-- With settings `c`, evaluation and evaluation that refuses calls within `n` others with the fault
`f` are in step: both refuse the same call, or neither does and the limit is not hit. -/
def stopping (c : Settings) (n : Nat) (f : Fault) : Likeness :=
  inStep (c := c) (F := fun g => g.isCallLimit = true → c.HostHitsLimit)
    (fun d => max d c.maxCalls = n) (fun g g' => g = .tooManyCalls c.maxCalls ∧ g' = f)
    (fun g hg h => by cases g <;> simp_all [Fault.isCallLimit])
    fun name args g hg h => ⟨name, args, g, hg, h⟩

/-- At each call the two sides do the same: within the limit both enter the function, and at it both
refuse, each with its fault. `n` is the greater of the limit and the number of calls in the
beginning. -/
theorem callsAlike_stopping (c : Settings) (n : Nat) (f : Fault) :
    (stopping c n f).CallsAlike callClosure (stoppingAt n f) := by
  intro ev ev' hev caller k args w hw
  have hw : max w.calls c.maxCalls = n := hw
  by_cases h : w.calls < c.maxCalls
  · -- within the limit, the number of calls is not the one to stop at
    have hn : w.calls ≠ n := by omega
    have henter := Likeness.likes_enter hev caller k args { w with calls := w.calls + 1 }
      (show max (w.calls + 1) c.maxCalls = n by omega)
    rw [InStepAt, callClosure_of_lt h, stoppingAt, Run.bind_apply rfl, if_neg hn]
    exact henter.deeper.andNote (calls_leave k)
  · -- beyond the limit it is, as it cannot have gone on from there
    have hn : w.calls = n := by omega
    obtain ⟨notes, hrefuse⟩ := exists_refuse k c w
    rw [InStepAt, callClosure_of_not_lt h, stoppingAt, Run.bind_apply rfl, if_pos hn, hrefuse,
      hrefuse]
    exact ⟨rfl, .inr ⟨_, _, _, ⟨rfl, rfl⟩, rfl, rfl⟩⟩

/-- Whatever is evaluated, the number of calls is afterwards what it was. It comes of the comparison
with any other fault, in which it is carried along. -/
theorem calls_evaluateFrom (fuel : Nat) (e : Expr) (s : ScopeId) (c : Settings) (w : World) :
    (evaluateFrom fuel e s c w).2.calls = w.calls := by
  have h := Likeness.alike_evaluateCalling (callsAlike_stopping c (max w.calls c.maxCalls)
    .notANumber) fuel e s w rfl
  rw [evaluateCalling_eq fun _ => rfl] at h
  exact h.1

end Eval

/-! ## Tasks -/

/-- Something that evaluation can be asked for: an expression, a script or a call of a value, each
in some scope. -/
inductive Task where
  /-- to evaluate an expression -/
  | expr (e : Expr) (s : ScopeId)
  /-- to run a script -/
  | program (es : List Expr) (s : ScopeId)
  /-- to call a value -/
  | call (v : Value) (args : List Value) (caller : ScopeId)

namespace Task

open Eval

/-- Does what is asked. -/
def run : Task → Run Value
  | .expr e s => e.evaluate s
  | .program es s => Program.run es s
  | .call v args caller => v.call args caller

/-- Does what is asked, functions being called as `how` says. The way to call is a parameter so that
a run can be compared with one whose calls stop at a given depth. -/
def runCalling (how : Calling) : Task → Run Value
  | .expr e s => evaluateCalling how enough e s
  | .program es s => Program.runFrom (evaluateCalling how enough) s .null es
  | .call v args caller => callValueCalling how (evaluateCalling how enough) caller v args

/-- What is asked is done as it is, if functions are called as they are. -/
theorem runCalling_eq {how : Calling}
    (h : ∀ fuel, how (evaluateFrom fuel) = callClosure (evaluateFrom fuel)) (t : Task) :
    t.runCalling how = t.run := by
  cases t with
  | expr | program => simp only [runCalling, evaluateCalling_eq h]; rfl
  | call =>
    simp only [runCalling, evaluateCalling_eq h, callValueCalling_eq (h enough)]
    rfl

/-- What is asked is done in step with calls that stop where the limit is reached. Up to there the
two runs are the same, and there both end. -/
theorem likes_runCalling (c : Settings) (n : Nat) (f : Fault) (t : Task) :
    (stopping c n f).Likes t.run (t.runCalling (stoppingAt n f)) := by
  have hcalls := callsAlike_stopping c n f
  have hev := Likeness.alike_evaluateCalling hcalls enough
  rw [← runCalling_eq (fun _ => rfl) t]
  cases t with
  | expr e s => exact hev e s
  | program es s => exact Likeness.likes_runFrom hev s .null es
  | call v args caller => exact Likeness.likes_callValueCalling hcalls hev caller v args

/-- **Calls are counted in balance, and never beyond the limit.** Whatever is asked for, with any
settings and in any world, and whether it ends with a value or with a fault:

* the number of calls going on is afterwards what it was before;
* bodies and default values of functions that are called are evaluated when at least one call is
  going on and at most as many as are allowed: whatever would be done with them at any other depth,
  nothing changes;
* unless a command of the program around fails like this, the fault of too many calls is raised if
  and only if a call would lie within as many others as are allowed (within as many as were going on
  in the beginning, if these are more already): either the task ends with that fault, and without a
  limit, any fault `f` in place of that call is what it would end with in the same world; or all of
  it is as it would be without a limit, and the fault is not raised. -/
theorem calls_balanced_and_bounded (t : Task) (c : Settings) (w : World) :
    (t.run c w).2.calls = w.calls ∧
    (∀ astray : Evaluator, t.runCalling (fun ev => callClosure (within astray ev)) = t.run) ∧
    ∀ f : Fault,
      (∃ w', t.run c w = (.fault (.tooManyCalls c.maxCalls), w') ∧
        t.runCalling (stoppingAt (max w.calls c.maxCalls) f) c w = (.fault f, w')) ∨
      (t.runCalling (stoppingAt (max w.calls c.maxCalls) f) c w = t.run c w ∧
        ((t.run c w).1.HitsLimit → c.HostHitsLimit)) := by
  have hstep (f : Fault) := t.likes_runCalling c (max w.calls c.maxCalls) f w rfl
  refine ⟨(hstep .notANumber).1, fun astray => ?_, fun f => ?_⟩
  · exact runCalling_eq (fun fuel => callClosure_within (calls_evaluateFrom fuel) astray) t
  · obtain ⟨-, ⟨hsame, hmeets⟩ | ⟨_, _, w', ⟨rfl, rfl⟩, hlimit, hf⟩⟩ := hstep f
    · refine .inr ⟨hsame, fun hhits => ?_⟩
      cases ho : (t.run c w).1 with
      | fault g =>
        rw [ho] at hhits hmeets
        exact hmeets hhits
      | value | outOfFuel =>
        rw [ho] at hhits
        cases hhits
    · exact .inl ⟨w', hlimit, hf⟩

end Task

end CommandLanguage
