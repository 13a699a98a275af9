import CommandLanguage.Proofs.Run.Returns
import CommandLanguage.Run.Command

/-!
# What runs write

Only commands write, and only three of them: `Command.emitted` is the text of a call. `Run.Calls`
says which commands a run calls, in the order in which it does: a run that is put together from
others calls what they call, one after the other, and on a fault or at the end of the fuel no more
than what was called until then. All that a run does to the output is then to append the texts of its
calls (`Run.Calls.output_eq`).
-/

namespace CommandLanguage

/-- The text that a command writes when it is called. A call that fails writes nothing: `printf`
looks at its whole format before it writes, and the others do not fail. -/
def Command.emitted : Command → List Value → String
  | .echo, args => line args ++ "\n"
  | .print, args => line args
  | .printf, format :: args =>
    match formatted format.toText.toList args with
    | .ok text => String.ofList text
    | .error _ => ""
  | _, _ => ""

/-- The call of a command. -/
structure Call where
  /-- what is called -/
  command : Command
  /-- with what -/
  args : List Value

/-- The text that the call writes. -/
def Call.text (k : Call) : String := k.command.emitted k.args

/-- The texts that calls write, one after the other. -/
def Call.texts (ks : List Call) : String := String.join (ks.map Call.text)

namespace Call

@[simp] theorem texts_nil : texts [] = "" := rfl

@[simp] theorem texts_singleton (k : Call) : texts [k] = k.text := by
  simp [texts]

@[simp] theorem texts_append (ks ks' : List Call) : texts (ks ++ ks') = texts ks ++ texts ks' := by
  simp [texts]

end Call

namespace Run

variable {α β : Type} {c : Settings} {m : Run α} {w : World} {ks ks' : List Call}

/-- A run that leaves the output alone, whatever it is and whatever the settings are. -/
def Quiet (m : Run α) : Prop := ∀ c w, (m c w).2.output = w.output

/-- The commands that a run calls with settings `c`, from a world, in their order. There is one rule
for each way in which runs are put together. A run whose first part ends without a value calls
nothing more, and a function is not a command: what it calls counts as called by the run that called
it. -/
inductive Calls (c : Settings) : {α : Type} → Run α → World → List Call → Prop
  /-- what leaves the output alone calls none -/
  | quiet {α : Type} {m : Run α} {w : World} : m.Quiet → Calls c m w []
  /-- a command -/
  | command (k : Call) (w : World) : Calls c (k.command.run k.args) w [k]
  /-- one run and then, on its value, another one -/
  | bind {α β : Type} {m : Run α} {f : α → Run β} {w w' : World} {a : α} {ks ks' : List Call} :
    Calls c m w ks → m c w = (.value a, w') → Calls c (f a) w' ks' →
      Calls c (m >>= f) w (ks ++ ks')
  /-- a run without a value, behind which no other one comes -/
  | stop {α β : Type} {m : Run α} {f : α → Run β} {w : World} {ks : List Call} :
    Calls c m w ks → (∀ a, (m c w).1 ≠ .value a) → Calls c (m >>= f) w ks
  /-- a run one call of a function deeper -/
  | deeper {α : Type} {m : Run α} {w : World} {ks : List Call} :
    Calls c m { w with calls := w.calls + 1 } ks → Calls c m.deeper w ks
  /-- a run and a note on it -/
  | andNote {α : Type} {m : Run α} {after : Bool → Run Unit} {w : World} {ks : List Call} :
    Calls c m w ks → (∀ ok, (after ok).Quiet) → Calls c (m.andNote after) w ks
  /-- a run before which no call of a function is going on -/
  | afresh {α : Type} {m : Run α} {w : World} {ks : List Call} :
    Calls c m { w with calls := 0 } ks → Calls c (fun c w => m c { w with calls := 0 }) w ks

/-! ## What leaves the output alone

Nearly all steps of a run do. They are gone through once here, so that in an account of a run only
the commands are left to be looked at. -/

namespace Quiet

theorem pure (a : α) : Quiet (Pure.pure a) := fun _ _ => rfl

theorem fault (f : Fault) : Quiet (Run.fault f : Run α) := fun _ _ => rfl

theorem ofExcept (x : Except Fault α) : Quiet (Run.ofExcept x) := by
  cases x with
  | ok a => exact pure a
  | error f => exact fault f

theorem bind {f : α → Run β} (hm : m.Quiet) (hf : ∀ a, (f a).Quiet) : Quiet (m >>= f) := by
  intro c w
  have hmw := hm c w
  rcases bind_cases m f c w with ⟨a, w', hmc, h⟩ | ⟨e, w', hmc, h⟩ | ⟨w', hmc, h⟩ <;>
    rw [hmc] at hmw <;> rw [h]
  · exact (hf a c w').trans hmw
  · exact hmw
  · exact hmw

theorem note (level : Level) (text : Unit → String) : Quiet (Run.note level text) := by
  intro c w
  obtain ⟨notes, h⟩ := exists_note level text c w
  rw [h]

theorem random : Quiet Run.random := by
  intro c w
  -- said of any draws, as it does not matter which ones are left
  have any (draws : Nat → Nat) : { w with draws }.output = w.output := rfl
  exact any _

theorem read (s : ScopeId) (name : String) : Quiet (Run.read s name) := by
  refine .bind (fun _ _ => rfl) fun σ => ?_
  split
  · exact .pure _
  · split
    · exact .bind .random fun _ => .pure _
    · exact .pure _

end Quiet

/-- Without a value, nothing comes behind a run. -/
theorem output_bind_of_no_value {f : α → Run β} (h : ∀ a, (m c w).1 ≠ .value a) :
    ((m >>= f) c w).2.output = (m c w).2.output := by
  rcases bind_cases m f c w with ⟨a, w', hmc, heq⟩ | ⟨e, w', hmc, heq⟩ | ⟨w', hmc, heq⟩ <;>
    rw [hmc] at h ⊢
  · exact absurd rfl (h a)
  · rw [heq]
  · rw [heq]

/-- A note on a run leaves its output alone. -/
theorem output_andNote {after : Bool → Run Unit} (h : ∀ ok, (after ok).Quiet) :
    (m.andNote after c w).2.output = (m c w).2.output := by
  rcases (andNote_cases m after c w).2 with hworld | ⟨ok, hworld⟩ <;> rw [hworld]
  exact h ok c _

/-! ## What is appended

The output of a world is a single text, and a new line is put between what is in it and what comes.
So what several calls append is said by joining their texts. -/

/-- A command appends its text, and nothing if it fails: one case for each command. -/
theorem output_command (k : Command) (args : List Value) (c : Settings) (w : World) :
    (k.run args c w).2.output = w.output ++ k.emitted args := by
  cases k with
  | printf =>
    cases args with
    | nil => simp [Command.emitted, Command.run, Run.fault]
    | cons format args =>
      dsimp only [Command.emitted, Command.run]
      -- the text is made first, and nothing is written if it cannot be
      cases Command.formatted format.toText.toList args with
      | ok text => rfl
      | error f => exact (String.append_empty).symm
  | len =>
    unfold Command.run
    dsimp only
    split <;> simp [Command.emitted, pure_def]
  | join | split => cases args <;> simp [Command.emitted, Command.run, pure_def, Run.fault]
  | typeof => simp [Command.emitted, Command.run, pure_def]
  | echo | print => rfl
  | host name =>
    have hquiet : Quiet ((Command.host name).run args) :=
      .bind (fun _ _ => rfl) fun c => .ofExcept _
    simp [Command.emitted, hquiet c w]

/-- Where a run starts with something that leaves the output alone, its calls are those that come
behind it. -/
theorem Calls.behind {f : α → Run β} {w' : World} {a : α} (hm : m.Quiet)
    (h : m c w = (.value a, w')) (hf : Calls c (f a) w' ks) : Calls c (m >>= f) w ks :=
  .bind (.quiet hm) h hf

/-- What a run does to the output is to append the texts of its calls, by induction on the
account. -/
theorem Calls.output_eq (h : Calls c m w ks) : (m c w).2.output = w.output ++ Call.texts ks := by
  induction h with
  | quiet h => rw [h, Call.texts_nil, String.append_empty]
  | command k w => rw [output_command, Call.texts_singleton, Call.text]
  | bind _ hvalue _ ihm ihf =>
    rw [hvalue] at ihm
    rw [bind_apply hvalue, ihf, ihm, Call.texts_append, String.append_assoc]
  | stop _ hno ih => rw [output_bind_of_no_value hno, ih]
  | deeper _ ih | afresh _ ih => exact ih
  | andNote _ hafter ih => rw [output_andNote hafter, ih]

end Run

end CommandLanguage
