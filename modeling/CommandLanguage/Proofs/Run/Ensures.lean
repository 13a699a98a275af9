import CommandLanguage.Run.Basic

/-!
# What a run ensures

`Run.Ensures I F Q m` says what comes of `m` in a world where `I` holds, whatever the settings:
`I` still holds, a value meets `Q`, and a fault meets `F`. An end for want of fuel meets
everything, so nothing is said about whether a run comes to an end, but what is said holds of
every world that it goes through.

The rules follow the steps that runs are made of. There is one for each step of `Run`, and
`Ensures.bind` puts them together.
-/

namespace CommandLanguage

/-- An outcome whose value meets `Q`, or whose fault meets `F`. -/
def Outcome.Meets {α : Type} (F : Fault → Prop) (Q : α → Prop) : Outcome α → Prop
  | .value a => Q a
  | .fault f => F f
  | .outOfFuel => True

namespace Run

variable {α β : Type} {I : World → Prop} {F : Fault → Prop} {P Q : α → Prop} {R : β → Prop}

/-- One run after the other: only a value is gone on with, and a fault or a want of fuel is the end
of both. Every rule for two runs comes down to these three cases. -/
theorem bind_cases (m : Run α) (f : α → Run β) (c : Settings) (w : World) :
    (∃ a w', m c w = (.value a, w') ∧ (m >>= f) c w = f a c w') ∨
    (∃ e w', m c w = (.fault e, w') ∧ (m >>= f) c w = (.fault e, w')) ∨
    ∃ w', m c w = (.outOfFuel, w') ∧ (m >>= f) c w = (.outOfFuel, w') := by
  rw [bind_def]
  unfold Run.bind
  rcases m c w with ⟨a | e | _, w'⟩
  · exact .inl ⟨a, w', rfl, rfl⟩
  · exact .inr (.inl ⟨e, w', rfl, rfl⟩)
  · exact .inr (.inr ⟨w', rfl, rfl⟩)

/-- A run and a note on it end as the run does, in its world or in that after the note. For want of
fuel no note is taken. -/
theorem andNote_cases (m : Run α) (after : Bool → Run Unit) (c : Settings) (w : World) :
    (m.andNote after c w).1 = (m c w).1 ∧ ((m.andNote after c w).2 = (m c w).2 ∨
      ∃ ok, (m.andNote after c w).2 = (after ok c (m c w).2).2) := by
  unfold andNote
  rcases m c w with ⟨a | e | _, w'⟩
  · exact ⟨rfl, .inr ⟨true, rfl⟩⟩
  · exact ⟨rfl, .inr ⟨false, rfl⟩⟩
  · exact ⟨rfl, .inl rfl⟩

/-- From a world with `I`, a run comes to a world with `I`, with a value that meets `Q` or a fault
that meets `F`. It is said for all settings, as these do not change from step to step. -/
def Ensures (I : World → Prop) (F : Fault → Prop) (Q : α → Prop) (m : Run α) : Prop :=
  ∀ c w, I w → I (m c w).2 ∧ (m c w).1.Meets F Q

namespace Ensures

theorem pure {a : α} (h : Q a) : Ensures I F Q (Pure.pure a) := fun _ _ hw => ⟨hw, h⟩

theorem fault {f : Fault} (h : F f) : Ensures I F Q (Run.fault f) := fun _ _ hw => ⟨hw, h⟩

theorem outOfFuel : Ensures I F Q (Run.outOfFuel : Run α) := fun _ _ hw => ⟨hw, trivial⟩

/-- What the first run ensures of its value may be used for the second one. -/
theorem bind {m : Run α} {f : α → Run β} (hm : Ensures I F P m)
    (hf : ∀ a, P a → Ensures I F R (f a)) : Ensures I F R (m >>= f) := by
  intro c w hw
  obtain ⟨hI, hmeets⟩ := hm c w hw
  rcases bind_cases m f c w with ⟨a, w', hmc, h⟩ | ⟨e, w', hmc, h⟩ | ⟨w', hmc, h⟩ <;>
    rw [hmc] at hI hmeets <;> rw [h]
  · exact hf a hmeets c w' hI
  · exact ⟨hI, hmeets⟩
  · exact ⟨hI, trivial⟩

theorem mono {m : Run α} (hm : Ensures I F P m) (h : ∀ a, P a → Q a) : Ensures I F Q m := by
  intro c w hw
  obtain ⟨hI, hmeets⟩ := hm c w hw
  refine ⟨hI, ?_⟩
  rcases ho : (m c w).1 with a | e | _ <;> rw [ho] at hmeets
  · exact h a hmeets
  · exact hmeets
  · trivial

/-- A computation that leaves the world alone ensures what is so of its result, be it a value or a
fault. -/
theorem ofExcept {x : Except Fault α} (hv : ∀ a, x = .ok a → Q a)
    (hf : ∀ e, x = .error e → F e) : Ensures I F Q (Run.ofExcept x) := by
  cases x with
  | ok a => exact pure (hv a rfl)
  | error e => exact fault (hf e rfl)

theorem settings : Ensures I F (fun _ => True) Run.settings := fun _ _ hw => ⟨hw, trivial⟩

theorem engine : Ensures I F (fun _ => True) Run.engine := fun _ _ hw => ⟨hw, trivial⟩

theorem calls : Ensures I F (fun _ => True) Run.calls := fun _ _ hw => ⟨hw, trivial⟩

end Ensures

/-! ## Properties of the scopes

What is said about the scopes only is left alone by the steps that write, take notes, draw random
numbers or count calls. -/

section scopes

theorem scopes_note (level : Level) (text : Unit → String) (c : Settings) (w : World) :
    (note level text c w).2.scopes = w.scopes := by
  unfold note
  split <;> rfl

variable {S : Scopes → Prop}

/-- `Ensures` for a property of the scopes. -/
abbrev Keeps (S : Scopes → Prop) (F : Fault → Prop) (Q : α → Prop) (m : Run α) : Prop :=
  Ensures (fun w => S w.scopes) F Q m

namespace Keeps

theorem note (level : Level) (text : Unit → String) :
    Keeps S F (fun _ => True) (Run.note level text) := by
  intro c w hw
  unfold Run.note
  split <;> exact ⟨hw, trivial⟩

theorem write (s : String) : Keeps S F (fun _ => True) (Run.write s) :=
  fun _ _ hw => ⟨hw, trivial⟩

theorem scopes : Keeps S F S Run.scopes := fun _ _ hw => ⟨hw, hw⟩

theorem random : Keeps S F (fun v => ∃ n, v = .number n) Run.random := by
  intro c w hw
  -- said of any draws, as it does not matter which ones are left
  have any (n : Float) (draws : Nat → Nat) : S { w with draws }.scopes ∧
      (Outcome.value (Value.number n)).Meets F fun v => ∃ n, v = .number n := ⟨hw, n, rfl⟩
  exact any _ _

/-- What is read is a value of the name, or a number if it is the name with random numbers. Nothing
is known of that number. -/
theorem read {P : Value → Prop} {s : ScopeId} {name : String}
    (hget : ∀ σ v, S σ → σ.get? s name = some v → P v) (hnumber : ∀ n, P (.number n)) :
    Keeps S F (fun v? => ∀ v, v? = some v → P v) (Run.read s name) := by
  refine .bind scopes fun σ hσ => ?_
  split
  · rename_i v hv
    refine .pure fun x hx => ?_
    cases hx
    exact hget σ v hσ hv
  · split
    · refine .bind random fun v hv => .pure fun x hx => ?_
      obtain ⟨n, rfl⟩ := hv
      cases hx
      exact hnumber n
    · exact .pure fun x hx => nomatch hx

theorem modifyScopes {f : Scopes → Scopes} (h : ∀ σ, S σ → S (f σ)) :
    Keeps S F (fun _ => True) (Run.modifyScopes f) :=
  fun _ w hw => ⟨h w.scopes hw, trivial⟩

/-- One call deeper, the scopes are the same. -/
theorem deeper {m : Run α} (hm : Keeps S F Q m) : Keeps S F Q (Run.deeper m) := by
  intro c w hw
  exact hm c { w with calls := w.calls + 1 } hw

theorem andNote {m : Run α} {after : Bool → Run Unit} (hm : Keeps S F Q m)
    (hafter : ∀ ok, Keeps S F (fun _ => True) (after ok)) : Keeps S F Q (Run.andNote m after) := by
  intro c w hw
  obtain ⟨hI, hmeets⟩ := hm c w hw
  obtain ⟨hsame, hworld⟩ := andNote_cases m after c w
  rw [hsame]
  refine ⟨?_, hmeets⟩
  rcases hworld with hworld | ⟨ok, hworld⟩ <;> rw [hworld]
  · exact hI
  · exact (hafter ok c _ hI).1

end Keeps

end scopes

end Run

end CommandLanguage
