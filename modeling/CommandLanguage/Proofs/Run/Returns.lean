import CommandLanguage.Proofs.Run.Ensures

/-!
# Runs that only read

`Run.Returns σ Q m` says that `m` has a value, and not a fault, whenever the scopes are `σ`; that
the value meets `Q`; and that the scopes are still `σ` then. Unlike `Run.Ensures` it promises that
there is a value.

Reading is the main case. What is read depends on the scopes and, for the name with random numbers,
on what is drawn: `Scopes.readAt` is the value of a name for given draws.
-/

namespace CommandLanguage

namespace Run

/-- A run with a value goes on with it. -/
theorem bind_apply {α β : Type} {m : Run α} {f : α → Run β} {c : Settings} {w w' : World} {a : α}
    (h : m c w = (.value a, w')) : (m >>= f) c w = f a c w' := by
  rw [bind_def, Run.bind, h]

theorem bind_fault_apply {α β : Type} {m : Run α} {f : α → Run β} {c : Settings} {w w' : World}
    {e : Fault} (h : m c w = (.fault e, w')) : (m >>= f) c w = (.fault e, w') := by
  rw [bind_def, Run.bind, h]

theorem bind_outOfFuel_apply {α β : Type} {m : Run α} {f : α → Run β} {c : Settings}
    {w w' : World} (h : m c w = (.outOfFuel, w')) : (m >>= f) c w = (.outOfFuel, w') := by
  rw [bind_def, Run.bind, h]

/-- A run with a value that goes on with that of another one. -/
theorem exists_of_bind {α β : Type} {m : Run α} {f : α → Run β} {c : Settings} {w w' : World}
    {b : β} (h : (m >>= f) c w = (.value b, w')) :
    ∃ a w₁, m c w = (.value a, w₁) ∧ f a c w₁ = (.value b, w') := by
  rcases bind_cases m f c w with ⟨a, w₁, hm, heq⟩ | ⟨e, w₁, -, heq⟩ | ⟨w₁, -, heq⟩ <;> rw [heq] at h
  · exact ⟨a, w₁, hm, h⟩
  · cases h
  · cases h

/-- Two runs do the same if their first parts do, and what follows on a value does. What follows has
to be the same only for the value and the world that the first part comes to. -/
theorem bind_congr {α β : Type} {m m' : Run α} {f g : α → Run β} {c : Settings} {w : World}
    (hm : m c w = m' c w) (hf : ∀ a w', m c w = (.value a, w') → f a c w' = g a c w') :
    (m >>= f) c w = (m' >>= g) c w := by
  rcases h : m c w with ⟨a | e | _, w'⟩ <;> rw [h] at hm
  · rw [bind_apply h, bind_apply hm.symm]
    exact hf a w' h
  · rw [bind_fault_apply h, bind_fault_apply hm.symm]
  · rw [bind_outOfFuel_apply h, bind_outOfFuel_apply hm.symm]

/-- Taking a note changes nothing but the notes. Whether it is taken at all is a matter of the
settings. -/
theorem exists_note (level : Level) (text : Unit → String) (c : Settings) (w : World) :
    ∃ notes, (note level text c w).2 = { w with notes } := by
  unfold note
  split
  · exact ⟨_, rfl⟩
  · exact ⟨w.notes, rfl⟩

/-- Taking a note does not keep from what comes next. -/
theorem note_bind_apply {α : Type} (level : Level) (text : Unit → String) (f : Unit → Run α)
    (c : Settings) (w : World) : (note level text >>= f) c w = f () c (note level text c w).2 := by
  refine bind_apply ?_
  unfold note
  split <;> rfl

/-- Whenever the scopes are `σ`, a run has a value that meets `Q` and leaves the scopes alone. The
rest of the world may change: a note is taken, or a random number drawn. -/
def Returns {α : Type} (σ : Scopes) (Q : α → Prop) (m : Run α) : Prop :=
  ∀ c w, w.scopes = σ → ∃ a, (m c w).1 = .value a ∧ Q a ∧ (m c w).2.scopes = σ

namespace Returns

variable {α β : Type} {σ : Scopes} {P Q : α → Prop} {R : β → Prop}

theorem pure {a : α} (h : Q a) : Returns σ Q (Pure.pure a) := fun _ _ hw => ⟨a, rfl, h, hw⟩

theorem bind {m : Run α} {f : α → Run β} (hm : Returns σ P m)
    (hf : ∀ a, P a → Returns σ R (f a)) : Returns σ R (m >>= f) := by
  intro c w hw
  obtain ⟨a, ha, hP, hσ⟩ := hm c w hw
  rw [bind_def]
  unfold Run.bind
  rcases hmc : m c w with ⟨o, w'⟩
  rw [hmc] at ha hσ
  cases ha
  exact hf a hP c w' hσ

theorem mono {m : Run α} (hm : Returns σ P m) (h : ∀ a, P a → Q a) : Returns σ Q m := by
  intro c w hw
  obtain ⟨a, ha, hP, hσ⟩ := hm c w hw
  exact ⟨a, ha, h a hP, hσ⟩

theorem note (level : Level) (text : Unit → String) :
    Returns σ (fun _ => True) (Run.note level text) := by
  intro c w hw
  unfold Run.note
  split <;> exact ⟨(), rfl, trivial, hw⟩

end Returns

end Run

/-- The value of a name, which for a name without a value is nothing or a random number. The draws
still to come are an argument, since the scopes do not tell what they are. -/
def Scopes.readAt (σ : Scopes) (s : ScopeId) (name : String) (draws : Nat → Nat) : Value :=
  (σ.get? s name).getD (if name == Run.randomName then Run.draw draws else .null)

/-- Whether reading a name draws a random number. -/
def Scopes.draws (σ : Scopes) (s : ScopeId) (name : String) : Bool :=
  (σ.get? s name).isNone && name == Run.randomName

/-- Only reading that draws a random number depends on what is drawn. All other names have the same
value whichever draws are to come. -/
theorem Scopes.readAt_eq_of_not_draws {σ : Scopes} {s : ScopeId} {name : String}
    (h : σ.draws s name = false) (draws draws' : Nat → Nat) :
    σ.readAt s name draws = σ.readAt s name draws' := by
  unfold Scopes.draws at h
  unfold Scopes.readAt
  cases hget : σ.get? s name with
  | some v => simp only [Option.getD_some]
  | none =>
    rw [hget] at h
    have hname : (name == Run.randomName) = false := by simpa using h
    simp only [hname, Bool.false_eq_true, if_false]

namespace Run

variable {s : ScopeId} {name : String} {c : Settings} {w : World}

/-- A name with a value is read without a change. -/
theorem read_of_get? {v : Value} (h : w.scopes.get? s name = some v) :
    read s name c w = (.value (some v), w) := by
  rw [read, bind_apply rfl, h]
  rfl

/-- So is one without a value, unless it is the name with random numbers. -/
theorem read_of_unbound (h : w.scopes.get? s name = none) (hname : name ≠ randomName) :
    read s name c w = (.value none, w) := by
  rw [read, bind_apply rfl, h]
  exact congrFun (congrFun (if_neg (by simpa using hname)) c) w

/-- Any other name has the value that it has in its scope. -/
theorem read_of_ne (hname : name ≠ randomName) :
    read s name c w = (.value (w.scopes.get? s name), w) := by
  cases hget : w.scopes.get? s name with
  | some v => exact read_of_get? hget
  | none => exact read_of_unbound hget hname

/-- The name with random numbers, without a value of its own, gives what is drawn next. Only one
draw is taken, and the scopes are not touched. -/
theorem exists_read_random (h : w.scopes.get? s randomName = none) :
    ∃ w', read s randomName c w = (.value (some (draw w.draws)), w') ∧ w'.scopes = w.scopes := by
  rw [read, bind_apply rfl, h]
  exact ⟨_, rfl, rfl⟩

/-- Reading a name gives its value for the draws still to come at that time. -/
theorem read_apply (s : ScopeId) (name : String) (c : Settings) (w : World) :
    ∃ v? w', read s name c w = (.value v?, w') ∧
      v?.getD .null = w.scopes.readAt s name w.draws ∧ w'.scopes = w.scopes := by
  unfold Scopes.readAt
  cases hget : w.scopes.get? s name with
  | some v => exact ⟨some v, w, read_of_get? hget, rfl, rfl⟩
  | none =>
    by_cases hname : name = randomName
    · subst hname
      obtain ⟨w', hread, hscopes⟩ := exists_read_random hget
      exact ⟨_, w', hread, by simp, hscopes⟩
    · exact ⟨none, w, read_of_unbound hget hname, by simp [hname], rfl⟩

end Run

end CommandLanguage
