import CommandLanguage.Proofs.Reference.Reading
import CommandLanguage.Proofs.Run.Ensures
import CommandLanguage.Proofs.Scope.Chain

/-!
# What expansion writes

Expanding a text assigns the words of references to names whose values are missing. The old value of
a name is looked at before its word is expanded and the word is assigned after that, and the word can
hold references that assign to the same name. What keeps this from overwriting a value is that
nothing else was assigned in between than what filled in missing values, too: `Scopes.Filled` is the
relation of the scopes before and after, and every run from the first look to the last assignment
stays in it.
-/

namespace CommandLanguage

/-- The scopes `τ` are the scopes `σ` with missing values filled in, of names that are looked up
from the scope `s`. Not only the values that are there are kept: which scope a name is found in is
kept as well, unless it was found in none. -/
structure Scopes.Filled (s : ScopeId) (σ τ : Scopes) : Prop where
  /-- there are the same scopes -/
  size : τ.size = σ.size
  /-- each scope has the same parent -/
  parent (t : ScopeId) : τ.parent? t = σ.parent? t
  /-- a value that is there and has a text with characters is still there -/
  kept {t : ScopeId} {name : String} {v : Value} : σ.bound? t name = some v → v.isNull = false →
    v.toText ≠ "" → τ.bound? t name = some v
  /-- no binding is taken away -/
  still {t : ScopeId} {name : String} : σ.binds name t = true → τ.binds name t = true
  /-- a binding that is new or has changed holds a text, and the name is looked up there from `s` -/
  changed {t : ScopeId} {name : String} {v : Value} : τ.bound? t name = some v →
    σ.bound? t name = some v ∨ t ∈ σ.chain s ∧ ∃ x, v = .text x
  /-- only `s` itself gains a name, and only one that could not be looked up from there -/
  gained {t : ScopeId} {name : String} : τ.binds name t = true →
    σ.binds name t = true ∨ t = s ∧ ∀ u ∈ σ.chain s, σ.binds name u = false

namespace Scopes

variable {s : ScopeId} {σ τ : Scopes} {name : String}

/-- Where nothing was assigned, nothing was filled in. -/
theorem Filled.refl (s : ScopeId) (σ : Scopes) : σ.Filled s σ where
  size := rfl
  parent _ := rfl
  kept h _ _ := h
  still h := h
  changed h := .inl h
  gained h := .inl h

namespace Filled

/-- A name has the same owner in both, or in the end the scope itself where it had none. So whoever
assigns to the name in the end writes where a value was missing in the beginning. -/
theorem getD_owner? (h : Filled s σ τ) (name : String) :
    (τ.owner? name s).getD s = (σ.owner? name s).getD s := by
  rw [owner?_eq, owner?_eq, chain_congr h.parent s]
  by_cases hnone : ∀ u ∈ σ.chain s, σ.binds name u = false
  · -- only the scope itself can bind the name now, and it comes first
    have hσ : (σ.chain s).find? (σ.binds name) = none :=
      List.find?_eq_none.2 fun u hu => by simp [hnone u hu]
    rw [hσ, Option.getD_none]
    cases hτ : (σ.chain s).find? (τ.binds name) with
    | none => rfl
    | some u =>
      have hu := List.mem_of_find?_eq_some hτ
      rcases h.gained (List.find?_some hτ) with hσu | ⟨rfl, -⟩
      · rw [hnone u hu] at hσu
        cases hσu
      · rfl
  · -- then nothing on the chain gained the name
    have hsame : ∀ u, τ.binds name u = σ.binds name u := by
      intro u
      refine Bool.eq_iff_iff.2 ⟨fun hu => ?_, h.still⟩
      rcases h.gained hu with hu | ⟨-, hu⟩
      · exact hu
      · exact absurd hu hnone
    rw [funext hsame]

/-- What is missing in the end was missing before. A value with a text is kept, so if there were one
it would be found in the end too. -/
theorem get?_of_missing (h : Filled s σ τ) (hmissing : ∀ v, τ.get? s name = some v →
    v.isNull = true ∨ v.toText = "") {v : Value} (hv : σ.get? s name = some v) :
    v.isNull = true ∨ v.toText = "" := by
  rw [get?_eq] at hv
  obtain ⟨o, ho, hbound⟩ := Option.bind_eq_some_iff.1 hv
  by_cases hpresent : v.isNull = false ∧ v.toText ≠ ""
  · have hτ : τ.owner? name s = some o := by
      have hgetD := h.getD_owner? name
      rw [ho, Option.getD_some] at hgetD
      cases hτ : τ.owner? name s with
      | some o' =>
        rw [hτ, Option.getD_some] at hgetD
        rw [hgetD]
      | none =>
        -- the old owner still binds the name
        obtain ⟨hmem, hbinds⟩ := binds_of_owner? ho
        rw [← chain_congr h.parent s] at hmem
        have hstill := h.still hbinds
        rw [owner?_eq_none_iff.1 hτ o hmem] at hstill
        cases hstill
    refine hmissing v ?_
    rw [get?_eq, hτ, Option.bind_some]
    exact h.kept hbound hpresent.1 hpresent.2
  · by_cases hnull : v.isNull = true
    · exact .inl hnull
    · refine .inr (Decidable.byContradiction fun htext => hpresent ⟨?_, htext⟩)
      exact Bool.eq_false_iff.2 hnull

/-- A text is assigned to a name whose value was missing before. The scopes before are those of the
beginning, and not those that the text is assigned in: in between other missing values may have been
filled in, the one of this name among them. -/
theorem assign (h : Filled s σ τ) (hmissing : ∀ v, σ.get? s name = some v →
    v.isNull = true ∨ v.toText = "") (x : String) : Filled s σ (τ.assign s name (.text x)) := by
  have hcases (t : ScopeId) (n : String) := bound?_assign_cases τ s name (.text x) t n
  have howner := h.getD_owner? name
  refine ⟨?_, fun t => ?_, ?_, ?_, ?_, ?_⟩
  · rw [size_assign, h.size]
  · rw [parent?_assign, h.parent]
  · intro t n v hv hnull htext
    rcases hcases t n with hsame | ⟨rfl, rfl, -⟩
    · rw [hsame]
      exact h.kept hv hnull htext
    · -- the value in the owner is the one that was missing
      rw [howner, ← get?_eq_bound?] at hv
      rcases hmissing v hv with hmissing | hmissing
      · rw [hmissing] at hnull
        cases hnull
      · exact absurd hmissing htext
  · intro t n ht
    rcases hcases t n with hsame | ⟨-, -, hnew⟩
    · rw [binds, hsame]
      exact h.still ht
    · rw [binds, hnew]
      rfl
  · intro t n v hv
    rcases hcases t n with hsame | ⟨rfl, rfl, hnew⟩
    · rw [hsame] at hv
      exact h.changed hv
    · rw [hnew] at hv
      cases hv
      rw [howner]
      exact .inr ⟨getD_owner?_mem_chain σ n s, x, rfl⟩
  · intro t n ht
    rcases hcases t n with hsame | ⟨rfl, rfl, -⟩
    · rw [binds, hsame] at ht
      exact h.gained ht
    · rw [howner]
      cases ho : σ.owner? n s with
      | some o => exact .inl (binds_of_owner? ho).2
      | none => exact .inr ⟨rfl, owner?_eq_none_iff.1 ho⟩

end Filled

end Scopes

namespace Reference

variable {α : Type} {s : ScopeId} {σ : Scopes} {name : String}

/-- A run from the scopes `σ`, or from what they became, to scopes where missing values of `σ` are
filled in. -/
abbrev Fills (s : ScopeId) (σ : Scopes) (Q : α → Prop) (m : Run α) : Prop :=
  Run.Keeps (σ.Filled s) (fun _ => True) Q m

/-- What holds of the runs that fill in missing values. -/
def filling (s : ScopeId) (σ : Scopes) : Reading where
  Keeps := Fills s σ
  keeps_pure h := .pure h
  keeps_bind hm hf := .bind hm hf
  keeps_fault _ := .fault trivial
  keeps_note := Run.Keeps.note
  keeps_engine := .engine
  keeps_read s _ :=
    have hread := Run.Keeps.read (s := s) (P := fun _ => True) (fun _ _ _ _ => trivial) fun _ => trivial
    hread.mono fun _ _ => trivial

/-- If the value that is read is missing, it was missing before. This is remembered while the word
of the reference is expanded, which may assign to the same name. -/
theorem fills_read (s : ScopeId) (σ : Scopes) (name : String) (emptyCounts : Bool) :
    Fills s σ (fun v? => isMissing emptyCounts v? = true → ∀ v, σ.get? s name = some v →
      v.isNull = true ∨ v.toText = "") (Run.read s name) := by
  refine .bind Run.Keeps.scopes fun τ hτ => ?_
  split
  · rename_i v hv
    refine .pure fun hmissing _ hold => hτ.get?_of_missing (fun u hu => ?_) hold
    rw [hv] at hu
    cases hu
    cases v <;> simp_all [isMissing, Value.isNull]
  · rename_i hnone
    have hold : ∀ v, σ.get? s name = some v → v.isNull = true ∨ v.toText = "" := fun _ hv =>
      hτ.get?_of_missing (fun u hu => by rw [hnone] at hu; cases hu) hv
    split
    · exact .bind Run.Keeps.random fun _ _ => .pure fun _ => hold
    · exact .pure fun _ => hold

/-- By induction on the fuel. All that writes is a reference with a word for a missing value, and it
assigns to the name that it has read before. -/
theorem fills_expandFrom (s : ScopeId) (σ : Scopes) (fuel : Nat) (text : List Char) :
    (filling s σ).Runs (expandFrom fuel s text) := by
  induction fuel generalizing text with
  | zero => exact .outOfFuel
  | succ fuel ih =>
    refine (filling s σ).runs_expandStep ih (fun name emptyCounts => ?_) text
    -- what is assigned was missing when it was read, and so from the beginning
    refine (filling s σ).runs_resolve_fallback ih (fills_read s σ name emptyCounts) ?_
    exact fun _ hv hmissing _ => Run.Keeps.modifyScopes fun τ hτ => hτ.assign (hv hmissing) _

/-- **Expansion only fills in missing values**, however it ends: a value with a text stays as it is,
no binding is taken away, what is new or changed is a text that is looked up from the given scope, and
no other scope gains a name. -/
theorem expand_filled (s : ScopeId) (text : List Char) (c : Settings) (w : World) :
    w.scopes.Filled s (expand s text c w).2.scopes ∧
      w.scopes.Filled s (expandWords s text c w).2.scopes := by
  have hexpand : (filling s w.scopes).Runs (expand s text) := fills_expandFrom s w.scopes _ text
  have hwords : (filling s w.scopes).Runs (expandWords s text) :=
    (filling s w.scopes).runs_expandWords hexpand
  exact ⟨(hexpand c w (.refl s w.scopes)).1, (hwords c w (.refl s w.scopes)).1⟩

end Reference

end CommandLanguage
