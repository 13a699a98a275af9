import CommandLanguage.Scope.Basic

/-!
# The names bound in a scope

What each operation on scopes does to the names that are bound directly in one of them. The only
operation that can add a name to a scope is `define`, and `assign` when no scope binds the name
yet; both add it to the scope that they are given and to no other.
-/

namespace CommandLanguage

namespace Dictionary

variable {α : Type}

theorem contains_iff_mem_names {d : Dictionary α} {name : String} :
    d.contains name ↔ name ∈ d.names := by
  induction d with
  | nil => simp [contains, names]
  | cons e r ih =>
    obtain ⟨n, v⟩ := e
    simp only [contains, names] at ih
    by_cases h : name = n
    · simp [contains, names, h]
    · simp [contains, names, h, ih]

/-- Taking out a name adds none. -/
theorem names_erase_subset (name : String) (d : Dictionary α) : (d.erase name).names ⊆ d.names := by
  intro n hn
  obtain ⟨e, he, rfl⟩ := List.mem_map.1 hn
  exact List.mem_map.2 ⟨e, mem_of_mem_erase he, rfl⟩

end Dictionary

namespace Scopes

variable {σ : Scopes} {s t : ScopeId} {name : String}

theorem mem_names {n : String} : n ∈ σ.names t ↔ n ∈ (σ.bindings t).names := by
  simp [names]

/-! ## Changing a scope -/

theorem stored_modifyStored_self (f : Dictionary Stored → Dictionary Stored) (h : t < σ.size) :
    (σ.modifyStored t f).stored t = f (σ.stored t) := by
  simp [stored, modifyStored, Array.getElem?_modify, Array.getElem?_eq_getElem h]

theorem stored_modifyStored_ne (f : Dictionary Stored → Dictionary Stored) (h : s ≠ t) :
    (σ.modifyStored s f).stored t = σ.stored t := by
  simp [stored, modifyStored, Array.getElem?_modify, h]

theorem bindings_modifyStored_ne (f : Dictionary Stored → Dictionary Stored) (h : s ≠ t) :
    (σ.modifyStored s f).bindings t = σ.bindings t := by
  rw [bindings, stored_modifyStored_ne f h, bindings]

/-- Whatever is stored, it is bound as it was given. A function is stored without a hold on the
scope that it is stored in, and gets it back when it is handed out. -/
theorem bindings_define_self (name : String) (v : Value) (h : t < σ.size) :
    (σ.define t name v).bindings t = (σ.bindings t).insert name v := by
  rw [bindings, define, stored_modifyStored_self _ h, Dictionary.mapValues_insert,
    Stored.attach_detach, bindings]

theorem bindings_erase_self (name : String) (h : t < σ.size) :
    (σ.modifyStored t (·.erase name)).bindings t = (σ.bindings t).erase name := by
  rw [bindings, stored_modifyStored_self _ h, Dictionary.mapValues_erase, bindings]

/-- There is nothing in a scope that there is not. -/
theorem bindings_eq_nil (h : ¬t < σ.size) : σ.bindings t = [] := by
  have hnone : σ[t]? = none := by simpa using h
  rw [bindings, stored, hnone]
  rfl

/-- A scope that there is keeps its bindings when another one is made. -/
theorem bindings_extend (h : t < σ.size) : (σ.extend s).2.bindings t = σ.bindings t := by
  simp [bindings, stored, extend, Array.getElem?_push_lt h, Array.getElem?_eq_getElem h]

/-- What is bound in a scope whose stored values were changed. Of any other scope nothing has
changed, and of one that there is not, neither. -/
theorem mem_bindings_modifyStored {f : Dictionary Stored → Dictionary Stored} {e : String × Value}
    (h : e ∈ (σ.modifyStored s f).bindings t) :
    (s = t ∧ t < σ.size) ∨ e ∈ σ.bindings t := by
  by_cases ht : t < σ.size
  · by_cases hst : s = t
    · exact .inl ⟨hst, ht⟩
    · rw [bindings_modifyStored_ne f hst] at h
      exact .inr h
  · rw [bindings_eq_nil (by simpa using ht)] at h
    cases h

theorem mem_bindings_define {v : Value} {e : String × Value}
    (h : e ∈ (σ.define s name v).bindings t) : e = (name, v) ∨ e ∈ σ.bindings t := by
  rcases mem_bindings_modifyStored h with ⟨rfl, ht⟩ | h'
  · rw [bindings_define_self name v ht] at h
    exact Dictionary.mem_insert h
  · exact .inr h'

theorem mem_bindings_remove {e : String × Value} (h : e ∈ (σ.remove s name).2.bindings t) :
    e ∈ σ.bindings t := by
  unfold remove at h
  split at h
  · rcases mem_bindings_modifyStored h with ⟨rfl, ht⟩ | h'
    · rw [bindings_erase_self name ht] at h
      exact Dictionary.mem_of_mem_erase h
    · exact h'
  · exact h

/-- Nothing is bound in a scope that was just made. -/
theorem mem_bindings_extend {e : String × Value} (h : e ∈ (σ.extend s).2.bindings t) :
    e ∈ σ.bindings t := by
  simp only [bindings, stored, extend, Array.getElem?_push] at h
  split at h
  · cases h
  · exact h

theorem get?_eq_bind (σ : Scopes) (s : ScopeId) (name : String) :
    σ.get? s name = (σ.owner? name s).bind fun o => (σ.bindings o).get? name := by
  simp only [get?, get?_bindings]

/-- A value that is read is that of an entry. -/
theorem exists_mem_of_get? {v : Value} (h : σ.get? s name = some v) :
    ∃ o, (name, v) ∈ σ.bindings o := by
  rw [get?_eq_bind] at h
  obtain ⟨o, -, h⟩ := Option.bind_eq_some_iff.1 h
  exact ⟨o, Dictionary.mem_of_get? h⟩

/-- The owner of a name binds it. -/
theorem contains_of_owner? {o : ScopeId} (h : σ.owner? name s = some o) :
    (σ.bindings o).contains name = true := by
  fun_induction owner? σ name s with
  | case1 s hs =>
    cases h
    rwa [contains_bindings]
  | case2 s _ p _ _ ih => exact ih h
  | case3 => cases h
  | case4 => cases h

/-! ## Names -/

theorem names_subset_of_bindings {σ τ : Scopes} (h : τ.bindings t = σ.bindings t) :
    τ.names t ⊆ σ.names t := by
  intro n hn
  rw [mem_names, h] at hn
  exact mem_names.2 hn

/-- Changing a scope so that it loses names at most. -/
theorem names_modifyStored_subset {f : Dictionary Stored → Dictionary Stored}
    (hf : s = t → (f (σ.stored t)).names ⊆ (σ.stored t).names) (ht : t < σ.size) :
    (σ.modifyStored s f).names t ⊆ σ.names t := by
  by_cases h : s = t
  · subst h
    intro n hn
    rw [mem_names, names_bindings, stored_modifyStored_self f ht] at hn
    rw [mem_names, names_bindings]
    exact hf rfl hn
  · exact names_subset_of_bindings (bindings_modifyStored_ne f h)

/-- Binding a name in another scope, or one that is there already, adds no name. So only a name that
is new to a scope has to be watched. -/
theorem names_define_subset (v : Value) (ht : t < σ.size)
    (h : s = t → (σ.bindings t).contains name) : (σ.define s name v).names t ⊆ σ.names t := by
  refine names_modifyStored_subset (fun hst => ?_) ht
  have hname := Dictionary.contains_iff_mem_names.1 (h hst)
  rw [names_bindings] at hname
  rw [Dictionary.names_insert, if_pos hname]
  exact List.Subset.refl _

/-- Assigning adds a name to no other scope than the given one: in all others the name is bound
already if it is assigned to there. -/
theorem names_assign_subset (v : Value) (ht : t < σ.size) (h : s ≠ t) :
    (σ.assign s name v).names t ⊆ σ.names t := by
  refine names_define_subset v ht fun ho => ?_
  cases howner : σ.owner? name s with
  | none =>
    rw [howner] at ho
    exact absurd ho h
  | some o =>
    rw [howner] at ho
    rw [← show o = t from ho]
    exact contains_of_owner? howner

theorem names_remove_subset (s : ScopeId) (name : String) (ht : t < σ.size) :
    (σ.remove s name).2.names t ⊆ σ.names t := by
  unfold remove
  split
  · exact names_modifyStored_subset (fun _ => Dictionary.names_erase_subset name _) ht
  · exact List.Subset.refl _

/-- A new scope is none of those that there are. -/
theorem extend_ne (ht : t < σ.size) : (σ.extend s).1 ≠ t := Nat.ne_of_gt ht

theorem size_extend (s : ScopeId) : (σ.extend s).2.size = σ.size + 1 := Array.size_push _

end Scopes

end CommandLanguage
