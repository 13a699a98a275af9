import CommandLanguage.Proofs.Dictionary
import CommandLanguage.Proofs.Scope.Names

/-!
# The chain of a scope

The scopes in which a name is looked up, the nearest first: the scope itself, its parent, and so on.
What owns a name is the first scope of the chain that binds it (`owner?_eq`), and assigning to a name
changes at most the binding of its owner (`bound?_assign_cases`).
-/

namespace CommandLanguage.Scopes

variable {σ : Scopes} {s t o : ScopeId} {name n : String} {v : Value}

/-- The value that a name has directly in a scope. -/
def bound? (σ : Scopes) (s : ScopeId) (name : String) : Option Value := (σ.bindings s).get? name

/-- Whether a name has a value directly in a scope. -/
def binds (σ : Scopes) (name : String) (s : ScopeId) : Bool := (σ.bound? s name).isSome

/-- The scopes in which a name is looked up, the nearest first. A parent is only followed if it is
older than its child, which it always is, so that the list comes to an end. -/
def chain (σ : Scopes) (s : ScopeId) : List ScopeId :=
  s :: match σ.parent? s with
    | some p => if p < s then chain σ p else []
    | none => []
  termination_by s

theorem mem_chain_self (σ : Scopes) (s : ScopeId) : s ∈ σ.chain s := by
  rw [chain]
  exact List.mem_cons_self

theorem binds_eq (σ : Scopes) (name : String) (s : ScopeId) :
    σ.binds name s = (σ.stored s).contains name := contains_bindings σ s name

/-- The owner of a name is the first scope of the chain that binds it. The lookup and the chain go
the same way outwards, step by step. -/
theorem owner?_eq (σ : Scopes) (name : String) (s : ScopeId) :
    σ.owner? name s = (σ.chain s).find? (σ.binds name) := by
  fun_induction owner? σ name s with
  | case1 s h =>
    rw [← binds_eq] at h
    rw [chain, List.find?_cons_of_pos h]
  | case2 s h p hp hlt ih =>
    rw [← binds_eq] at h
    rw [chain, List.find?_cons_of_neg h, hp]
    dsimp only
    rw [if_pos hlt, ih]
  | case3 s h p hp hlt =>
    rw [← binds_eq] at h
    rw [chain, List.find?_cons_of_neg h, hp]
    dsimp only
    rw [if_neg hlt, List.find?_nil]
  | case4 s h hp =>
    rw [← binds_eq] at h
    rw [chain, List.find?_cons_of_neg h, hp, List.find?_nil]

/-- The owner of a name is on the chain and binds it. -/
theorem binds_of_owner? (h : σ.owner? name s = some o) : o ∈ σ.chain s ∧ σ.binds name o = true := by
  rw [owner?_eq] at h
  exact ⟨List.mem_of_find?_eq_some h, List.find?_some h⟩

/-- What nothing on the chain binds has no owner. It is then assigned to in the scope that the
search began with. -/
theorem owner?_eq_none_iff : σ.owner? name s = none ↔ ∀ t ∈ σ.chain s, σ.binds name t = false := by
  simp only [owner?_eq, List.find?_eq_none, Bool.not_eq_true]

/-- A name is assigned to on the chain. Together with the owner this covers both cases of an
assignment, to a name that is bound and to one that is not. -/
theorem getD_owner?_mem_chain (σ : Scopes) (name : String) (s : ScopeId) :
    (σ.owner? name s).getD s ∈ σ.chain s := by
  cases ho : σ.owner? name s with
  | none => exact mem_chain_self σ s
  | some o => exact (binds_of_owner? ho).1

/-- The chain is made of parents. -/
theorem chain_congr {τ : Scopes} (h : ∀ t, τ.parent? t = σ.parent? t) (s : ScopeId) :
    τ.chain s = σ.chain s := by
  fun_induction chain σ s with
  | case1 s ih =>
    rw [chain, h s]
    congr 1
    split
    · rename_i p hp
      split
      · rename_i hlt
        exact ih p hlt
      · rfl
    · rfl

/-- The value of a name is that in its owner. -/
theorem get?_eq (σ : Scopes) (s : ScopeId) (name : String) :
    σ.get? s name = (σ.owner? name s).bind fun o => σ.bound? o name :=
  get?_eq_bind σ s name

/-- The value of a name is what is bound where the name is assigned to. -/
theorem get?_eq_bound? (σ : Scopes) (s : ScopeId) (name : String) :
    σ.get? s name = σ.bound? ((σ.owner? name s).getD s) name := by
  rw [get?_eq]
  cases ho : σ.owner? name s with
  | some o => rfl
  | none =>
    have hs := owner?_eq_none_iff.1 ho s (mem_chain_self σ s)
    rw [binds, Option.isSome_eq_false_iff, Option.isNone_iff_eq_none] at hs
    rw [Option.bind_none, Option.getD_none, hs]

/-- A scope is the owner of the names that have a value directly in it. -/
theorem get?_of_bound? (h : σ.bound? s name = some v) : σ.get? s name = some v := by
  have hbinds : (σ.stored s).contains name = true := by
    rw [← binds_eq, binds, h]
    rfl
  rw [get?_eq, owner?, if_pos hbinds]
  exact h

/-! ## Assigning -/

theorem parent?_modifyStored (f : Dictionary Stored → Dictionary Stored) :
    (σ.modifyStored s f).parent? t = σ.parent? t := by
  simp only [parent?, modifyStored, Array.getElem?_modify]
  split
  · cases σ[t]? <;> rfl
  · rfl

/-- Binding a name changes at most that binding. -/
theorem bound?_define_cases (σ : Scopes) (s : ScopeId) (name : String) (v : Value) (t : ScopeId)
    (n : String) : (σ.define s name v).bound? t n = σ.bound? t n ∨
      t = s ∧ n = name ∧ (σ.define s name v).bound? t n = some v := by
  by_cases hst : s = t
  · subst hst
    by_cases hs : s < σ.size
    · have hself : (σ.define s name v).bound? s n =
          if n == name then some v else σ.bound? s n := by
        rw [bound?, bindings_define_self name v hs, Dictionary.get?_insert, bound?]
      by_cases hn : n = name
      · exact .inr ⟨rfl, hn, by rw [hself, if_pos (beq_iff_eq.2 hn)]⟩
      · exact .inl (by rw [hself, if_neg (by simpa using hn)])
    · have hsize : ¬s < (σ.define s name v).size := by rwa [size_define]
      exact .inl (by rw [bound?, bindings_eq_nil hsize, bound?, bindings_eq_nil hs])
  · exact .inl (by rw [bound?, define, bindings_modifyStored_ne _ hst, bound?])

/-- Assigning to a name changes at most the binding in its owner, or in the given scope if the name
has no owner. All other bindings are the same, those of the same name further in or out included. -/
theorem bound?_assign_cases (σ : Scopes) (s : ScopeId) (name : String) (v : Value) (t : ScopeId)
    (n : String) : (σ.assign s name v).bound? t n = σ.bound? t n ∨
      t = (σ.owner? name s).getD s ∧ n = name ∧ (σ.assign s name v).bound? t n = some v :=
  bound?_define_cases σ _ name v t n

theorem parent?_assign (σ : Scopes) (s : ScopeId) (name : String) (v : Value) (t : ScopeId) :
    (σ.assign s name v).parent? t = σ.parent? t :=
  parent?_modifyStored _

/-! ## Assigning twice

An assignment does not change which scope a name is found in if it is found at all, and otherwise
makes the scope itself the one. Either way the next assignment to the name goes to the same
place. -/

theorem define_define (σ : Scopes) (s : ScopeId) (name : String) (u v : Value) :
    (σ.define s name u).define s name v = σ.define s name v := by
  apply Array.ext_getElem?
  intro t
  simp only [define, modifyStored, Array.getElem?_modify]
  split
  · cases σ[t]? with
    | none => rfl
    | some scope => simp only [Option.map_some, Dictionary.insert_insert]
  · rfl

/-- A name that is assigned to is owned by what it was assigned in. If it had an owner then that is
still the nearest, and otherwise the scope itself has become one. -/
theorem owner?_assign (σ : Scopes) (s : ScopeId) (name : String) (v : Value) :
    ((σ.assign s name v).owner? name s).getD s = (σ.owner? name s).getD s := by
  have hcases (t : ScopeId) := σ.bound?_assign_cases s name v t name
  have hchain := chain_congr (σ.parent?_assign s name v) s
  cases ho : σ.owner? name s with
  | some o =>
    -- the owner binds the name before and after, and nothing else is changed
    rw [ho, Option.getD_some] at hcases
    have hbinds : (σ.assign s name v).binds name = σ.binds name := by
      funext t
      rcases hcases t with h | ⟨rfl, -, h⟩
      · rw [binds, h, binds]
      · rw [binds, h, (binds_of_owner? ho).2]
        rfl
    rw [owner?_eq, hchain, hbinds, ← owner?_eq, ho]
  | none =>
    rw [ho, Option.getD_none] at hcases
    rw [owner?_eq, hchain]
    cases hfound : (σ.chain s).find? ((σ.assign s name v).binds name) with
    | none => rfl
    | some t =>
      rcases hcases t with h | ⟨rfl, -, -⟩
      · have hafter : (σ.assign s name v).binds name t = true := List.find?_some hfound
        have ht : σ.binds name t = true := by rwa [binds, h] at hafter
        rw [owner?_eq_none_iff.1 ho t (List.mem_of_find?_eq_some hfound)] at ht
        cases ht
      · rfl

/-- Of two values that are assigned to a name, the second stays. The first assignment has made the
owner the scope that the second one goes to. -/
theorem assign_assign (σ : Scopes) (s : ScopeId) (name : String) (u v : Value) :
    (σ.assign s name u).assign s name v = σ.assign s name v := by
  rw [assign, owner?_assign, assign, define_define, assign]

end CommandLanguage.Scopes
