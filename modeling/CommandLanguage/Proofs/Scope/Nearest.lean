import CommandLanguage.Proofs.Scope.Chain

/-!
# Nearest bindings

Going outwards from a scope, its parents one after the other, a name is met in a nearest scope that
binds it (`Nearest`), or in none (`Unbound`). Neither says how a name is looked up. In scopes that form
a tree (`IsTree`) the lookup finds what they say: `owner?` is the nearest scope, and `get?` its value
(`get?_eq_some_iff`). A name that a scope does not bind itself has the value that it has in the parent
(`get?_eq_or`).
-/

namespace CommandLanguage.Scopes

variable {σ : Scopes} {name : String} {s t o p : ScopeId}

/-- Scope `o` is the nearest one, from `s` outwards, that binds the name. This is said by the tree
of scopes and their bindings alone, without any lookup. -/
inductive Nearest (σ : Scopes) (name : String) : (s o : ScopeId) → Prop
  /-- the scope itself binds it -/
  | here {s : ScopeId} (hs : σ.bound? s name ≠ none) : Nearest σ name s s
  /-- the scope does not bind it, and from its parent outwards `o` is the nearest one -/
  | outer {s p o : ScopeId} (hs : σ.bound? s name = none) (hp : σ.parent? s = some p)
      (ho : Nearest σ name p o) : Nearest σ name s o

/-- No scope, from `s` outwards, binds the name. It is a relation along parents, as `Nearest` is,
and does not speak of how scopes are searched. -/
inductive Unbound (σ : Scopes) (name : String) : (s : ScopeId) → Prop
  /-- a root that does not bind it -/
  | root {s : ScopeId} (hs : σ.bound? s name = none) (hp : σ.parent? s = none) : Unbound σ name s
  /-- a scope that does not bind it, in one from which outwards none does -/
  | child {s p : ScopeId} (hs : σ.bound? s name = none) (hp : σ.parent? s = some p)
      (hout : Unbound σ name p) : Unbound σ name s

/-- Scopes of which each is in an older one or a root, and binds a name at most once. The first is
why a lookup ends, and the second why a name that is removed is gone. -/
structure IsTree (σ : Scopes) : Prop where
  /-- a parent is older than its child -/
  older : ∀ {s p}, σ.parent? s = some p → p < s
  /-- the names bound directly in a scope are all different -/
  nodup : ∀ s, (σ.bindings s).names.Nodup

/-! ## One scope after the other

The scopes from a given one outwards are a list, and a lookup is a search in it. -/

theorem bound?_eq_none_iff :
    σ.bound? s name = none ↔ ¬(σ.stored s).contains name = true := by
  rw [← binds_eq, binds, Option.not_isSome_iff_eq_none]

/-- The nearest scope of a name binds it. -/
theorem Nearest.bound?_ne (h : Nearest σ name s o) : σ.bound? o name ≠ none := by
  induction h with
  | here hs => exact hs
  | outer _ _ _ ih => exact ih

theorem Unbound.bound?_eq (h : Unbound σ name s) : σ.bound? s name = none := by
  cases h with
  | root hs _ => exact hs
  | child hs _ _ => exact hs

/-- Of the scopes outwards, only one is the nearest that binds a name. So to write to it is to write
to one place. -/
theorem Nearest.unique (h : Nearest σ name s o) {o' : ScopeId} (h' : Nearest σ name s o') : o' = o := by
  induction h with
  | here hs =>
    cases h' with
    | here _ => rfl
    | outer hnone _ _ => exact absurd hnone hs
  | outer hnone hp _ ih =>
    cases h' with
    | here hs => exact absurd hnone hs
    | outer _ hp' ho' =>
      rw [hp] at hp'
      cases hp'
      exact ih ho'

theorem Unbound.not_nearest (h : Unbound σ name s) : ¬Nearest σ name s o := by
  intro ho
  induction ho with
  | here hs => exact hs h.bound?_eq
  | outer _ hp _ ih =>
    cases h with
    | root _ hp' =>
      rw [hp] at hp'
      cases hp'
    | child _ hp' hout =>
      rw [hp] at hp'
      cases hp'
      exact ih hout

/-! ## Lookups -/

theorem nearest_of_owner? (h : σ.owner? name s = some o) : Nearest σ name s o := by
  fun_induction owner? σ name s with
  | case1 s hs =>
    cases h
    exact .here fun hnone => bound?_eq_none_iff.1 hnone hs
  | case2 s hs p hp _ ih => exact .outer (bound?_eq_none_iff.2 hs) hp (ih h)
  | case3 => cases h
  | case4 => cases h

namespace IsTree

/-- A nearest scope is as old as the scope it is seen from, or older. -/
theorem le_of_nearest (hσ : σ.IsTree) (h : Nearest σ name s o) : o ≤ s := by
  induction h with
  | here _ => exact Nat.le_refl _
  | outer _ hp _ ih => exact Nat.le_of_lt (Nat.lt_of_le_of_lt ih (hσ.older hp))

theorem unbound_of_owner? (hσ : σ.IsTree) (h : σ.owner? name s = none) : Unbound σ name s := by
  fun_induction owner? σ name s with
  | case1 => cases h
  | case2 s hs p hp _ ih => exact .child (bound?_eq_none_iff.2 hs) hp (ih h)
  | case3 s _ p hp hlt => exact absurd (hσ.older hp) hlt
  | case4 s hs hp => exact .root (bound?_eq_none_iff.2 hs) hp

/-- A name is bound in a nearest scope or in none. The search goes by a list that is computed with
fuel, and the relation by parents; in a tree they come to the same. -/
theorem owner?_eq_some_iff (hσ : σ.IsTree) : σ.owner? name s = some o ↔ Nearest σ name s o := by
  refine ⟨nearest_of_owner?, fun h => ?_⟩
  cases howner : σ.owner? name s with
  | none => exact absurd h (hσ.unbound_of_owner? howner).not_nearest
  | some o' => rw [h.unique (nearest_of_owner? howner)]

theorem owner?_eq_none_iff (hσ : σ.IsTree) : σ.owner? name s = none ↔ Unbound σ name s := by
  refine ⟨hσ.unbound_of_owner?, fun h => ?_⟩
  cases howner : σ.owner? name s with
  | none => rfl
  | some o => exact absurd (nearest_of_owner? howner) h.not_nearest

/-- What is read is bound in the nearest scope. -/
theorem get?_eq_some_iff (hσ : σ.IsTree) {v : Value} :
    σ.get? s name = some v ↔ ∃ o, Nearest σ name s o ∧ σ.bound? o name = some v := by
  rw [get?_eq, Option.bind_eq_some_iff]
  simp only [hσ.owner?_eq_some_iff]

theorem get?_of_nearest (hσ : σ.IsTree) (h : Nearest σ name s o) : σ.get? s name = σ.bound? o name := by
  rw [get?_eq, hσ.owner?_eq_some_iff.2 h, Option.bind_some]

/-- A name has the value that it has in the scope itself, or else that in the parent. This is how a
lookup could be defined, if scopes were known to be a tree. -/
theorem get?_eq_or (hσ : σ.IsTree) (s : ScopeId) (name : String) :
    σ.get? s name = (σ.bound? s name).or ((σ.parent? s).bind fun p => σ.get? p name) := by
  cases hs : σ.bound? s name with
  | some v => rw [Option.some_or, get?_of_bound? hs]
  | none =>
    have howner : σ.owner? name s = (σ.parent? s).bind fun p => σ.owner? name p := by
      rw [owner?, if_neg (bound?_eq_none_iff.1 hs)]
      cases hp : σ.parent? s with
      | none => rfl
      | some p =>
        dsimp only
        rw [if_pos (hσ.older hp), Option.bind_some]
    rw [Option.none_or, get?_eq, howner, Option.bind_assoc]
    simp only [get?_eq]

end IsTree

end CommandLanguage.Scopes
